import Mpio.Lib.Pool
import Mpio.Wavy.Loop.Step

/-!
# Polling and waking up

The threads of the loop are a pool of leader and followers: the thread that has set `m_pollable` to
false leads, the threads in `m_cond.wait` wait. `step_pool` is the simulation, every step of the loop is
a step of the pool (or `run_once` gives up polling after a timeout, `Resign`). It uses that `m_off`
equals `m_num` while somebody polls (`Backlog`).

* `reachable_led`: at most one thread is between setting `m_pollable` to false and setting it back.
* `reachable_covered`: with two workers or more and no `run_once`, queued work has an active worker.
* `reachable_handed`: what the kernel has reported and no thread has taken yet is in the backlog, in
  its order.
-/

namespace Mpio.Wavy.Loop

open Lib

variable {N : ℕ} {s s' : State} {a : Action}

/-! ## The pool -/

def Pc.mode : Pc → Mode
  | .waiting => .waiting
  | .polling | .polled _ | .timedOut => .leading
  | .exited => .gone
  | _ => .active

/-- Something is queued. -/
def State.Work (s : State) : Prop :=
  0 < s.tasks ∨ s.more ≠ [] ∨ 0 < s.outQueue ∨ s.off < s.num

def State.pool (s : State) : Pool where
  mode t := (s.pc t).mode
  free := s.pollable
  work := s.Work
  ending := s.endFlag
  ended := s.ended

theorem mode_waiting {p : Pc} : p.mode = .waiting ↔ p = .waiting := by
  cases p <;> simp [Pc.mode]

@[simp] theorem mode_back (k : Kind) : k.back.mode = .active := by
  cases k <;> rfl

@[simp] theorem mode_entry (ke : Event) : ke.entry.mode = .active := by
  unfold Event.entry
  split_ifs <;> rfl

theorem State.Entering.mode {t : ℕ} (h : s.Entering t) : (s.pc t).mode = .active := by
  obtain h | ⟨h, -⟩ := h <;> rw [h] <;> rfl

theorem mode_queue {t : ℕ} (h : s.Entering t ∨ s.pc t = .nbQueue) :
    (s.pc t).mode = .active := by
  obtain h | h := h
  · exact h.mode
  · rw [h]
    rfl

theorem mode_setPc (s : State) (t : ℕ) (p : Pc) :
    (fun u => ((s.setPc t p).pc u).mode) = Function.update (fun u => (s.pc u).mode) t p.mode := by
  funext u
  by_cases h : u = t
  · subst h
    simp
  · rw [pc_setPc_of_ne h, Function.update_of_ne h]

theorem Signalled.wakes (h : Signalled N s s') : Pool.Wakes N s.pool.mode s'.pool.mode := by
  obtain ⟨rfl, hno⟩ | ⟨t, htN, ht, rfl⟩ := h.cases
  · exact .nobody rfl fun u hu hw => hno u hu (mode_waiting.mp hw)
  · refine .one t htN ?_ (mode_setPc s t .woken)
    show (s.pc t).mode = .waiting
    rw [ht]
    rfl

/-- A step that leaves the queues and the threads alone. -/
theorem pool_congr (hq : s'.toQueues = s.toQueues) (ht : s'.threads = s.threads) :
    s'.pool = s.pool := by
  have hpc : s'.pc = s.pc := by
    funext u
    simp only [State.pc, ht]
  simp only [State.pool, State.Work, hq, hpc]

theorem pool_idle (hq : s'.toQueues = s.toQueues) (ht : s'.threads = s.threads) :
    Pool.Step N s.pool s'.pool := by
  rw [pool_congr hq ht]
  exact .idle rfl rfl id rfl rfl

theorem pool_busy {t : ℕ} (htN : t < N) (ht : (s.pc t).mode = .active)
    (ht' : (s'.pc t).mode = .active) (hpc : ∀ u, u ≠ t → s'.pc u = s.pc u)
    (hf : s'.pollable = s.pollable) (he : s'.endFlag = s.endFlag) (hd : s'.ended = s.ended) :
    Pool.Step N s.pool s'.pool := by
  refine .busy t htN ht (.inl ?_) hf he hd
  funext u
  show (s'.pc u).mode = (s.pc u).mode
  by_cases hu : u = t
  · rw [hu, ht, ht']
  · rw [hpc u hu]

theorem pool_busy_signal {t : ℕ} {p : Pc} {s₀ s₁ : State} (htN : t < N)
    (hs : Signalled N s₀ s₁) (ht : (s.pc t).mode = .active) (hp : p.mode = .active)
    (h₀ : s₀.threads = s.threads) (hf : s₀.pollable = s.pollable) (he : s₀.endFlag = s.endFlag)
    (hd : s₀.ended = s.ended) : Pool.Step N s.pool (s₁.setPc t p).pool := by
  have hpc : s₀.pc = s.pc := by
    funext u
    simp only [State.pc, h₀]
  have hmode : (s₁.setPc t p).pool.mode = s₁.pool.mode := by
    have hkeep : (s₁.pc t).mode = .active := by
      rw [hs.pc_of_ne, hpc, ht]
      rw [hpc]
      intro hw
      rw [hw] at ht
      cases ht
    rw [show (s₁.setPc t p).pool.mode = _ from mode_setPc s₁ t p, hp, ← hkeep]
    exact Function.update_eq_self t _
  have hq := hs.toQueues
  have hwakes := hs.wakes
  rw [show s₀.pool.mode = s.pool.mode by simp only [State.pool, hpc]] at hwakes
  refine .busy t htN ht (.inr (hmode ▸ hwakes)) ?_ ?_ ?_
  · show s₁.pollable = s.pollable
    rw [hq, hf]
  · show s₁.endFlag = s.endFlag
    rw [hq, he]
  · show s₁.ended = s.ended
    rw [hq, hd]

/-! ## The backlog while somebody polls -/

/-- The indexes into the backlog. -/
structure Backlog (s : State) : Prop where
  le : s.off ≤ s.num
  polling : s.pollable = false → s.off = s.num
  polled : ∀ t evs, s.pc t = .polled evs → evs ≠ []

theorem Backlog.init (kinds : ℕ → Kind) : Backlog (.init kinds) where
  le := Nat.le_refl 0
  polling h := by cases h
  polled t evs h := by
    change (kinds t).back = .polled evs at h
    cases hk : kinds t <;> rw [hk] at h <;> cases h

/-- The queues stay, and no thread returns from `m_kernel.wait`. -/
theorem Backlog.frame (hi : Backlog s) (hq : s'.toQueues = s.toQueues)
    (hpc : ∀ t evs, s'.pc t = .polled evs → s.pc t = .polled evs) : Backlog s' where
  le := by simpa only [hq] using hi.le
  polling := by simpa only [hq] using hi.polling
  polled t evs h := hi.polled t evs (hpc t evs h)

theorem setPc_polled {t u : ℕ} {p : Pc} {evs : List Event} (hp : ∀ evs, p ≠ .polled evs)
    (h : (s.setPc t p).pc u = .polled evs) : s.pc u = .polled evs := by
  by_cases hu : u = t
  · subst hu
    rw [pc_setPc_self] at h
    exact absurd h (hp evs)
  · rwa [pc_setPc_of_ne hu] at h

theorem back_ne_polled (k : Kind) (evs : List Event) : k.back ≠ .polled evs := by
  cases k <;> exact Pc.noConfusion

theorem entry_ne_polled (ke : Event) (evs : List Event) : ke.entry ≠ .polled evs := by
  unfold Event.entry
  split_ifs <;> exact Pc.noConfusion

theorem Signalled.polled (h : Signalled N s s') {u : ℕ} {evs : List Event}
    (hu : s'.pc u = .polled evs) : s.pc u = .polled evs := by
  obtain hpc | ⟨-, hw⟩ := h.pc u
  · rwa [← hpc]
  · rw [hw] at hu
    cases hu

theorem Backlog.locked {t : ℕ} (hi : Backlog s) (h : Locked N s t s') : Backlog s' := by
  cases h with
  | leave ht he =>
    refine hi.frame rfl fun u evs => setPc_polled fun evs => ?_
    cases (s.threads t).kind <;> exact Pc.noConfusion
  | waited ht hk => exact hi.frame rfl fun u evs => setPc_polled fun _ => Pc.noConfusion
  | moreEvent ht he hm =>
    exact ⟨hi.le, hi.polling, fun u evs h => hi.polled u evs (setPc_polled (entry_ne_polled _) h)⟩
  | outEvent ht ho =>
    exact ⟨hi.le, hi.polling, fun u evs h =>
      hi.polled u evs (setPc_polled (fun _ => Pc.noConfusion) h)⟩
  | lastTask ht hn =>
    exact ⟨hi.le, hi.polling, fun u evs h =>
      hi.polled u evs (setPc_polled (fun _ => Pc.noConfusion) h)⟩
  | task ht hn hs =>
    have hq := hs.toQueues
    refine ⟨by simpa [hq] using hi.le, by simpa [hq] using hi.polling, fun u evs h => ?_⟩
    exact hi.polled u evs (hs.polled (setPc_polled (fun _ => Pc.noConfusion) h))
  | wait ht he hm hp ho hn => exact hi.frame rfl fun u evs => setPc_polled fun _ => Pc.noConfusion
  | idle ht => exact hi.frame rfl fun u evs => setPc_polled fun _ => Pc.noConfusion
  | poll ht he hm hp hn =>
    exact ⟨hi.le, fun _ => hn.symm, fun u evs h =>
      hi.polled u evs (setPc_polled (fun _ => Pc.noConfusion) h)⟩
  | backlogEvent ht he hp hn hb =>
    refine ⟨?_, fun hp' => ?_, fun u evs h => hi.polled u evs (setPc_polled (entry_ne_polled _) h)⟩
    · have := hi.le
      show s.off + 1 ≤ s.num
      omega
    · change s.pollable = false at hp'
      rw [hp] at hp'
      cases hp'
  | @relock evs s₁ ke n ht hs hb =>
    have hq := hs.toQueues
    have hne := hi.polled t evs ht
    refine ⟨?_, fun hp' => ?_, fun u evs' h => ?_⟩
    · show 1 ≤ s₁.num
      rw [hq]
      exact List.length_pos_of_ne_nil hne
    · change s₁.pollable = false at hp'
      rw [hq] at hp'
      cases hp'
    · exact hi.polled u evs' (hs.polled (setPc_polled (entry_ne_polled _) h))
  | retryPoll ht hk => exact hi.frame rfl fun u evs => setPc_polled fun _ => Pc.noConfusion
  | endPoll ht hk he =>
    exact ⟨hi.le, (fun h => by cases h), fun u evs h =>
      hi.polled u evs (setPc_polled (fun _ => Pc.noConfusion) h)⟩
  | resign ht hk hp =>
    refine ⟨hi.le, (fun h => by cases h), fun u evs h => hi.polled u evs (setPc_polled ?_ h)⟩
    obtain rfl | rfl := hp <;> exact fun _ => Pc.noConfusion
  | @done last ht =>
    cases last
    · exact hi.frame rfl fun u evs => setPc_polled (back_ne_polled _)
    · exact hi.frame rfl fun u evs => setPc_polled fun _ => Pc.noConfusion
  | flushed ht => exact hi.frame rfl fun u evs => setPc_polled (back_ne_polled _)

theorem Dispatches.mode {t : ℕ} (h : Dispatches N s t a s') :
    (s.pc t).mode = .active ∧ (s'.pc t).mode = .active := by
  cases h with
  | rearmOut ht | rearm ht | reset ht => exact ⟨by rw [ht]; rfl, by simp [State.back]⟩
  | finish ht hf => exact ⟨by rw [ht]; rfl, by simp [State.back]⟩
  | dispatch ht hh | dispatchEmpty ht hh => exact ⟨by rw [ht]; rfl, by simp [Pc.mode]⟩
  | evReset ht | drop ht => exact ⟨by rw [ht]; rfl, by simp [Pc.mode]⟩
  | next ht hf | evRemove ht hf => exact ⟨by rw [ht]; rfl, by simp [Pc.mode]⟩
  | finishRearm ht hf | finishDrop ht hf => exact ⟨by rw [ht]; rfl, by simp [Pc.mode]⟩

theorem Dispatches.polled {t u : ℕ} {evs : List Event} (h : Dispatches N s t a s')
    (hu : s'.pc u = .polled evs) : s.pc u = .polled evs := by
  by_cases hut : u = t
  · subst hut
    have hmode := h.mode.2
    rw [hu] at hmode
    cases hmode
  · rwa [h.pc_of_ne hut] at hu

theorem Backlog.step (hi : Backlog s) (h : Step N s a s') : Backlog s' := by
  cases h with
  | locked htN h => exact hi.locked h
  | dispatches htN h => exact hi.frame h.toQueues fun u evs => h.polled
  | @call t block htN hk ht =>
    refine hi.frame rfl fun u evs h => ?_
    by_cases hu : u = t
    · subst hu
      simp at h
    · simpa [Function.update_of_ne hu] using h
  | wakeup htN ht => exact hi.frame rfl fun u evs => setPc_polled fun _ => Pc.noConfusion
  | @waitReturns t idents htN ht hne hnodup harmed =>
    refine ⟨hi.le, hi.polling, fun u evs h => ?_⟩
    by_cases hu : u = t
    · subst hu
      rw [pc_setPc_self] at h
      obtain rfl := Pc.polled.inj h
      simpa using hne
    · rw [pc_setPc_of_ne hu] at h
      exact hi.polled u evs h
  | timeout htN ht => exact hi.frame rfl fun u evs => setPc_polled fun _ => Pc.noConfusion
  | @outDone t empty htN ht =>
    cases empty
    · exact hi.frame rfl fun u evs => setPc_polled (back_ne_polled _)
    · exact hi.frame rfl fun u evs => setPc_polled fun _ => Pc.noConfusion
  | more htN ht hf hs =>
    have hq := hs.toQueues
    refine ⟨by simpa [hq] using hi.le, by simpa [hq] using hi.polling, fun u evs h => ?_⟩
    exact hi.polled u evs (hs.polled (setPc_polled (fun _ => Pc.noConfusion) h))
  | submit hs =>
    have hq := hs.toQueues
    refine ⟨by simpa [hq] using hi.le, by simpa [hq] using hi.polling, fun u evs h => ?_⟩
    exact hi.polled u evs (hs.polled h)
  | endBegin => exact ⟨hi.le, hi.polling, hi.polled⟩
  | endReturn he =>
    refine ⟨hi.le, hi.polling, fun u evs h => hi.polled u evs ?_⟩
    change (if s.pc u = .waiting then Pc.woken else s.pc u) = .polled evs at h
    split_ifs at h
    exact h
  | registers h => exact hi.frame h.toQueues fun u evs hu => by rwa [h.pc] at hu

theorem reachable_backlog {kinds : ℕ → Kind} {P : State → Action → Prop}
    (h : (loopSystem N kinds).Reachable P s) : Backlog s :=
  h.invariant (fun _ hs => hs ▸ .init kinds) fun _ _ _ _ hi _ hs => hi.step (step_cases hs)

/-! ## The simulation -/

theorem locked_pool {t : ℕ} (hi : Backlog s) (htN : t < N) (h : Locked N s t s') :
    Pool.Step N s.pool s'.pool ∨
      Pool.Resign N s.pool s'.pool ∧ (s.threads t).kind ≠ .main := by
  cases h with
  | leave ht he =>
    left
    cases hk : (s.threads t).kind with
    | main => exact .retire t htN he (.inl ⟨ht.mode, rfl⟩) (mode_setPc s t _) rfl rfl
    | once block =>
      exact pool_busy htN ht.mode (by simp [Kind.leave, Pc.mode])
        (fun u hu => pc_setPc_of_ne hu s _) rfl rfl rfl
  | waited ht hk =>
    exact .inl (pool_busy htN (by rw [ht]; rfl) (by simp [Pc.mode])
      (fun u hu => pc_setPc_of_ne hu s _) rfl rfl rfl)
  | moreEvent ht he hm =>
    exact .inl (pool_busy htN ht.mode (by simp) (fun u hu => pc_setPc_of_ne hu _ _) rfl rfl rfl)
  | outEvent ht ho =>
    exact .inl (pool_busy htN (mode_queue ht) (by simp [Pc.mode])
      (fun u hu => pc_setPc_of_ne hu _ _) rfl rfl rfl)
  | lastTask ht hn =>
    exact .inl (pool_busy htN (mode_queue ht) (by simp [Pc.mode])
      (fun u hu => pc_setPc_of_ne hu _ _) rfl rfl rfl)
  | task ht hn hs =>
    exact .inl (pool_busy_signal htN hs (mode_queue ht) rfl rfl rfl rfl rfl)
  | wait ht he hm hp ho hn =>
    have hoff := hi.polling hp
    have hidle : ¬ s.Work := by
      rintro (h | h | h | h)
      · omega
      · exact h hm
      · omega
      · omega
    exact .inl (.wait t htN ht.mode hp hidle he (mode_setPc s t _) rfl id rfl rfl)
  | idle ht =>
    have hmode : (s.pc t).mode = .active := mode_queue (ht.imp_left And.left)
    exact .inl (pool_busy htN hmode (by simp [Pc.mode]) (fun u hu => pc_setPc_of_ne hu s _)
      rfl rfl rfl)
  | poll ht he hm hp hn =>
    exact .inl (.lead t htN ht.mode hp (mode_setPc _ t _) rfl rfl rfl)
  | backlogEvent ht he hp hn hb =>
    exact .inl (pool_busy htN ht.mode (by simp) (fun u hu => pc_setPc_of_ne hu _ _) rfl rfl rfl)
  | @relock evs s₁ ke n ht hs hb =>
    have hq := hs.toQueues
    refine .inl (.handOver t htN ?_ hs.wakes ?_ ?_ ?_ ?_)
    · show (s.pc t).mode = .leading
      rw [ht]
      rfl
    · rw [← mode_entry ke]
      exact mode_setPc _ t _
    · show s₁.pollable = true
      rw [hq]
    · show s₁.endFlag = s.endFlag
      rw [hq]
    · show s₁.ended = s.ended
      rw [hq]
  | retryPoll ht hk =>
    refine .inl (.idle ?_ rfl id rfl rfl)
    refine (mode_setPc s t .polling).trans ?_
    exact Function.update_eq_self_iff.mpr (by rw [ht]; rfl)
  | endPoll ht hk he =>
    exact .inl (.retire t htN he (.inr ⟨by show (s.pc t).mode = _; rw [ht]; rfl, rfl⟩)
      (mode_setPc _ t _) rfl rfl)
  | @resign p ht hk hp =>
    refine .inr ⟨⟨⟨t, htN, by show (s.pc t).mode = _; rw [ht]; rfl, ?_⟩, rfl⟩, hk⟩
    have hmode : p.mode = .active := by
      obtain rfl | rfl := hp <;> rfl
    rw [← hmode]
    exact mode_setPc _ t p
  | @done last ht =>
    cases last
    · exact .inl (pool_busy htN (by rw [ht]; rfl) (by simp [State.back])
        (fun u hu => pc_setPc_of_ne hu s _) rfl rfl rfl)
    · exact .inl (pool_busy htN (by rw [ht]; rfl) (by simp [Pc.mode])
        (fun u hu => pc_setPc_of_ne hu s _) rfl rfl rfl)
  | flushed ht =>
    exact .inl (pool_busy htN (by rw [ht]; rfl) (by simp [State.back])
      (fun u hu => pc_setPc_of_ne hu s _) rfl rfl rfl)

/-- Every step of the loop is a step of the pool, or a `run_once` gives up polling. -/
theorem step_pool (hi : Backlog s) (h : Step N s a s') :
    Pool.Step N s.pool s'.pool ∨
      Pool.Resign N s.pool s'.pool ∧ ∃ t < N, (s.threads t).kind ≠ .main := by
  cases h with
  | @locked t _ _ _ htN h => exact (locked_pool hi htN h).imp_right fun hr => ⟨hr.1, t, htN, hr.2⟩
  | dispatches htN h =>
    have hq := h.toQueues
    exact .inl (pool_busy htN h.mode.1 h.mode.2 (fun u hu => h.pc_of_ne hu) (by rw [hq]) (by rw [hq])
      (by rw [hq]))
  | @call t block htN hk ht =>
    refine .inl (pool_busy htN (by rw [ht]; rfl) (by simp [Pc.mode]) (fun u hu => ?_) rfl rfl rfl)
    simp [Function.update_of_ne hu]
  | wakeup htN ht =>
    exact .inl (.wake _ htN (by show (s.pc _).mode = _; rw [ht]; rfl) (mode_setPc s _ _) rfl rfl rfl)
  | @waitReturns t idents htN ht hne hnodup harmed =>
    refine .inl (.idle ?_ rfl id rfl rfl)
    refine (mode_setPc (s.report idents) t (.polled _)).trans ?_
    exact Function.update_eq_self_iff.mpr (by show _ = (s.pc t).mode; rw [ht]; rfl)
  | @timeout t htN ht =>
    refine .inl (.idle ?_ rfl id rfl rfl)
    refine (mode_setPc s t .timedOut).trans ?_
    exact Function.update_eq_self_iff.mpr (by rw [ht]; rfl)
  | @outDone t empty htN ht =>
    cases empty
    · exact .inl (pool_busy htN (by rw [ht]; rfl) (by simp [State.back])
        (fun u hu => pc_setPc_of_ne hu s _) rfl rfl rfl)
    · exact .inl (pool_busy htN (by rw [ht]; rfl) (by simp [Pc.mode])
        (fun u hu => pc_setPc_of_ne hu s _) rfl rfl rfl)
  | more htN ht hf hs =>
    exact .inl (pool_busy_signal htN hs (by rw [ht]; rfl) rfl rfl rfl rfl rfl)
  | submit hs =>
    have hq := hs.toQueues
    refine .inl (.submit hs.wakes ?_ ?_ ?_)
    · show s'.pollable = s.pollable
      rw [hq]
    · show s'.endFlag = s.endFlag
      rw [hq]
    · show s'.ended = s.ended
      rw [hq]
  | endBegin => exact .inl (.close rfl rfl rfl rfl)
  | endReturn he =>
    refine .inl (.broadcast he (fun t => ?_) rfl rfl)
    show (if s.pc t = .waiting then Pc.woken else s.pc t).mode =
      if (s.pc t).mode = .waiting then .active else (s.pc t).mode
    by_cases hw : s.pc t = .waiting
    · rw [if_pos hw, if_pos (mode_waiting.mpr hw)]
      rfl
    · rw [if_neg hw, if_neg fun hm => hw (mode_waiting.mp hm)]
  | registers h => exact .inl (pool_idle h.toQueues h.threads)

/-! ## One poller, and no lost wakeup -/

variable {kinds : ℕ → Kind} {P : State → Action → Prop}

theorem init_mode (kinds : ℕ → Kind) (t : ℕ) : (State.init kinds).pool.mode t = .active :=
  mode_back (kinds t)

theorem reachable_led (h : (loopSystem N kinds).Reachable P s) : s.pool.Led N := by
  refine h.invariant (I := fun s => s.pool.Led N) ?_ ?_
  · rintro _ rfl
    have hno : ∀ t, (State.init kinds).pool.mode t ≠ .leading := fun t => by
      rw [init_mode]
      decide
    exact ⟨fun _ t _ => hno t, fun t _ _ _ ht => absurd ht (hno t)⟩
  · intro s a s' hr hl _ hs
    obtain hstep | ⟨hresign, -⟩ := step_pool (reachable_backlog hr) (step_cases hs)
    · exact hl.step hstep
    · exact hl.resign hresign

/-- All threads execute `thread_main`. -/
def Workers (s : State) : Prop :=
  ∀ t, (s.threads t).kind = .main ∧ s.pc t ≠ .outside ∧ s.pc t ≠ .nbQueue

theorem Workers.frame (hi : Workers s) (hk : ∀ u, (s'.threads u).kind = (s.threads u).kind)
    (hpc : ∀ u, s'.pc u = s.pc u ∨ s'.pc u ≠ .outside ∧ s'.pc u ≠ .nbQueue) : Workers s' := by
  intro u
  refine ⟨(hk u).trans (hi u).1, ?_⟩
  obtain h | h := hpc u
  · rw [h]
    exact (hi u).2
  · exact h

theorem Workers.setPc {t : ℕ} {p : Pc} (hi : Workers s) (h₁ : p ≠ .outside) (h₂ : p ≠ .nbQueue) :
    Workers (s.setPc t p) := by
  refine hi.frame (fun u => kind_setPc s t u p) fun u => ?_
  by_cases hu : u = t
  · subst hu
    rw [pc_setPc_self]
    exact .inr ⟨h₁, h₂⟩
  · exact .inl (pc_setPc_of_ne hu s p)

theorem Workers.back {t : ℕ} (hi : Workers s) : Workers (s.back t) := by
  have hk : (s.threads t).kind.back = .start := by rw [(hi t).1]; rfl
  unfold State.back
  rw [hk]
  exact hi.setPc Pc.noConfusion Pc.noConfusion

theorem Signalled.workers (h : Signalled N s s') (hi : Workers s) : Workers s' := by
  refine hi.frame h.kind fun u => (h.pc u).imp_right fun hw => ?_
  rw [hw.2]
  exact ⟨Pc.noConfusion, Pc.noConfusion⟩

theorem Workers.entry {t : ℕ} {ke : Event} (hi : Workers s) : Workers (s.setPc t ke.entry) := by
  unfold Event.entry
  split_ifs <;> exact hi.setPc Pc.noConfusion Pc.noConfusion

theorem Workers.locked {t : ℕ} (hi : Workers s) (h : Locked N s t s') : Workers s' := by
  cases h with
  | leave ht he =>
    rw [(hi t).1]
    exact hi.setPc Pc.noConfusion Pc.noConfusion
  | waited ht hk => exact absurd (hi t).1 hk
  | moreEvent ht he hm => exact Workers.entry hi
  | outEvent ht ho => exact Workers.setPc hi Pc.noConfusion Pc.noConfusion
  | lastTask ht hn => exact Workers.setPc hi Pc.noConfusion Pc.noConfusion
  | task ht hn hs => exact (hs.workers hi).setPc Pc.noConfusion Pc.noConfusion
  | wait ht he hm hp ho hn => exact hi.setPc Pc.noConfusion Pc.noConfusion
  | idle ht =>
    obtain ⟨-, hk⟩ | ht := ht
    · exact absurd (hi t).1 hk
    · exact absurd ht (hi t).2.2
  | poll ht he hm hp hn => exact Workers.setPc hi Pc.noConfusion Pc.noConfusion
  | backlogEvent ht he hp hn hb => exact Workers.entry hi
  | relock ht hs hb => exact Workers.entry (hs.workers hi)
  | retryPoll ht hk => exact hi.setPc Pc.noConfusion Pc.noConfusion
  | endPoll ht hk he => exact Workers.setPc hi Pc.noConfusion Pc.noConfusion
  | resign ht hk hp => exact absurd (hi t).1 hk
  | @done last ht =>
    cases last
    · exact hi.back
    · exact hi.setPc Pc.noConfusion Pc.noConfusion
  | flushed ht => exact hi.back

theorem Workers.step (hi : Workers s) (h : Step N s a s') : Workers s' := by
  cases h with
  | locked htN h => exact hi.locked h
  | @dispatches t _ _ htN h =>
    refine hi.frame h.kind fun u => ?_
    by_cases hu : u = t
    · subst hu
      refine .inr ?_
      have hback : (s.threads u).kind.back = .start := by rw [(hi u).1]; rfl
      cases h <;> simp [State.back, State.stop, hback]
    · exact .inl (h.pc_of_ne hu)
  | call htN hk ht => exact absurd (hi _).1 hk
  | wakeup htN ht => exact hi.setPc Pc.noConfusion Pc.noConfusion
  | waitReturns htN ht hne hnodup harmed =>
    exact Workers.setPc hi Pc.noConfusion Pc.noConfusion
  | timeout htN ht => exact hi.setPc Pc.noConfusion Pc.noConfusion
  | @outDone t empty htN ht =>
    cases empty
    · exact hi.back
    · exact hi.setPc Pc.noConfusion Pc.noConfusion
  | more htN ht hf hs => exact (hs.workers hi).setPc Pc.noConfusion Pc.noConfusion
  | submit hs => exact hs.workers hi
  | endBegin => exact hi
  | endReturn he =>
    refine hi.frame (fun _ => rfl) fun u => ?_
    change (if s.pc u = .waiting then Pc.woken else s.pc u) = _ ∨ _
    split_ifs with hw
    · refine .inr ?_
      change (if s.pc u = .waiting then Pc.woken else s.pc u) ≠ _ ∧
        (if s.pc u = .waiting then Pc.woken else s.pc u) ≠ _
      rw [if_pos hw]
      exact ⟨Pc.noConfusion, Pc.noConfusion⟩
    · exact .inl rfl
  | registers h => exact hi.frame (fun u => by rw [h.threads]) fun u => .inl (h.pc u)

theorem reachable_workers (h : (loopSystem N fun _ => .main).Reachable P s) : Workers s := by
  refine h.invariant ?_ fun _ _ _ _ hi _ hs => hi.step (step_cases hs)
  rintro _ rfl
  exact fun t => ⟨rfl, Pc.noConfusion, Pc.noConfusion⟩

theorem reachable_covered (hN : 2 ≤ N) (h : (loopSystem N fun _ => .main).Reachable P s) :
    s.pool.Covered N := by
  refine h.invariant (I := fun s => s.pool.Covered N) ?_ ?_
  · rintro _ rfl
    have hmode := init_mode fun _ => .main
    refine ⟨fun _ t _ => ?_, fun _ _ => ⟨0, by omega, 1, by omega, by decide, ?_, ?_⟩, ?_, ?_⟩
    · rw [hmode]
      decide
    · rw [hmode]
      decide
    · rw [hmode]
      decide
    · intro _ hfree
      cases hfree
    · intro hended
      cases hended
  · intro s a s' hr hc _ hs
    obtain hstep | ⟨-, t, -, hk⟩ := step_pool (reachable_backlog hr) (step_cases hs)
    · exact hc.step hN (reachable_led hr) hstep
    · exact absurd (reachable_workers hr t).1 hk

/-- No wakeup is lost: queued work has a worker that is neither blocked nor polling, and after `end()`
nobody is blocked. -/
theorem work_attended (hN : 2 ≤ N)
    (h : (loopSystem N fun _ => .main).Reachable (fun _ _ => True) s) :
    (s.endFlag = false → (0 < s.tasks ∨ s.more ≠ [] ∨ 0 < s.outQueue ∨ s.off < s.num) →
      ∃ t < N, s.pc t ≠ .waiting ∧ s.pc t ≠ .polling ∧ s.pc t ≠ .timedOut ∧ s.pc t ≠ .exited ∧
        s.pc t ≠ .outside) ∧
    (s.ended = true → ∀ t < N, s.pc t ≠ .waiting) := by
  have hc := reachable_covered hN h
  refine ⟨fun hend hw => ?_, fun hended t ht hwait => ?_⟩
  · obtain ⟨t, htN, ht⟩ := hc.attended (reachable_led h) hend hw
    change (s.pc t).mode = .active at ht
    refine ⟨t, htN, ?_, ?_, ?_, ?_, (reachable_workers h t).2.1⟩
    all_goals
      intro hp
      rw [hp] at ht
      cases ht
  · exact (hc.awake hended).2 t ht (mode_waiting.mpr hwait)

/-- Worker 0 polls, worker 1 waits, and a task is submitted. -/
theorem work_attended_submit : ∃ s,
    (loopSystem 2 fun _ => .main).Reachable (fun _ _ => True) s ∧ s.tasks = 1 ∧ s.pc 0 = .polling ∧
      ∃ t < 2, s.pc t ≠ .waiting ∧ s.pc t ≠ .polling := by
  obtain ⟨s, hs, hq⟩ := System.exists_reachable_of_exec (S := loopSystem 2 fun _ => .main)
    (P := fun _ _ => True) (s := .init fun _ => .main)
    [.run 0 none 0, .run 1 none 0, .submit (some 1)]
    (fun s => s.endFlag == false && s.tasks == 1 && s.pc 0 == .polling) rfl (by decide)
  simp only [Bool.and_eq_true, beq_iff_eq] at hq
  obtain ⟨⟨hend, htasks⟩, hpc⟩ := hq
  obtain ⟨t, htN, ht₁, ht₂, -⟩ := (work_attended (by decide) hs).1 hend (.inl (by omega))
  exact ⟨s, hs, htasks, hpc, t, htN, ht₁, ht₂⟩

/-! ## What the kernel has reported -/

/-- What has been reported and not taken: the events a thread brings back from `m_kernel.wait`, or the
rest of the backlog. -/
structure Handed (N : ℕ) (s : State) : Prop where
  polled : ∀ t < N, ∀ evs, s.pc t = .polled evs → s.backlog = evs ∧ s.reported = s.taken ++ evs
  rest : (∀ t < N, ∀ evs, s.pc t ≠ .polled evs) →
    s.num = s.backlog.length ∧ s.reported = s.taken ++ s.backlog.drop s.off

theorem Handed.frame (hi : Handed N s) (hn : s'.num = s.num) (ho : s'.off = s.off)
    (hb : s'.backlog = s.backlog) (hr : s'.reported = s.reported) (ht : s'.taken = s.taken)
    (hpc : ∀ t evs, s'.pc t = .polled evs ↔ s.pc t = .polled evs) : Handed N s' where
  polled t htN evs h := by
    rw [hb, hr, ht]
    exact hi.polled t htN evs ((hpc t evs).mp h)
  rest h := by
    rw [hn, ho, hb, hr, ht]
    exact hi.rest fun t htN evs hp => h t htN evs ((hpc t evs).mpr hp)

theorem polled_iff {t u : ℕ} {evs : List Event} (ht : ∀ evs, s.pc t ≠ .polled evs)
    (ht' : ∀ evs, s'.pc t ≠ .polled evs) (hpc : ∀ u, u ≠ t → s'.pc u = s.pc u) :
    s'.pc u = .polled evs ↔ s.pc u = .polled evs := by
  by_cases hu : u = t
  · subst hu
    exact ⟨fun h => absurd h (ht' evs), fun h => absurd h (ht evs)⟩
  · rw [hpc u hu]

theorem not_polled {p : Pc} (h : p.mode = .active) (evs : List Event) : p ≠ .polled evs := by
  rintro rfl
  cases h

theorem Signalled.polled_iff (h : Signalled N s s') (u : ℕ) (evs : List Event) :
    s'.pc u = .polled evs ↔ s.pc u = .polled evs := by
  refine ⟨h.polled, fun hu => ?_⟩
  rw [h.pc_of_ne (by rw [hu]; exact Pc.noConfusion), hu]

theorem setPc_polled_iff {t : ℕ} {p : Pc} (ht : ∀ evs, s.pc t ≠ .polled evs)
    (hp : ∀ evs, p ≠ .polled evs) (u : ℕ) (evs : List Event) :
    (s.setPc t p).pc u = .polled evs ↔ s.pc u = .polled evs := by
  refine polled_iff ht (fun evs => ?_) fun u hu => pc_setPc_of_ne hu s p
  rw [pc_setPc_self]
  exact hp evs

theorem Signalled.setPc_polled_iff {t : ℕ} {p : Pc} {s₀ : State} (hs : Signalled N s₀ s')
    (h₀ : s₀.threads = s.threads) (ht : (s.pc t).mode = .active) (hp : ∀ evs, p ≠ .polled evs)
    (u : ℕ) (evs : List Event) : (s'.setPc t p).pc u = .polled evs ↔ s.pc u = .polled evs := by
  have hpc : ∀ u, s₀.pc u = s.pc u := fun u => by simp only [State.pc, h₀]
  rw [Loop.setPc_polled_iff (fun evs h => ?_) hp, hs.polled_iff u evs, hpc u]
  rw [hs.polled_iff t evs, hpc t] at h
  exact not_polled ht evs h

theorem timedOut_not_polled {t : ℕ} (ht : s.pc t = .timedOut) (evs : List Event) :
    s.pc t ≠ .polled evs := by
  rw [ht]
  exact Pc.noConfusion

/-- While somebody polls `m_pollable` is false. -/
theorem pollable_of_leading {t : ℕ} (hl : s.pool.Led N) (htN : t < N)
    (ht : (s.pc t).mode = .leading) : s.pollable = false := by
  by_contra hp
  have hfree : s.pollable = true := by simpa using hp
  exact hl.free hfree t htN ht

theorem eq_of_polled {t u : ℕ} {evs : List Event} (hl : s.pool.Led N) (htN : t < N)
    (ht : (s.pc t).mode = .leading) (huN : u < N) (hu : s.pc u = .polled evs) : u = t := by
  apply hl.unique u huN t htN _ ht
  show (s.pc u).mode = .leading
  rw [hu]
  rfl

theorem not_polled_of_pollable {u : ℕ} (hl : s.pool.Led N) (hp : s.pollable = true) (huN : u < N)
    (evs : List Event) : s.pc u ≠ .polled evs := by
  intro hu
  apply hl.free hp u huN
  show (s.pc u).mode = .leading
  rw [hu]
  rfl

theorem Handed.cons {t : ℕ} {evs : List Event} {ke : Event} (hi : Handed N s) (htN : t < N)
    (ht : s.pc t = .polled evs) (hb : s.backlog[0]? = some ke) : evs = ke :: evs.drop 1 := by
  rw [(hi.polled t htN evs ht).1] at hb
  cases evs with
  | nil => cases hb
  | cons e rest => simpa using hb

theorem Handed.locked {t : ℕ} (hi : Handed N s) (hl : s.pool.Led N) (htN : t < N)
    (h : Locked N s t s') : Handed N s' := by
  have hact {p : Pc} (ht : (s.pc t).mode = .active) (hp : ∀ evs, p ≠ .polled evs) :
      ∀ u evs, (s.setPc t p).pc u = .polled evs ↔ s.pc u = .polled evs :=
    setPc_polled_iff (not_polled ht) hp
  cases h with
  | leave ht he =>
    refine hi.frame rfl rfl rfl rfl rfl (hact ht.mode fun evs => ?_)
    cases (s.threads t).kind <;> exact Pc.noConfusion
  | waited ht hk =>
    exact hi.frame rfl rfl rfl rfl rfl (hact (by rw [ht]; rfl) fun _ => Pc.noConfusion)
  | moreEvent ht he hm => exact hi.frame rfl rfl rfl rfl rfl (hact ht.mode (entry_ne_polled _))
  | outEvent ht ho | lastTask ht hn =>
    exact hi.frame rfl rfl rfl rfl rfl (hact (mode_queue ht) fun _ => Pc.noConfusion)
  | @task s₁ ht hn hs =>
    have hq := hs.toQueues
    refine hi.frame ?_ ?_ ?_ ?_ ?_ (hs.setPc_polled_iff rfl (mode_queue ht) fun _ => Pc.noConfusion)
    iterate 5 simp [hq]
  | wait ht he hm hp ho hn =>
    exact hi.frame rfl rfl rfl rfl rfl (hact ht.mode fun _ => Pc.noConfusion)
  | idle ht =>
    have hmode : (s.pc t).mode = .active := mode_queue (ht.imp_left And.left)
    exact hi.frame rfl rfl rfl rfl rfl (hact hmode fun _ => Pc.noConfusion)
  | poll ht he hm hp hn =>
    exact hi.frame rfl rfl rfl rfl rfl (hact ht.mode fun _ => Pc.noConfusion)
  | @backlogEvent ke n ht he hp hn hb =>
    -- somebody may poll, so nobody does: the event is the next one of the backlog
    have hno : ∀ u < N, ∀ evs, s.pc u ≠ .polled evs := fun u hu =>
      not_polled_of_pollable hl hp hu
    obtain ⟨hnum, hrep⟩ := hi.rest hno
    have hdrop : s.backlog.drop s.off = ke :: s.backlog.drop (s.off + 1) := by
      obtain ⟨hlt, hget⟩ := List.getElem?_eq_some_iff.mp hb
      rw [List.drop_eq_getElem_cons hlt, hget]
    refine ⟨fun u hu evs h => ?_, fun _ => ⟨hnum, ?_⟩⟩
    · exact absurd ((hact ht.mode (entry_ne_polled _) u evs).mp h) (hno u hu evs)
    · show s.reported = s.taken ++ [ke] ++ s.backlog.drop (s.off + 1)
      rw [hrep, hdrop]
      simp
  | @relock evs s₁ ke n ht hs hb =>
    obtain ⟨hbacklog, hrep⟩ := hi.polled t htN evs ht
    have hq := hs.toQueues
    have hno : ∀ u < N, ∀ evs', (s₁.setPc t ke.entry).pc u ≠ .polled evs' := by
      intro u hu evs' hpoll
      have hold : s.pc u = .polled evs' := hs.polled (setPc_polled (entry_ne_polled _) hpoll)
      have hut : u = t := eq_of_polled hl htN (by rw [ht]; rfl) hu hold
      rw [hut, pc_setPc_self] at hpoll
      exact entry_ne_polled _ _ hpoll
    have hcons := hi.cons htN ht hb
    refine ⟨fun u hu evs' h => absurd h (hno u hu evs'), fun _ => ⟨?_, ?_⟩⟩
    · show s₁.num = s₁.backlog.length
      simp [hq, hbacklog]
    · show s₁.reported = s.taken ++ [ke] ++ s₁.backlog.drop 1
      simp only [hq, hbacklog, hrep, List.append_assoc]
      rw [List.singleton_append, ← hcons]
  | retryPoll ht hk =>
    exact hi.frame rfl rfl rfl rfl rfl
      (setPc_polled_iff (timedOut_not_polled ht) fun _ => Pc.noConfusion)
  | endPoll ht hk he =>
    exact hi.frame rfl rfl rfl rfl rfl
      (setPc_polled_iff (timedOut_not_polled ht) fun _ => Pc.noConfusion)
  | resign ht hk hp =>
    refine hi.frame rfl rfl rfl rfl rfl (setPc_polled_iff (timedOut_not_polled ht) ?_)
    obtain rfl | rfl := hp <;> exact fun _ => Pc.noConfusion
  | @done last ht =>
    have hmode : (s.pc t).mode = .active := by rw [ht]; rfl
    cases last
    · exact hi.frame rfl rfl rfl rfl rfl (hact hmode (back_ne_polled _))
    · exact hi.frame rfl rfl rfl rfl rfl (hact hmode fun _ => Pc.noConfusion)
  | flushed ht =>
    exact hi.frame rfl rfl rfl rfl rfl (hact (by rw [ht]; rfl) (back_ne_polled _))

theorem Handed.waitReturns {t : ℕ} {idents : List ℕ} (hi : Handed N s) (hb : Backlog s)
    (hl : s.pool.Led N) (htN : t < N) (ht : s.pc t = .polling) :
    Handed N ((s.report idents).setPc t (.polled (idents.map (s.eventOf ·)))) := by
  have hlead : (s.pc t).mode = .leading := by rw [ht]; rfl
  have hno : ∀ u < N, ∀ evs, s.pc u ≠ .polled evs := by
    intro u hu evs hpoll
    rw [eq_of_polled hl htN hlead hu hpoll, ht] at hpoll
    cases hpoll
  have hclosed := pollable_of_leading hl htN hlead
  obtain ⟨hnum, hrep⟩ := hi.rest hno
  have htaken : s.reported = s.taken := by
    rw [hrep, hb.polling hclosed, hnum, List.drop_length, List.append_nil]
  refine ⟨fun u hu evs h => ?_, fun h => ?_⟩
  · by_cases hut : u = t
    · rw [hut, pc_setPc_self] at h
      obtain rfl := Pc.polled.inj h
      refine ⟨rfl, ?_⟩
      show s.reported ++ _ = s.taken ++ _
      rw [htaken]
    · rw [pc_setPc_of_ne hut] at h
      exact absurd h (hno u hu evs)
  · exact absurd (pc_setPc_self _ t _) (h t htN _)

theorem Handed.step (hi : Handed N s) (hb : Backlog s) (hl : s.pool.Led N) (h : Step N s a s') :
    Handed N s' := by
  cases h with
  | locked htN h => exact hi.locked hl htN h
  | dispatches htN h =>
    have hq := h.toQueues
    refine hi.frame ?_ ?_ ?_ ?_ ?_ fun u evs => ?_
    iterate 5 rw [hq]
    exact polled_iff (not_polled h.mode.1) (not_polled h.mode.2) fun u hu => h.pc_of_ne hu
  | @call t block htN hk ht =>
    have hmode : (s.pc t).mode = .active := by rw [ht]; rfl
    refine hi.frame rfl rfl rfl rfl rfl fun u evs =>
      polled_iff (not_polled hmode) (fun evs => ?_) fun u hu => ?_
    · simp
    · simp [Function.update_of_ne hu]
  | wakeup htN ht =>
    refine hi.frame rfl rfl rfl rfl rfl (setPc_polled_iff (fun evs => ?_) fun _ => Pc.noConfusion)
    rw [ht]
    exact Pc.noConfusion
  | waitReturns htN ht hne hnodup harmed => exact hi.waitReturns hb hl htN ht
  | timeout htN ht =>
    refine hi.frame rfl rfl rfl rfl rfl (setPc_polled_iff (fun evs => ?_) fun _ => Pc.noConfusion)
    rw [ht]
    exact Pc.noConfusion
  | @outDone t empty htN ht =>
    have hmode : (s.pc t).mode = .active := by rw [ht]; rfl
    cases empty
    · exact hi.frame rfl rfl rfl rfl rfl (setPc_polled_iff (not_polled hmode) (back_ne_polled _))
    · exact hi.frame rfl rfl rfl rfl rfl
        (setPc_polled_iff (not_polled hmode) fun _ => Pc.noConfusion)
  | @more t wake ke h flags s₁ htN ht hf hs =>
    have hq := hs.toQueues
    have hmode : (s.pc t).mode = .active := by rw [ht]; rfl
    refine hi.frame ?_ ?_ ?_ ?_ ?_ (hs.setPc_polled_iff rfl hmode fun _ => Pc.noConfusion)
    iterate 5 simp [hq]
  | submit hs =>
    have hq := hs.toQueues
    refine hi.frame ?_ ?_ ?_ ?_ ?_ hs.polled_iff
    iterate 5 simp [hq]
  | endBegin => exact hi.frame rfl rfl rfl rfl rfl fun _ _ => Iff.rfl
  | endReturn he =>
    refine hi.frame rfl rfl rfl rfl rfl fun u evs => ?_
    show (if s.pc u = .waiting then Pc.woken else s.pc u) = .polled evs ↔ _
    split_ifs with hw
    · simp [hw]
    · rfl
  | registers h =>
    have hq := h.toQueues
    refine hi.frame ?_ ?_ ?_ ?_ ?_ fun u evs => by rw [h.pc]
    iterate 5 rw [hq]

theorem reachable_handed (h : (loopSystem N kinds).Reachable P s) : Handed N s := by
  refine h.invariant ?_ fun s a s' hr hi _ hs =>
    hi.step (reachable_backlog hr) (reachable_led hr) (step_cases hs)
  rintro _ rfl
  refine ⟨fun t _ evs h => ?_, fun _ => ⟨rfl, rfl⟩⟩
  exact absurd h (back_ne_polled (kinds t) evs)

end Mpio.Wavy.Loop
