import Mpio.Wavy.Loop.Poll

/-!
# After `end()`

`end` sets `m_end_flag` and wakes everybody who waits on `m_cond`. From its return on nobody waits there
again (`Ended`), and a thread that comes to `retry_task` leaves. What a thread may still do before it
comes there is bounded by `Pc.rank`: it finishes the task, the write event or the dispatch it is at, or
comes back from `m_kernel.wait` and makes one more dispatch. Every step of a thread lowers its rank and
leaves the other threads where they are (`run_rank`, `Dispatches.rank`), so that all workers exit and
`join` returns, however the threads are scheduled (`workers_exit`).
-/

namespace Mpio.Wavy.Loop

open Lib

variable {N : ℕ} {s s' : State} {a : Action} {kinds : ℕ → Kind} {P : State → Action → Prop}

/-! ## Nobody waits -/

/-- `end()` has returned. -/
structure Ended (s : State) : Prop where
  endFlag : s.endFlag = true
  awake : ∀ t, s.pc t ≠ .waiting

theorem Signalled.eq_of_awake (h : Signalled N s s') (ha : ∀ t, s.pc t ≠ .waiting) : s' = s := by
  obtain ⟨wake, h⟩ := h
  cases wake with
  | none =>
    simp only [signal, Option.ite_none_right_eq_some, Option.some.injEq] at h
    exact h.2.symm
  | some t =>
    simp only [signal, Option.ite_none_right_eq_some] at h
    exact absurd h.1.2 (ha t)

theorem signal_of_awake (N : ℕ) (ha : ∀ t, s.pc t ≠ .waiting) : signal N none s = some s := by
  simp only [signal]
  rw [if_pos fun t _ => ha t]

theorem Ended.setPc (h : Ended s) {t : ℕ} {p : Pc} (hp : p ≠ .waiting) : Ended (s.setPc t p) := by
  refine ⟨h.endFlag, fun u => ?_⟩
  rw [pc_setPc]
  split_ifs
  · exact hp
  · exact h.awake u

theorem Ended.frame (h : Ended s) (hq : s'.toQueues = s.toQueues) (hpc : ∀ u, s'.pc u = s.pc u) :
    Ended s' :=
  ⟨by rw [hq]; exact h.endFlag, fun u => by rw [hpc]; exact h.awake u⟩

theorem back_ne_waiting (k : Kind) : k.back ≠ .waiting := by
  cases k <;> exact Pc.noConfusion

theorem entry_ne_waiting (ke : Event) : ke.entry ≠ .waiting := by
  unfold Event.entry
  split_ifs <;> exact Pc.noConfusion

theorem Ended.locked (h : Ended s) {t : ℕ} (hl : Locked N s t s') : Ended s' := by
  have hflag := h.endFlag
  cases hl with
  | leave ht he =>
    refine h.setPc ?_
    cases (s.threads t).kind <;> exact Pc.noConfusion
  | waited | idle | retryPoll => exact h.setPc Pc.noConfusion
  | moreEvent ht he | wait ht he | poll ht he | backlogEvent ht he =>
    rw [hflag] at he
    cases he
  | outEvent ht ho =>
    have h' : Ended { s with outQueue := s.outQueue - 1 } := ⟨hflag, h.awake⟩
    exact h'.setPc Pc.noConfusion
  | lastTask ht hn =>
    have h' : Ended { s with tasks := 0 } := ⟨hflag, h.awake⟩
    exact h'.setPc Pc.noConfusion
  | task ht hn hs =>
    have h' : Ended { s with tasks := s.tasks - 1 } := ⟨hflag, h.awake⟩
    rw [hs.eq_of_awake h'.awake]
    exact h'.setPc Pc.noConfusion
  | @relock evs s₁ ke n ht hs hb =>
    have h' : Ended { s with off := 0, num := evs.length, pollable := true } := ⟨hflag, h.awake⟩
    rw [hs.eq_of_awake h'.awake]
    have h'' : Ended { s with
        num := evs.length, pollable := true, off := 1, taken := s.taken ++ [ke], outQueue := n } :=
      ⟨hflag, h.awake⟩
    exact h''.setPc (entry_ne_waiting ke)
  | endPoll ht hk he =>
    have h' : Ended { s with pollable := true } := ⟨hflag, h.awake⟩
    exact h'.setPc Pc.noConfusion
  | resign ht hk hp =>
    have h' : Ended { s with pollable := true } := ⟨hflag, h.awake⟩
    obtain rfl | rfl := hp <;> exact h'.setPc Pc.noConfusion
  | @done last ht =>
    cases last
    · exact h.setPc (back_ne_waiting _)
    · exact h.setPc Pc.noConfusion
  | flushed ht => exact h.setPc (back_ne_waiting _)

theorem Ended.step (h : Ended s) (hs : Step N s a s') : Ended s' := by
  cases hs with
  | locked htN hl => exact h.locked hl
  | @dispatches t _ _ htN hd =>
    refine ⟨by rw [hd.toQueues]; exact h.endFlag, fun u hu => ?_⟩
    by_cases hut : u = t
    · subst hut
      have hmode := hd.mode.2
      rw [hu] at hmode
      cases hmode
    · exact h.awake u (hd.pc_of_ne hut ▸ hu)
  | @call t block htN hk ht =>
    refine ⟨h.endFlag, fun u hu => ?_⟩
    by_cases hut : u = t
    · subst hut
      simp at hu
    · exact h.awake u (by simpa [Function.update_of_ne hut] using hu)
  | wakeup htN ht => exact absurd ht (h.awake _)
  | @waitReturns t idents htN ht hne hnodup harmed =>
    have h' : Ended (s.report idents) := ⟨h.endFlag, h.awake⟩
    exact h'.setPc Pc.noConfusion
  | timeout htN ht => exact h.setPc Pc.noConfusion
  | @outDone t empty htN ht =>
    cases empty
    · exact h.setPc (back_ne_waiting _)
    · exact h.setPc Pc.noConfusion
  | @more t wake ke h' flags s₁ htN ht hf hs =>
    have h' : Ended { s with more := s.more ++ [ke] } := ⟨h.endFlag, h.awake⟩
    rw [hs.eq_of_awake h'.awake]
    exact h'.setPc Pc.noConfusion
  | submit hs =>
    have h' : Ended { s with tasks := s.tasks + 1 } := ⟨h.endFlag, h.awake⟩
    rw [hs.eq_of_awake h'.awake]
    exact h'
  | endBegin => exact ⟨rfl, h.awake⟩
  | endReturn he =>
    refine ⟨h.endFlag, fun u hu => ?_⟩
    change (if s.pc u = .waiting then Pc.woken else s.pc u) = .waiting at hu
    rw [if_neg (h.awake u)] at hu
    exact h.awake u hu
  | registers hr => exact h.frame hr.toQueues hr.pc

theorem Ended.endReturn (he : s.endFlag = true) : Ended { broadcast s with ended := true } := by
  refine ⟨he, fun u hu => ?_⟩
  change (if s.pc u = .waiting then Pc.woken else s.pc u) = .waiting at hu
  split_ifs at hu with hw
  exact hw hu

/-- What the steps do to `ended`. -/
theorem ended_step (h : Step N s a s') :
    s'.ended = s.ended ∨ s.endFlag = true ∧ s' = { broadcast s with ended := true } := by
  cases h with
  | endReturn he => exact .inr ⟨he, rfl⟩
  | dispatches htN hd => exact .inl (by rw [hd.toQueues])
  | registers hr => exact .inl (by rw [hr.toQueues])
  | submit hs | more htN ht hf hs => exact .inl (by simp [hs.toQueues])
  | @outDone t empty htN ht => cases empty <;> exact .inl rfl
  | call | wakeup | waitReturns | timeout | endBegin => exact .inl rfl
  | locked htN hl =>
    refine .inl ?_
    cases hl with
    | task ht hn hs | relock ht hs hb => simp [hs.toQueues]
    | @done last ht => cases last <;> rfl
    | _ => rfl

theorem reachable_ended (h : (loopSystem N kinds).Reachable P s) (hended : s.ended = true) : Ended s := by
  refine h.invariant (I := fun s => s.ended = true → Ended s) ?_ ?_ hended
  · rintro _ rfl hended
    cases hended
  · intro s a s' _ hi _ hs hended'
    have hstep := step_cases hs
    obtain hended | ⟨he, rfl⟩ := ended_step hstep
    · exact (hi (hended ▸ hended')).step hstep
    · exact .endReturn he

/-! ## What is left to do -/

/-- How many steps a thread may still make once `m_end_flag` is set. -/
def Pc.rank : Pc → ℕ
  | .exited | .outside => 0
  | .start | .woken => 1
  | .flush | .rearmOut _ | .rearm .. | .reset .. => 2
  | .task _ | .outEvent | .drop .. => 3
  | .nbQueue => 4
  | .timedOut => 5
  -- a handler may call `more` or `next` once and `remove` once, which takes two steps
  | .running _ _ flags => 4 + (if flags.reactivated then 0 else 1) + (if flags.removed then 0 else 2)
  | .evReset _ _ flags => 5 + (if flags.reactivated then 0 else 1)
  | .dispatch _ => 8
  | .polled _ => 9
  | .polling => 10
  | .waiting => 11

theorem rank_back (k : Kind) : k.back.rank ≤ 1 := by
  cases k <;> simp [Kind.back, Pc.rank]

theorem rank_entry (ke : Event) : ke.entry.rank ≤ 8 := by
  unfold Event.entry
  split_ifs <;> simp [Pc.rank]

/-- Thread `t` comes closer to its end, and the others stay where they are. -/
def Lowers (t : ℕ) (s s' : State) : Prop :=
  (s'.pc t).rank < (s.pc t).rank ∧ ∀ u, u ≠ t → s'.pc u = s.pc u

theorem Lowers.setPc {s₁ : State} (hpc : ∀ u, s₁.pc u = s.pc u) {t : ℕ} {p : Pc}
    (hp : p.rank < (s.pc t).rank) : Lowers t s (s₁.setPc t p) :=
  ⟨by rwa [pc_setPc_self], fun u hu => (pc_setPc_of_ne hu s₁ p).trans (hpc u)⟩

theorem Dispatches.rank {t : ℕ} (h : Dispatches N s t a s') : Lowers t s s' := by
  refine ⟨?_, fun u hu => h.pc_of_ne hu⟩
  have hback := rank_back (s.threads t).kind
  cases h with
  | rearmOut ht | rearm ht | reset ht =>
    simp only [State.back, settle_pc, settle?_pc, pc_setPc_self, resetHandler_threads, reactivate_threads]
    exact hback.trans_lt (by rw [ht]; exact Nat.lt_succ_self 1)
  | dispatch ht hh | dispatchEmpty ht hh | drop ht => simp [ht, Pc.rank]
  | evReset ht => simp [ht, Pc.rank]
  | next ht hf => simp [ht, hf, Pc.rank]
  | evRemove ht hf =>
    rw [ht, pc_setPc_self]
    simp only [Pc.rank, hf, if_false, Bool.false_eq_true]
    omega
  | finish ht hf =>
    simp only [State.back, State.stop, settle_pc, pc_setPc_self]
    refine hback.trans_lt ?_
    rw [ht]
    simp only [Pc.rank]
    omega
  | finishRearm ht hf | finishDrop ht hf =>
    rw [ht, pc_setPc_self]
    simp only [Pc.rank]
    omega

/-- Where a thread is about to enter a section under `m_mutex`, or leaves one of `do_task`. -/
def Pc.inSection : Pc → Bool
  | .start | .woken | .polled _ | .timedOut | .nbQueue | .task _ | .flush => true
  | _ => false

theorem State.Entering.inSection {t : ℕ} (h : s.Entering t) : (s.pc t).inSection = true := by
  obtain h | ⟨h, -⟩ := h <;> rw [h] <;> rfl

theorem Locked.inSection {t : ℕ} (h : Locked N s t s') : (s.pc t).inSection = true := by
  cases h with
  | leave ht | moreEvent ht | wait ht | poll ht | backlogEvent ht => exact ht.inSection
  | outEvent ht | lastTask ht | task ht =>
    obtain ht | ht := ht
    · exact ht.inSection
    · rw [ht]
      rfl
  | idle ht =>
    obtain ⟨ht, -⟩ | ht := ht
    · exact ht.inSection
    · rw [ht]
      rfl
  | waited ht | relock ht | retryPoll ht | endPoll ht | resign ht | done ht | flushed ht =>
    rw [ht]
    rfl

/-- A step of a thread. One that comes to `retry_task` leaves, so that none of the other branches of
`thread_main` and `run_once` is taken. -/
theorem run_rank (h : Ended s) {t k : ℕ} {wake : Option ℕ} (htN : t < N)
    (hs : runThread N s t wake k = some s') : Lowers t s s' := by
  have hflag := h.endFlag
  have hback := rank_back (s.threads t).kind
  cases hp : s.pc t with
  | start =>
    simp only [runThread, hp, threadMain, runOnce, hflag, if_true] at hs
    split at hs
    all_goals
      obtain rfl := Option.some.inj hs
      exact Lowers.setPc (s := s) (fun _ => rfl) (by simp [hp, Pc.rank])
  | woken =>
    simp only [runThread, hp, threadMain, hflag, if_true] at hs
    split at hs
    all_goals
      obtain rfl := Option.some.inj hs
      exact Lowers.setPc (s := s) (fun _ => rfl) (by simp [hp, Pc.rank])
  | timedOut =>
    simp only [runThread, hp, afterTimeout, hflag, if_true, Option.some.injEq] at hs
    split at hs
    · subst hs
      exact Lowers.setPc (s := s) (fun _ => rfl) (by simp [hp, Pc.rank])
    · subst hs
      refine Lowers.setPc (s := s) (fun _ => rfl) ?_
      rw [hp]
      split_ifs <;> decide
  | polled evs =>
    simp only [runThread, hp] at hs
    obtain ⟨s₁, hs₁, hs⟩ := Option.bind_eq_some_iff.mp hs
    rw [Signalled.eq_of_awake ⟨wake, hs₁⟩ h.awake] at hs
    simp only [takeBacklog] at hs
    split at hs
    · rename_i ke hb
      obtain rfl := Option.some.inj hs
      obtain ⟨n, hn⟩ := processHandler_eq t ke k { s with
        off := 0 + 1, num := evs.length, pollable := true, taken := s.taken ++ [ke] }
      rw [hn]
      exact Lowers.setPc (s := s) (fun _ => rfl) ((rank_entry ke).trans_lt (by simp [hp, Pc.rank]))
    · cases hs
  | nbQueue =>
    simp only [runThread, hp, doQueue, doTask] at hs
    split_ifs at hs with ho hn hl hb
    · obtain rfl := Option.some.inj hs
      exact Lowers.setPc (s := s) (fun _ => rfl) (by simp [hp, Pc.rank])
    · obtain rfl := Option.some.inj hs
      exact Lowers.setPc (s := s) (fun _ => rfl) (by simp [hp, Pc.rank])
    · obtain ⟨s₁, hs₁, rfl⟩ := Option.map_eq_some_iff.mp hs
      rw [Signalled.eq_of_awake ⟨wake, hs₁⟩ h.awake]
      exact Lowers.setPc (s := s) (fun _ => rfl) (by simp [hp, Pc.rank])
    · cases hb
    · obtain rfl := Option.some.inj hs
      exact Lowers.setPc (s := s) (fun _ => rfl) (by simp [hp, Pc.rank])
  | task last =>
    simp only [runThread, hp, Option.some.injEq] at hs
    subst hs
    split_ifs
    · exact Lowers.setPc (s := s) (fun _ => rfl) (by simp [hp, Pc.rank])
    · exact Lowers.setPc (s := s) (fun _ => rfl) (hback.trans_lt (by simp [hp, Pc.rank]))
  | flush =>
    simp only [runThread, hp, Option.some.injEq] at hs
    subst hs
    exact Lowers.setPc (s := s) (fun _ => rfl) (hback.trans_lt (by simp [hp, Pc.rank]))
  | _ =>
    cases runThread_cases htN hs with
    | @dispatches u _ _ _ hd =>
      obtain rfl : u = t := by
        cases hd <;> rfl
      exact hd.rank
    | locked _ hl =>
      have hsec := hl.inSection
      rw [hp] at hsec
      cases hsec
    | registers hr => cases hr

/-- What threads other than those of the loop do. -/
def Action.outside : Action → Bool
  | .call .. | .submit _ | .endBegin | .endReturn | .addHandler .. | .addBegin .. | .addEnd ..
  | .removeBegin .. | .removeEnd .. | .keepRef _ | .dropRef _ => true
  | .run .. | .wakeup _ | .waitReturns .. | .timeout _ | .outDone .. | .more .. | .next _ | .evRemove _
  | .finish .. => false

theorem Registers.outside (h : Registers N s a s') : a.outside = true := by
  cases h <;> rfl

/-- Every step of a thread of the loop brings that thread closer to its end. -/
theorem step_rank (h : Ended s) (hs : step N s a = some s') (ha : a.outside = false) :
    ∃ t < N, Lowers t s s' := by
  cases step_cases hs with
  | @locked t k wake _ htN hl =>
    simp only [step, htN, if_true] at hs
    exact ⟨t, htN, run_rank h htN hs⟩
  | @dispatches t _ _ htN hd => exact ⟨t, htN, hd.rank⟩
  | wakeup htN ht => exact absurd ht (h.awake _)
  | @waitReturns t idents htN ht hne hnodup harmed =>
    exact ⟨t, htN, Lowers.setPc (s := s) (fun _ => rfl) (by simp [ht, Pc.rank])⟩
  | @timeout t htN ht => exact ⟨t, htN, Lowers.setPc (s := s) (fun _ => rfl) (by simp [ht, Pc.rank])⟩
  | @outDone t empty htN ht =>
    refine ⟨t, htN, ?_⟩
    split_ifs
    · exact Lowers.setPc (s := s) (fun _ => rfl) (by simp [ht, Pc.rank])
    · exact Lowers.setPc (s := s) (fun _ => rfl)
        ((rank_back _).trans_lt (by simp [ht, Pc.rank]))
  | @more t wake ke h' flags s₁ htN ht hf hsig =>
    refine ⟨t, htN, ?_⟩
    rw [hsig.eq_of_awake h.awake]
    exact Lowers.setPc (s := s) (fun _ => rfl) (by simp [ht, hf, Pc.rank])
  | call | submit | endBegin | endReturn => cases ha
  | registers hr =>
    rw [hr.outside] at ha
    cases ha

/-! ## The workers exit -/

/-- Every worker has left `thread_main`. -/
def Exited (N : ℕ) (s : State) : Prop := ∀ t < N, (s.threads t).kind = .main → s.pc t = .exited

/-- The steps that are left to all threads. -/
def State.rank (N : ℕ) (s : State) : ℕ := ∑ t ∈ Finset.range N, (s.pc t).rank

theorem Lowers.rank_lt {t : ℕ} (htN : t < N) (h : Lowers t s s') : s'.rank N < s.rank N := by
  have hrest : ∀ u, u ≠ t → (s'.pc u).rank = (s.pc u).rank := by
    intro u hu
    rw [h.2 u hu]
  have hsum := sum_move htN hrest
  have hlt := h.1
  unfold State.rank
  omega

/-- A worker is never outside. -/
def Manned (s : State) : Prop :=
  ∀ t, (s.threads t).kind = .main → s.pc t ≠ .outside ∧ s.pc t ≠ .nbQueue

theorem Manned.frame (hi : Manned s) (hk : ∀ u, (s'.threads u).kind = (s.threads u).kind)
    (hpc : ∀ u, s'.pc u = s.pc u ∨
      ((s.threads u).kind = .main → s'.pc u ≠ .outside ∧ s'.pc u ≠ .nbQueue)) : Manned s' := by
  intro u hmain
  rw [hk] at hmain
  obtain h | h := hpc u
  · rw [h]
    exact hi u hmain
  · exact h hmain

theorem Manned.setPc (hi : Manned s) {t : ℕ} {p : Pc}
    (hp : (s.threads t).kind = .main → p ≠ .outside ∧ p ≠ .nbQueue) : Manned (s.setPc t p) := by
  refine hi.frame (fun u => kind_setPc s t u p) fun u => ?_
  by_cases hu : u = t
  · subst hu
    rw [pc_setPc_self]
    exact .inr hp
  · exact .inl (pc_setPc_of_ne hu s p)

theorem Kind.back_inside {k : Kind} (hk : k = .main) : k.back ≠ .outside ∧ k.back ≠ .nbQueue := by
  subst hk
  exact ⟨Pc.noConfusion, Pc.noConfusion⟩

theorem Event.entry_inside (ke : Event) : ke.entry ≠ .outside ∧ ke.entry ≠ .nbQueue := by
  unfold Event.entry
  split_ifs <;> exact ⟨Pc.noConfusion, Pc.noConfusion⟩

theorem Signalled.manned (h : Signalled N s s') (hi : Manned s) : Manned s' := by
  refine hi.frame h.kind fun u => (h.pc u).imp_right fun hw _ => ?_
  rw [hw.2]
  exact ⟨Pc.noConfusion, Pc.noConfusion⟩

theorem Manned.locked (hi : Manned s) {t : ℕ} (h : Locked N s t s') : Manned s' := by
  cases h with
  | leave ht he =>
    refine hi.setPc fun hk => ?_
    rw [hk]
    exact ⟨Pc.noConfusion, Pc.noConfusion⟩
  | waited ht hk => exact hi.setPc fun hk' => absurd hk' hk
  | moreEvent ht he hm => exact Manned.setPc hi fun _ => Event.entry_inside _
  | outEvent | lastTask | poll | endPoll =>
    exact Manned.setPc hi fun _ => ⟨Pc.noConfusion, Pc.noConfusion⟩
  | task ht hn hs => exact (hs.manned hi).setPc fun _ => ⟨Pc.noConfusion, Pc.noConfusion⟩
  | wait | retryPoll => exact hi.setPc fun _ => ⟨Pc.noConfusion, Pc.noConfusion⟩
  | idle ht =>
    refine hi.setPc fun hk => ?_
    obtain ⟨-, hne⟩ | ht := ht
    · exact absurd hk hne
    · exact absurd ht (hi t hk).2
  | backlogEvent ht he hp hn hb => exact Manned.setPc hi fun _ => Event.entry_inside _
  | relock ht hs hb => exact Manned.setPc (hs.manned hi) fun _ => Event.entry_inside _
  | resign ht hk hp => exact Manned.setPc hi fun hk' => absurd hk' hk
  | @done last ht =>
    cases last
    · exact hi.setPc Kind.back_inside
    · exact hi.setPc fun _ => ⟨Pc.noConfusion, Pc.noConfusion⟩
  | flushed ht => exact hi.setPc Kind.back_inside

theorem Manned.step (hi : Manned s) (h : Step N s a s') : Manned s' := by
  cases h with
  | locked htN h => exact hi.locked h
  | @dispatches t _ _ htN h =>
    refine hi.frame h.kind fun u => ?_
    by_cases hu : u = t
    · subst hu
      refine .inr fun hk => ?_
      have hback : (s.threads u).kind.back = .start := by rw [hk]; rfl
      cases h <;> simp [State.back, State.stop, hback]
    · exact .inl (h.pc_of_ne hu)
  | @call t block htN hk ht =>
    intro u hmain
    by_cases hu : u = t
    · subst hu
      simp at hmain
    · simp only [Function.update_of_ne hu] at hmain
      simpa [Function.update_of_ne hu] using hi u hmain
  | wakeup htN ht => exact hi.setPc fun _ => ⟨Pc.noConfusion, Pc.noConfusion⟩
  | waitReturns htN ht hne hnodup harmed =>
    exact Manned.setPc hi fun _ => ⟨Pc.noConfusion, Pc.noConfusion⟩
  | timeout htN ht => exact hi.setPc fun _ => ⟨Pc.noConfusion, Pc.noConfusion⟩
  | @outDone t empty htN ht =>
    cases empty
    · exact hi.setPc Kind.back_inside
    · exact hi.setPc fun _ => ⟨Pc.noConfusion, Pc.noConfusion⟩
  | more htN ht hf hs => exact (hs.manned hi).setPc fun _ => ⟨Pc.noConfusion, Pc.noConfusion⟩
  | submit hs => exact hs.manned hi
  | endBegin => exact hi
  | endReturn he =>
    refine hi.frame (fun _ => rfl) fun u => ?_
    by_cases hw : s.pc u = .waiting
    · have hpc : State.pc { broadcast s with ended := true } u = .woken := if_pos hw
      rw [hpc]
      exact .inr fun _ => ⟨Pc.noConfusion, Pc.noConfusion⟩
    · exact .inl (if_neg hw)
  | registers h => exact hi.frame (fun u => by rw [h.threads]) fun u => .inl (h.pc u)

theorem reachable_manned (h : (loopSystem N kinds).Reachable P s) : Manned s := by
  refine h.invariant ?_ fun _ _ _ _ hi _ hs => hi.step (step_cases hs)
  rintro _ rfl
  exact fun t hk => Kind.back_inside hk

theorem runThread_goes_on (h : Ended s) (hh : Handed N s) (hb : Backlog s) {t : ℕ} (htN : t < N)
    (hk : (s.threads t).kind = .main) (hp : (s.pc t).inSection = true ∨ ∃ ke, s.pc t = .dispatch ke)
    (hnb : s.pc t ≠ .nbQueue) : (runThread N s t none 0).isSome := by
  have hflag := h.endFlag
  obtain hp | ⟨ke, hpc⟩ := hp
  · cases hpc : s.pc t with
    | start | woken => simp [runThread, hpc, hk, threadMain, hflag]
    | timedOut | task | flush => simp [runThread, hpc]
    | nbQueue => exact absurd hpc hnb
    | polled evs =>
      obtain ⟨hbacklog, -⟩ := hh.polled t htN evs hpc
      obtain ⟨ke, rest, rfl⟩ := List.exists_cons_of_ne_nil (hb.polled t evs hpc)
      have hsig := signal_of_awake (s := { s with off := 0, num := rest.length + 1, pollable := true }) N
        h.awake
      simp only [runThread, hpc, relock, List.length_cons]
      rw [hsig]
      simp [takeBacklog, hbacklog]
    | _ => simp [hpc, Pc.inSection] at hp
  · cases hslot : s.slot ke.ident <;> simp [runThread, hpc, hslot]

theorem worker_goes_on (h : Ended s) (hh : Handed N s) (hb : Backlog s) {t : ℕ} (htN : t < N)
    (hk : (s.threads t).kind = .main) (hout : s.pc t ≠ .outside ∧ s.pc t ≠ .nbQueue)
    (hp : s.pc t ≠ .exited) : ∃ a s', a.outside = false ∧ step N s a = some s' := by
  have hrun (hsome : (runThread N s t none 0).isSome) :
      ∃ a s', a.outside = false ∧ step N s a = some s' := by
    obtain ⟨s', hs'⟩ := Option.isSome_iff_exists.mp hsome
    exact ⟨.run t none 0, s', rfl, by simp only [step, htN, if_true, hs']⟩
  cases hpc : s.pc t with
  | outside => exact absurd hpc hout.1
  | nbQueue => exact absurd hpc hout.2
  | exited => exact absurd hpc hp
  | waiting => exact absurd hpc (h.awake t)
  | polling => exact ⟨.timeout t, _, rfl, by simp only [step]; rw [if_pos ⟨htN, hpc⟩]⟩
  | outEvent => exact ⟨.outDone t true, _, rfl, by simp only [step]; rw [if_pos ⟨htN, hpc⟩]⟩
  | running ke h' flags =>
    obtain ⟨s', hs'⟩ : ∃ s', finishHandler N s t true = some s' := by
      simp only [finishHandler, hpc, if_true]
      split_ifs <;> exact ⟨_, rfl⟩
    exact ⟨.finish t true, s', rfl, by simp only [step, htN, if_true, hs']⟩
  | start | woken | timedOut | task | flush | polled =>
    exact hrun (runThread_goes_on h hh hb htN hk (.inl (by rw [hpc]; rfl)) hout.2)
  | dispatch ke => exact hrun (runThread_goes_on h hh hb htN hk (.inr ⟨ke, hpc⟩) hout.2)
  | rearmOut | evReset | rearm | drop | reset => exact hrun (by simp [runThread, hpc])

/-- After `end()` has returned, all workers exit, and every `join` of them returns: however the threads
are scheduled, whatever the handlers and tasks they are still at do, and with `k` more calls from outside.
Until then a worker can always go on by itself. -/
theorem workers_exit (h : (loopSystem N kinds).Reachable (fun _ _ => True) s) (hended : s.ended = true)
    (k : ℕ) : (loopSystem N kinds).Inevitable (fun _ _ => True) Action.outside (Exited N) k s := by
  by_cases hgoal : Exited N s
  · exact .here hgoal
  · refine System.Inevitable.of_rank (State.rank N) (I := fun s =>
      (loopSystem N kinds).Reachable (fun _ _ => True) s ∧ s.ended = true ∧ ¬ Exited N s)
      ?_ ?_ k ⟨h, hended, hgoal⟩
    · rintro s ⟨hr, hended, hgoal⟩
      simp only [Exited, not_forall] at hgoal
      obtain ⟨t, htN, hk, hpc⟩ := hgoal
      obtain ⟨a, s', ha, hs⟩ := worker_goes_on (reachable_ended hr hended) (reachable_handed hr)
        (reachable_backlog hr) htN hk (reachable_manned hr t hk) hpc
      exact ⟨a, s', trivial, ha, hs⟩
    · rintro s a s' ⟨hr, hended, -⟩ - hs
      by_cases hgoal : Exited N s'
      · exact .inl hgoal
      · have hended' : s'.ended = true := by
          obtain heq | ⟨-, rfl⟩ := ended_step (step_cases hs)
          · rw [heq, hended]
          · rfl
        refine .inr ⟨⟨.step hr trivial hs, hended', hgoal⟩, fun ha => ?_⟩
        obtain ⟨t, htN, hlow⟩ := step_rank (reachable_ended hr hended) hs ha
        exact hlow.rank_lt htN

/-- One worker polls and the other waits when `end()` is called. -/
theorem workers_exit_two : ∃ s, (loopSystem 2 fun _ => .main).Reachable (fun _ _ => True) s ∧
    s.pc 0 = .polling ∧ s.pc 1 = .woken ∧
    (loopSystem 2 fun _ => .main).Inevitable (fun _ _ => True) Action.outside (Exited 2) 3 s := by
  obtain ⟨s, hs, hq⟩ := System.exists_reachable_of_exec (S := loopSystem 2 fun _ => .main)
    (P := fun _ _ => True) (s := .init fun _ => .main)
    [.run 0 none 0, .run 1 none 0, .endBegin, .endReturn]
    (fun s => s.ended && s.pc 0 == .polling && s.pc 1 == .woken) rfl (by decide)
  simp only [Bool.and_eq_true, beq_iff_eq] at hq
  exact ⟨s, hs, hq.1.2, hq.2, workers_exit hs hq.1.1 3⟩

end Mpio.Wavy.Loop
