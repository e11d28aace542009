import Mpio.Wavy.Loop.Drain
import Mpio.Wavy.Loop.OutToken

/-!
# What the loop does for `out`

The loop has only the number of the write events in `m_queue`. It grows by what `poll_event` finds when a
worker has taken an event of `out`, falls by one when a worker takes a write event, and nothing else
changes it (`Fetched`); which of the two a step does can be told from where the worker is afterwards.
Whether a step can be taken does not depend on how much `poll_event` finds (`run_found`).
-/

namespace Mpio.Wavy.Loop

open Lib

variable {N t k : ℕ} {s s' : State} {a : Action} {wake : Option ℕ}

/-! ## The number of write events -/

/-- The queue had `q` events, and thread `t` has found `k` in `poll_event`, or taken one, or done neither. -/
def Fetched (q k t : ℕ) (s : State) : Prop :=
  match s.pc t with
  | .rearmOut _ => s.outQueue = q + k
  | .outEvent => q = s.outQueue + 1
  | _ => s.outQueue = q

/-- The thread is not in `poll_event` or `write_event`. -/
def Pc.apart : Pc → Bool
  | .rearmOut _ | .outEvent => false
  | _ => true

theorem Fetched.of_apart {q : ℕ} (ho : s.outQueue = q) (hp : (s.pc t).apart = true) : Fetched q k t s := by
  unfold Fetched
  cases hpc : s.pc t <;> rw [hpc] at hp <;> first | exact ho | cases hp

theorem Fetched.eq_of_apart {q : ℕ} (h : Fetched q k t s) (hp : (s.pc t).apart = true) : s.outQueue = q := by
  unfold Fetched at h
  cases hpc : s.pc t <;> rw [hpc] at hp h <;> first | exact h | cases hp

theorem processHandler_fetched (t : ℕ) (ke : Event) (k : ℕ) (s : State) :
    Fetched s.outQueue k t (processHandler t ke k s) := by
  unfold processHandler
  split_ifs with h
  · simp [Fetched]
  · simp [Fetched]

theorem takeBacklog_fetched (h : takeBacklog t k s = some s') : Fetched s.outQueue k t s' := by
  unfold takeBacklog at h
  split at h
  · obtain rfl := Option.some.inj h
    exact processHandler_fetched _ _ _ _
  · cases h

theorem doTask_fetched (h : doTask N t wake s = some s') : Fetched s.outQueue k t s' := by
  refine .of_apart (doTask_outQueue h) ?_
  simp only [doTask] at h
  split_ifs at h
  · obtain rfl := Option.some.inj h
    rw [pc_setPc_self]
    rfl
  · obtain ⟨s₁, -, rfl⟩ := Option.map_eq_some_iff.mp h
    rw [pc_setPc_self]
    rfl

theorem doOut_fetched (h : 0 < s.outQueue) : Fetched s.outQueue k t (doOut t s) := by
  simp only [Fetched, doOut, pc_setPc_self, setPc_toQueues]
  omega

theorem threadMain_fetched (h : threadMain N t wake k s = some s') : Fetched s.outQueue k t s' := by
  have hset {s₁ : State} {p : Pc} (ho : s₁.outQueue = s.outQueue) (hp : p.apart = true) :
      Fetched s.outQueue k t (s₁.setPc t p) := .of_apart ho (by rwa [pc_setPc_self])
  unfold threadMain at h
  by_cases he : s.endFlag = true
  · rw [if_pos he] at h
    obtain rfl := Option.some.inj h
    exact hset rfl rfl
  · rw [if_neg he] at h
    cases hm : s.more with
    | cons ke rest =>
      simp only [hm] at h
      obtain rfl := Option.some.inj h
      exact processHandler_fetched t ke k { s with more := rest }
    | nil =>
      simp only [hm] at h
      split_ifs at h with hp ho hn
      · obtain rfl := Option.some.inj h
        exact doOut_fetched ho
      · exact doTask_fetched h
      · obtain rfl := Option.some.inj h
        exact hset rfl rfl
      · exact doTask_fetched h
      · unfold pollOrTake at h
        split_ifs at h
        · obtain rfl := Option.some.inj h
          exact hset rfl rfl
        · exact takeBacklog_fetched h

theorem runThread_fetched (hw : Workers s) (h : runThread N s t wake k = some s') :
    Fetched s.outQueue k t s' := by
  have hback : (s.threads t).kind.back = .start := by
    rw [(hw t).1]
    rfl
  cases hpc : s.pc t with
  | start | woken =>
    simp only [runThread, hpc, (hw t).1] at h
    exact threadMain_fetched h
  | polled evs =>
    simp only [runThread, hpc] at h
    obtain ⟨s₁, hs, h⟩ := Option.bind_eq_some_iff.mp h
    have hq : s₁.outQueue = s.outQueue := by rw [Signalled.toQueues ⟨wake, hs⟩]
    exact hq ▸ takeBacklog_fetched h
  | timedOut =>
    simp only [runThread, hpc, afterTimeout, (hw t).1] at h
    obtain rfl := Option.some.inj h
    split_ifs
    all_goals
      refine .of_apart rfl ?_
      rw [pc_setPc_self]
      rfl
  | nbQueue => exact absurd hpc (hw t).2.2
  | task last =>
    simp only [runThread, hpc] at h
    obtain rfl := Option.some.inj h
    cases last with
    | true =>
      refine .of_apart rfl ?_
      rw [if_pos rfl, pc_setPc_self]
      rfl
    | false =>
      refine .of_apart rfl ?_
      rw [if_neg Bool.false_ne_true, State.back, pc_setPc_self, hback]
      rfl
  | flush | rearmOut | rearm | drop | reset | evReset =>
    simp only [runThread, hpc] at h
    obtain rfl := Option.some.inj h
    refine .of_apart (by simp) ?_
    simp [State.back, hback, Pc.apart]
  | dispatch ke =>
    simp only [runThread, hpc] at h
    split at h
    all_goals
      obtain rfl := Option.some.inj h
      refine .of_apart rfl ?_
      rw [pc_setPc_self]
      rfl
  | outside | waiting | polling | outEvent | running | exited =>
    simp only [runThread, hpc] at h
    cases h

/-! ## What `poll_event` finds -/

theorem processHandler_threads (t : ℕ) (ke : Event) (k k' : ℕ) (s : State) :
    (processHandler t ke k s).threads = (processHandler t ke k' s).threads := by
  unfold processHandler
  split_ifs <;> rfl

theorem takeBacklog_found (t k k' : ℕ) (s : State) :
    (takeBacklog t k s).map (·.threads) = (takeBacklog t k' s).map (·.threads) := by
  unfold takeBacklog
  cases s.backlog[s.off]? with
  | none => rfl
  | some ke => exact congrArg some (processHandler_threads _ _ _ _ _)

theorem threadMain_found (t k k' : ℕ) (s : State) :
    (threadMain N t wake k s).map (·.threads) = (threadMain N t wake k' s).map (·.threads) := by
  unfold threadMain pollOrTake
  by_cases he : s.endFlag = true
  · simp only [if_pos he]
  · simp only [if_neg he]
    cases s.more with
    | cons ke rest => exact congrArg some (processHandler_threads _ _ _ _ _)
    | nil =>
      split_ifs
      all_goals first | rfl | exact takeBacklog_found _ _ _ _

theorem runThread_found (hw : Workers s) (t k k' : ℕ) :
    (runThread N s t wake k).map (·.threads) = (runThread N s t wake k').map (·.threads) := by
  cases hpc : s.pc t with
  | start | woken =>
    simp only [runThread, hpc, (hw t).1]
    exact threadMain_found t k k' s
  | polled evs =>
    simp only [runThread, hpc, relock]
    cases signal N wake { s with off := 0, num := evs.length, pollable := true } with
    | none => rfl
    | some s₁ => exact takeBacklog_found t k k' s₁
  | _ => simp only [runThread, hpc]

theorem run_found (hw : Workers s) (h : step N s (.run t wake k) = some s') (k' : ℕ) :
    ∃ s'', step N s (.run t wake k') = some s'' ∧ ∀ u, s''.pc u = s'.pc u := by
  simp only [step] at h ⊢
  split_ifs at h ⊢ with htN
  have hfound : (runThread N s t wake k).map (·.threads) = (runThread N s t wake k').map (·.threads) :=
    runThread_found hw t k k'
  rw [h, Option.map_some] at hfound
  obtain ⟨s'', hs'', hthreads⟩ := Option.map_eq_some_iff.mp hfound.symm
  exact ⟨s'', hs'', fun u => by unfold State.pc; rw [hthreads]⟩

/-! ## Steps of others -/

/-- From here a thread gets on by its own section only. -/
def Pc.own : Pc → Bool
  | .task _ | .outEvent | .flush | .rearmOut _ => true
  | _ => false

/-- A step that is neither the next section of a thread nor the end of `write_event`. -/
def Action.aside : Action → Bool
  | .run .. | .outDone .. => false
  | .call .. | .wakeup _ | .waitReturns .. | .timeout _ | .more .. | .next _ | .evRemove _ | .finish ..
  | .submit _ | .endBegin | .endReturn | .addHandler .. | .addBegin .. | .addEnd .. | .removeBegin ..
  | .removeEnd .. | .keepRef _ | .dropRef _ => true

/-- The kernel reports the descriptor of `out`. -/
def Action.reportsOut : Action → Bool
  | .waitReturns _ idents => idents.contains outIdent
  | _ => false

theorem own_back (k : Kind) : k.back.own = false := by
  cases k <;> rfl

theorem Dispatches.not_own (h : Dispatches N s t a s') (ha : a.aside = true) :
    (s.pc t).own = false ∧ (s'.pc t).own = false := by
  cases h with
  | next ht hf | evRemove ht hf | finishRearm ht hf | finishDrop ht hf => simp [ht, Pc.own]
  | finish ht hf =>
    rw [ht, settle_pc, State.back, pc_setPc_self]
    exact ⟨rfl, own_back _⟩
  | _ => cases ha

theorem Step.own_eq (h : Step N s a s') (ha : a.aside = true) {u : ℕ}
    (hu : (s.pc u).own = true ∨ (s'.pc u).own = true) : s'.pc u = s.pc u := by
  by_cases hact : a.actor = some u
  · have hno : ¬ ((s.pc u).own = false ∧ (s'.pc u).own = false) := by
      rintro ⟨hb, hb'⟩
      rw [hb, hb'] at hu
      simp at hu
    refine absurd ?_ hno
    cases h with
    | locked htN hl => cases ha
    | dispatches htN hd =>
      obtain rfl := Option.some.inj (hd.actor.symm.trans hact)
      exact hd.not_own ha
    | @call t block htN hk ht =>
      obtain rfl := Option.some.inj hact
      change _ ∧ (Function.update s.threads t ⟨.once block, .start⟩ t).pc.own = false
      rw [Function.update_self, ht]
      exact ⟨rfl, rfl⟩
    | wakeup htN ht | timeout htN ht =>
      obtain rfl := Option.some.inj hact
      rw [pc_setPc_self, ht]
      exact ⟨rfl, rfl⟩
    | waitReturns htN ht hnil hnodup harmed =>
      obtain rfl := Option.some.inj hact
      rw [pc_setPc_self, ht]
      exact ⟨rfl, rfl⟩
    | outDone htN ht => cases ha
    | more htN ht hf hs =>
      obtain rfl := Option.some.inj hact
      rw [pc_setPc_self, ht]
      exact ⟨rfl, rfl⟩
    | submit hs => cases hact
    | endBegin => cases hact
    | endReturn he => cases hact
    | registers hr => cases hr <;> cases hact
  · obtain hsame | ⟨hw, hw'⟩ := h.stays hact
    · exact hsame
    · rw [hw, hw'] at hu
      simp [Pc.own] at hu

theorem Step.pc_iff (h : Step N s a s') (ha : a.aside = true) {u : ℕ} {p : Pc} (hp : p.own = true) :
    s'.pc u = p ↔ s.pc u = p := by
  constructor
  · rintro rfl
    exact (h.own_eq ha (.inr hp)).symm
  · rintro rfl
    exact h.own_eq ha (.inl hp)

theorem Step.queues_aside (h : Step N s a s') (ha : a.aside = true) :
    s'.outQueue = s.outQueue ∧ s.tasks ≤ s'.tasks := by
  cases h with
  | locked htN hl => cases ha
  | dispatches htN hd =>
    rw [hd.toQueues]
    exact ⟨rfl, le_rfl⟩
  | outDone htN ht => cases ha
  | more htN ht hf hs => simp [hs.toQueues]
  | submit hs => simp [hs.toQueues]
  | registers hr =>
    rw [hr.toQueues]
    exact ⟨rfl, le_rfl⟩
  | call | wakeup | waitReturns | timeout | endBegin | endReturn => exact ⟨rfl, le_rfl⟩

theorem Step.armed_aside (h : Step N s a s') (ha : a.aside = true) (hr : a.reportsOut = false)
    (hi : OutToken N s) (ho : Owned N s) : s'.armed outIdent = s.armed outIdent := by
  cases h with
  | locked htN hl => cases ha
  | @dispatches t a s' htN hd =>
    refine (hd.sameOut hi.seated (hi.sorted t) fun ke ht => ?_).armed
    have hown := (hd.not_own ha).1
    rw [ht] at hown
    cases hown
  | outDone htN ht => cases ha
  | more htN ht hf hs =>
    unfold State.armed
    rw [setPc_toRegistry, hs.toRegistry]
  | submit hs =>
    unfold State.armed
    rw [hs.toRegistry]
  | @waitReturns t idents htN ht hnil hnodup harmed =>
    have hmem : outIdent ∉ idents := by simpa [Action.reportsOut] using hr
    unfold State.armed
    simp [State.report, State.setPc, hmem]
  | registers hreg => exact (hi.seated.registers hi.unremoved ho hreg).1.armed
  | call | wakeup | timeout | endBegin | endReturn => rfl

/-! ## Sections -/

theorem run_eq (h : step N s (.run t wake k) = some s') : runThread N s t wake k = some s' := by
  simp only [step] at h
  split_ifs at h
  exact h

theorem run_tasks (h : step N s (.run t wake k) = some s') :
    s'.tasks = s.tasks ∨ (s'.tasks = 0 → s'.pc t = .task true) := by
  cases step_cases h with
  | dispatches htN hd =>
    rw [hd.toQueues]
    exact .inl rfl
  | locked htN hl =>
    cases hl with
    | lastTask ht hn =>
      rw [pc_setPc_self]
      exact .inr fun _ => rfl
    | task ht hn hs =>
      refine .inr fun hzero => ?_
      simp only [setPc_toQueues, hs.toQueues] at hzero
      omega
    | relock ht hs hb => simp [hs.toQueues]
    | @done last ht => cases last <;> exact .inl rfl
    | _ => exact .inl rfl
  | registers hr => cases hr

theorem run_lastTask (h : step N s (.run t wake k) = some s') (ht : s.pc t = .task true) :
    s'.pc t = .flush := by
  have hrun := run_eq h
  simp only [runThread, ht, if_true, Option.some.injEq] at hrun
  rw [← hrun, pc_setPc_self]

theorem run_flush (hw : Workers s) (h : step N s (.run t wake k) = some s') (ht : s.pc t = .flush) :
    s'.pc t = .start := by
  have hrun := run_eq h
  simp only [runThread, ht, Option.some.injEq] at hrun
  rw [← hrun, State.back, pc_setPc_self, (hw t).1]
  rfl

theorem run_rearmOut {ke : Event} (hi : OutToken N s) (h : step N s (.run t wake k) = some s')
    (ht : s.pc t = .rearmOut ke) : s'.armed outIdent = 1 := by
  have hke := hi.sorted t
  rw [ht] at hke
  simp only [step] at h
  split_ifs at h
  simp only [runThread, ht, Option.some.injEq] at h
  subst h
  change (reactivate s ke.ident).armed outIdent = 1
  rw [show ke.ident = outIdent from hke, armed_reactivate, if_pos rfl, State.present,
    if_pos hi.seated.interest]

theorem run_armed (hi : OutToken N s) (h : step N s (.run t wake k) = some s')
    (hno : ∀ ke, s.pc t ≠ .rearmOut ke) : s'.armed outIdent = s.armed outIdent := by
  cases step_cases h with
  | locked htN hl => exact armed_congr (by rw [hl.toRegistry]) _
  | registers hr => cases hr
  | dispatches htN hd =>
    obtain rfl := Option.some.inj hd.actor
    exact (hd.sameOut hi.seated (hi.sorted t) hno).armed

/-- Only the thread that arms the descriptor of `out` gets away from there. -/
theorem run_rearming (hi : OutToken N s) (h : step N s (.run t wake k) = some s')
    (hs : s.armed outIdent = 1 ∨ ∃ u < N, ∃ ke, s.pc u = .rearmOut ke) :
    s'.armed outIdent = 1 ∨ ∃ u < N, ∃ ke, s'.pc u = .rearmOut ke := by
  by_cases hre : ∃ ke, s.pc t = .rearmOut ke
  · obtain ⟨ke, ht⟩ := hre
    exact .inl (run_rearmOut hi h ht)
  · have hno : ∀ ke, s.pc t ≠ .rearmOut ke := fun ke ht => hre ⟨ke, ht⟩
    obtain harmed | ⟨u, huN, ke, hu⟩ := hs
    · exact .inl ((run_armed hi h hno).trans harmed)
    · have hut : (Action.run t wake k).actor ≠ some u := by
        intro heq
        obtain rfl := Option.some.inj heq
        exact hno ke hu
      obtain hsame | ⟨hw, -⟩ := (step_cases h).stays hut
      · exact .inr ⟨u, huN, ke, hsame.trans hu⟩
      · rw [hu] at hw
        cases hw

theorem outDone_eq {empty : Bool} (h : step N s (.outDone t empty) = some s') :
    s.pc t = .outEvent ∧ s' = s.setPc t (if empty then .flush else (s.threads t).kind.back) := by
  simp only [step] at h
  split_ifs at h with hc hempty
  · obtain rfl := Option.some.inj h
    exact ⟨hc.2, by rw [if_pos hempty]⟩
  · obtain rfl := Option.some.inj h
    exact ⟨hc.2, by rw [if_neg hempty, State.back]⟩

theorem run_not_outEvent (h : step N s (.run t wake k) = some s') : t < N ∧ s.pc t ≠ .outEvent := by
  simp only [step] at h
  split_ifs at h with htN
  refine ⟨htN, fun ht => ?_⟩
  simp [runThread, ht] at h

theorem Step.pc_iff_of_ne {u : ℕ} (h : Step N s a s') (hu : a.actor ≠ some u) {p : Pc} (hp : p.own = true) :
    s'.pc u = p ↔ s.pc u = p := by
  obtain hsame | ⟨hw, hw'⟩ := h.stays hu
  · rw [hsame]
  · rw [hw, hw']
    constructor
    · rintro rfl
      cases hp
    · rintro rfl
      cases hp

/-! ## The round of the event -/

/-- The thread is about to arm the descriptor of `out`. -/
def Pc.rearming : Pc → ℕ
  | .rearmOut _ => 1
  | _ => 0

/-- The event of `out` is yet to be reported again. -/
def State.round (N : ℕ) (s : State) : ℕ := s.armed outIdent + ∑ t ∈ Finset.range N, (s.pc t).rearming

theorem rearming_congr {p q : Pc} (h : ∀ ke, p = .rearmOut ke ↔ q = .rearmOut ke) :
    p.rearming = q.rearming := by
  have hone {p : Pc} {ke : Event} (hp : p = .rearmOut ke) : p.rearming = 1 := by rw [hp]; rfl
  have hzero {p : Pc} (hp : ∀ ke, p ≠ .rearmOut ke) : p.rearming = 0 := by
    unfold Pc.rearming
    split
    · rename_i ke
      exact absurd rfl (hp ke)
    · rfl
  by_cases hp : ∃ ke, p = .rearmOut ke
  · obtain ⟨ke, hke⟩ := hp
    rw [hone hke, hone ((h ke).mp hke)]
  · rw [hzero fun ke hke => hp ⟨ke, hke⟩, hzero fun ke hke => hp ⟨ke, (h ke).mpr hke⟩]

theorem rearming_setPc {u : ℕ} {p : Pc} (ht : (s.pc t).rearming = 0) (hp : p.rearming = 0) :
    ((s.setPc t p).pc u).rearming = (s.pc u).rearming := by
  by_cases hu : u = t
  · rw [hu, pc_setPc_self, ht, hp]
  · rw [pc_setPc_of_ne hu]

theorem round_aside (hi : OutToken N s) (ho : Owned N s) (h : Step N s a s') (ha : a.aside = true)
    (hr : a.reportsOut = false) : s'.round N = s.round N := by
  unfold State.round
  rw [h.armed_aside ha hr hi ho]
  exact congrArg _ (Finset.sum_congr rfl fun u _ => rearming_congr fun ke => h.pc_iff ha rfl)

theorem round_outDone {empty : Bool} (h : step N s (.outDone t empty) = some s') : s'.round N = s.round N := by
  obtain ⟨ht, rfl⟩ := outDone_eq h
  unfold State.round
  refine congrArg _ (Finset.sum_congr rfl fun u _ => rearming_setPc (by rw [ht]; rfl) ?_)
  cases empty <;> cases (s.threads t).kind <;> rfl

theorem round_report (h : step N s (.waitReturns t [outIdent]) = some s') : s'.round N < s.round N := by
  simp only [step, waitReturns] at h
  split_ifs at h with htN hc
  obtain rfl := Option.some.inj h
  obtain ⟨ht, -, -, harmed⟩ := hc
  have hbefore : s.armed outIdent = 1 := if_pos (harmed outIdent List.mem_cons_self)
  have hafter : ((s.report [outIdent]).setPc t (.polled ([outIdent].map (s.eventOf ·)))).armed outIdent = 0 := by
    unfold State.armed
    refine if_neg fun hon => ?_
    simp [State.report, State.setPc] at hon
  have hsum (u : ℕ) : (((s.report [outIdent]).setPc t (.polled ([outIdent].map (s.eventOf ·)))).pc u).rearming =
      (s.pc u).rearming := rearming_setPc (s := s.report [outIdent]) (congrArg Pc.rearming ht) rfl
  unfold State.round
  rw [hafter, hbefore, Finset.sum_congr rfl fun u _ => hsum u]
  omega

theorem round_run (hi : OutToken N s) (h : step N s (.run t wake k) = some s') (hp : (s'.pc t).apart = true) :
    s'.round N ≤ s.round N := by
  obtain ⟨htN, -⟩ := run_not_outEvent h
  have hother (u : ℕ) (hu : u ≠ t) : (s'.pc u).rearming = (s.pc u).rearming := by
    have hact : (Action.run t wake k).actor ≠ some u := fun heq => hu (Option.some.inj heq).symm
    exact rearming_congr fun ke => (step_cases h).pc_iff_of_ne hact rfl
  have hself : (s'.pc t).rearming = 0 := by
    cases hpc : s'.pc t <;> rw [hpc] at hp <;> first | rfl | cases hp
  have hmove := sum_move htN hother
  rw [hself] at hmove
  unfold State.round
  by_cases hre : ∃ ke, s.pc t = .rearmOut ke
  · obtain ⟨ke, ht⟩ := hre
    have harmed := run_rearmOut hi h ht
    have hone : (s.pc t).rearming = 1 := by rw [ht]; rfl
    rw [hone] at hmove
    omega
  · have harmed := run_armed hi h fun ke ht => hre ⟨ke, ht⟩
    omega

/-- Each thread that is about to arm the descriptor has an event of `out`. -/
theorem sum_rearming_le (hi : OutToken N s) :
    ∑ t ∈ Finset.range N, (s.pc t).rearming ≤ outEvents N s := by
  have hpc (t : ℕ) : (s.pc t).rearming ≤ (s.pc t).pending.countP (·.ident = outIdent) := by
    have hsorted := hi.sorted t
    cases hp : s.pc t with
    | rearmOut ke =>
      rw [hp] at hsorted
      exact ((countP_event ke).trans (if_pos hsorted)).ge
    | _ => exact Nat.zero_le _
  have hcount : ∑ t ∈ Finset.range N, (s.pc t).pending.countP (·.ident = outIdent) ≤ outEvents N s := by
    unfold outEvents pending
    rw [Multiset.countP_add, ← Multiset.coe_countPAddMonoidHom, map_sum]
    exact Nat.le_add_left _ _
  exact (Finset.sum_le_sum fun t _ => hpc t).trans hcount

/-- A worker that has just called `poll_event` found the descriptor of `out` disabled, and no other worker
was about to arm it. -/
theorem run_polled {ke : Event} (hi : OutToken N s) (hi' : OutToken N s')
    (h : step N s (.run t wake k) = some s') (ht : s'.pc t = .rearmOut ke) (hw : Workers s) :
    s.armed outIdent ≠ 1 ∧ ∀ u < N, ∀ ke', s.pc u ≠ .rearmOut ke' := by
  obtain ⟨htN, -⟩ := run_not_outEvent h
  have hone := hi'.one
  have hle := sum_rearming_le hi'
  have hself : (s'.pc t).rearming = 1 := by rw [ht]; rfl
  have hno (ke' : Event) : s.pc t ≠ .rearmOut ke' := by
    intro hpc
    have hrun := run_eq h
    simp only [runThread, hpc, Option.some.injEq] at hrun
    have hback : ((reactivate s ke'.ident).threads t).kind.back = .start := congrArg Kind.back (hw t).1
    rw [← hrun, State.back, pc_setPc_self, hback] at ht
    cases ht
  refine ⟨fun harmed => ?_, fun u huN ke' hu => ?_⟩
  · have hsingle := Finset.single_le_sum (f := fun u => (s'.pc u).rearming) (fun _ _ => Nat.zero_le _)
      (Finset.mem_range.mpr htN)
    have hsame := run_armed hi h hno
    simp only [hself] at hsingle
    omega
  · have hut : u ≠ t := by
      rintro rfl
      exact hno ke' hu
    have hact : (Action.run t wake k).actor ≠ some u := fun heq => hut (Option.some.inj heq).symm
    have hu' : s'.pc u = .rearmOut ke' := ((step_cases h).pc_iff_of_ne hact rfl).mpr hu
    have hpair : ({t, u} : Finset ℕ) ⊆ Finset.range N := by
      intro x hx
      rw [Finset.mem_insert, Finset.mem_singleton] at hx
      rw [Finset.mem_range]
      omega
    have hsum := Finset.sum_le_sum_of_subset (f := fun x => (s'.pc x).rearming) hpair
    have hrearm : (s'.pc u).rearming = 1 := by rw [hu']; rfl
    rw [Finset.sum_pair (Ne.symm hut), hself, hrearm] at hsum
    omega

/-! ## Rest -/

theorem Settled.resting (h : Settled N s) : Resting N s := by
  obtain ⟨t, -, ht, hother⟩ := h.poller
  intro u huN
  by_cases hut : u = t
  · rw [hut]
    exact .inr ht
  · exact .inl (hother u huN hut)

/-- At rest the event of `out` is not on the way, so its descriptor is armed. -/
theorem Settled.armed (h : Settled N s) (hi : OutToken N s) : s.armed outIdent = 1 := by
  have hrest : s.rest = [] := by
    refine List.drop_eq_nil_of_le ?_
    rw [h.backlog]
    exact List.length_take_le _ _
  have hsum : ∑ t ∈ Finset.range N, (s.pc t).pending = 0 := by
    refine Finset.sum_eq_zero fun u hu => ?_
    obtain hpc | hpc := h.resting u (Finset.mem_range.mp hu) <;> rw [hpc] <;> rfl
  have hone := hi.one
  have hzero : outEvents N s = 0 := by
    unfold outEvents pending
    rw [h.more, hrest, hsum]
    rfl
  omega

end Mpio.Wavy.Loop
