import Mpio.Wavy.Loop.Poll

/-!
# A loop with one worker

`thread_main` leaves queued work to the other threads while it polls: it looks at `m_task_queue` and at
the queue of `out` only while somebody else polls, or when more than `MP_WAVY_TASK_QUEUE_LIMIT` tasks
have piled up, and after a timeout it goes back to `m_kernel.wait` without a look. `run_once` looks
before it polls. With a single worker nobody else polls, so `m_pollable` is true whenever the worker
takes a decision (`reachable_occupied`), and no step of it empties a queue (`step_keeps`). Hence the
queues are empty at a timeout in exactly those runs in which nothing was ever put into them
(`sole_worker_idle_iff`).
-/

namespace Mpio.Wavy.Loop

open Lib

variable {N t k : ℕ} {wake : Option ℕ} {s s' : State} {a : Action}

/-! ## Queues that are not emptied -/

/-- Nothing leaves the queue of `out`, and tasks that are queued are not all taken. -/
def Keeps (q q' : Queues) : Prop := q.outQueue ≤ q'.outQueue ∧ (q.tasks ≤ q'.tasks ∨ 0 < q'.tasks)

theorem Keeps.of_eq (ho : s'.outQueue = s.outQueue) (ht : s'.tasks = s.tasks) :
    Keeps s.toQueues s'.toQueues := ⟨ho.ge, .inl ht.ge⟩

theorem Keeps.of_toQueues (h : s'.toQueues = s.toQueues) : Keeps s.toQueues s'.toQueues := by
  rw [h]
  exact ⟨le_rfl, .inl le_rfl⟩

theorem processHandler_keeps (t : ℕ) (ke : Event) (k : ℕ) (s : State) :
    Keeps s.toQueues (processHandler t ke k s).toQueues := by
  unfold processHandler
  split_ifs
  · exact ⟨Nat.le_add_right _ _, .inl le_rfl⟩
  · exact .of_toQueues rfl

theorem takeBacklog_keeps (h : takeBacklog t k s = some s') : Keeps s.toQueues s'.toQueues := by
  unfold takeBacklog at h
  split at h
  · rename_i ke _
    obtain rfl := Option.some.inj h
    exact processHandler_keeps t ke k { s with off := s.off + 1, taken := s.taken ++ [ke] }
  · cases h

theorem pollOrTake_keeps (h : pollOrTake t k s = some s') : Keeps s.toQueues s'.toQueues := by
  unfold pollOrTake at h
  split_ifs at h
  · obtain rfl := Option.some.inj h
    exact .of_eq rfl rfl
  · exact takeBacklog_keeps h

theorem doTask_keeps (hn : 1 < s.tasks) (h : doTask N t wake s = some s') :
    Keeps s.toQueues s'.toQueues := by
  simp only [doTask] at h
  rw [if_neg (by omega)] at h
  obtain ⟨s₁, hs, rfl⟩ := Option.map_eq_some_iff.mp h
  have hq := Signalled.toQueues ⟨wake, hs⟩
  rw [setPc_toQueues, hq]
  exact ⟨le_rfl, .inr (by simp only; omega)⟩

/-- The worker looks at the queues only when too much has piled up. -/
theorem threadMain_keeps (hp : s.pollable = true) (h : threadMain N t wake k s = some s') :
    Keeps s.toQueues s'.toQueues := by
  unfold threadMain at h
  by_cases he : s.endFlag = true
  · rw [if_pos he] at h
    obtain rfl := Option.some.inj h
    exact .of_toQueues rfl
  · rw [if_neg he] at h
    cases hm : s.more with
    | cons ke rest =>
      simp only [hm] at h
      obtain rfl := Option.some.inj h
      exact processHandler_keeps t ke k { s with more := rest }
    | nil =>
      simp only [hm] at h
      rw [if_neg (by simp [hp])] at h
      split_ifs at h with hl
      · refine doTask_keeps ?_ h
        rw [TASK_QUEUE_LIMIT] at hl
        omega
      · exact pollOrTake_keeps h

theorem relock_keeps {evs : List Event} (h : relock N t wake k evs s = some s') :
    Keeps s.toQueues s'.toQueues := by
  obtain ⟨s₁, hs, h⟩ := Option.bind_eq_some_iff.mp h
  have hq := Signalled.toQueues ⟨wake, hs⟩
  have hkeeps := takeBacklog_keeps h
  rw [hq] at hkeeps
  exact hkeeps

/-! ## The sole worker -/

theorem runThread_keeps (hu : s.pool.Occupied 1) (hw : Workers s) (h : runThread 1 s 0 wake k = some s') :
    Keeps s.toQueues s'.toQueues := by
  cases hpc : s.pc 0 with
  | start | woken =>
    have hp : s.pollable = true := by
      by_contra hno
      have hfree : s.pool.free = false := Bool.eq_false_iff.mpr hno
      obtain ⟨t, htN, ht⟩ := hu hfree
      obtain rfl : t = 0 := by omega
      simp [State.pool, hpc, Pc.mode] at ht
    simp only [runThread, hpc, (hw 0).1] at h
    exact threadMain_keeps hp h
  | polled evs =>
    simp only [runThread, hpc] at h
    exact relock_keeps h
  | timedOut =>
    simp only [runThread, hpc, afterTimeout, (hw 0).1] at h
    obtain rfl := Option.some.inj h
    split_ifs
    · exact .of_eq rfl rfl
    · exact .of_toQueues rfl
  | nbQueue => exact absurd hpc (hw 0).2.2
  | task last =>
    simp only [runThread, hpc] at h
    obtain rfl := Option.some.inj h
    split_ifs <;> exact .of_toQueues rfl
  | flush | rearmOut | evReset | rearm | drop | reset =>
    simp only [runThread, hpc] at h
    obtain rfl := Option.some.inj h
    exact .of_toQueues (by simp)
  | dispatch ke =>
    simp only [runThread, hpc] at h
    split at h
    · obtain rfl := Option.some.inj h
      exact .of_toQueues rfl
    · obtain rfl := Option.some.inj h
      exact .of_toQueues rfl
  | outside | waiting | polling | outEvent | running | exited =>
    simp only [runThread, hpc] at h
    cases h

theorem step_keeps (hu : s.pool.Occupied 1) (hw : Workers s) (h : step 1 s a = some s') :
    Keeps s.toQueues s'.toQueues := by
  cases step_cases h with
  | @locked t k wake _ htN _ =>
    obtain rfl : t = 0 := by omega
    simp only [step, if_pos htN] at h
    exact runThread_keeps hu hw h
  | dispatches htN hd => exact .of_toQueues hd.toQueues
  | call | wakeup | waitReturns | timeout | endBegin | endReturn => exact .of_eq rfl rfl
  | @outDone t empty htN ht =>
    cases empty <;> exact .of_toQueues rfl
  | more htN ht hf hs =>
    refine .of_eq ?_ ?_
    all_goals
      show _ = _
      simp [hs.toQueues]
  | submit hs =>
    rw [hs.toQueues]
    exact ⟨le_rfl, .inl (Nat.le_succ _)⟩
  | registers hr => exact .of_toQueues hr.toQueues

theorem reachable_occupied {P : State → Action → Prop}
    (h : (loopSystem N fun _ => .main).Reachable P s) : s.pool.Occupied N := by
  refine h.invariant (I := fun s => s.pool.Occupied N) ?_ ?_
  · rintro _ rfl
    exact .of_free rfl
  · intro s a s' hr ho _ hs
    obtain hstep | ⟨-, t, -, ht⟩ := step_pool (reachable_backlog hr) (step_cases hs)
    · exact ho.step hstep
    · exact absurd (reachable_workers hr t).1 ht

/-! ## Arrivals -/

/-- The loop, and whether a task or a ready write event was ever queued. -/
structure Arrivals where
  state : State
  arrived : Bool

def Arrivals.step (r : Arrivals) (a : Action) : Option Arrivals :=
  (Loop.step 1 r.state a).map fun s =>
    ⟨s, r.arrived || decide (r.state.tasks < s.tasks ∨ r.state.outQueue < s.outQueue)⟩

/-- One worker, started by `start(1)`. -/
def soleSystem : System Arrivals Action where
  init r := r = ⟨.init fun _ => .main, false⟩
  step := Arrivals.step

theorem soleSystem_reachable {P : Arrivals → Action → Prop} {r : Arrivals}
    (h : soleSystem.Reachable P r) :
    (loopSystem 1 fun _ => .main).Reachable (fun _ _ => True) r.state := by
  apply h.simulate
  · rintro _ rfl
    rfl
  · intro r a r' _ _ hs
    obtain ⟨s', hs', rfl⟩ := Option.map_eq_some_iff.mp hs
    exact .inr ⟨a, trivial, hs'⟩

theorem queues_empty_iff {P : Arrivals → Action → Prop} {r : Arrivals} (h : soleSystem.Reachable P r) :
    r.state.tasks = 0 ∧ r.state.outQueue = 0 ↔ r.arrived = false := by
  apply h.invariant
  · rintro _ rfl
    exact ⟨fun _ => rfl, fun _ => ⟨rfl, rfl⟩⟩
  · intro r a r' hr hi _ hs
    obtain ⟨s', hs', rfl⟩ := Option.map_eq_some_iff.mp hs
    have hloop := soleSystem_reachable hr
    obtain ⟨hout, htasks⟩ := step_keeps (reachable_occupied hloop) (reachable_workers hloop) hs'
    simp only [Bool.or_eq_false_iff, decide_eq_false_iff_not]
    rw [← hi]
    omega

/-- The worker goes back to `m_kernel.wait` after a timeout, and then both queues are empty if and only if
nothing has been put into them since the loop was created. -/
theorem sole_worker_idle_iff {r : Arrivals} (h : soleSystem.Reachable (fun _ _ => True) r)
    (ht : r.state.pc 0 = .timedOut) (he : r.state.endFlag = false) (wake : Option ℕ) (k : ℕ) :
    Loop.step 1 r.state (.run 0 wake k) = some (r.state.setPc 0 .polling) ∧
    (r.state.tasks = 0 ∧ r.state.outQueue = 0 ↔ r.arrived = false) := by
  refine ⟨?_, queues_empty_iff h⟩
  have hk := (reachable_workers (soleSystem_reachable h) 0).1
  simp [step, runThread, ht, afterTimeout, hk, he]

theorem sole_worker_idle_iff_quiet : ∃ r, soleSystem.Reachable (fun _ _ => True) r ∧
    r.state.pc 0 = .timedOut ∧ r.state.tasks = 0 ∧ r.state.outQueue = 0 := by
  obtain ⟨r, hr, hq⟩ := System.exists_reachable_of_exec (S := soleSystem) (P := fun _ _ => True)
    (s := ⟨.init fun _ => .main, false⟩) [.run 0 none 0, .timeout 0]
    (fun r => decide (r.state.pc 0 = .timedOut ∧ r.state.endFlag = false ∧ r.arrived = false)) rfl
    (by decide +kernel)
  obtain ⟨ht, he, ha⟩ := of_decide_eq_true hq
  exact ⟨r, hr, ht, (sole_worker_idle_iff hr ht he none 0).2.mpr ha⟩

/-- A task is submitted while the worker polls. After the timeout it polls again, with the task
queued. -/
theorem sole_worker_starves : ∃ r, soleSystem.Reachable (fun _ _ => True) r ∧
    r.state.pc 0 = .timedOut ∧ r.state.endFlag = false ∧
    (Loop.step 1 r.state (.run 0 none 0)).map (fun s => (s.pc 0, s.tasks)) = some (.polling, 1) ∧
    ¬ (r.state.tasks = 0 ∧ r.state.outQueue = 0) := by
  obtain ⟨r, hr, hq⟩ := System.exists_reachable_of_exec (S := soleSystem) (P := fun _ _ => True)
    (s := ⟨.init fun _ => .main, false⟩) [.run 0 none 0, .submit none, .timeout 0]
    (fun r => decide (r.state.pc 0 = .timedOut ∧ r.state.endFlag = false ∧
      (Loop.step 1 r.state (.run 0 none 0)).map (fun s => (s.pc 0, s.tasks)) = some (.polling, 1) ∧
      ¬ (r.state.tasks = 0 ∧ r.state.outQueue = 0))) rfl (by decide +kernel)
  exact ⟨r, hr, of_decide_eq_true hq⟩

end Mpio.Wavy.Loop
