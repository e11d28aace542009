import Mpio.Wavy.Loop.Poll

/-!
# `m_kernel.wait` fails in `run_once`

With an error that is neither `EINTR` nor `EAGAIN`, `run_once` throws. Its lock has been given up, but
`m_pollable` is still false, and unlike the branch of the timeout nobody sets it back: only the thread that
polls does so. In `thread_main` the exception ends the process; the caller of `run_once`, `run_nonblock` or
`flush` may catch it and go on with a loop that never sees another event (`failed_poll_final`).
-/

namespace Mpio.Wavy.Loop

open Lib

variable {N : ℕ} {s s' : State} {a : Action} {kinds : ℕ → Kind} {P Q : State → Action → Prop}

/-- `throw system_error(errno, "wavy kernel event failed")`: the thread leaves `run_once`. -/
def waitFails (N : ℕ) (s : State) (t : ℕ) : Option State :=
  match (s.threads t).kind with
  | .once _ => if t < N ∧ s.pc t = .polling then some (s.setPc t .outside) else none
  | .main => none

theorem waitFails_cases {t : ℕ} (h : waitFails N s t = some s') :
    t < N ∧ s.pc t = .polling ∧ s' = s.setPc t .outside := by
  unfold waitFails at h
  split at h
  · split_ifs at h with hc
    exact ⟨hc.1, hc.2, (Option.some.inj h).symm⟩
  · cases h

theorem abandoned_of_waitFails {t : ℕ} (hl : s.pool.Led N) (h : waitFails N s t = some s') :
    s'.pool.Abandoned N := by
  obtain ⟨htN, ht, rfl⟩ := waitFails_cases h
  have hlead : (s.pc t).mode = .leading := by
    rw [ht]
    rfl
  have hp : s.pollable = false := pollable_of_leading hl htN hlead
  refine ⟨hp, fun u huN hu => ?_⟩
  change ((s.setPc t .outside).pc u).mode = .leading at hu
  by_cases hut : u = t
  · rw [hut, pc_setPc_self] at hu
    cases hu
  · rw [pc_setPc_of_ne hut] at hu
    exact hut (hl.unique u huN t htN hu hlead)

theorem reported_step (h : Step N s a s') (hp : ∀ t < N, (s.pc t).mode ≠ .leading) :
    s'.reported = s.reported := by
  cases h with
  | @waitReturns t idents htN ht =>
    refine absurd ?_ (hp t htN)
    rw [ht]
    rfl
  | dispatches htN hd => rw [hd.toQueues]
  | registers hr => rw [hr.toQueues]
  | submit hs | more htN ht hf hs => simp [hs.toQueues]
  | @outDone t empty htN ht => cases empty <;> rfl
  | call | wakeup | timeout | endBegin | endReturn => rfl
  | locked htN hl =>
    cases hl with
    | task ht hn hs | relock ht hs hb => simp [hs.toQueues]
    | @done last ht => cases last <;> rfl
    | _ => rfl

/-- Once the wait has failed in a thread that called `run_once`, in every further run nobody polls again,
whatever the threads do, and the kernel reports nothing. -/
theorem failed_poll_final {t : ℕ} {s₁ : State} (h : (loopSystem N kinds).Reachable P s)
    (hf : waitFails N s t = some s₁) (h' : ((loopSystem N kinds).startingAt s₁).Reachable Q s') :
    s'.pollable = false ∧ s'.off = s'.num ∧ s'.reported = s.reported ∧
      ∀ u < N, s'.pc u ≠ .polling ∧ s'.pc u ≠ .timedOut ∧ ∀ evs, s'.pc u ≠ .polled evs := by
  have hinv : Backlog s' ∧ s'.pool.Abandoned N ∧ s'.reported = s.reported := by
    refine h'.invariant (I := fun s' => Backlog s' ∧ s'.pool.Abandoned N ∧ s'.reported = s.reported) ?_ ?_
    · rintro _ rfl
      have habandoned := abandoned_of_waitFails (reachable_led h) hf
      obtain ⟨-, -, rfl⟩ := waitFails_cases hf
      exact ⟨(reachable_backlog h).frame rfl fun _ _ => setPc_polled fun _ => Pc.noConfusion, habandoned, rfl⟩
    · rintro s₂ a s₃ - ⟨hb, habandoned, hreported⟩ - hs
      have hstep : Step N s₂ a s₃ := step_cases hs
      refine ⟨hb.step hstep, ?_, (reported_step hstep habandoned.leaderless).trans hreported⟩
      obtain hpool | ⟨hresign, -⟩ := step_pool hb hstep
      · exact habandoned.step hpool
      · exact absurd hresign habandoned.not_resign
  obtain ⟨hb, habandoned, hreported⟩ := hinv
  refine ⟨habandoned.taken, hb.polling habandoned.taken, hreported, fun u huN => ?_⟩
  have hu : (s'.pc u).mode ≠ .leading := habandoned.leaderless u huN
  refine ⟨?_, ?_, ?_⟩
  · rintro hpc
    exact hu (by rw [hpc]; rfl)
  · rintro hpc
    exact hu (by rw [hpc]; rfl)
  · rintro evs hpc
    exact hu (by rw [hpc]; rfl)

theorem failed_poll_final_caught : ∃ s s₁ s', (loopSystem 1 fun _ => .once true).Reachable (fun _ _ => True) s ∧
    waitFails 1 s 0 = some s₁ ∧
    ((loopSystem 1 fun _ => .once true).startingAt s₁).Reachable (fun _ _ => True) s' ∧
    s'.pc 0 = .waiting ∧ s'.pollable = false ∧ s'.reported = s.reported := by
  obtain ⟨s, hs, hq⟩ := System.exists_reachable_of_exec (S := loopSystem 1 fun _ => .once true)
    (P := fun _ _ => True) (s := .init fun _ => .once true) [.call 0 true, .run 0 none 0]
    (fun s => (waitFails 1 s 0).any fun s₁ =>
      (((loopSystem 1 fun _ => .once true).startingAt s₁).exec (fun _ _ => True) s₁
        [.addHandler 1 5, .call 0 true, .run 0 none 0]).any (fun s' => s'.pc 0 == .waiting)) rfl
    (by decide)
  obtain ⟨s₁, hf, hrun⟩ := (Option.any_eq_true ..).mp hq
  obtain ⟨s', hexec, hpc⟩ := (Option.any_eq_true ..).mp hrun
  have hs' := System.Reachable.of_exec (.init rfl) hexec
  have hfinal := failed_poll_final hs hf hs'
  exact ⟨s, s₁, s', hs, hf, hs', by simpa using hpc, hfinal.1, hfinal.2.2.1⟩

end Mpio.Wavy.Loop
