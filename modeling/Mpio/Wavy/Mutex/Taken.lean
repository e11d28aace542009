import Mpio.Lib.Fifo
import Mpio.Wavy.Mutex.Step

/-!
# Each task is taken once

`m_task_queue` and the queue of `out` are used in the same way, and both as `Lib.Fifo` says: under the
mutex `do_task` and `do_out` take the front out in one step, and on the path of `run_once(lk, false)`
that has no lock they check, look and pop in three. Under the condition `Undisturbed` every step of the
system is a step of both queues (`Step.tasks`, `Step.events`), so tasks and events are popped in order
and each popped one is executed once (`taken_once`). Without it another thread may pop between the look
and the pop: then one task is executed twice and the next one never (`taken_twice`).
-/

namespace Mpio.Wavy.Mutex

open Lib Finset

variable {N n m t : ℕ} {mc : Memcpy} {s s' : State} {a : Action}

/-! ## The two queues -/

/-- What a thread has of `m_task_queue`. -/
def Pc.taskHold : Pc → Hold ℕ
  | .taskFront => .checked
  | .taskPop f => .seen f
  | .taskLast f | .task f _ => .taken f
  | _ => .nothing

/-- What a thread has of the queue of `out`. -/
def Pc.eventHold : Pc → Hold ℕ
  | .outFront => .checked
  | .outPop e => .seen e
  | .outEvent e => .taken e
  | _ => .nothing

/-- A queue of the loop: what it has of the state, and what threads have of it. -/
structure Side where
  hold : Pc → Hold ℕ
  view : Queues → (ℕ → Hold ℕ) → Fifo ℕ

def Side.of (v : Side) (s : State) : Fifo ℕ := v.view s.toQueues fun t => v.hold (s.pc t)

def taskSide : Side where
  hold := Pc.taskHold
  view q hold := ⟨q.tasks, q.submitted, q.popped, q.executed, hold⟩

def eventSide : Side where
  hold := Pc.eventHold
  view q hold := ⟨q.out.queue, q.reported, q.dequeued, q.written, hold⟩

def tasksOf (s : State) : Fifo ℕ := taskSide.of s

def eventsOf (s : State) : Fifo ℕ := eventSide.of s

/-- When a thread pops a queue without the others noticing: nobody else is between its unlocked look at
the front and its pop, and nobody else is between its unlocked check and its look if the queue is
emptied. -/
def Undisturbed (N n m : ℕ) (mc : Memcpy) (s : State) : Action → Prop
  | .run t wake found => ∀ s' ∈ runThread N n m mc t wake found s,
      (s'.popped ≠ s.popped → (tasksOf s).Free N t s'.tasks) ∧
      (s'.dequeued ≠ s.dequeued → (eventsOf s).Free N t s'.out.queue)
  | _ => True

/-! ## Moves as steps of a queue -/

variable {v : Side}

theorem Side.stay (hq : v.view s'.toQueues = v.view s.toQueues)
    (hpc : ∀ u, v.hold (s'.pc u) = v.hold (s.pc u)) : Fifo.Step N (v.of s) (v.of s') := by
  apply Fifo.Step.stay
  rw [Side.of, hq, Side.of, funext hpc]

theorem Side.stay_setPc {p : Pc} (hq : v.view s'.toQueues = v.view s.toQueues)
    (hpc : ∀ u, v.hold (s'.pc u) = v.hold (s.pc u)) (ht : v.hold p = v.hold (s.pc t)) :
    Fifo.Step N (v.of s) (v.of (s'.setPc t p)) := by
  have hq' : v.view (s'.setPc t p).toQueues = v.view s.toQueues := hq
  apply Side.stay hq'
  intro u
  by_cases hu : u = t
  · subst hu
    rw [pc_setPc_self, ht]
  · rw [pc_setPc_of_ne hu, hpc u]

theorem Side.stay_ret (hv : ∀ k : Kind, v.hold k.back = .nothing)
    (hq : v.view s'.toQueues = v.view s.toQueues) (hpc : ∀ u, v.hold (s'.pc u) = v.hold (s.pc u))
    (ht : v.hold (s.pc t) = .nothing) : Fifo.Step N (v.of s) (v.of (s'.ret t)) := by
  apply Side.stay
  · rw [ret_toQueues, hq]
  · intro u
    rw [pc_ret]
    split_ifs with hu
    · subst hu
      rw [hv, ht]
    · exact hpc u

theorem Side.of_setPc (hpc : ∀ u, v.hold (s'.pc u) = v.hold (s.pc u)) (p : Pc) :
    v.of (s'.setPc t p) =
      v.view s'.toQueues (Function.update (fun u => v.hold (s.pc u)) t (v.hold p)) := by
  unfold Side.of
  congr 1
  funext u
  by_cases hu : u = t
  · subst hu
    simp
  · rw [pc_setPc_of_ne hu, Function.update_of_ne hu, hpc u]

theorem Side.of_ret (hv : ∀ k : Kind, v.hold k.back = .nothing)
    (hpc : ∀ u, v.hold (s'.pc u) = v.hold (s.pc u)) :
    v.of (s'.ret t) = v.view s'.toQueues (Function.update (fun u => v.hold (s.pc u)) t .nothing) := by
  unfold Side.of
  rw [ret_toQueues]
  congr 1
  funext u
  rw [pc_ret]
  by_cases hu : u = t
  · subst hu
    rw [if_pos rfl, hv, Function.update_self]
  · rw [if_neg hu, Function.update_of_ne hu, hpc u]

theorem Signalled.hold (h : Signalled N s s') (hw : v.hold .waiting = v.hold .woken) (u : ℕ) :
    v.hold (s'.pc u) = v.hold (s.pc u) := by
  obtain hpc | ⟨hpc, hpc'⟩ := h.pc u
  · rw [hpc]
  · rw [hpc, hpc', hw]

theorem taskHold_back (k : Kind) : k.back.taskHold = .nothing := by
  cases k <;> rfl

theorem eventHold_back (k : Kind) : k.back.eventHold = .nothing := by
  cases k <;> rfl

theorem Acquires.hold {s₀ : State} (h : Acquires t s s₀) :
    (s.pc t).taskHold = .nothing ∧ (s.pc t).eventHold = .nothing := by
  cases h with
  | lock hpc _ | woken hpc _ | polled hpc _ | flush hpc =>
    rw [hpc]
    exact ⟨rfl, rfl⟩

theorem append_singleton_ne (l : List ℕ) (a : ℕ) : l ++ [a] ≠ l := by
  intro h
  have := congrArg List.length h
  simp at this

theorem Sect.tasks (h : Sect N t s s') (htN : t < N) (ht : (s.pc t).taskHold = .nothing)
    (hfree : s'.popped ≠ s.popped → (tasksOf s).Free N t s'.tasks) :
    Fifo.Step N (tasksOf s) (tasksOf s') := by
  cases h with
  | leave hpc =>
    refine Side.stay_setPc (by simp) (fun u => congrArg taskSide.hold (pc_unlock _ t u)) ?_
    obtain rfl | rfl | ⟨i, rfl⟩ := hpc <;> exact ht.symm
  | pollOut ho =>
    refine Side.stay_setPc ?_ (fun u => congrArg taskSide.hold (pc_unlock _ t u)) ht.symm
    rw [unlock_toQueues]
    rfl
  | @lastTask f hf =>
    have hq : (({ s with toQueues := s.toQueues.poppedTask f [] }.unlock t).setPc t (.task f true)).toQueues =
        s.toQueues.poppedTask f [] := by rw [setPc_toQueues, unlock_toQueues]
    rw [hq] at hfree
    refine .take t htN ht f [] hf (hfree (append_singleton_ne _ _)) ?_
    rw [tasksOf, Side.of_setPc (fun u => congrArg taskSide.hold (pc_unlock _ t u)), unlock_toQueues]
    rfl
  | @task f rest s₁ hf hrest hs =>
    have hq : ((s₁.unlock t).setPc t (.task f false)).toQueues = s.toQueues.poppedTask f rest := by
      rw [setPc_toQueues, unlock_toQueues, hs.toQueues]
    rw [hq] at hfree
    refine .take t htN ht f rest hf (hfree (append_singleton_ne _ _)) ?_
    have hpc (u : ℕ) : taskSide.hold ((s₁.unlock t).pc u) = taskSide.hold (s.pc u) := by
      rw [pc_unlock, hs.hold rfl u]
      rfl
    rw [tasksOf, Side.of_setPc hpc, unlock_toQueues, hs.toQueues]
    rfl
  | outEvent hq =>
    refine Side.stay_setPc ?_ (fun u => congrArg taskSide.hold (pc_unlock _ t u)) ht.symm
    rw [unlock_toQueues]
    rfl
  | wait => exact Side.stay_setPc rfl (fun _ => rfl) ht.symm
  | ret => exact Side.stay_ret taskHold_back rfl (fun _ => rfl) ht

theorem Sect.events (h : Sect N t s s') (htN : t < N) (ht : (s.pc t).eventHold = .nothing)
    (hfree : s'.dequeued ≠ s.dequeued → (eventsOf s).Free N t s'.out.queue) :
    Fifo.Step N (eventsOf s) (eventsOf s') := by
  cases h with
  | leave hpc =>
    refine Side.stay_setPc (by simp) (fun u => congrArg eventSide.hold (pc_unlock _ t u)) ?_
    obtain rfl | rfl | ⟨i, rfl⟩ := hpc <;> exact ht.symm
  | @pollOut p found o ho =>
    -- the kernel changes the registrations and the backlog of `out`, and leaves its queue
    have hqueue : o.queue = s.out.queue := by
      unfold Wavy.State.pollWait at ho
      split_ifs at ho
      obtain rfl := Option.some.inj ho
      rfl
    refine .push o.backlog ?_
    rw [eventsOf, Side.of_setPc (fun u => congrArg eventSide.hold (pc_unlock _ t u)), unlock_toQueues]
    have hsame : Function.update (fun u => (s.pc u).eventHold) t .nothing = fun u => (s.pc u).eventHold := by
      rw [← ht, Function.update_eq_self]
    show (⟨o.queue ++ o.backlog, s.reported ++ o.backlog, s.dequeued, s.written,
      Function.update (fun u => (s.pc u).eventHold) t .nothing⟩ : Fifo ℕ) = _
    rw [hqueue, hsame]
    rfl
  | lastTask hf =>
    refine Side.stay_setPc ?_ (fun u => congrArg eventSide.hold (pc_unlock _ t u)) ht.symm
    rw [unlock_toQueues]
    rfl
  | @task f rest s₁ hf hrest hs =>
    refine Side.stay_setPc ?_ (fun u => ?_) ht.symm
    · rw [unlock_toQueues, hs.toQueues]
      rfl
    · rw [pc_unlock, hs.hold rfl u]
      rfl
  | @outEvent e rest hq =>
    have hq' : (({ s with toQueues := s.toQueues.poppedEvent e e rest }.unlock t).setPc t
        (.outEvent e)).toQueues = s.toQueues.poppedEvent e e rest := by
      rw [setPc_toQueues, unlock_toQueues]
    rw [hq'] at hfree
    refine .take t htN ht e rest hq (hfree (append_singleton_ne _ _)) ?_
    rw [eventsOf, Side.of_setPc (fun u => congrArg eventSide.hold (pc_unlock _ t u)), unlock_toQueues]
    rfl
  | wait => exact Side.stay_setPc rfl (fun _ => rfl) ht.symm
  | ret => exact Side.stay_ret eventHold_back rfl (fun _ => rfl) ht

theorem Side.of_acquired {p : Polling} {s₀ s₁ : State} (ha : Acquires t s s₀)
    (hs : s₁ = s₀ ∨ Signalled N { s₀ with toPolling := p } s₁) (hw : v.hold .waiting = v.hold .woken) :
    v.of s₁ = v.of s ∧ s₁.toQueues = s.toQueues ∧ v.hold (s₁.pc t) = v.hold (s.pc t) := by
  obtain ⟨hq, hpc, -⟩ := ha.same
  have hq₁ : s₁.toQueues = s.toQueues := by
    rcases hs with rfl | hs
    · exact hq
    · rw [hs.toQueues]
      exact hq
  have hpc₁ (u : ℕ) : v.hold (s₁.pc u) = v.hold (s.pc u) := by
    rcases hs with rfl | hs
    · rw [hpc]
    · rw [hs.hold hw u, ← hpc]
      rfl
  refine ⟨?_, hq₁, hpc₁ t⟩
  rw [Side.of, hq₁, Side.of, funext hpc₁]

/-- A thread that has checked or looked finds the queue non-empty. -/
theorem not_empty_of_hold (h : (v.of s).Sound N) (htN : t < N)
    (ht : (v.of s).hold t = .checked ∨ ∃ a, (v.of s).hold t = .seen a) : (v.of s).queue ≠ [] := by
  rcases ht with ht | ⟨a, ht⟩
  · exact h.checked t htN ht
  · intro hnil
    have hhead := h.seen t htN a ht
    rw [hnil] at hhead
    cases hhead

theorem failTask_absurd (h : (tasksOf s).Sound N) (htN : t < N)
    (hpc : s.pc t = .taskFront ∨ ∃ f, s.pc t = .taskPop f) (hf : s.tasks = []) : False := by
  refine not_empty_of_hold h htN ?_ hf
  show (s.pc t).taskHold = _ ∨ ∃ a, (s.pc t).taskHold = _
  rcases hpc with hpc | ⟨f, hpc⟩
  · rw [hpc]
    exact .inl rfl
  · rw [hpc]
    exact .inr ⟨f, rfl⟩

theorem failOut_absurd (h : (eventsOf s).Sound N) (htN : t < N)
    (hpc : s.pc t = .outFront ∨ ∃ e, s.pc t = .outPop e) (hq : s.out.queue = []) : False := by
  refine not_empty_of_hold h htN ?_ hq
  show (s.pc t).eventHold = _ ∨ ∃ a, (s.pc t).eventHold = _
  rcases hpc with hpc | ⟨e, hpc⟩
  · rw [hpc]
    exact .inl rfl
  · rw [hpc]
    exact .inr ⟨e, rfl⟩

theorem stepOut_queue {o : Wavy.State} {act : Wavy.Action} (hpush : act ≠ .pollPush)
    (hnext : act ≠ .next) (h : stepOut n m mc s.out act = some o) : o.queue = s.out.queue := by
  obtain hsame | hact | hact := (stepOut_changes h).2
  · exact hsame
  · exact absurd hact hpush
  · exact absurd hact hnext

/-- `broadcast` wakes up threads that have nothing of the queues. -/
theorem Side.stay_broadcast {s₀ : State} (hv : ∀ k : Kind, v.hold k.back = .nothing)
    (hw : v.hold .flushWaiting = v.hold .flushWoken) (h : s.relock t = some s₀)
    (ht : v.hold (s.pc t) = .nothing) :
    Fifo.Step N (v.of s) (v.of ((s₀.wakeAll .flushWaiting .flushWoken).ret t)) := by
  obtain ⟨hq, hpc, -⟩ := relock_same h
  refine Side.stay_ret hv (by simp [hq]) (fun u => ?_) ht
  rw [pc_wakeAll, hpc]
  split_ifs with hu
  · rw [hu, hw]
  · rfl

theorem Move.tasks (h : Move N n m mc t s s') (htN : t < N) (hsound : (tasksOf s).Sound N)
    (hfree : s'.popped ≠ s.popped → (tasksOf s).Free N t s'.tasks) :
    Fifo.Step N (tasksOf s) (tasksOf s') := by
  have hhold {pc : Pc} {x : Hold ℕ} (hpc : s.pc t = pc) (hx : pc.taskHold = x) :
      (tasksOf s).hold t = x := by
    show (s.pc t).taskHold = x
    rw [hpc, hx]
  cases h with
  | sect ha hs h =>
    obtain ⟨hof, hq, hpc⟩ := Side.of_acquired (v := taskSide) ha hs rfl
    have hof' : tasksOf _ = tasksOf s := hof
    rw [← hof'] at hfree ⊢
    rw [← hq] at hfree
    exact h.tasks htN (hpc.trans ha.hold.1) hfree
  | flushLock hpc h hk =>
    obtain ⟨hq, hpc', -⟩ := lock_same h
    exact Side.stay_setPc (by rw [hq]) (fun u => by rw [hpc']) (hhold hpc rfl).symm
  | timedOut hpc hto =>
    refine Side.stay_setPc rfl (fun _ => rfl) ?_
    obtain rfl | rfl | ⟨rfl, -⟩ := hto <;> exact (hhold hpc rfl).symm
  | timedOutRet hpc => exact Side.stay_ret taskHold_back rfl (fun _ => rfl) (hhold hpc rfl)
  | hasTask hpc hf => exact .check t htN (hhold hpc rfl) hf (Side.of_setPc (fun _ => rfl) _)
  | @taskFront f rest hpc hf =>
    exact .front t htN (hhold hpc rfl) f rest hf (Side.of_setPc (fun _ => rfl) _)
  | @taskPop f g rest hpc hf =>
    exact .pop t htN f (hhold hpc rfl) g rest hf (hfree (append_singleton_ne _ _))
      (Side.of_setPc (fun _ => rfl) _)
  | taskMore hpc hs =>
    exact Side.stay_setPc (by rw [hs.toQueues]) (fun u => hs.hold rfl u) (hhold hpc rfl).symm
  | failOut hpc hq =>
    refine Side.stay_setPc rfl (fun _ => rfl) ?_
    obtain hpc | ⟨e, hpc⟩ := hpc <;> exact (hhold hpc rfl).symm
  | failTask hpc hf => exact (failTask_absurd hsound htN hpc hf).elim
  | @executedLast f hpc => exact .serve t htN f (hhold hpc rfl) (Side.of_setPc (fun _ => rfl) _)
  | @executed f hpc =>
    exact .serve t htN f (hhold hpc rfl) (Side.of_ret taskHold_back fun _ => rfl)
  | writing hpc ho hcs => exact Side.stay rfl fun _ => rfl
  | written hpc ho hcs => exact Side.stay_ret taskHold_back rfl (fun _ => rfl) (hhold hpc rfl)
  | broadcast hpc h => exact Side.stay_broadcast taskHold_back rfl h (hhold hpc rfl)
  | ret hpc =>
    refine Side.stay_ret taskHold_back rfl (fun _ => rfl) ?_
    obtain hpc | hpc | ⟨i, hpc⟩ := hpc <;> exact hhold hpc rfl
  | flushed hpc =>
    exact Side.stay_setPc (by simp) (fun u => congrArg taskSide.hold (pc_unlock _ t u))
      (hhold hpc rfl).symm
  | flushRelock hpc h =>
    obtain ⟨hq, hpc', -⟩ := relock_same h
    exact Side.stay_setPc (by rw [hq]) (fun u => by rw [hpc']) (hhold hpc rfl).symm
  | hasQueue hpc _ | noQueue hpc | outFront hpc _ | outPop hpc _ | taskLast hpc _ | writtenLast hpc _
  | flushHold hpc _ | flushWait hpc | flushWoken hpc _ | flushOwned hpc _ =>
    exact Side.stay_setPc rfl (fun _ => rfl) (hhold hpc rfl).symm

theorem Move.events (h : Move N n m mc t s s') (htN : t < N) (hsound : (eventsOf s).Sound N)
    (hfree : s'.dequeued ≠ s.dequeued → (eventsOf s).Free N t s'.out.queue) :
    Fifo.Step N (eventsOf s) (eventsOf s') := by
  have hhold {pc : Pc} {x : Hold ℕ} (hpc : s.pc t = pc) (hx : pc.eventHold = x) :
      (eventsOf s).hold t = x := by
    show (s.pc t).eventHold = x
    rw [hpc, hx]
  have hview {o : Wavy.State} {e : ℕ} (ho : stepOut n m mc s.out (.goOn e) = some o) :
      eventSide.view { s.toQueues with out := o } = eventSide.view s.toQueues := by
    funext hold
    simp only [eventSide, stepOut_queue (by simp) (by simp) ho]
  cases h with
  | sect ha hs h =>
    obtain ⟨hof, hq, hpc⟩ := Side.of_acquired (v := eventSide) ha hs rfl
    have hof' : eventsOf _ = eventsOf s := hof
    rw [← hof'] at hfree ⊢
    rw [← hq] at hfree
    exact h.events htN (hpc.trans ha.hold.2) hfree
  | flushLock hpc h hk =>
    obtain ⟨hq, hpc', -⟩ := lock_same h
    exact Side.stay_setPc (by rw [hq]) (fun u => by rw [hpc']) (hhold hpc rfl).symm
  | timedOut hpc hto =>
    refine Side.stay_setPc rfl (fun _ => rfl) ?_
    obtain rfl | rfl | ⟨rfl, -⟩ := hto <;> exact (hhold hpc rfl).symm
  | timedOutRet hpc => exact Side.stay_ret eventHold_back rfl (fun _ => rfl) (hhold hpc rfl)
  | hasQueue hpc hq => exact .check t htN (hhold hpc rfl) hq (Side.of_setPc (fun _ => rfl) _)
  | @outFront e rest hpc hq =>
    exact .front t htN (hhold hpc rfl) e rest hq (Side.of_setPc (fun _ => rfl) _)
  | @outPop d e rest hpc hq =>
    exact .pop t htN e (hhold hpc rfl) d rest hq (hfree (append_singleton_ne _ _))
      (Side.of_setPc (fun _ => rfl) _)
  | taskMore hpc hs =>
    exact Side.stay_setPc (by rw [hs.toQueues]) (fun u => hs.hold rfl u) (hhold hpc rfl).symm
  | failOut hpc hq => exact (failOut_absurd hsound htN hpc hq).elim
  | failTask hpc hf =>
    refine Side.stay_setPc rfl (fun _ => rfl) ?_
    obtain hpc | ⟨f, hpc⟩ := hpc <;> exact (hhold hpc rfl).symm
  | executed hpc => exact Side.stay_ret eventHold_back rfl (fun _ => rfl) (hhold hpc rfl)
  | writing hpc ho hcs => exact Side.stay (hview ho) fun _ => rfl
  | written hpc ho hcs =>
    exact Side.stay_ret eventHold_back (hview ho) (fun _ => rfl) (hhold hpc rfl)
  | writtenLast hpc ho => exact Side.stay_setPc (hview ho) (fun _ => rfl) (hhold hpc rfl).symm
  | broadcast hpc h => exact Side.stay_broadcast eventHold_back rfl h (hhold hpc rfl)
  | ret hpc =>
    refine Side.stay_ret eventHold_back rfl (fun _ => rfl) ?_
    obtain hpc | hpc | ⟨i, hpc⟩ := hpc <;> exact hhold hpc rfl
  | flushed hpc =>
    exact Side.stay_setPc (by simp) (fun u => congrArg eventSide.hold (pc_unlock _ t u))
      (hhold hpc rfl).symm
  | flushRelock hpc h =>
    obtain ⟨hq, hpc', -⟩ := relock_same h
    exact Side.stay_setPc (by rw [hq]) (fun u => by rw [hpc']) (hhold hpc rfl).symm
  | noQueue hpc | hasTask hpc _ | taskFront hpc _ | taskPop hpc _ | taskLast hpc _ | executedLast hpc
  | flushHold hpc _ | flushWait hpc | flushWoken hpc _ | flushOwned hpc _ =>
    exact Side.stay_setPc rfl (fun _ => rfl) (hhold hpc rfl).symm

/-! ## Steps of the system -/

theorem Side.hold_start (hv : v.hold .outside = v.hold .lock) (p : Polling) (u : ℕ) :
    v.hold (State.pc { s with
      toPolling := p
      threads := fun t =>
        if s.kind t = .main ∧ s.pc t = .outside then ⟨.main, s.owns t, .lock⟩ else s.threads t } u) =
      v.hold (s.pc u) := by
  simp only [pc_mk]
  split_ifs with hc
  · rw [hc.2, hv]
  · rfl

theorem Side.hold_wakeAll {p p' : Pc} (hv : v.hold p = v.hold p') (u : ℕ) :
    v.hold ((s.wakeAll p p').pc u) = v.hold (s.pc u) := by
  rw [pc_wakeAll]
  split_ifs with hu
  · rw [hu, hv]
  · rfl

theorem Side.hold_call {kind : Kind} (hv : v.hold .outside = v.hold .lock) (hpc : s.pc t = .outside)
    (u : ℕ) :
    v.hold (State.pc { s with threads := Function.update s.threads t ⟨kind, s.owns t, .lock⟩ } u) =
      v.hold (s.pc u) := by
  by_cases hu : u = t
  · subst hu
    simp [hpc, hv]
  · simp [Function.update_of_ne hu]

theorem Step.tasks (h : Step N n m mc s a s') (hs : step N n m mc s a = some s')
    (hsound : (tasksOf s).Sound N) (hu : Undisturbed N n m mc s a) : Fifo.Step N (tasksOf s) (tasksOf s') := by
  cases h with
  | @move t wake found _ htN h =>
    simp only [step, if_pos htN] at hs
    exact h.tasks htN hsound (hu s' hs).1
  | call htN hk hpc => exact Side.stay rfl (Side.hold_call rfl hpc)
  | wakeup htN hp =>
    refine Side.stay_setPc rfl (fun _ => rfl) ?_
    obtain ⟨hpc, rfl⟩ | ⟨hpc, rfl⟩ := hp <;> rw [hpc] <;> rfl
  | waitReturns htN hpc | timeout htN hpc =>
    exact Side.stay_setPc rfl (fun _ => rfl) (by rw [hpc]; rfl)
  | writeEvent htN hpc ho => exact Side.stay_setPc rfl (fun _ => rfl) (by rw [hpc]; rfl)
  | more hs =>
    exact Side.stay (by rw [hs.toQueues]) fun u => by rw [hs.hold rfl u]; rfl
  | @submit f wake _ hs =>
    refine .push [f] ?_
    rw [tasksOf, Side.of, hs.toQueues, funext (hs.hold rfl)]
    rfl
  | commit hb ho => exact Side.stay rfl fun _ => rfl
  | start => exact Side.stay rfl (Side.hold_start rfl _)
  | join | endBegin => exact Side.stay rfl fun _ => rfl
  | endReturn => exact Side.stay rfl (Side.hold_wakeAll rfl)

theorem Step.events (h : Step N n m mc s a s') (hs : step N n m mc s a = some s')
    (hsound : (eventsOf s).Sound N) (hu : Undisturbed N n m mc s a) :
    Fifo.Step N (eventsOf s) (eventsOf s') := by
  cases h with
  | @move t wake found _ htN h =>
    simp only [step, if_pos htN] at hs
    exact h.events htN hsound (hu s' hs).2
  | call htN hk hpc => exact Side.stay rfl (Side.hold_call rfl hpc)
  | wakeup htN hp =>
    refine Side.stay_setPc rfl (fun _ => rfl) ?_
    obtain ⟨hpc, rfl⟩ | ⟨hpc, rfl⟩ := hp <;> rw [hpc] <;> rfl
  | waitReturns htN hpc | timeout htN hpc =>
    exact Side.stay_setPc rfl (fun _ => rfl) (by rw [hpc]; rfl)
  | @writeEvent t e as o htN hpc ho =>
    refine .serve t htN e ?_ ?_
    · show (s.pc t).eventHold = _
      rw [hpc]
      rfl
    · rw [eventsOf, Side.of_setPc (fun _ => rfl)]
      have hqueue := stepOut_queue (by simp) (by simp) ho
      show (⟨o.queue, _, _, _, _⟩ : Fifo ℕ) = _
      rw [hqueue]
      rfl
  | more hs =>
    exact Side.stay (by rw [hs.toQueues]) fun u => by rw [hs.hold rfl u]; rfl
  | submit hs =>
    refine Side.stay ?_ fun u => by rw [hs.hold rfl u]; rfl
    rw [hs.toQueues]
    rfl
  | @commit act o hb ho =>
    refine Side.stay ?_ fun _ => rfl
    have hqueue : o.queue = s.out.queue := by
      refine stepOut_queue ?_ ?_ ho
      all_goals
        rintro rfl
        cases hb
    funext hold
    simp only [eventSide, hqueue]
  | start => exact Side.stay rfl (Side.hold_start rfl _)
  | join | endBegin => exact Side.stay rfl fun _ => rfl
  | endReturn => exact Side.stay rfl (Side.hold_wakeAll rfl)

theorem Sect.undefined (h : Sect N t s s') : s'.undefined = s.undefined := by
  cases h with
  | task hf hrest hs =>
    rw [setPc_toQueues, unlock_toQueues, hs.toQueues]
    rfl
  | wait => rfl
  | ret => rw [ret_toQueues]
  | leave => rw [setPc_toQueues, unlock_toQueues]
  | pollOut | lastTask | outEvent =>
    rw [setPc_toQueues, unlock_toQueues]
    rfl

/-- No thread calls `front` or `pop` on an empty queue. -/
theorem Move.undefined (h : Move N n m mc t s s') (htN : t < N) (ht : (tasksOf s).Sound N)
    (he : (eventsOf s).Sound N) : s'.undefined = s.undefined := by
  cases h with
  | sect ha hs h =>
    obtain ⟨-, hq, -⟩ := Side.of_acquired (v := taskSide) ha hs rfl
    rw [h.undefined, hq]
  | flushLock hpc h hk => rw [setPc_toQueues, (lock_same h).1]
  | failOut hpc hq => exact (failOut_absurd he htN hpc hq).elim
  | failTask hpc hf => exact (failTask_absurd ht htN hpc hf).elim
  | timedOutRet | ret => rw [ret_toQueues]
  | executed | written => rw [ret_toQueues]
  | taskMore hpc hs => rw [setPc_toQueues, hs.toQueues]
  | broadcast hpc h => rw [ret_toQueues, wakeAll_toQueues, (relock_same h).1]
  | flushed => rw [setPc_toQueues, unlock_toQueues]
  | flushRelock hpc h => rw [setPc_toQueues, (relock_same h).1]
  | _ => rfl

theorem Step.undefined (h : Step N n m mc s a s') (ht : (tasksOf s).Sound N)
    (he : (eventsOf s).Sound N) : s'.undefined = s.undefined := by
  cases h with
  | move htN h => exact h.undefined htN ht he
  | more hs => rw [hs.toQueues]
  | submit hs => rw [hs.toQueues]
  | _ => rfl

/-! ## Runs -/

structure TakenInv (N : ℕ) (s : State) : Prop where
  tasks : (tasksOf s).Sound N
  events : (eventsOf s).Sound N
  defined : s.undefined = false

variable {kinds : ℕ → Kind}

theorem reachable_takenInv (h : (mutexSystem N n m mc kinds).Reachable (Undisturbed N n m mc) s) :
    TakenInv N s := by
  apply h.invariant
  · rintro s ⟨world, rfl⟩
    exact ⟨.start, .start, rfl⟩
  · intro s a s' _ hinv hu hs
    have hstep := step_cases hs
    refine ⟨?_, ?_, ?_⟩
    · exact hinv.tasks.step (hstep.tasks hs hinv.tasks hu)
    · exact hinv.events.step (hstep.events hs hinv.events hu)
    · rw [hstep.undefined hinv.tasks hinv.events]
      exact hinv.defined

/-- Tasks are popped in the order of their submission and none is lost: what was popped, followed by what
is queued, is what was submitted. Every task popped was executed, once for each time it was popped, or
is held by one thread that will execute it. The same holds for the events of `out`, and no thread ever
takes from an empty queue. -/
theorem taken_once (h : (mutexSystem N n m mc kinds).Reachable (Undisturbed N n m mc) s) :
    (s.submitted = s.popped ++ s.tasks ∧
      (s.popped : Multiset ℕ) = s.executed + ∑ t ∈ range N, (s.pc t).taskHold.value) ∧
    (s.reported = s.dequeued ++ s.out.queue ∧
      (s.dequeued : Multiset ℕ) = s.written + ∑ t ∈ range N, (s.pc t).eventHold.value) ∧
    s.undefined = false := by
  have hinv := reachable_takenInv h
  exact ⟨⟨hinv.tasks.order, hinv.tasks.served⟩, ⟨hinv.events.order, hinv.events.served⟩, hinv.defined⟩

instance (q : Fifo ℕ) (rest : List ℕ) : Decidable (q.Free N t rest) :=
  inferInstanceAs (Decidable (∀ u < N, u ≠ t →
    (q.hold u).isSeen = false ∧ (rest = [] → (q.hold u).isChecked = false)))

instance (s : State) (a : Action) : Decidable (Undisturbed N n m mc s a) :=
  match a with
  | .run t wake found => inferInstanceAs (Decidable (∀ s' ∈ runThread N n m mc t wake found s,
      (s'.popped ≠ s.popped → (tasksOf s).Free N t s'.tasks) ∧
      (s'.dequeued ≠ s.dequeued → (eventsOf s).Free N t s'.out.queue)))
  | .call .. | .wakeup .. | .waitReturns .. | .timeout .. | .writeEvent .. | .more .. | .submit ..
  | .commit .. | .start | .join | .endBegin | .endReturn => inferInstanceAs (Decidable True)

/-- Two threads: `run_nonblock` polls while two tasks are submitted, finds no event, and looks at the
first task without the lock. -/
def unlockedLook : List Action :=
  [.call 0 .nonblock, .run 0 none [], .submit 7 none, .submit 8 none, .timeout 0, .run 0 none [],
    .run 0 none [], .run 0 none [], .run 0 none []]

/-- Nobody interferes: it pops the task and executes it, and `run_once` gets the next. -/
theorem taken_once_unlockedLook :
    ∃ s, (mutexSystem 2 1 0 .ascending fun _ => .once).Reachable (Undisturbed 2 1 0 .ascending) s ∧
      s.executed = [7, 8] ∧ s.popped = [7, 8] ∧ s.submitted = s.popped ++ s.tasks := by
  obtain ⟨s, hs, hq⟩ := System.exists_reachable_of_exec
    (S := mutexSystem 2 1 0 .ascending fun _ => .once) (P := Undisturbed 2 1 0 .ascending)
    (s := .init (fun _ => .once) ⟨fun _ => 0, fun _ _ => 0⟩)
    (unlockedLook ++ [.run 0 none [], .run 0 none [], .run 0 none [], .call 1 .once, .run 1 none [],
      .run 1 none []])
    (fun s => decide (s.executed = [7, 8] ∧ s.popped = [7, 8])) ⟨_, rfl⟩ (by decide +kernel)
  obtain ⟨he, hp⟩ := of_decide_eq_true hq
  exact ⟨s, hs, he, hp, (taken_once hs).1.1⟩

/-- `run_once` pops the task that `run_nonblock` has looked at. The task is executed twice, and the
one after it is popped and never executed. -/
theorem taken_twice :
    ∃ s, (mutexSystem 2 1 0 .ascending fun _ => .once).Reachable (fun _ _ => True) s ∧
      s.submitted = [7, 8] ∧ s.popped = [7, 8] ∧ s.executed = [7, 7] ∧ s.pc 0 = .broadcast ∧
      s.pc 1 = .outside := by
  obtain ⟨s, hs, hq⟩ := System.exists_reachable_of_exec
    (S := mutexSystem 2 1 0 .ascending fun _ => .once) (P := fun _ _ => True)
    (s := .init (fun _ => .once) ⟨fun _ => 0, fun _ _ => 0⟩)
    (unlockedLook ++ [.call 1 .once, .run 1 none [], .run 0 none [], .run 0 none [], .run 0 none [],
      .run 1 none []])
    (fun s => decide (s.submitted = [7, 8] ∧ s.popped = [7, 8] ∧ s.executed = [7, 7] ∧
      s.pc 0 = .broadcast ∧ s.pc 1 = .outside)) ⟨_, rfl⟩ (by decide +kernel)
  exact ⟨s, hs, of_decide_eq_true hq⟩

end Mpio.Wavy.Mutex
