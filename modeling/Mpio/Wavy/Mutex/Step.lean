import Mpio.Wavy.Mutex.Model

/-!
# The steps of a thread

`Sect` lists how a section under `m_mutex` may go, from the moment the lock is there; `Move` lists the
steps of one thread and `Step` those of the system. Everything later is by cases on these, so no later
proof looks into `thread_main` or `run_once`. `Others` is what a step of one thread may do to the rest,
and `Nudged` what a step that no thread takes may do to any of them.
-/

namespace Mpio.Wavy.Mutex

open Lib

variable {N n m t u : ℕ} {mc : Memcpy} {s s' : State}

/-! ## What the primitives change -/

@[simp] theorem setPc_toPolling (s : State) (t : ℕ) (p : Pc) : (s.setPc t p).toPolling = s.toPolling := rfl

@[simp] theorem setPc_toQueues (s : State) (t : ℕ) (p : Pc) : (s.setPc t p).toQueues = s.toQueues := rfl

@[simp] theorem setPc_mutex (s : State) (t : ℕ) (p : Pc) : (s.setPc t p).mutex = s.mutex := rfl

@[simp] theorem setOwns_toQueues (s : State) (t : ℕ) (b : Bool) :
    (s.setOwns t b).toQueues = s.toQueues := rfl

@[simp] theorem setOwns_mutex (s : State) (t : ℕ) (b : Bool) : (s.setOwns t b).mutex = s.mutex := rfl

theorem pc_setPc (s : State) (t u : ℕ) (p : Pc) :
    (s.setPc t p).pc u = if u = t then p else s.pc u := by
  by_cases h : u = t
  · simp [State.setPc, State.pc, h]
  · simp [State.setPc, State.pc, h]

@[simp] theorem pc_setPc_self (s : State) (t : ℕ) (p : Pc) : (s.setPc t p).pc t = p := by
  simp [pc_setPc]

theorem pc_setPc_of_ne (h : u ≠ t) (s : State) (p : Pc) : (s.setPc t p).pc u = s.pc u := by
  simp [pc_setPc, h]

@[simp] theorem owns_setPc (s : State) (t u : ℕ) (p : Pc) : (s.setPc t p).owns u = s.owns u := by
  by_cases h : u = t
  · simp [State.setPc, State.owns, h]
  · simp [State.setPc, State.owns, Function.update_of_ne h]

@[simp] theorem pc_setOwns (s : State) (t u : ℕ) (b : Bool) : (s.setOwns t b).pc u = s.pc u := by
  by_cases h : u = t
  · simp [State.setOwns, State.pc, h]
  · simp [State.setOwns, State.pc, Function.update_of_ne h]

theorem owns_setOwns (s : State) (t u : ℕ) (b : Bool) :
    (s.setOwns t b).owns u = if u = t then b else s.owns u := by
  by_cases h : u = t
  · simp [State.setOwns, State.owns, h]
  · simp [State.setOwns, State.owns, h]

@[simp] theorem kind_setPc (s : State) (t u : ℕ) (p : Pc) : (s.setPc t p).kind u = s.kind u := by
  by_cases h : u = t
  · simp [State.setPc, State.kind, h]
  · simp [State.setPc, State.kind, Function.update_of_ne h]

@[simp] theorem kind_setOwns (s : State) (t u : ℕ) (b : Bool) : (s.setOwns t b).kind u = s.kind u := by
  by_cases h : u = t
  · simp [State.setOwns, State.kind, h]
  · simp [State.setOwns, State.kind, Function.update_of_ne h]

@[simp] theorem unlock_toQueues (s : State) (t : ℕ) : (s.unlock t).toQueues = s.toQueues := by
  unfold State.unlock
  split_ifs <;> rfl

@[simp] theorem pc_unlock (s : State) (t u : ℕ) : (s.unlock t).pc u = s.pc u := by
  unfold State.unlock
  split_ifs
  · exact pc_setOwns _ t u false
  · rfl

theorem owns_unlock (s : State) (t u : ℕ) : (s.unlock t).owns u = if u = t then false else s.owns u := by
  unfold State.unlock
  by_cases ho : s.owns t = true
  · rw [if_pos ho, owns_setOwns]
    rfl
  · rw [if_neg ho]
    by_cases hu : u = t
    · subst hu
      simpa using ho
    · rw [if_neg hu]

@[simp] theorem kind_unlock (s : State) (t u : ℕ) : (s.unlock t).kind u = s.kind u := by
  unfold State.unlock
  split_ifs
  · exact kind_setOwns _ t u false
  · rfl

theorem mutex_unlock (s : State) (t : ℕ) :
    (s.unlock t).mutex = if s.owns t then none else s.mutex := by
  unfold State.unlock
  split_ifs <;> rfl

/-- Where a thread goes when a round is over. -/
def Kind.back : Kind → Pc
  | .main => .lock
  | .once | .nonblock => .outside
  | .flush => .flushBack

@[simp] theorem ret_toQueues (s : State) (t : ℕ) : (s.ret t).toQueues = s.toQueues := by
  unfold State.ret
  split <;> simp

theorem pc_ret (s : State) (t u : ℕ) : (s.ret t).pc u = if u = t then (s.kind t).back else s.pc u := by
  unfold State.ret
  cases hk : s.kind t <;> simp [pc_setPc, Kind.back]

/-- `ret` lets go of the lock, except in `flush`. -/
theorem owns_ret (s : State) (t u : ℕ) :
    (s.ret t).owns u = if u = t ∧ s.kind t ≠ .flush then false else s.owns u := by
  unfold State.ret
  cases hk : s.kind t <;> simp [owns_unlock]

@[simp] theorem kind_ret (s : State) (t u : ℕ) : (s.ret t).kind u = s.kind u := by
  unfold State.ret
  split <;> simp

theorem mutex_ret (s : State) (t : ℕ) :
    (s.ret t).mutex = if s.owns t ∧ s.kind t ≠ .flush then none else s.mutex := by
  unfold State.ret
  cases hk : s.kind t <;> simp [mutex_unlock]

@[simp] theorem wakeAll_toQueues (s : State) (p p' : Pc) : (s.wakeAll p p').toQueues = s.toQueues := rfl

@[simp] theorem wakeAll_mutex (s : State) (p p' : Pc) : (s.wakeAll p p').mutex = s.mutex := rfl

@[simp] theorem owns_wakeAll (s : State) (p p' : Pc) (u : ℕ) : (s.wakeAll p p').owns u = s.owns u := rfl

@[simp] theorem kind_wakeAll (s : State) (p p' : Pc) (u : ℕ) : (s.wakeAll p p').kind u = s.kind u := rfl

theorem pc_wakeAll (s : State) (p p' : Pc) (u : ℕ) :
    (s.wakeAll p p').pc u = if s.pc u = p then p' else s.pc u := rfl

@[simp] theorem threads_pc (s : State) (t : ℕ) : (s.threads t).pc = s.pc t := rfl

@[simp] theorem threads_owns (s : State) (t : ℕ) : (s.threads t).owns = s.owns t := rfl

@[simp] theorem threads_kind (s : State) (t : ℕ) : (s.threads t).kind = s.kind t := rfl

@[simp] theorem pc_mk (p : Polling) (q : Queues) (f : ℕ → Thread) (o : Option ℕ) (t : ℕ) :
    (State.mk p q f o).pc t = (f t).pc := rfl

@[simp] theorem owns_mk (p : Polling) (q : Queues) (f : ℕ → Thread) (o : Option ℕ) (t : ℕ) :
    (State.mk p q f o).owns t = (f t).owns := rfl

@[simp] theorem kind_mk (p : Polling) (q : Queues) (f : ℕ → Thread) (o : Option ℕ) (t : ℕ) :
    (State.mk p q f o).kind t = (f t).kind := rfl

/-- `m_cond.signal()`. -/
def Signalled (N : ℕ) (s s' : State) : Prop := ∃ wake, signal N wake s = some s'

theorem Signalled.cases (h : Signalled N s s') :
    s' = s ∨ ∃ t < N, s.pc t = .waiting ∧ s' = s.setPc t .woken := by
  obtain ⟨wake, h⟩ := h
  cases wake with
  | none =>
    simp only [signal] at h
    split_ifs at h
    exact .inl (Option.some.inj h).symm
  | some t =>
    simp only [signal] at h
    split_ifs at h with hc
    exact .inr ⟨t, hc.1, hc.2, (Option.some.inj h).symm⟩

theorem Signalled.toQueues (h : Signalled N s s') : s'.toQueues = s.toQueues := by
  obtain rfl | ⟨t, -, -, rfl⟩ := h.cases <;> rfl

theorem Signalled.mutex (h : Signalled N s s') : s'.mutex = s.mutex := by
  obtain rfl | ⟨t, -, -, rfl⟩ := h.cases <;> rfl

theorem Signalled.owns (h : Signalled N s s') (u : ℕ) : s'.owns u = s.owns u := by
  obtain rfl | ⟨t, -, -, rfl⟩ := h.cases <;> simp

theorem Signalled.kind (h : Signalled N s s') (u : ℕ) : s'.kind u = s.kind u := by
  obtain rfl | ⟨t, -, -, rfl⟩ := h.cases <;> simp

theorem Signalled.pc (h : Signalled N s s') (u : ℕ) :
    s'.pc u = s.pc u ∨ s.pc u = .waiting ∧ s'.pc u = .woken := by
  obtain rfl | ⟨t, -, ht, rfl⟩ := h.cases
  · exact .inl rfl
  · by_cases hu : u = t
    · subst hu
      exact .inr ⟨ht, pc_setPc_self s u _⟩
    · exact .inl (pc_setPc_of_ne hu s _)

/-! ## Sections under the mutex -/

/-- The event of `out` is polled. -/
def Queues.polledOut (q : Queues) (o : Wavy.State) : Queues :=
  { q with
    out := { o with queue := o.queue ++ o.backlog, backlog := [] }
    reported := q.reported ++ o.backlog }

/-- A task is popped. -/
def Queues.poppedTask (q : Queues) (g : ℕ) (rest : List ℕ) : Queues :=
  { q with tasks := rest, popped := q.popped ++ [g] }

/-- The event `d` is popped, and `e` is to be written. -/
def Queues.poppedEvent (q : Queues) (d e : ℕ) (rest : List ℕ) : Queues :=
  { q with
    out := { q.out with queue := rest, taken := e :: q.out.taken }
    dequeued := q.dequeued ++ [d] }

inductive Sect (N t : ℕ) (s : State) : State → Prop
  | leave {p : Polling} {pc : Pc} (hpc : pc = .exited ∨ pc = .polling ∨ ∃ i, pc = .handler i) :
    Sect N t s (({ s with toPolling := p }.unlock t).setPc t pc)
  | pollOut {p : Polling} {found : List ℕ} {o : Wavy.State} (ho : s.out.pollWait found = some o) :
    Sect N t s
      (({ s with toPolling := p, toQueues := s.toQueues.polledOut o }.unlock t).setPc t .rearm)
  | lastTask {f : ℕ} (hf : s.tasks = [f]) :
    Sect N t s (({ s with toQueues := s.toQueues.poppedTask f [] }.unlock t).setPc t (.task f true))
  | task {f : ℕ} {rest : List ℕ} {s₁ : State} (hf : s.tasks = f :: rest) (hrest : rest ≠ [])
    (hs : Signalled N { s with toQueues := s.toQueues.poppedTask f rest } s₁) :
    Sect N t s ((s₁.unlock t).setPc t (.task f false))
  | outEvent {e : ℕ} {rest : List ℕ} (hq : s.out.queue = e :: rest) :
    Sect N t s
      (({ s with toQueues := s.toQueues.poppedEvent e e rest }.unlock t).setPc t (.outEvent e))
  | wait : Sect N t s (s.wait t .waiting)
  | ret : Sect N t s (s.ret t)

variable {wake : Option ℕ} {found : List ℕ}

theorem processHandler_sect {ident : ℕ} {p : Polling}
    (h : processHandler t ident found { s with toPolling := p } = some s') : Sect N t s s' := by
  unfold processHandler pollEvent at h
  split_ifs at h
  · obtain ⟨s₁, hs₁, rfl⟩ := Option.map_eq_some_iff.mp h
    obtain ⟨o, ho, rfl⟩ := Option.map_eq_some_iff.mp hs₁
    exact .pollOut ho
  · obtain rfl := Option.some.inj h
    exact .leave (.inr (.inr ⟨ident, rfl⟩))

theorem doTask_sect (h : doTask N t wake s = some s') : Sect N t s s' := by
  unfold doTask at h
  cases hf : s.tasks with
  | nil => simp [hf] at h
  | cons f rest =>
    simp only [hf] at h
    split_ifs at h with hrest
    · obtain rfl := Option.some.inj h
      subst hrest
      exact .lastTask hf
    · obtain ⟨s₁, hs, rfl⟩ := Option.map_eq_some_iff.mp h
      exact .task hf hrest ⟨wake, hs⟩

theorem doOut_sect (h : doOut t s = some s') : Sect N t s s' := by
  unfold doOut at h
  cases hq : s.out.queue with
  | nil => simp [hq] at h
  | cons e rest =>
    simp only [hq] at h
    obtain rfl := Option.some.inj h
    exact .outEvent hq

theorem takeBacklog_sect (h : takeBacklog t found s = some s') : Sect N t s s' := by
  unfold takeBacklog at h
  split at h
  · exact processHandler_sect h
  · cases h

theorem pollOrTake_sect (h : pollOrTake t found s = some s') : Sect N t s s' := by
  unfold pollOrTake at h
  split_ifs at h
  · obtain rfl := Option.some.inj h
    exact .leave (.inr (.inl rfl))
  · exact takeBacklog_sect h

theorem threadMain_sect (h : threadMain N t wake found s = some s') : Sect N t s s' := by
  unfold threadMain at h
  by_cases he : s.endFlag = true
  · rw [if_pos he] at h
    obtain rfl := Option.some.inj h
    exact .leave (p := s.toPolling) (.inl rfl)
  · rw [if_neg he] at h
    cases hm : s.more with
    | cons ident rest =>
      simp only [hm] at h
      exact processHandler_sect h
    | nil =>
      simp only [hm] at h
      split_ifs at h
      · exact doOut_sect h
      · exact doTask_sect h
      · obtain rfl := Option.some.inj h
        exact .wait
      · exact doTask_sect h
      · exact pollOrTake_sect h

theorem runOnce_sect {block : Bool} (h : runOnce N t wake found block s = some s') : Sect N t s s' := by
  unfold runOnce at h
  by_cases he : s.endFlag = true
  · rw [if_pos he] at h
    obtain rfl := Option.some.inj h
    exact .ret
  · rw [if_neg he] at h
    cases hm : s.more with
    | cons ident rest =>
      simp only [hm] at h
      exact processHandler_sect h
    | nil =>
      simp only [hm, doQueue] at h
      split_ifs at h with hp hq ht hb
      · exact doOut_sect h
      · exact doTask_sect h
      · obtain rfl := Option.some.inj h
        exact .wait
      · obtain rfl := Option.some.inj h
        exact .ret
      · exact doTask_sect h
      · exact doOut_sect h
      · exact pollOrTake_sect h

/-! ## The steps of a thread -/

theorem lock_eq {s₀ : State} (h : s.lock t = some s₀) :
    s.mutex = none ∧ s₀ = { s with mutex := some t }.setOwns t true := by
  unfold State.lock at h
  split_ifs at h with hm
  exact ⟨hm, (Option.some.inj h).symm⟩

theorem waited_eq {s₀ : State} (h : s.waited t = some s₀) :
    s.mutex = none ∧ s₀ = { s with mutex := some t } := by
  unfold State.waited at h
  split_ifs at h with hm
  exact ⟨hm, (Option.some.inj h).symm⟩

theorem lock_same {s₀ : State} (h : s.lock t = some s₀) :
    s₀.toQueues = s.toQueues ∧ (∀ u, s₀.pc u = s.pc u) ∧ ∀ u, s₀.kind u = s.kind u := by
  obtain ⟨-, rfl⟩ := lock_eq h
  refine ⟨rfl, fun u => ?_, fun u => ?_⟩
  · exact pc_setOwns _ t u true
  · exact kind_setOwns _ t u true

theorem relock_same {s₀ : State} (h : s.relock t = some s₀) :
    s₀.toQueues = s.toQueues ∧ (∀ u, s₀.pc u = s.pc u) ∧ ∀ u, s₀.kind u = s.kind u := by
  obtain ⟨hq, hpc, hk⟩ := lock_same h
  refine ⟨by rw [hq, unlock_toQueues], fun u => by rw [hpc, pc_unlock], fun u => ?_⟩
  rw [hk, kind_unlock]

/-- How a thread comes to hold the mutex when a section begins. -/
inductive Acquires (t : ℕ) (s : State) : State → Prop
  | lock {s₀ : State} (hpc : s.pc t = .lock) (h : s.lock t = some s₀) : Acquires t s s₀
  | woken (hpc : s.pc t = .woken) (hm : s.mutex = none) : Acquires t s { s with mutex := some t }
  | polled {idents : List ℕ} {s₀ : State} (hpc : s.pc t = .polled idents)
    (h : s.relock t = some s₀) : Acquires t s s₀
  | flush (hpc : s.pc t = .flushHold) : Acquires t s s

theorem Acquires.same {s₀ : State} (h : Acquires t s s₀) :
    s₀.toQueues = s.toQueues ∧ (∀ u, s₀.pc u = s.pc u) ∧ ∀ u, s₀.kind u = s.kind u := by
  cases h with
  | lock hpc h => exact lock_same h
  | woken hpc hm => exact ⟨rfl, fun _ => rfl, fun _ => rfl⟩
  | polled hpc h => exact relock_same h
  | flush hpc => exact ⟨rfl, fun _ => rfl, fun _ => rfl⟩

inductive Move (N n m : ℕ) (mc : Memcpy) (t : ℕ) (s : State) : State → Prop
  | sect {p : Polling} {s₀ s₁ s' : State} (ha : Acquires t s s₀)
    (hs : s₁ = s₀ ∨ Signalled N { s₀ with toPolling := p } s₁) (h : Sect N t s₁ s') : Move N n m mc t s s'
  | flushLock {s₀ : State} (hpc : s.pc t = .lock) (h : s.lock t = some s₀) (hk : s.kind t = .flush) :
    Move N n m mc t s (s₀.setPc t .flushTop)
  | timedOut {p : Polling} {pc : Pc} (hpc : s.pc t = .timedOut)
    (hto : pc = .exited ∨ pc = .polling ∨ pc = .hasQueue ∧ s.kind t = .nonblock) :
    Move N n m mc t s ({ s with toPolling := p }.setPc t pc)
  | timedOutRet {p : Polling} (hpc : s.pc t = .timedOut) : Move N n m mc t s ({ s with toPolling := p }.ret t)
  | hasQueue (hpc : s.pc t = .hasQueue) (hq : s.out.queue ≠ []) : Move N n m mc t s (s.setPc t .outFront)
  | noQueue (hpc : s.pc t = .hasQueue) : Move N n m mc t s (s.setPc t .tasksEmpty)
  | outFront {e : ℕ} {rest : List ℕ} (hpc : s.pc t = .outFront) (hq : s.out.queue = e :: rest) :
    Move N n m mc t s (s.setPc t (.outPop e))
  | outPop {d e : ℕ} {rest : List ℕ} (hpc : s.pc t = .outPop e) (hq : s.out.queue = d :: rest) :
    Move N n m mc t s ({ s with toQueues := s.toQueues.poppedEvent d e rest }.setPc t (.outEvent e))
  | hasTask (hpc : s.pc t = .tasksEmpty) (hf : s.tasks ≠ []) : Move N n m mc t s (s.setPc t .taskFront)
  | taskFront {f : ℕ} {rest : List ℕ} (hpc : s.pc t = .taskFront) (hf : s.tasks = f :: rest) :
    Move N n m mc t s (s.setPc t (.taskPop f))
  | taskPop {f g : ℕ} {rest : List ℕ} (hpc : s.pc t = .taskPop f) (hf : s.tasks = g :: rest) :
    Move N n m mc t s ({ s with toQueues := s.toQueues.poppedTask g rest }.setPc t (.taskLast f))
  | taskLast {f : ℕ} (hpc : s.pc t = .taskLast f) (hf : s.tasks = []) :
    Move N n m mc t s (s.setPc t (.task f true))
  | taskMore {f : ℕ} {s₁ : State} (hpc : s.pc t = .taskLast f) (hs : Signalled N s s₁) :
    Move N n m mc t s (s₁.setPc t (.task f false))
  | failOut (hpc : s.pc t = .outFront ∨ ∃ e, s.pc t = .outPop e) (hq : s.out.queue = []) :
    Move N n m mc t s (s.fail t)
  | failTask (hpc : s.pc t = .taskFront ∨ ∃ f, s.pc t = .taskPop f) (hf : s.tasks = []) :
    Move N n m mc t s (s.fail t)
  | executedLast {f : ℕ} (hpc : s.pc t = .task f true) :
    Move N n m mc t s ({ s with executed := s.executed ++ [f] }.setPc t .broadcast)
  | executed {f : ℕ} (hpc : s.pc t = .task f false) :
    Move N n m mc t s ({ s with executed := s.executed ++ [f] }.ret t)
  | writing {e : ℕ} {o : Wavy.State} (hpc : s.pc t = .writing e) (ho : stepOut n m mc s.out (.goOn e) = some o)
    (hcs : s.out.cs e = .remove ∨ s.out.cs e = .clear) : Move N n m mc t s { s with out := o }
  | written {e : ℕ} {o : Wavy.State} (hpc : s.pc t = .writing e) (ho : stepOut n m mc s.out (.goOn e) = some o)
    (hcs : s.out.cs e = .reactivate ∨ s.out.cs e = .decr ∧ o.watching ≠ 0) :
    Move N n m mc t s ({ s with out := o }.ret t)
  | writtenLast {e : ℕ} {o : Wavy.State} (hpc : s.pc t = .writing e) (ho : stepOut n m mc s.out (.goOn e) = some o) :
    Move N n m mc t s ({ s with out := o }.setPc t .broadcast)
  | broadcast {s₀ : State} (hpc : s.pc t = .broadcast) (h : s.relock t = some s₀) :
    Move N n m mc t s ((s₀.wakeAll .flushWaiting .flushWoken).ret t)
  | ret (hpc : s.pc t = .tasksEmpty ∨ s.pc t = .rearm ∨ ∃ i, s.pc t = .handler i) : Move N n m mc t s (s.ret t)
  | flushHold (hpc : s.pc t = .flushTop) (hc : s.out.watching ≠ 0 ∨ s.tasks ≠ []) :
    Move N n m mc t s (s.setPc t .flushHold)
  | flushed (hpc : s.pc t = .flushTop) : Move N n m mc t s ((s.unlock t).setPc t .outside)
  | flushWait (hpc : s.pc t = .flushHold) : Move N n m mc t s (s.wait t .flushWaiting)
  | flushWoken (hpc : s.pc t = .flushWoken) (hm : s.mutex = none) :
    Move N n m mc t s ({ s with mutex := some t }.setPc t .flushTop)
  | flushOwned (hpc : s.pc t = .flushBack) (ho : s.owns t = true) : Move N n m mc t s (s.setPc t .flushTop)
  | flushRelock {s₀ : State} (hpc : s.pc t = .flushBack) (h : s.relock t = some s₀) :
    Move N n m mc t s (s₀.setPc t .flushTop)

theorem afterTimeout_move (hpc : s.pc t = .timedOut) : Move N n m mc t s (afterTimeout t s) := by
  unfold afterTimeout
  cases hk : s.kind t with
  | main =>
    simp only
    split_ifs
    · exact .timedOut hpc (.inl rfl)
    · exact .timedOut (p := s.toPolling) hpc (.inr (.inl rfl))
  | once | flush => exact .timedOutRet hpc
  | nonblock => exact .timedOut hpc (.inr (.inr ⟨rfl, hk⟩))

theorem unlockedQueue_move (h : unlockedQueue N t wake s = some s') : Move N n m mc t s s' := by
  unfold unlockedQueue at h
  cases hpc : s.pc t with
  | hasQueue =>
    simp only [hpc] at h
    obtain rfl := Option.some.inj h
    split_ifs with hq
    · exact .hasQueue hpc hq
    · exact .noQueue hpc
  | outFront =>
    simp only [hpc] at h
    cases hq : s.out.queue with
    | nil =>
      simp only [hq] at h
      obtain rfl := Option.some.inj h
      exact .failOut (.inl hpc) hq
    | cons e rest =>
      simp only [hq] at h
      obtain rfl := Option.some.inj h
      exact .outFront hpc hq
  | outPop e =>
    simp only [hpc] at h
    cases hq : s.out.queue with
    | nil =>
      simp only [hq] at h
      obtain rfl := Option.some.inj h
      exact .failOut (.inr ⟨e, hpc⟩) hq
    | cons d rest =>
      simp only [hq] at h
      obtain rfl := Option.some.inj h
      exact .outPop hpc hq
  | tasksEmpty =>
    simp only [hpc] at h
    obtain rfl := Option.some.inj h
    split_ifs with hf
    · exact .hasTask hpc hf
    · exact .ret (.inl hpc)
  | taskFront =>
    simp only [hpc] at h
    cases hf : s.tasks with
    | nil =>
      simp only [hf] at h
      obtain rfl := Option.some.inj h
      exact .failTask (.inl hpc) hf
    | cons f rest =>
      simp only [hf] at h
      obtain rfl := Option.some.inj h
      exact .taskFront hpc hf
  | taskPop f =>
    simp only [hpc] at h
    cases hf : s.tasks with
    | nil =>
      simp only [hf] at h
      obtain rfl := Option.some.inj h
      exact .failTask (.inr ⟨f, hpc⟩) hf
    | cons g rest =>
      simp only [hf] at h
      obtain rfl := Option.some.inj h
      exact .taskPop hpc hf
  | taskLast f =>
    simp only [hpc] at h
    split_ifs at h with hf
    · obtain rfl := Option.some.inj h
      exact .taskLast hpc hf
    · obtain ⟨s₁, hs, rfl⟩ := Option.map_eq_some_iff.mp h
      exact .taskMore hpc ⟨wake, hs⟩
  | _ => simp [hpc] at h

theorem writeEvent_move {e : ℕ} (hpc : s.pc t = .writing e) (h : writeEvent n m mc t e s = some s') :
    Move N n m mc t s s' := by
  unfold writeEvent at h
  cases hcs : s.out.cs e with
  | reactivate =>
    simp only [hcs] at h
    obtain ⟨o, ho, rfl⟩ := Option.map_eq_some_iff.mp h
    exact .written hpc ho (.inl hcs)
  | remove =>
    simp only [hcs] at h
    obtain ⟨o, ho, rfl⟩ := Option.map_eq_some_iff.mp h
    exact .writing hpc ho (.inl hcs)
  | clear =>
    simp only [hcs] at h
    obtain ⟨o, ho, rfl⟩ := Option.map_eq_some_iff.mp h
    exact .writing hpc ho (.inr hcs)
  | decr =>
    simp only [hcs] at h
    obtain ⟨o, ho, rfl⟩ := Option.map_eq_some_iff.mp h
    split_ifs with hz
    · exact .writtenLast hpc ho
    · exact .written hpc ho (.inr ⟨hcs, hz⟩)
  | idle | addFd | incr => simp [hcs] at h

theorem flush_move (h : flush N t wake found s = some s') : Move N n m mc t s s' := by
  unfold flush at h
  cases hpc : s.pc t with
  | flushTop =>
    simp only [hpc] at h
    obtain rfl := Option.some.inj h
    split_ifs with hc
    · exact .flushHold hpc hc
    · exact .flushed hpc
  | flushHold =>
    simp only [hpc] at h
    split_ifs at h
    · obtain rfl := Option.some.inj h
      exact .flushWait hpc
    · exact .sect (p := s.toPolling) (.flush hpc) (.inl rfl) (runOnce_sect h)
  | flushWoken =>
    simp only [hpc] at h
    obtain ⟨s₀, hs, rfl⟩ := Option.map_eq_some_iff.mp h
    obtain ⟨hm, rfl⟩ := waited_eq hs
    exact .flushWoken hpc hm
  | flushBack =>
    simp only [hpc] at h
    obtain ⟨s₀, hs, rfl⟩ := Option.map_eq_some_iff.mp h
    split_ifs at hs with ho
    · obtain rfl := Option.some.inj hs
      exact .flushOwned hpc ho
    · exact .flushRelock hpc hs
  | _ => simp [hpc] at h

theorem runThread_move (h : runThread N n m mc t wake found s = some s') : Move N n m mc t s s' := by
  unfold runThread at h
  cases hpc : s.pc t with
  | lock =>
    simp only [hpc] at h
    obtain ⟨s₀, hs, h⟩ := Option.bind_eq_some_iff.mp h
    have ha : Acquires t s s₀ := .lock hpc hs
    unfold locked at h
    cases hk : s₀.kind t with
    | main =>
      simp only [hk] at h
      exact .sect (p := s.toPolling) ha (.inl rfl) (threadMain_sect h)
    | once | nonblock =>
      simp only [hk] at h
      exact .sect (p := s.toPolling) ha (.inl rfl) (runOnce_sect h)
    | flush =>
      simp only [hk] at h
      obtain rfl := Option.some.inj h
      exact .flushLock hpc hs (((lock_same hs).2.2 t).symm.trans hk)
  | woken =>
    simp only [hpc] at h
    obtain ⟨s₀, hs, h⟩ := Option.bind_eq_some_iff.mp h
    obtain ⟨hm, rfl⟩ := waited_eq hs
    have ha : Acquires t s { s with mutex := some t } := .woken hpc hm
    unfold afterWait at h
    split at h
    · exact .sect (p := s.toPolling) ha (.inl rfl) (threadMain_sect h)
    all_goals
      obtain rfl := Option.some.inj h
      exact .sect (p := s.toPolling) ha (.inl rfl) .ret
  | polled idents =>
    simp only [hpc] at h
    obtain ⟨s₀, hs, h⟩ := Option.bind_eq_some_iff.mp h
    obtain ⟨s₁, hs₁, h⟩ := Option.bind_eq_some_iff.mp h
    exact .sect (.polled hpc hs) (.inr ⟨wake, hs₁⟩) (takeBacklog_sect h)
  | timedOut =>
    simp only [hpc] at h
    obtain rfl := Option.some.inj h
    exact afterTimeout_move hpc
  | hasQueue | outFront | outPop | tasksEmpty | taskFront | taskPop | taskLast =>
    simp only [hpc] at h
    exact unlockedQueue_move h
  | task f last =>
    simp only [hpc] at h
    obtain rfl := Option.some.inj h
    cases last
    · exact .executed hpc
    · exact .executedLast hpc
  | writing e =>
    simp only [hpc] at h
    exact writeEvent_move hpc h
  | broadcast =>
    simp only [hpc] at h
    obtain ⟨s₀, hs, rfl⟩ := Option.map_eq_some_iff.mp h
    exact .broadcast hpc hs
  | rearm =>
    simp only [hpc] at h
    obtain rfl := Option.some.inj h
    exact .ret (.inr (.inl hpc))
  | handler i =>
    simp only [hpc] at h
    obtain rfl := Option.some.inj h
    exact .ret (.inr (.inr ⟨i, hpc⟩))
  | flushTop | flushHold | flushWoken | flushBack =>
    simp only [hpc] at h
    exact flush_move h
  | outside | waiting | polling | outEvent | flushWaiting | exited => simp [hpc] at h

/-! ## The other threads -/

/-- What a step of `t` does to the others: it may wake them up. -/
structure Others (t : ℕ) (s s' : State) : Prop where
  pc : ∀ u, u ≠ t → s'.pc u = s.pc u ∨ s.pc u = .waiting ∧ s'.pc u = .woken ∨
    s.pc u = .flushWaiting ∧ s'.pc u = .flushWoken ∧ s.pc t = .broadcast
  owns : ∀ u, u ≠ t → s'.owns u = s.owns u
  kind : ∀ u, s'.kind u = s.kind u

theorem Others.of_eq (hpc : ∀ u, u ≠ t → s'.pc u = s.pc u) (howns : ∀ u, u ≠ t → s'.owns u = s.owns u)
    (hkind : ∀ u, s'.kind u = s.kind u) : Others t s s' :=
  ⟨fun u hu => .inl (hpc u hu), howns, hkind⟩

theorem Signalled.others (h : Signalled N s s') (t : ℕ) : Others t s s' where
  pc u _ := (h.pc u).imp_right .inl
  owns u _ := h.owns u
  kind := h.kind

theorem Others.setPc (h : Others t s s') (p : Pc) : Others t s (s'.setPc t p) where
  pc u hu := by
    rw [pc_setPc_of_ne hu]
    exact h.pc u hu
  owns u hu := by
    rw [owns_setPc]
    exact h.owns u hu
  kind u := by
    rw [kind_setPc]
    exact h.kind u

theorem Others.unlock (h : Others t s s') : Others t s (s'.unlock t) where
  pc u hu := by
    rw [pc_unlock]
    exact h.pc u hu
  owns u hu := by
    rw [owns_unlock, if_neg hu]
    exact h.owns u hu
  kind u := by
    rw [kind_unlock]
    exact h.kind u

theorem Others.ret (h : Others t s s') : Others t s (s'.ret t) where
  pc u hu := by
    rw [pc_ret, if_neg hu]
    exact h.pc u hu
  owns u hu := by
    rw [owns_ret, if_neg (fun hc => hu hc.1)]
    exact h.owns u hu
  kind u := by
    rw [kind_ret]
    exact h.kind u

theorem Others.refl (t : ℕ) (p : Polling) (q : Queues) (o : Option ℕ) : Others t s ⟨p, q, s.threads, o⟩ :=
  .of_eq (fun _ _ => rfl) (fun _ _ => rfl) fun _ => rfl

theorem lock_others {s₀ : State} (h : s.lock t = some s₀) : Others t s s₀ := by
  obtain ⟨-, rfl⟩ := lock_eq h
  refine .of_eq (fun u _ => pc_setOwns _ t u true) (fun u hu => ?_) fun u => kind_setOwns _ t u true
  rw [owns_setOwns, if_neg hu]
  rfl

theorem relock_others {s₀ : State} (h : s.relock t = some s₀) : Others t s s₀ := by
  have hl := lock_others h
  refine .of_eq (fun u hut => ?_) (fun u hut => ?_) fun u => ?_
  · rw [(relock_same h).2.1]
  · rw [hl.owns u hut, owns_unlock, if_neg hut]
  · rw [(relock_same h).2.2]

theorem Acquires.others {s₀ : State} (h : Acquires t s s₀) : Others t s s₀ := by
  cases h with
  | lock hpc h => exact lock_others h
  | woken hpc hm => exact .refl t _ _ _
  | polled hpc h => exact relock_others h
  | flush hpc => exact .refl t _ _ _

theorem Sect.others (h : Sect N t s s') : Others t s s' := by
  cases h with
  | leave | pollOut | lastTask | outEvent => exact (Others.refl t _ _ _).unlock.setPc _
  | @task f rest s₁ hf hrest hs =>
    have hs' : Others t s s₁ := ⟨(hs.others t).pc, (hs.others t).owns, (hs.others t).kind⟩
    exact hs'.unlock.setPc _
  | wait => exact (Others.refl t _ _ _).setPc _
  | ret => exact (Others.refl t s.toPolling s.toQueues s.mutex).ret

/-- The others do not notice two steps of `t` in a row, unless it wakes one of them. -/
theorem Others.trans {s₁ : State} (h₁ : Others t s s₁) (h₂ : Others t s₁ s')
    (ht : s.pc t ≠ .broadcast) (ht₁ : s₁.pc t ≠ .broadcast) : Others t s s' where
  pc u hu := by
    obtain h | ⟨h, h'⟩ | ⟨-, -, h⟩ := h₁.pc u hu
    · obtain g | ⟨g, g'⟩ | ⟨-, -, g⟩ := h₂.pc u hu
      · exact .inl (g.trans h)
      · exact .inr (.inl ⟨h.symm.trans g, g'⟩)
      · exact absurd g ht₁
    · obtain g | ⟨g, -⟩ | ⟨g, -⟩ := h₂.pc u hu
      · exact .inr (.inl ⟨h, g.trans h'⟩)
      · rw [h'] at g
        cases g
      · rw [h'] at g
        cases g
    · exact absurd h ht
  owns u hu := (h₂.owns u hu).trans (h₁.owns u hu)
  kind u := (h₂.kind u).trans (h₁.kind u)

theorem Acquires.not_broadcast {s₀ : State} (h : Acquires t s s₀) : s.pc t ≠ .broadcast := by
  cases h with
  | lock hpc _ | woken hpc _ | polled hpc _ | flush hpc =>
    rw [hpc]
    exact Pc.noConfusion

/-- The state in which a section begins. -/
theorem Acquires.begun {p : Polling} {s₀ s₁ : State} (ha : Acquires t s s₀)
    (hs : s₁ = s₀ ∨ Signalled N { s₀ with toPolling := p } s₁) :
    Others t s s₁ ∧ s₁.pc t ≠ .broadcast ∧ s₁.mutex = s₀.mutex ∧ s₁.owns t = s₀.owns t := by
  have hpc₀ : s₀.pc t ≠ .broadcast := by
    rw [ha.same.2.1]
    exact ha.not_broadcast
  rcases hs with rfl | hs
  · exact ⟨ha.others, hpc₀, rfl, rfl⟩
  · have hs' : Others t s₀ s₁ := ⟨(hs.others t).pc, (hs.others t).owns, (hs.others t).kind⟩
    refine ⟨ha.others.trans hs' ha.not_broadcast hpc₀, ?_, hs.mutex, hs.owns t⟩
    obtain hpc | ⟨-, hpc⟩ := hs.pc t
    · rw [hpc]
      exact hpc₀
    · rw [hpc]
      exact Pc.noConfusion

theorem Move.others (h : Move N n m mc t s s') : Others t s s' := by
  have hrefl : Others t s s := .refl t _ _ _
  cases h with
  | sect ha hs h =>
    obtain ⟨ho, hpc, -, -⟩ := ha.begun hs
    exact ho.trans h.others ha.not_broadcast hpc
  | flushLock hpc h hk => exact (lock_others h).setPc _
  | timedOutRet | executed | written => exact (Others.refl t _ _ _).ret
  | ret => exact hrefl.ret
  | taskMore hpc hs => exact (hs.others t).setPc _
  | writing => exact .refl t _ _ _
  | @broadcast s₀ hpc h =>
    have ho := relock_others h
    refine Others.ret ⟨fun u hu => ?_, ho.owns, ho.kind⟩
    rw [pc_wakeAll, (relock_same h).2.1]
    split_ifs with hw
    · exact .inr (.inr ⟨hw, rfl, hpc⟩)
    · exact .inl rfl
  | flushed => exact hrefl.unlock.setPc _
  | flushRelock hpc h => exact (relock_others h).setPc _
  | _ => exact (Others.refl t _ _ _).setPc _

/-! ## The steps of the system -/

inductive Step (N n m : ℕ) (mc : Memcpy) (s : State) : Action → State → Prop
  | move {t : ℕ} {wake : Option ℕ} {found : List ℕ} {s' : State} (htN : t < N) (h : Move N n m mc t s s') :
    Step N n m mc s (.run t wake found) s'
  | call {t : ℕ} {kind : Kind} (htN : t < N) (hk : s.kind t ≠ .main) (hpc : s.pc t = .outside) :
    Step N n m mc s (.call t kind)
      { s with threads := Function.update s.threads t ⟨kind, s.owns t, .lock⟩ }
  | wakeup {t : ℕ} {p : Pc} (htN : t < N)
    (hp : s.pc t = .waiting ∧ p = .woken ∨ s.pc t = .flushWaiting ∧ p = .flushWoken) :
    Step N n m mc s (.wakeup t) (s.setPc t p)
  | waitReturns {t : ℕ} {idents : List ℕ} {p : Polling} (htN : t < N) (hpc : s.pc t = .polling) :
    Step N n m mc s (.waitReturns t idents) ({ s with toPolling := p }.setPc t (.polled idents))
  | timeout {t : ℕ} (htN : t < N) (hpc : s.pc t = .polling) :
    Step N n m mc s (.timeout t) (s.setPc t .timedOut)
  | writeEvent {t e : ℕ} {as : List Answer} {o : Wavy.State} (htN : t < N) (hpc : s.pc t = .outEvent e)
    (ho : stepOut n m mc s.out (.writeEvent e as) = some o) :
    Step N n m mc s (.writeEvent t as)
      ({ s with out := o, written := s.written ++ [e] }.setPc t (.writing e))
  | more {t : ℕ} {wake : Option ℕ} {p : Polling} {s' : State}
    (hs : Signalled N { s with toPolling := p } s') : Step N n m mc s (.more t wake) s'
  | submit {f : ℕ} {wake : Option ℕ} {s' : State}
    (hs : Signalled N { s with tasks := s.tasks ++ [f], submitted := s.submitted ++ [f] } s') :
    Step N n m mc s (.submit f wake) s'
  | commit {act : Wavy.Action} {o : Wavy.State} (hb : byCaller s.out act = true)
    (ho : stepOut n m mc s.out act = some o) : Step N n m mc s (.commit act) { s with out := o }
  | start {p : Polling} : Step N n m mc s .start { s with
      toPolling := p
      threads := fun t =>
        if s.kind t = .main ∧ s.pc t = .outside then ⟨.main, s.owns t, .lock⟩ else s.threads t }
  | join {p : Polling} : Step N n m mc s .join { s with toPolling := p }
  | endBegin {p : Polling} : Step N n m mc s .endBegin { s with toPolling := p }
  | endReturn : Step N n m mc s .endReturn (s.wakeAll .waiting .woken)

theorem step_cases {a : Action} (h : step N n m mc s a = some s') : Step N n m mc s a s' := by
  cases a with
  | call t kind =>
    simp only [step] at h
    split_ifs at h with hc
    obtain rfl := Option.some.inj h
    exact .call hc.1 hc.2.1 hc.2.2.2
  | run t wake found =>
    simp only [step] at h
    split_ifs at h with htN
    exact .move htN (runThread_move h)
  | wakeup t =>
    simp only [step] at h
    split_ifs at h with hc hc'
    · obtain rfl := Option.some.inj h
      exact .wakeup hc.1 (.inl ⟨hc.2, rfl⟩)
    · obtain rfl := Option.some.inj h
      exact .wakeup hc'.1 (.inr ⟨hc'.2, rfl⟩)
  | waitReturns t idents =>
    simp only [step] at h
    split_ifs at h with hc
    obtain rfl := Option.some.inj h
    exact .waitReturns hc.1 hc.2.1
  | timeout t =>
    simp only [step] at h
    split_ifs at h with hc
    obtain rfl := Option.some.inj h
    exact .timeout hc.1 hc.2
  | writeEvent t as =>
    simp only [step] at h
    split at h
    · rename_i e hpc
      split_ifs at h with htN
      obtain ⟨o, ho, rfl⟩ := Option.map_eq_some_iff.mp h
      exact .writeEvent htN hpc ho
    · cases h
  | more t wake =>
    simp only [step] at h
    split at h
    · split_ifs at h
      exact .more ⟨wake, h⟩
    · cases h
  | submit f wake =>
    simp only [step] at h
    split_ifs at h
    exact .submit ⟨wake, h⟩
  | commit act =>
    simp only [step] at h
    split_ifs at h with hb
    obtain ⟨o, ho, rfl⟩ := Option.map_eq_some_iff.mp h
    exact .commit hb ho
  | start =>
    simp only [step] at h
    split_ifs at h
    obtain rfl := Option.some.inj h
    exact .start
  | join =>
    simp only [step] at h
    split_ifs at h
    obtain rfl := Option.some.inj h
    exact .join
  | endBegin =>
    obtain rfl := Option.some.inj h
    exact .endBegin
  | endReturn =>
    simp only [step] at h
    split_ifs at h
    obtain rfl := Option.some.inj h
    exact .endReturn

/-! ## Steps that no thread takes -/

/-- What such a step does to a thread. -/
inductive Nudged (a : Action) (u : ℕ) : Thread → Thread → Prop
  | same {θ : Thread} : Nudged a u θ θ
  | woken {k : Kind} {o : Bool} : Nudged a u ⟨k, o, .waiting⟩ ⟨k, o, .woken⟩
  | flushWoken {k : Kind} {o : Bool} : Nudged a u ⟨k, o, .flushWaiting⟩ ⟨k, o, .flushWoken⟩
  | called {k k' : Kind} {o : Bool} (hk : k' = .main ∨ a = .call u k') :
    Nudged a u ⟨k, o, .outside⟩ ⟨k', o, .lock⟩
  | polled {k : Kind} {o : Bool} {idents : List ℕ} : Nudged a u ⟨k, o, .polling⟩ ⟨k, o, .polled idents⟩
  | timedOut {k : Kind} {o : Bool} : Nudged a u ⟨k, o, .polling⟩ ⟨k, o, .timedOut⟩
  | writing {k : Kind} {o : Bool} {e : ℕ} : Nudged a u ⟨k, o, .outEvent e⟩ ⟨k, o, .writing e⟩

theorem thread_eq {p : Pc} (h : s.pc t = p) : s.threads t = ⟨s.kind t, s.owns t, p⟩ := by
  rw [← h]
  rfl

theorem Nudged.setPc {a : Action} {s₁ : State} {p p' : Pc} (hth : s₁.threads = s.threads)
    (hpc : s.pc t = p) (h : Nudged a t ⟨s.kind t, s.owns t, p⟩ ⟨s.kind t, s.owns t, p'⟩) :
    Nudged a u (s.threads u) ((s₁.setPc t p').threads u) := by
  unfold State.setPc State.kind State.owns
  rw [hth]
  by_cases hu : u = t
  · subst hu
    simp only [Function.update_self]
    rw [thread_eq hpc]
    exact h
  · simp only [Function.update_of_ne hu]
    exact .same

theorem Signalled.nudged {a : Action} {s₁ : State} (h : Signalled N s₁ s') (hth : s₁.threads = s.threads) :
    Nudged a u (s.threads u) (s'.threads u) := by
  obtain rfl | ⟨t, -, hpc, rfl⟩ := h.cases
  · rw [hth]
    exact .same
  · refine Nudged.setPc hth ?_ .woken
    unfold State.pc at hpc ⊢
    rwa [hth] at hpc

/-- A thread takes the step, or the mutex is as before and every thread has at most been nudged. -/
theorem Step.nudged {a : Action} (h : Step N n m mc s a s') :
    (∃ t < N, Move N n m mc t s s') ∨
    s'.mutex = s.mutex ∧ ∀ u, Nudged a u (s.threads u) (s'.threads u) := by
  cases h with
  | @move t _ _ _ htN h => exact .inl ⟨t, htN, h⟩
  | @call t kind htN hk hpc =>
    refine .inr ⟨rfl, fun u => ?_⟩
    by_cases hu : u = t
    · subst hu
      simp only [Function.update_self]
      rw [thread_eq hpc]
      exact .called (.inr rfl)
    · simp only [Function.update_of_ne hu]
      exact .same
  | wakeup htN hp =>
    obtain ⟨hpc, rfl⟩ | ⟨hpc, rfl⟩ := hp
    · exact .inr ⟨rfl, fun u => .setPc rfl hpc .woken⟩
    · exact .inr ⟨rfl, fun u => .setPc rfl hpc .flushWoken⟩
  | waitReturns htN hpc => exact .inr ⟨rfl, fun u => .setPc rfl hpc .polled⟩
  | timeout htN hpc => exact .inr ⟨rfl, fun u => .setPc rfl hpc .timedOut⟩
  | writeEvent htN hpc ho => exact .inr ⟨rfl, fun u => .setPc rfl hpc .writing⟩
  | more hs => exact .inr ⟨hs.mutex, fun u => hs.nudged rfl⟩
  | submit hs => exact .inr ⟨hs.mutex, fun u => hs.nudged rfl⟩
  | commit | join | endBegin => exact .inr ⟨rfl, fun u => .same⟩
  | start =>
    refine .inr ⟨rfl, fun u => ?_⟩
    simp only
    split_ifs with hc
    · rw [thread_eq hc.2]
      exact .called (.inl rfl)
    · exact .same
  | endReturn =>
    refine .inr ⟨rfl, fun u => ?_⟩
    show Nudged .endReturn u (s.threads u) ⟨s.kind u, s.owns u, if s.pc u = .waiting then .woken else s.pc u⟩
    split_ifs with hw
    · rw [thread_eq hw]
      exact .woken
    · exact .same

end Mpio.Wavy.Mutex
