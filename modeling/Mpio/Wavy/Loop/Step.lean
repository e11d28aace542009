import Mpio.Wavy.Loop.Model

/-!
# The steps of the loop, one by one

`step_cases` says once what a step can do; every invariant is derived from it. The locked sections,
which touch the queues and the condition variable only, are collected in `Locked`; the steps of a
dispatch and the calls from outside are the other cases of `Step`.

The rest of the module is the frame: which operation leaves which part of the state alone.
-/

namespace Mpio.Wavy.Loop

open Lib

variable {N : ℕ} {s s' : State}

/-! ## Frame of the operations -/

@[simp] theorem threads_pc (s : State) (t : ℕ) : (s.threads t).pc = s.pc t := rfl

@[simp] theorem pc_mk (q : Queues) (r : Registry) (f : ℕ → Thread) (d : List (ℕ × ℕ)) (t : ℕ) :
    (State.mk q r f d).pc t = (f t).pc := rfl

@[simp] theorem setPc_toQueues (s : State) (t : ℕ) (p : Pc) :
    (s.setPc t p).toQueues = s.toQueues := rfl

@[simp] theorem setPc_toRegistry (s : State) (t : ℕ) (p : Pc) :
    (s.setPc t p).toRegistry = s.toRegistry := rfl

@[simp] theorem setPc_delivered (s : State) (t : ℕ) (p : Pc) :
    (s.setPc t p).delivered = s.delivered := rfl

theorem pc_setPc (s : State) (t u : ℕ) (p : Pc) :
    (s.setPc t p).pc u = if u = t then p else s.pc u := by
  unfold State.setPc State.pc
  by_cases h : u = t
  · subst h
    simp
  · simp [h]

@[simp] theorem pc_setPc_self (s : State) (t : ℕ) (p : Pc) : (s.setPc t p).pc t = p := by
  simp [pc_setPc]

theorem pc_setPc_of_ne {t u : ℕ} (h : u ≠ t) (s : State) (p : Pc) :
    (s.setPc t p).pc u = s.pc u := by
  simp [pc_setPc, h]

@[simp] theorem kind_setPc (s : State) (t u : ℕ) (p : Pc) :
    ((s.setPc t p).threads u).kind = (s.threads u).kind := by
  unfold State.setPc
  by_cases h : u = t
  · subst h
    simp
  · simp [Function.update_of_ne h]

@[simp] theorem back_toQueues (s : State) (t : ℕ) : (s.back t).toQueues = s.toQueues := rfl

@[simp] theorem back_toRegistry (s : State) (t : ℕ) : (s.back t).toRegistry = s.toRegistry := rfl

@[simp] theorem back_delivered (s : State) (t : ℕ) : (s.back t).delivered = s.delivered := rfl

@[simp] theorem removeFd_toQueues (s : State) (i : ℕ) : (removeFd s i).toQueues = s.toQueues := rfl

@[simp] theorem removeFd_threads (s : State) (i : ℕ) : (removeFd s i).threads = s.threads := rfl

@[simp] theorem reactivate_toQueues (s : State) (i : ℕ) :
    (reactivate s i).toQueues = s.toQueues := rfl

@[simp] theorem reactivate_threads (s : State) (i : ℕ) : (reactivate s i).threads = s.threads := rfl

@[simp] theorem removeFd_pc (s : State) (i u : ℕ) : (removeFd s i).pc u = s.pc u := rfl

@[simp] theorem reactivate_pc (s : State) (i u : ℕ) : (reactivate s i).pc u = s.pc u := rfl

@[simp] theorem addFd_toQueues (s : State) (i h : ℕ) : (addFd s i h).toQueues = s.toQueues := rfl

@[simp] theorem addFd_threads (s : State) (i h : ℕ) : (addFd s i h).threads = s.threads := rfl

@[simp] theorem setAdd_toQueues (s : State) (h : ℕ) (stage : AddStage) :
    (setAdd s h stage).toQueues = s.toQueues := rfl

@[simp] theorem setAdd_threads (s : State) (h : ℕ) (stage : AddStage) :
    (setAdd s h stage).threads = s.threads := rfl

theorem settle_cases (N h : ℕ) (s : State) :
    settle N h s = s ∨
      s.fdOwner (s.identOf h) = some h ∧ alive N s h = false ∧
        settle N h s = close s (s.identOf h) := by
  unfold settle
  by_cases hc : s.fdOwner (s.identOf h) = some h ∧ alive N s h = false
  · rw [if_pos hc]
    exact .inr ⟨hc.1, hc.2, rfl⟩
  · rw [if_neg hc]
    exact .inl rfl

@[simp] theorem settle_toQueues (N h : ℕ) (s : State) : (settle N h s).toQueues = s.toQueues := by
  unfold settle
  split_ifs <;> rfl

@[simp] theorem settle_threads (N h : ℕ) (s : State) : (settle N h s).threads = s.threads := by
  unfold settle
  split_ifs <;> rfl

@[simp] theorem settle_pc (N h : ℕ) (s : State) (u : ℕ) : (settle N h s).pc u = s.pc u := by
  simp only [State.pc, settle_threads]

@[simp] theorem settle_delivered (N h : ℕ) (s : State) :
    (settle N h s).delivered = s.delivered := by
  unfold settle
  split_ifs <;> rfl

@[simp] theorem settle?_toQueues (N : ℕ) (h : Option ℕ) (s : State) :
    (settle? N h s).toQueues = s.toQueues := by
  cases h <;> simp [settle?]

@[simp] theorem settle?_threads (N : ℕ) (h : Option ℕ) (s : State) :
    (settle? N h s).threads = s.threads := by
  cases h <;> simp [settle?]

@[simp] theorem settle?_pc (N : ℕ) (h : Option ℕ) (s : State) (u : ℕ) :
    (settle? N h s).pc u = s.pc u := by
  simp only [State.pc, settle?_threads]

@[simp] theorem settle?_delivered (N : ℕ) (h : Option ℕ) (s : State) :
    (settle? N h s).delivered = s.delivered := by
  cases h <;> simp [settle?]

@[simp] theorem resetHandler_toQueues (N i : ℕ) (s : State) :
    (resetHandler N i s).toQueues = s.toQueues := by
  simp [resetHandler]

@[simp] theorem resetHandler_threads (N i : ℕ) (s : State) :
    (resetHandler N i s).threads = s.threads := by
  simp [resetHandler]

@[simp] theorem resetHandler_pc (N i : ℕ) (s : State) (u : ℕ) :
    (resetHandler N i s).pc u = s.pc u := by
  simp only [State.pc, resetHandler_threads]

@[simp] theorem resetHandler_delivered (N i : ℕ) (s : State) :
    (resetHandler N i s).delivered = s.delivered := by
  simp [resetHandler]

@[simp] theorem setHandler_toQueues (N : ℕ) (s : State) (h : ℕ) :
    (setHandler N s h).toQueues = s.toQueues := by
  simp [setHandler]

@[simp] theorem setHandler_threads (N : ℕ) (s : State) (h : ℕ) :
    (setHandler N s h).threads = s.threads := by
  simp [setHandler]

@[simp] theorem setHandler_delivered (N : ℕ) (s : State) (h : ℕ) :
    (setHandler N s h).delivered = s.delivered := by
  simp [setHandler]

theorem create_cases {h i : ℕ} (hc : create s h i = some s') :
    s.add h = .fresh ∧ s.fdOwner i = none ∧
      s' = { s with
        identOf := Function.update s.identOf h i
        fdOwner := Function.update s.fdOwner i (some h)
        ext := Function.update s.ext h true } := by
  simp only [create, Option.ite_none_right_eq_some, Option.some.injEq] at hc
  exact ⟨hc.1.1, hc.1.2, hc.2.symm⟩

/-! ## The condition variable -/

/-- `m_cond.signal()` for some choice of the thread it wakes. -/
def Signalled (N : ℕ) (s s' : State) : Prop := ∃ wake, signal N wake s = some s'

theorem Signalled.cases (h : Signalled N s s') :
    (s' = s ∧ ∀ t < N, s.pc t ≠ .waiting) ∨
      ∃ t < N, s.pc t = .waiting ∧ s' = s.setPc t .woken := by
  obtain ⟨wake, h⟩ := h
  cases wake with
  | none =>
    simp only [signal, Option.ite_none_right_eq_some, Option.some.injEq] at h
    exact .inl ⟨h.2.symm, h.1⟩
  | some t =>
    simp only [signal, Option.ite_none_right_eq_some, Option.some.injEq] at h
    exact .inr ⟨t, h.1.1, h.1.2, h.2.symm⟩

theorem Signalled.toQueues (h : Signalled N s s') : s'.toQueues = s.toQueues := by
  obtain ⟨rfl, -⟩ | ⟨t, -, -, rfl⟩ := h.cases <;> rfl

theorem Signalled.toRegistry (h : Signalled N s s') : s'.toRegistry = s.toRegistry := by
  obtain ⟨rfl, -⟩ | ⟨t, -, -, rfl⟩ := h.cases <;> rfl

theorem Signalled.delivered (h : Signalled N s s') : s'.delivered = s.delivered := by
  obtain ⟨rfl, -⟩ | ⟨t, -, -, rfl⟩ := h.cases <;> rfl

theorem Signalled.kind (h : Signalled N s s') (u : ℕ) :
    (s'.threads u).kind = (s.threads u).kind := by
  obtain ⟨rfl, -⟩ | ⟨t, -, -, rfl⟩ := h.cases
  · rfl
  · exact kind_setPc s t u _

theorem Signalled.pc (h : Signalled N s s') (u : ℕ) :
    s'.pc u = s.pc u ∨ s.pc u = .waiting ∧ s'.pc u = .woken := by
  obtain ⟨rfl, -⟩ | ⟨t, -, ht, rfl⟩ := h.cases
  · exact .inl rfl
  · by_cases hu : u = t
    · subst hu
      exact .inr ⟨ht, pc_setPc_self s u _⟩
    · exact .inl (pc_setPc_of_ne hu s _)

/-- Signalling reaches only threads that wait. -/
theorem Signalled.pc_of_ne (h : Signalled N s s') {u : ℕ} (hu : s.pc u ≠ .waiting) :
    s'.pc u = s.pc u :=
  (h.pc u).resolve_right fun hw => hu hw.1

/-! ## Locked sections -/

/-- Thread `t` is about to execute `thread_main` from `retry_task`, or `run_once` from its start. -/
def State.Entering (s : State) (t : ℕ) : Prop :=
  s.pc t = .start ∨ s.pc t = .woken ∧ (s.threads t).kind = .main

/-- Where a thread goes when it finds `m_end_flag` set. -/
def Kind.leave : Kind → Pc
  | .main => .exited
  | .once _ => .outside

/-- Where `process_handler` leaves the mutex. -/
def Event.entry (ke : Event) : Pc := if ke.ident = outIdent then .rearmOut ke else .dispatch ke

theorem processHandler_eq (t : ℕ) (ke : Event) (k : ℕ) (s : State) :
    ∃ n, processHandler t ke k s = { s with outQueue := n }.setPc t ke.entry := by
  unfold processHandler Event.entry
  split_ifs with h
  · exact ⟨s.outQueue + k, rfl⟩
  · exact ⟨s.outQueue, rfl⟩

/-- What the steps of a thread on the queues can do. -/
inductive Locked (N : ℕ) (s : State) (t : ℕ) : State → Prop
  | leave (ht : s.Entering t) (he : s.endFlag = true) :
    Locked N s t (s.setPc t (s.threads t).kind.leave)
  | waited (ht : s.pc t = .woken) (hk : (s.threads t).kind ≠ .main) :
    Locked N s t (s.setPc t .outside)
  | moreEvent {ke : Event} {rest : List Event} {n : ℕ} (ht : s.Entering t)
    (he : s.endFlag = false) (hm : s.more = ke :: rest) :
    Locked N s t ({ s with more := rest, outQueue := n }.setPc t ke.entry)
  | outEvent (ht : s.Entering t ∨ s.pc t = .nbQueue) (ho : 0 < s.outQueue) :
    Locked N s t ({ s with outQueue := s.outQueue - 1 }.setPc t .outEvent)
  | lastTask (ht : s.Entering t ∨ s.pc t = .nbQueue) (hn : s.tasks = 1) :
    Locked N s t ({ s with tasks := 0 }.setPc t (.task true))
  | task {s₁ : State} (ht : s.Entering t ∨ s.pc t = .nbQueue) (hn : 1 < s.tasks)
    (hs : Signalled N { s with tasks := s.tasks - 1 } s₁) :
    Locked N s t (s₁.setPc t (.task false))
  | wait (ht : s.Entering t) (he : s.endFlag = false) (hm : s.more = [])
    (hp : s.pollable = false) (ho : s.outQueue = 0) (hn : s.tasks = 0) :
    Locked N s t (s.setPc t .waiting)
  | idle (ht : s.Entering t ∧ (s.threads t).kind ≠ .main ∨ s.pc t = .nbQueue) :
    Locked N s t (s.setPc t .outside)
  | poll (ht : s.Entering t) (he : s.endFlag = false) (hm : s.more = []) (hp : s.pollable = true)
    (hn : s.num = s.off) : Locked N s t ({ s with pollable := false }.setPc t .polling)
  | backlogEvent {ke : Event} {n : ℕ} (ht : s.Entering t) (he : s.endFlag = false)
    (hp : s.pollable = true) (hn : s.num ≠ s.off) (hb : s.backlog[s.off]? = some ke) :
    Locked N s t
      ({ s with off := s.off + 1, taken := s.taken ++ [ke], outQueue := n }.setPc t ke.entry)
  | relock {evs : List Event} {s₁ : State} {ke : Event} {n : ℕ} (ht : s.pc t = .polled evs)
    (hs : Signalled N { s with off := 0, num := evs.length, pollable := true } s₁)
    (hb : s.backlog[0]? = some ke) :
    Locked N s t ({ s₁ with off := 1, taken := s.taken ++ [ke], outQueue := n }.setPc t ke.entry)
  | retryPoll (ht : s.pc t = .timedOut) (hk : (s.threads t).kind = .main) :
    Locked N s t (s.setPc t .polling)
  | endPoll (ht : s.pc t = .timedOut) (hk : (s.threads t).kind = .main) (he : s.endFlag = true) :
    Locked N s t ({ s with pollable := true }.setPc t .exited)
  | resign {p : Pc} (ht : s.pc t = .timedOut) (hk : (s.threads t).kind ≠ .main)
    (hp : p = .outside ∨ p = .nbQueue) : Locked N s t ({ s with pollable := true }.setPc t p)
  | done {last : Bool} (ht : s.pc t = .task last) :
    Locked N s t (if last then s.setPc t .flush else s.back t)
  | flushed (ht : s.pc t = .flush) : Locked N s t (s.back t)

section sections

variable {t k : ℕ} {wake : Option ℕ}

theorem doTask_locked (ht : s.Entering t ∨ s.pc t = .nbQueue) (hn : 0 < s.tasks)
    (h : doTask N t wake s = some s') : Locked N s t s' := by
  simp only [doTask] at h
  split_ifs at h with hl
  · obtain rfl := Option.some.inj h
    rw [hl]
    exact .lastTask ht (by omega)
  · obtain ⟨s₁, hs, rfl⟩ := Option.map_eq_some_iff.mp h
    exact .task ht (by omega) ⟨wake, hs⟩

theorem pollOrTake_locked (ht : s.Entering t) (he : s.endFlag = false) (hm : s.more = [])
    (hp : s.pollable = true) (h : pollOrTake t k s = some s') : Locked N s t s' := by
  simp only [pollOrTake] at h
  split_ifs at h with hn
  · obtain rfl := Option.some.inj h
    exact .poll ht he hm hp hn
  · simp only [takeBacklog] at h
    split at h
    · rename_i ke hb
      obtain rfl := Option.some.inj h
      obtain ⟨n, hn'⟩ := processHandler_eq t ke k { s with off := s.off + 1, taken := s.taken ++ [ke] }
      rw [hn']
      exact .backlogEvent ht he hp hn hb
    · cases h

theorem threadMain_locked (ht : s.Entering t) (hk : (s.threads t).kind = .main)
    (h : threadMain N t wake k s = some s') : Locked N s t s' := by
  by_cases he : s.endFlag = true
  · rw [threadMain, if_pos he] at h
    obtain rfl := Option.some.inj h
    have := Locked.leave (N := N) ht he
    rwa [hk] at this
  rw [threadMain, if_neg he] at h
  replace he : s.endFlag = false := by simpa using he
  cases hm : s.more with
  | cons ke rest =>
    simp only [hm] at h
    obtain rfl := Option.some.inj h
    obtain ⟨n, hn⟩ := processHandler_eq t ke k { s with more := rest }
    rw [hn]
    exact .moreEvent ht he hm
  | nil =>
    simp only [hm] at h
    split_ifs at h with hp ho hn hl
    · obtain rfl := Option.some.inj h
      exact .outEvent (.inl ht) ho
    · exact doTask_locked (.inl ht) hn h
    · obtain rfl := Option.some.inj h
      exact .wait ht he hm hp (by omega) (by omega)
    · exact doTask_locked (.inl ht) (by omega) h
    · exact pollOrTake_locked ht he hm (by simpa using hp) h

theorem runOnce_locked {block : Bool} (ht : s.Entering t) (hk : (s.threads t).kind ≠ .main)
    (h : runOnce N t wake k block s = some s') : Locked N s t s' := by
  have hleave : (s.threads t).kind.leave = .outside := by
    cases hkind : (s.threads t).kind with
    | main => exact absurd hkind hk
    | once block => rfl
  by_cases he : s.endFlag = true
  · rw [runOnce, if_pos he] at h
    obtain rfl := Option.some.inj h
    rw [← hleave]
    exact .leave ht he
  rw [runOnce, if_neg he] at h
  replace he : s.endFlag = false := by simpa using he
  cases hm : s.more with
  | cons ke rest =>
    simp only [hm] at h
    obtain rfl := Option.some.inj h
    obtain ⟨n, hn⟩ := processHandler_eq t ke k { s with more := rest }
    rw [hn]
    exact .moreEvent ht he hm
  | nil =>
    simp only [hm, doQueue] at h
    split_ifs at h with hp ho hn hb hn ho
    · obtain rfl := Option.some.inj h
      exact .outEvent (.inl ht) ho
    · exact doTask_locked (.inl ht) hn h
    · obtain rfl := Option.some.inj h
      exact .wait ht he hm hp (by omega) (by omega)
    · obtain rfl := Option.some.inj h
      exact .idle (.inl ⟨ht, hk⟩)
    · exact doTask_locked (.inl ht) hn h
    · obtain rfl := Option.some.inj h
      exact .outEvent (.inl ht) ho
    · exact pollOrTake_locked ht he hm (by simpa using hp) h

end sections

/-! ## All steps -/

/-- What the calls from outside can do to the registrations. -/
inductive Registers (N : ℕ) (s : State) : Action → State → Prop
  | addHandler {h i : ℕ} {s₁ : State} (hc : create s h i = some s₁) :
    Registers N s (.addHandler h i) (setAdd (addFd (setHandler N s₁ h) i h) h .returned)
  | publish {h i : ℕ} {s₁ : State} (hc : create s h i = some s₁) :
    Registers N s (.addBegin .handler h i) (setAdd (setHandler N s₁ h) h .published)
  | register {kind : SourceKind} {h i : ℕ} {s₁ : State} (hk : kind ≠ .handler)
    (hc : create s h i = some s₁) :
    Registers N s (.addBegin kind h i) (setAdd (addFd s₁ i h) h .registered)
  | registerEnd {h : ℕ} (ha : s.add h = .published) :
    Registers N s (.addEnd .handler h) (setAdd (addFd s (s.identOf h) h) h .returned)
  | publishEnd {kind : SourceKind} {h : ℕ} (hk : kind ≠ .handler) (ha : s.add h = .registered) :
    Registers N s (.addEnd kind h) (setAdd (setHandler N s h) h .returned)
  | removeBegin {kind : SourceKind} {i : ℕ} (hk : kind ≠ .signal) (hi : i ≠ outIdent) :
    Registers N s (.removeBegin kind i)
      (resetHandler N i { target s i with removals := (kind, i) :: s.removals })
  | removeSignalBegin {i : ℕ} (hi : i ≠ outIdent) :
    Registers N s (.removeBegin .signal i)
      (removeFd { target s i with removals := (.signal, i) :: s.removals } i)
  | removeEnd {kind : SourceKind} {i : ℕ} (hk : kind ≠ .signal) (hm : (kind, i) ∈ s.removals) :
    Registers N s (.removeEnd kind i)
      (removeFd { s with removals := s.removals.erase (kind, i) } i)
  | removeSignalEnd {i : ℕ} (hm : (.signal, i) ∈ s.removals) :
    Registers N s (.removeEnd .signal i)
      (resetHandler N i { s with removals := s.removals.erase (.signal, i) })
  | keepRef {h : ℕ} (ha : s.add h = .returned) (hl : alive N s h = true) :
    Registers N s (.keepRef h) { s with ext := Function.update s.ext h true }
  | dropRef {h : ℕ} (ha : s.add h = .returned) :
    Registers N s (.dropRef h) (settle N h { s with ext := Function.update s.ext h false })

theorem create_toQueues {h i : ℕ} (hc : create s h i = some s') : s'.toQueues = s.toQueues := by
  obtain ⟨-, -, rfl⟩ := create_cases hc
  rfl

theorem create_threads {h i : ℕ} (hc : create s h i = some s') : s'.threads = s.threads := by
  obtain ⟨-, -, rfl⟩ := create_cases hc
  rfl

theorem create_delivered {h i : ℕ} (hc : create s h i = some s') :
    s'.delivered = s.delivered := by
  obtain ⟨-, -, rfl⟩ := create_cases hc
  rfl

theorem Registers.toQueues {a : Action} (h : Registers N s a s') : s'.toQueues = s.toQueues := by
  cases h with
  | addHandler hc | publish hc | register hk hc => simp [create_toQueues hc]
  | registerEnd ha | publishEnd hk ha | dropRef ha => simp
  | removeBegin hk hi | removeSignalBegin hi => simp [target]
  | removeEnd hk hm | removeSignalEnd hm => simp
  | keepRef ha hl => rfl

theorem Registers.threads {a : Action} (h : Registers N s a s') : s'.threads = s.threads := by
  cases h with
  | addHandler hc | publish hc | register hk hc => simp [create_threads hc]
  | registerEnd ha | publishEnd hk ha | dropRef ha => simp
  | removeBegin hk hi | removeSignalBegin hi => simp [target]
  | removeEnd hk hm | removeSignalEnd hm => simp
  | keepRef ha hl => rfl

theorem Registers.pc {a : Action} (h : Registers N s a s') (u : ℕ) : s'.pc u = s.pc u := by
  simp only [State.pc, h.threads]

/-- What the steps of a dispatch by thread `t` can do, `event::more` apart. -/
inductive Dispatches (N : ℕ) (s : State) (t : ℕ) : Action → State → Prop
  | rearmOut {k : ℕ} {wake : Option ℕ} {ke : Event} (ht : s.pc t = .rearmOut ke) :
    Dispatches N s t (.run t wake k) ((reactivate s ke.ident).back t)
  | dispatch {k : ℕ} {wake : Option ℕ} {ke : Event} {h : ℕ} (ht : s.pc t = .dispatch ke)
    (hh : s.slot ke.ident = some h) :
    Dispatches N s t (.run t wake k)
      ({ s with delivered := (ke.origin, h) :: s.delivered }.setPc t
        (.running ke h ⟨false, false⟩))
  | dispatchEmpty {k : ℕ} {wake : Option ℕ} {ke : Event} (ht : s.pc t = .dispatch ke)
    (hh : s.slot ke.ident = none) :
    Dispatches N s t (.run t wake k) (s.setPc t (.drop ke none))
  | evReset {k : ℕ} {wake : Option ℕ} {ke : Event} {h : ℕ} {flags : Flags}
    (ht : s.pc t = .evReset ke h flags) :
    Dispatches N s t (.run t wake k)
      (resetHandler N ke.ident (s.setPc t (.running ke h { flags with removed := true })))
  | rearm {k : ℕ} {wake : Option ℕ} {ke : Event} {h : ℕ} (ht : s.pc t = .rearm ke h) :
    Dispatches N s t (.run t wake k) (settle N h ((reactivate s ke.ident).back t))
  | drop {k : ℕ} {wake : Option ℕ} {ke : Event} {h : Option ℕ} (ht : s.pc t = .drop ke h) :
    Dispatches N s t (.run t wake k) ((removeFd s ke.ident).setPc t (.reset ke h))
  | reset {k : ℕ} {wake : Option ℕ} {ke : Event} {h : Option ℕ} (ht : s.pc t = .reset ke h) :
    Dispatches N s t (.run t wake k) (settle? N h ((resetHandler N ke.ident s).back t))
  | next {ke : Event} {h : ℕ} {flags : Flags} (ht : s.pc t = .running ke h flags)
    (hf : flags.reactivated = false) :
    Dispatches N s t (.next t)
      ((reactivate s ke.ident).setPc t (.running ke h { flags with reactivated := true }))
  | evRemove {ke : Event} {h : ℕ} {flags : Flags} (ht : s.pc t = .running ke h flags)
    (hf : flags.removed = false) :
    Dispatches N s t (.evRemove t) ((removeFd s ke.ident).setPc t (.evReset ke h flags))
  | finish {ke : Event} {h : ℕ} {flags : Flags} {cont : Bool} (ht : s.pc t = .running ke h flags)
    (hf : (flags.reactivated || flags.removed) = true) :
    Dispatches N s t (.finish t cont) (settle N h ((s.stop h cont).back t))
  | finishRearm {ke : Event} {h : ℕ} {flags : Flags} (ht : s.pc t = .running ke h flags)
    (hf : (flags.reactivated || flags.removed) = false) :
    Dispatches N s t (.finish t true) ((s.stop h true).setPc t (.rearm ke h))
  | finishDrop {ke : Event} {h : ℕ} {flags : Flags} (ht : s.pc t = .running ke h flags)
    (hf : (flags.reactivated || flags.removed) = false) :
    Dispatches N s t (.finish t false) ((s.stop h false).setPc t (.drop ke (some h)))

section dispatches

variable {t : ℕ} {a : Action}

theorem Dispatches.toQueues (h : Dispatches N s t a s') : s'.toQueues = s.toQueues := by
  cases h <;> simp [State.stop]

theorem Dispatches.pc_of_ne (h : Dispatches N s t a s') {u : ℕ} (hu : u ≠ t) :
    s'.pc u = s.pc u := by
  cases h <;> simp [State.back, State.stop, pc_setPc_of_ne hu]

theorem Dispatches.kind (h : Dispatches N s t a s') (u : ℕ) :
    (s'.threads u).kind = (s.threads u).kind := by
  cases h <;> simp [State.back, State.stop]

end dispatches

/-- What a step can do. -/
inductive Step (N : ℕ) (s : State) : Action → State → Prop
  | locked {t k : ℕ} {wake : Option ℕ} {s' : State} (htN : t < N) (h : Locked N s t s') :
    Step N s (.run t wake k) s'
  | dispatches {t : ℕ} {a : Action} {s' : State} (htN : t < N) (h : Dispatches N s t a s') :
    Step N s a s'
  | call {t : ℕ} {block : Bool} (htN : t < N) (hk : (s.threads t).kind ≠ .main)
    (ht : s.pc t = .outside) :
    Step N s (.call t block)
      { s with threads := Function.update s.threads t ⟨.once block, .start⟩ }
  | wakeup {t : ℕ} (htN : t < N) (ht : s.pc t = .waiting) :
    Step N s (.wakeup t) (s.setPc t .woken)
  | waitReturns {t : ℕ} {idents : List ℕ} (htN : t < N) (ht : s.pc t = .polling)
    (hne : idents ≠ []) (hnodup : idents.Nodup)
    (harmed : ∀ i ∈ idents, ((s.interest i).map (·.armed)) = some true) :
    Step N s (.waitReturns t idents)
      ((s.report idents).setPc t (.polled (idents.map (s.eventOf ·))))
  | timeout {t : ℕ} (htN : t < N) (ht : s.pc t = .polling) :
    Step N s (.timeout t) (s.setPc t .timedOut)
  | outDone {t : ℕ} {empty : Bool} (htN : t < N) (ht : s.pc t = .outEvent) :
    Step N s (.outDone t empty) (if empty then s.setPc t .flush else s.back t)
  | more {t : ℕ} {wake : Option ℕ} {ke : Event} {h : ℕ} {flags : Flags} {s₁ : State} (htN : t < N)
    (ht : s.pc t = .running ke h flags) (hf : flags.reactivated = false)
    (hs : Signalled N { s with more := s.more ++ [ke] } s₁) :
    Step N s (.more t wake) (s₁.setPc t (.running ke h { flags with reactivated := true }))
  | submit {wake : Option ℕ} {s' : State} (hs : Signalled N { s with tasks := s.tasks + 1 } s') :
    Step N s (.submit wake) s'
  | endBegin : Step N s .endBegin { s with endFlag := true }
  | endReturn (he : s.endFlag = true) : Step N s .endReturn { broadcast s with ended := true }
  | registers {a : Action} {s' : State} (h : Registers N s a s') : Step N s a s'

section cases

variable {t k : ℕ} {wake : Option ℕ} {a : Action}

theorem Kind.ne_main {kind : Kind} {block : Bool} (h : kind = .once block) : kind ≠ .main := by
  rw [h]
  exact Kind.noConfusion

theorem enter_locked (ht : s.pc t = .start)
    (h : runThread N s t wake k = some s') : Locked N s t s' := by
  simp only [runThread, ht] at h
  cases hk : (s.threads t).kind with
  | main =>
    simp only [hk] at h
    exact threadMain_locked (.inl ht) hk h
  | once block =>
    simp only [hk] at h
    exact runOnce_locked (.inl ht) (Kind.ne_main hk) h

theorem woken_locked (ht : s.pc t = .woken)
    (h : runThread N s t wake k = some s') : Locked N s t s' := by
  simp only [runThread, ht] at h
  cases hk : (s.threads t).kind with
  | main =>
    simp only [hk] at h
    exact threadMain_locked (.inr ⟨ht, hk⟩) hk h
  | once block =>
    simp only [hk] at h
    obtain rfl := Option.some.inj h
    exact .waited ht (Kind.ne_main hk)

theorem relock_locked {evs : List Event} (ht : s.pc t = .polled evs)
    (h : relock N t wake k evs s = some s') : Locked N s t s' := by
  obtain ⟨s₁, hs, h⟩ := Option.bind_eq_some_iff.mp h
  have hq := Signalled.toQueues ⟨wake, hs⟩
  simp only [takeBacklog] at h
  split at h
  · rename_i ke hb
    obtain rfl := Option.some.inj h
    have hoff : s₁.off = 0 := by rw [hq]
    have htaken : s₁.taken = s.taken := by rw [hq]
    have hbacklog : s₁.backlog = s.backlog := by rw [hq]
    rw [hoff, hbacklog] at hb
    rw [hoff, htaken]
    obtain ⟨n, hn⟩ := processHandler_eq t ke k { s₁ with off := 1, taken := s.taken ++ [ke] }
    rw [hn]
    have hlocked := Locked.relock (n := n) ht ⟨wake, hs⟩ hb
    exact hlocked
  · cases h

theorem timedOut_locked (ht : s.pc t = .timedOut) : Locked N s t (afterTimeout t s) := by
  unfold afterTimeout
  cases hk : (s.threads t).kind with
  | main =>
    by_cases he : s.endFlag = true
    · rw [if_pos he]
      exact .endPoll ht hk he
    · rw [if_neg he]
      exact .retryPoll ht hk
  | once block =>
    cases block
    · exact .resign ht (Kind.ne_main hk) (.inr rfl)
    · exact .resign ht (Kind.ne_main hk) (.inl rfl)

theorem nbQueue_locked (ht : s.pc t = .nbQueue)
    (h : doQueue N t wake false s = some s') : Locked N s t s' := by
  simp only [doQueue] at h
  split_ifs at h with ho hn hb
  · obtain rfl := Option.some.inj h
    exact .outEvent (.inr ht) ho
  · exact doTask_locked (.inr ht) hn h
  · cases hb
  · obtain rfl := Option.some.inj h
    exact .idle (.inr ht)

theorem runThread_cases (htN : t < N)
    (h : runThread N s t wake k = some s') : Step N s (.run t wake k) s' := by
  cases hp : s.pc t with
  | start => exact .locked htN (enter_locked hp h)
  | woken => exact .locked htN (woken_locked hp h)
  | polled evs =>
    simp only [runThread, hp] at h
    exact .locked htN (relock_locked hp h)
  | timedOut =>
    simp only [runThread, hp, Option.some.injEq] at h
    exact .locked htN (h ▸ timedOut_locked hp)
  | nbQueue =>
    simp only [runThread, hp] at h
    exact .locked htN (nbQueue_locked hp h)
  | task last =>
    simp only [runThread, hp, Option.some.injEq] at h
    exact .locked htN (h ▸ .done hp)
  | flush =>
    simp only [runThread, hp, Option.some.injEq] at h
    exact .locked htN (h ▸ .flushed hp)
  | rearmOut ke =>
    simp only [runThread, hp, Option.some.injEq] at h
    exact .dispatches htN (h ▸ .rearmOut hp)
  | dispatch ke =>
    simp only [runThread, hp] at h
    cases hh : s.slot ke.ident with
    | some h' =>
      simp only [hh, Option.some.injEq] at h
      exact .dispatches htN (h ▸ .dispatch hp hh)
    | none =>
      simp only [hh, Option.some.injEq] at h
      exact .dispatches htN (h ▸ .dispatchEmpty hp hh)
  | evReset ke h' flags =>
    simp only [runThread, hp, Option.some.injEq] at h
    exact .dispatches htN (h ▸ .evReset hp)
  | rearm ke h' =>
    simp only [runThread, hp, Option.some.injEq] at h
    exact .dispatches htN (h ▸ .rearm hp)
  | drop ke h' =>
    simp only [runThread, hp, Option.some.injEq] at h
    exact .dispatches htN (h ▸ .drop hp)
  | reset ke h' =>
    simp only [runThread, hp, Option.some.injEq] at h
    exact .dispatches htN (h ▸ .reset hp)
  | outside | waiting | polling | outEvent | running _ _ _ | exited =>
    simp only [runThread, hp] at h
    cases h

theorem finishHandler_cases {cont : Bool} (htN : t < N)
    (h : finishHandler N s t cont = some s') : Step N s (.finish t cont) s' := by
  cases hp : s.pc t with
  | running ke h' flags =>
    simp only [finishHandler, hp] at h
    split_ifs at h with hf hc
    · obtain rfl := Option.some.inj h
      exact .dispatches htN (.finish hp hf)
    · obtain rfl := Option.some.inj h
      subst hc
      exact .dispatches htN (.finishRearm hp (by simpa using hf))
    · obtain rfl := Option.some.inj h
      obtain rfl : cont = false := by simpa using hc
      exact .dispatches htN (.finishDrop hp (by simpa using hf))
  | _ => simp [finishHandler, hp] at h

theorem waitReturns_cases {idents : List ℕ} (htN : t < N)
    (h : waitReturns s t idents = some s') : Step N s (.waitReturns t idents) s' := by
  simp only [waitReturns, Option.ite_none_right_eq_some, Option.some.injEq] at h
  obtain ⟨⟨hp, hne, hnodup, harmed⟩, rfl⟩ := h
  exact .waitReturns htN hp hne hnodup harmed

theorem addBegin_cases {kind : SourceKind} {h i : ℕ} (hb : addBegin N s kind h i = some s') :
    Step N s (.addBegin kind h i) s' := by
  obtain ⟨s₁, hc, rfl⟩ := Option.map_eq_some_iff.mp hb
  cases kind with
  | handler => exact .registers (.publish hc)
  | timer | signal => exact .registers (.register SourceKind.noConfusion hc)

theorem addEnd_cases {kind : SourceKind} {h : ℕ} (he : addEnd N s kind h = some s') :
    Step N s (.addEnd kind h) s' := by
  cases kind with
  | handler =>
    simp only [addEnd, Option.ite_none_right_eq_some, Option.some.injEq] at he
    obtain ⟨ha, rfl⟩ := he
    exact .registers (.registerEnd ha)
  | timer | signal =>
    simp only [addEnd, Option.ite_none_right_eq_some, Option.some.injEq] at he
    obtain ⟨ha, rfl⟩ := he
    exact .registers (.publishEnd SourceKind.noConfusion ha)

theorem removeBegin_cases {kind : SourceKind} {i : ℕ} (h : removeBegin N s kind i = some s') :
    Step N s (.removeBegin kind i) s' := by
  by_cases hi : i = outIdent
  · rw [removeBegin, if_pos hi] at h
    cases h
  rw [removeBegin, if_neg hi] at h
  cases kind with
  | handler | timer =>
    obtain rfl := Option.some.inj h
    exact .registers (.removeBegin SourceKind.noConfusion hi)
  | signal =>
    obtain rfl := Option.some.inj h
    exact .registers (.removeSignalBegin hi)

theorem removeEnd_cases {kind : SourceKind} {i : ℕ} (h : removeEnd N s kind i = some s') :
    Step N s (.removeEnd kind i) s' := by
  by_cases hm : (kind, i) ∈ s.removals
  · rw [removeEnd, if_pos hm] at h
    cases kind with
    | handler | timer =>
      obtain rfl := Option.some.inj h
      exact .registers (.removeEnd SourceKind.noConfusion hm)
    | signal =>
      obtain rfl := Option.some.inj h
      exact .registers (.removeSignalEnd hm)
  · rw [removeEnd, if_neg hm] at h
    cases h

/-- Every step is one of the cases of `Step`. -/
theorem step_cases (h : step N s a = some s') : Step N s a s' := by
  cases a with
  | call t block =>
    simp only [step] at h
    split at h
    · rename_i hk hp
      simp only [Option.ite_none_right_eq_some, Option.some.injEq] at h
      obtain ⟨htN, rfl⟩ := h
      exact .call htN (Kind.ne_main hk) hp
    · cases h
  | run t wake k =>
    simp only [step, Option.ite_none_right_eq_some] at h
    exact runThread_cases h.1 h.2
  | wakeup t =>
    simp only [step, Option.ite_none_right_eq_some, Option.some.injEq] at h
    obtain ⟨⟨htN, ht⟩, rfl⟩ := h
    exact .wakeup htN ht
  | waitReturns t idents =>
    simp only [step, Option.ite_none_right_eq_some] at h
    exact waitReturns_cases h.1 h.2
  | timeout t =>
    simp only [step, Option.ite_none_right_eq_some, Option.some.injEq] at h
    obtain ⟨⟨htN, ht⟩, rfl⟩ := h
    exact .timeout htN ht
  | outDone t empty =>
    simp only [step, Option.ite_none_right_eq_some, Option.some.injEq] at h
    obtain ⟨⟨htN, ht⟩, rfl⟩ := h
    exact .outDone htN ht
  | more t wake =>
    simp only [step] at h
    split at h
    · rename_i ke h' flags ht
      simp only [Option.ite_none_right_eq_some] at h
      obtain ⟨s₁, hs, rfl⟩ := Option.map_eq_some_iff.mp h.2
      exact .more h.1.1 ht h.1.2 ⟨wake, hs⟩
    · cases h
  | next t =>
    simp only [step] at h
    split at h
    · rename_i ke h' flags ht
      simp only [Option.ite_none_right_eq_some, Option.some.injEq] at h
      obtain ⟨⟨htN, hf⟩, rfl⟩ := h
      exact .dispatches htN (.next ht hf)
    · cases h
  | evRemove t =>
    simp only [step] at h
    split at h
    · rename_i ke h' flags ht
      simp only [Option.ite_none_right_eq_some, Option.some.injEq] at h
      obtain ⟨⟨htN, hf⟩, rfl⟩ := h
      exact .dispatches htN (.evRemove ht hf)
    · cases h
  | finish t cont =>
    simp only [step, Option.ite_none_right_eq_some] at h
    exact finishHandler_cases h.1 h.2
  | submit wake => exact .submit ⟨wake, h⟩
  | endBegin =>
    obtain rfl := Option.some.inj h
    exact .endBegin
  | endReturn =>
    simp only [step, Option.ite_none_right_eq_some, Option.some.injEq] at h
    obtain ⟨he, rfl⟩ := h
    exact .endReturn he
  | addHandler h' i =>
    obtain ⟨s₁, hc, rfl⟩ := Option.map_eq_some_iff.mp h
    exact .registers (.addHandler hc)
  | addBegin kind h' i => exact addBegin_cases h
  | addEnd kind h' => exact addEnd_cases h
  | removeBegin kind i => exact removeBegin_cases h
  | removeEnd kind i => exact removeEnd_cases h
  | keepRef h' =>
    simp only [step, Option.ite_none_right_eq_some, Option.some.injEq] at h
    obtain ⟨⟨ha, hl⟩, rfl⟩ := h
    exact .registers (.keepRef ha hl)
  | dropRef h' =>
    simp only [step, Option.ite_none_right_eq_some, Option.some.injEq] at h
    obtain ⟨ha, rfl⟩ := h
    exact .registers (.dropRef ha)

end cases

end Mpio.Wavy.Loop
