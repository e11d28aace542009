import Mpio.Wavy.Mutex.Flush

/-!
# A loop used by one thread

The loop without workers: one thread calls `run_once`, `run_nonblock` and `flush`, and everything else
happens inside these calls or between them. A `View` is what there is then besides the lock. `Lone`
lists the steps of such a loop with all they change, `m_more_queue`, the backlog and the flags included,
which the cases of `Mutex.Step` leave open.
-/

namespace Mpio.Wavy.Mutex

open Lib

variable {n m : ℕ} {mc : Memcpy} {s s' : State} {v v' : View} {a : Action}

/-! ## Views -/

/-- What there is of the loop when only thread 0 uses it. -/
structure View where
  pc : Pc
  kind : Kind
  polling : Polling
  tasks : List ℕ
  out : Wavy.State

def State.view (s : State) : View := ⟨s.pc 0, s.kind 0, s.toPolling, s.tasks, s.out⟩

@[simp] theorem view_setPc (s : State) (p : Pc) : (s.setPc 0 p).view = { s.view with pc := p } := by
  simp [State.view]

@[simp] theorem unlock_toPolling (s : State) (t : ℕ) : (s.unlock t).toPolling = s.toPolling := by
  unfold State.unlock
  split_ifs <;> rfl

@[simp] theorem view_unlock (s : State) : (s.unlock 0).view = s.view := by
  simp [State.view]

@[simp] theorem view_ret (s : State) : (s.ret 0).view = { s.view with pc := s.view.kind.back } := by
  have hp : (s.ret 0).toPolling = s.toPolling := by
    unfold State.ret
    split <;> simp
  simp [State.view, pc_ret, hp]

theorem view_lock {s₀ : State} (h : s.lock 0 = some s₀) : s₀.view = s.view := by
  obtain ⟨hq, hpc, hk⟩ := lock_same h
  obtain ⟨-, rfl⟩ := lock_eq h
  simp only [State.view, hpc, hk, hq]
  rfl

theorem view_relock {s₀ : State} (h : s.relock 0 = some s₀) : s₀.view = s.view := by
  rw [view_lock h, view_unlock]

theorem view_wakeAll (p p' : Pc) (h : s.pc 0 ≠ p) : (s.wakeAll p p').view = s.view := by
  simp only [State.view, pc_wakeAll, if_neg h]
  rfl

/-- Nobody waits for the signal. -/
theorem signal_alone {wake : Option ℕ} (h : signal 1 wake s = some s') (hw : s.pc 0 ≠ .waiting) : s' = s := by
  obtain rfl | ⟨t, ht, hpc, -⟩ := Signalled.cases ⟨wake, h⟩
  · rfl
  · obtain rfl := Nat.lt_one_iff.mp ht
    exact absurd hpc hw

/-! ## The steps -/

/-- From `process_handler` on. -/
inductive Processes (found : List ℕ) (ident : ℕ) (v : View) : View → Prop
  | out {o : Wavy.State} (hi : ident = Loop.outIdent) (ho : v.out.pollWait found = some o) :
    Processes found ident v { v with
      pc := .rearm
      out := { o with queue := o.queue ++ o.backlog, backlog := [] } }
  | handler (hi : ident ≠ Loop.outIdent) : Processes found ident v { v with pc := .handler ident }

/-- A call of `run_once`, up to the unlock; `m_pollable` is true. -/
inductive RunsOnce (found : List ℕ) (v : View) : View → Prop
  | ended (he : v.polling.endFlag = true) : RunsOnce found v { v with pc := v.kind.back }
  | more {ident : ℕ} {rest : List ℕ} {v' : View} (he : v.polling.endFlag = false)
    (hm : v.polling.more = ident :: rest)
    (hp : Processes found ident { v with polling := { v.polling with more := rest } } v') :
    RunsOnce found v v'
  | task {f : ℕ} {rest : List ℕ} (he : v.polling.endFlag = false) (hm : v.polling.more = [])
    (hf : v.tasks = f :: rest) : RunsOnce found v { v with pc := .task f (rest = []), tasks := rest }
  | out {e : ℕ} {rest : List ℕ} (he : v.polling.endFlag = false) (hm : v.polling.more = [])
    (hf : v.tasks = []) (hq : v.out.queue = e :: rest) :
    RunsOnce found v { v with
      pc := .outEvent e
      out := { v.out with queue := rest, taken := e :: v.out.taken } }
  | poll (he : v.polling.endFlag = false) (hm : v.polling.more = []) (hf : v.tasks = [])
    (hq : v.out.queue = []) (hn : v.polling.num = v.polling.off) :
    RunsOnce found v { v with pc := .polling, polling := { v.polling with pollable := false } }
  | backlog {ident : ℕ} {v' : View} (he : v.polling.endFlag = false) (hm : v.polling.more = [])
    (hf : v.tasks = []) (hq : v.out.queue = []) (hn : v.polling.num ≠ v.polling.off)
    (hb : v.polling.backlog[v.polling.off]? = some ident)
    (hp : Processes found ident { v with polling := { v.polling with off := v.polling.off + 1 } } v') :
    RunsOnce found v v'

/-- The steps that only move the thread. -/
inductive Hops (v : View) : Pc → Prop
  | flushLock (hpc : v.pc = .lock) (hk : v.kind = .flush) : Hops v .flushTop
  | hasQueue (hpc : v.pc = .hasQueue) (hq : v.out.queue ≠ []) : Hops v .outFront
  | noQueue (hpc : v.pc = .hasQueue) (hq : v.out.queue = []) : Hops v .tasksEmpty
  | outFront {e : ℕ} {rest : List ℕ} (hpc : v.pc = .outFront) (hq : v.out.queue = e :: rest) :
    Hops v (.outPop e)
  | hasTask (hpc : v.pc = .tasksEmpty) (hf : v.tasks ≠ []) : Hops v .taskFront
  | taskFront {f : ℕ} {rest : List ℕ} (hpc : v.pc = .taskFront) (hf : v.tasks = f :: rest) :
    Hops v (.taskPop f)
  | taskLast {f : ℕ} {last : Bool} (hpc : v.pc = .taskLast f) : Hops v (.task f last)
  | executedLast {f : ℕ} (hpc : v.pc = .task f true) : Hops v .broadcast
  | back (hpc : v.pc = .broadcast ∨ v.pc = .rearm ∨ v.pc = .tasksEmpty ∨ (∃ i, v.pc = .handler i) ∨
      ∃ f, v.pc = .task f false) : Hops v v.kind.back
  | flushHold (hpc : v.pc = .flushTop) (hc : v.out.watching ≠ 0 ∨ v.tasks ≠ []) : Hops v .flushHold
  | flushed (hpc : v.pc = .flushTop) (hc : v.out.watching = 0 ∧ v.tasks = []) : Hops v .outside
  | flushBack (hpc : v.pc = .flushBack) : Hops v .flushTop

inductive Lone (n m : ℕ) (mc : Memcpy) (v : View) : Action → View → Prop
  | hop {wake : Option ℕ} {found : List ℕ} {p : Pc} (h : Hops v p) :
    Lone n m mc v (.run 0 wake found) { v with pc := p }
  | once {wake : Option ℕ} {found : List ℕ} {v' : View}
    (hpc : v.pc = .lock ∧ v.kind ≠ .flush ∨ v.pc = .flushHold) (h : RunsOnce found v v') :
    Lone n m mc v (.run 0 wake found) v'
  | polled {wake : Option ℕ} {found idents : List ℕ} {ident : ℕ} {v' : View} (hpc : v.pc = .polled idents)
    (hb : v.polling.backlog[0]? = some ident)
    (hp : Processes found ident
      { v with polling := { v.polling with off := 1, num := idents.length, pollable := true } } v') :
    Lone n m mc v (.run 0 wake found) v'
  | timedOut {wake : Option ℕ} {found : List ℕ} {p : Pc} (hpc : v.pc = .timedOut)
    (hp : p = v.kind.back ∧ v.kind ≠ .nonblock ∨ p = .hasQueue ∧ v.kind = .nonblock) :
    Lone n m mc v (.run 0 wake found)
      { v with pc := p, polling := { v.polling with pollable := true } }
  | outPop {wake : Option ℕ} {found : List ℕ} {e : ℕ} {rest : List ℕ} (hpc : v.pc = .outPop e)
    (hq : v.out.queue = e :: rest) :
    Lone n m mc v (.run 0 wake found) { v with
      pc := .outEvent e
      out := { v.out with queue := rest, taken := e :: v.out.taken } }
  | taskPop {wake : Option ℕ} {found : List ℕ} {f : ℕ} {rest : List ℕ} (hpc : v.pc = .taskPop f)
    (hf : v.tasks = f :: rest) :
    Lone n m mc v (.run 0 wake found) { v with pc := .taskLast f, tasks := rest }
  | writing {wake : Option ℕ} {found : List ℕ} {e : ℕ} {o : Wavy.State} {p : Pc}
    (hpc : v.pc = .writing e) (ho : stepOut n m mc v.out (.goOn e) = some o)
    (hp : (v.out.cs e = .remove ∨ v.out.cs e = .clear) ∧ p = .writing e ∨
      v.out.cs e = .reactivate ∧ p = v.kind.back ∨
      v.out.cs e = .decr ∧ (p = v.kind.back ∨ p = .broadcast)) :
    Lone n m mc v (.run 0 wake found) { v with pc := p, out := o }
  | call {k : Kind} (hk : k ≠ .main) (hpc : v.pc = .outside) :
    Lone n m mc v (.call 0 k) { v with pc := .lock, kind := k }
  | waitReturns {idents : List ℕ} (hpc : v.pc = .polling) (hne : idents ≠ []) :
    Lone n m mc v (.waitReturns 0 idents)
      { v with pc := .polled idents, polling := { v.polling with backlog := idents } }
  | timeout (hpc : v.pc = .polling) : Lone n m mc v (.timeout 0) { v with pc := .timedOut }
  | writeEvent {e : ℕ} {as : List Answer} {o : Wavy.State} (hpc : v.pc = .outEvent e)
    (ho : stepOut n m mc v.out (.writeEvent e as) = some o) :
    Lone n m mc v (.writeEvent 0 as) { v with pc := .writing e, out := o }
  | more {wake : Option ℕ} {ident : ℕ} (hpc : v.pc = .handler ident) :
    Lone n m mc v (.more 0 wake) { v with polling := { v.polling with more := v.polling.more ++ [ident] } }
  | submit {f : ℕ} {wake : Option ℕ} : Lone n m mc v (.submit f wake) { v with tasks := v.tasks ++ [f] }
  | commit {act : Wavy.Action} {o : Wavy.State} (hb : byCaller v.out act = true)
    (ho : stepOut n m mc v.out act = some o) : Lone n m mc v (.commit act) { v with out := o }
  | endBegin : Lone n m mc v .endBegin { v with polling := { v.polling with endFlag := true } }
  | endReturn : Lone n m mc v .endReturn v

/-- What the place of the thread says about the queues, when it is alone. -/
def View.Fits (v : View) : Prop :=
  match v.pc with
  | .lock | .flushHold => v.polling.pollable = true
  | .outFront => v.out.queue ≠ []
  | .outPop e => ∃ rest, v.out.queue = e :: rest
  | .taskFront => v.tasks ≠ []
  | .taskPop f => ∃ rest, v.tasks = f :: rest
  | .waiting | .woken | .flushWaiting | .flushWoken | .exited => False
  | _ => True

section cases

variable {wake : Option ℕ} {found : List ℕ}

theorem processHandler_alone {ident : ℕ} (h : processHandler 0 ident found s = some s') :
    Processes found ident s.view s'.view := by
  unfold processHandler pollEvent at h
  split_ifs at h with hi
  · obtain ⟨s₁, hs₁, rfl⟩ := Option.map_eq_some_iff.mp h
    obtain ⟨o, ho, rfl⟩ := Option.map_eq_some_iff.mp hs₁
    rw [view_setPc, view_unlock]
    exact .out hi ho
  · obtain rfl := Option.some.inj h
    rw [view_setPc, view_unlock]
    exact .handler hi

theorem doTask_alone (hw : s.pc 0 ≠ .waiting) (h : doTask 1 0 wake s = some s') :
    ∃ f rest, s.tasks = f :: rest ∧ s'.view = { s.view with pc := .task f (rest = []), tasks := rest } := by
  unfold doTask at h
  cases hf : s.tasks with
  | nil => simp [hf] at h
  | cons f rest =>
    refine ⟨f, rest, rfl, ?_⟩
    simp only [hf] at h
    split_ifs at h with hrest
    · obtain rfl := Option.some.inj h
      rw [view_setPc, view_unlock]
      simp [State.view, hrest]
    · obtain ⟨s₁, hs, rfl⟩ := Option.map_eq_some_iff.mp h
      obtain rfl := signal_alone hs hw
      rw [view_setPc, view_unlock]
      simp [State.view, hrest]

theorem doOut_alone (h : doOut 0 s = some s') :
    ∃ e rest, s.out.queue = e :: rest ∧ s'.view = { s.view with
      pc := .outEvent e
      out := { s.out with queue := rest, taken := e :: s.out.taken } } := by
  unfold doOut at h
  cases hq : s.out.queue with
  | nil => simp [hq] at h
  | cons e rest =>
    refine ⟨e, rest, rfl, ?_⟩
    simp only [hq] at h
    obtain rfl := Option.some.inj h
    rw [view_setPc, view_unlock]
    rfl

theorem takeBacklog_alone (h : takeBacklog 0 found s = some s') :
    ∃ ident, s.backlog[s.off]? = some ident ∧
      Processes found ident { s.view with polling := { s.toPolling with off := s.off + 1 } } s'.view := by
  unfold takeBacklog at h
  cases hb : s.backlog[s.off]? with
  | none => simp [hb] at h
  | some ident =>
    simp only [hb] at h
    exact ⟨ident, rfl, processHandler_alone h⟩

theorem runOnce_alone {block : Bool} (hp : s.pollable = true) (hw : s.pc 0 ≠ .waiting)
    (h : runOnce 1 0 wake found block s = some s') : RunsOnce found s.view s'.view := by
  unfold runOnce at h
  cases he : s.endFlag with
  | true =>
    rw [he, if_pos rfl] at h
    obtain rfl := Option.some.inj h
    rw [view_ret]
    exact .ended he
  | false =>
    rw [if_neg (by rw [he]; exact Bool.false_ne_true)] at h
    cases hm : s.more with
    | cons ident rest =>
      simp only [hm] at h
      exact .more he hm (processHandler_alone h)
    | nil =>
      simp only [hm, hp, Bool.true_eq_false, if_false] at h
      split_ifs at h with hf hq
      · obtain ⟨f, rest, hf', hv⟩ := doTask_alone hw h
        rw [hv]
        exact .task he hm hf'
      · obtain ⟨e, rest, hq', hv⟩ := doOut_alone h
        rw [hv]
        exact .out he hm (not_not.mp hf) hq'
      · unfold pollOrTake at h
        split_ifs at h with hn
        · obtain rfl := Option.some.inj h
          rw [view_setPc, view_unlock]
          exact .poll he hm (not_not.mp hf) (not_not.mp hq) hn
        · obtain ⟨ident, hb, hproc⟩ := takeBacklog_alone h
          exact .backlog he hm (not_not.mp hf) (not_not.mp hq) hn hb hproc

theorem flush_alone (hr : s.running = false) (hfit : s.view.Fits) (h : flush 1 0 wake found s = some s') :
    Lone n m mc s.view (.run 0 wake found) s'.view := by
  unfold flush at h
  cases hpc : s.pc 0 with
  | flushTop =>
    simp only [hpc] at h
    obtain rfl := Option.some.inj h
    split_ifs with hc
    · rw [view_setPc]
      exact .hop (.flushHold hpc hc)
    · rw [view_setPc, view_unlock]
      obtain ⟨hw, hf⟩ := not_or.mp hc
      exact .hop (.flushed hpc ⟨not_not.mp hw, not_not.mp hf⟩)
  | flushHold =>
    simp only [hpc, hr, Bool.false_eq_true, if_false] at h
    have hp : s.pollable = true := by simpa only [View.Fits, State.view, hpc] using hfit
    exact .once (.inr hpc) (runOnce_alone hp (by rw [hpc]; nofun) h)
  | flushWoken => simp only [View.Fits, State.view, hpc] at hfit
  | flushBack =>
    simp only [hpc] at h
    obtain ⟨s₀, hs, rfl⟩ := Option.map_eq_some_iff.mp h
    have hv : s₀.view = s.view := by
      split_ifs at hs with ho
      · rw [Option.some.inj hs]
      · exact view_relock hs
    rw [view_setPc, hv]
    exact .hop (.flushBack hpc)
  | _ => simp [hpc] at h

theorem unlockedQueue_alone (hfit : s.view.Fits) (h : unlockedQueue 1 0 wake s = some s') :
    Lone n m mc s.view (.run 0 wake found) s'.view := by
  unfold unlockedQueue at h
  cases hpc : s.pc 0 with
  | hasQueue =>
    simp only [hpc] at h
    obtain rfl := Option.some.inj h
    rw [view_setPc]
    split_ifs with hq
    · exact .hop (.hasQueue hpc hq)
    · exact .hop (.noQueue hpc (not_not.mp hq))
  | outFront =>
    have hne : s.out.queue ≠ [] := by simpa only [View.Fits, State.view, hpc] using hfit
    simp only [hpc] at h
    cases hq : s.out.queue with
    | nil => exact absurd hq hne
    | cons e rest =>
      simp only [hq] at h
      obtain rfl := Option.some.inj h
      rw [view_setPc]
      exact .hop (.outFront hpc hq)
  | outPop e =>
    obtain ⟨rest, hq⟩ : ∃ rest, s.out.queue = e :: rest := by
      simpa only [View.Fits, State.view, hpc] using hfit
    simp only [hpc, hq] at h
    obtain rfl := Option.some.inj h
    rw [view_setPc]
    exact .outPop hpc hq
  | tasksEmpty =>
    simp only [hpc] at h
    obtain rfl := Option.some.inj h
    split_ifs with hf
    · rw [view_setPc]
      exact .hop (.hasTask hpc hf)
    · rw [view_ret]
      exact .hop (.back (.inr (.inr (.inl hpc))))
  | taskFront =>
    have hne : s.tasks ≠ [] := by simpa only [View.Fits, State.view, hpc] using hfit
    simp only [hpc] at h
    cases hf : s.tasks with
    | nil => exact absurd hf hne
    | cons f rest =>
      simp only [hf] at h
      obtain rfl := Option.some.inj h
      rw [view_setPc]
      exact .hop (.taskFront hpc hf)
  | taskPop f =>
    obtain ⟨rest, hf⟩ : ∃ rest, s.tasks = f :: rest := by
      simpa only [View.Fits, State.view, hpc] using hfit
    simp only [hpc, hf] at h
    obtain rfl := Option.some.inj h
    rw [view_setPc]
    exact .taskPop hpc hf
  | taskLast f =>
    simp only [hpc] at h
    split_ifs at h with hf
    · obtain rfl := Option.some.inj h
      rw [view_setPc]
      exact .hop (.taskLast hpc)
    · obtain ⟨s₁, hs, rfl⟩ := Option.map_eq_some_iff.mp h
      obtain rfl := signal_alone hs (by rw [hpc]; nofun)
      rw [view_setPc]
      exact .hop (.taskLast hpc)
  | _ => simp [hpc] at h

theorem afterPoll_alone {idents : List ℕ} (hw : s.pc 0 ≠ .waiting)
    (h : afterPoll 1 0 wake found idents s = some s') :
    ∃ ident, s.backlog[0]? = some ident ∧ Processes found ident
      { s.view with polling := { s.toPolling with off := 1, num := idents.length, pollable := true } }
      s'.view := by
  unfold afterPoll at h
  obtain ⟨s₁, hs, h⟩ := Option.bind_eq_some_iff.mp h
  obtain rfl := signal_alone hs hw
  exact takeBacklog_alone h

theorem writing_alone {e : ℕ} (hpc : s.pc 0 = .writing e) (h : writeEvent n m mc 0 e s = some s') :
    Lone n m mc s.view (.run 0 wake found) s'.view := by
  unfold writeEvent at h
  cases hcs : s.out.cs e with
  | reactivate =>
    simp only [hcs] at h
    obtain ⟨o, ho, rfl⟩ := Option.map_eq_some_iff.mp h
    rw [view_ret]
    exact .writing hpc ho (.inr (.inl ⟨hcs, rfl⟩))
  | remove | clear =>
    simp only [hcs] at h
    obtain ⟨o, ho, rfl⟩ := Option.map_eq_some_iff.mp h
    have hv : State.view { s with out := o } = { s.view with pc := .writing e, out := o } := by
      simp only [State.view, ← hpc]
      rfl
    rw [hv]
    exact .writing hpc ho (.inl ⟨by simp [State.view, hcs], rfl⟩)
  | decr =>
    simp only [hcs] at h
    obtain ⟨o, ho, rfl⟩ := Option.map_eq_some_iff.mp h
    split_ifs with hz
    · rw [view_setPc]
      exact .writing hpc ho (.inr (.inr ⟨hcs, .inr rfl⟩))
    · rw [view_ret]
      exact .writing hpc ho (.inr (.inr ⟨hcs, .inl rfl⟩))
  | idle | addFd | incr => simp [hcs] at h

theorem runThread_alone (hk : s.kind 0 ≠ .main) (hr : s.running = false) (hfit : s.view.Fits)
    (h : runThread 1 n m mc 0 wake found s = some s') : Lone n m mc s.view (.run 0 wake found) s'.view := by
  unfold runThread at h
  cases hpc : s.pc 0 with
  | lock =>
    have hp : s.pollable = true := by simpa only [View.Fits, State.view, hpc] using hfit
    simp only [hpc] at h
    obtain ⟨s₀, hl, h⟩ := Option.bind_eq_some_iff.mp h
    have hv := view_lock hl
    have hk₀ : s₀.kind 0 = s.kind 0 := congrArg View.kind hv
    have hp₀ : s₀.pollable = true := (congrArg (fun v => v.polling.pollable) hv).trans hp
    have hw₀ : s₀.pc 0 ≠ .waiting := by
      rw [show s₀.pc 0 = s.pc 0 from congrArg View.pc hv, hpc]
      nofun
    unfold locked at h
    cases hkind : s₀.kind 0 with
    | main => exact absurd (hk₀.symm.trans hkind) hk
    | once | nonblock =>
      simp only [hkind] at h
      have hrun := runOnce_alone hp₀ hw₀ h
      rw [hv] at hrun
      refine .once (.inl ⟨hpc, ?_⟩) hrun
      show s.kind 0 ≠ .flush
      rw [← hk₀, hkind]
      nofun
    | flush =>
      simp only [hkind] at h
      obtain rfl := Option.some.inj h
      rw [view_setPc, hv]
      exact .hop (.flushLock hpc (hk₀.symm.trans hkind))
  | polled idents =>
    simp only [hpc] at h
    obtain ⟨s₀, hl, h⟩ := Option.bind_eq_some_iff.mp h
    have hv := view_relock hl
    have hw₀ : s₀.pc 0 ≠ .waiting := by
      rw [show s₀.pc 0 = s.pc 0 from congrArg View.pc hv, hpc]
      nofun
    obtain ⟨ident, hb, hproc⟩ := afterPoll_alone hw₀ h
    have hpoll : s₀.toPolling = s.toPolling := congrArg View.polling hv
    rw [hv, hpoll] at hproc
    refine .polled hpc ?_ hproc
    rw [hpoll] at hb
    exact hb
  | timedOut =>
    simp only [hpc] at h
    obtain rfl := Option.some.inj h
    unfold afterTimeout
    cases hkind : s.kind 0 with
    | main => exact absurd hkind hk
    | once | flush =>
      rw [view_ret]
      refine .timedOut hpc (.inl ⟨rfl, ?_⟩)
      show s.kind 0 ≠ .nonblock
      rw [hkind]
      nofun
    | nonblock =>
      rw [view_setPc]
      exact .timedOut hpc (.inr ⟨rfl, hkind⟩)
  | hasQueue | outFront | outPop | tasksEmpty | taskFront | taskPop | taskLast =>
    simp only [hpc] at h
    exact unlockedQueue_alone hfit h
  | task f last =>
    simp only [hpc] at h
    obtain rfl := Option.some.inj h
    cases last with
    | true =>
      rw [if_pos rfl, view_setPc]
      exact .hop (.executedLast hpc)
    | false =>
      rw [if_neg Bool.false_ne_true, view_ret]
      exact .hop (.back (.inr (.inr (.inr (.inr ⟨f, hpc⟩)))))
  | writing e =>
    simp only [hpc] at h
    exact writing_alone hpc h
  | broadcast =>
    simp only [hpc] at h
    obtain ⟨s₀, hl, rfl⟩ := Option.map_eq_some_iff.mp h
    have hv := view_relock hl
    have hne : s₀.pc 0 ≠ .flushWaiting := by
      rw [show s₀.pc 0 = s.pc 0 from congrArg View.pc hv, hpc]
      nofun
    rw [view_ret, view_wakeAll _ _ hne, hv]
    exact .hop (.back (.inl hpc))
  | rearm =>
    simp only [hpc] at h
    obtain rfl := Option.some.inj h
    rw [view_ret]
    exact .hop (.back (.inr (.inl hpc)))
  | handler i =>
    simp only [hpc] at h
    obtain rfl := Option.some.inj h
    rw [view_ret]
    exact .hop (.back (.inr (.inr (.inr (.inl ⟨i, hpc⟩)))))
  | flushTop | flushHold | flushBack =>
    simp only [hpc] at h
    exact flush_alone hr hfit h
  | flushWoken | woken => simp only [View.Fits, State.view, hpc] at hfit
  | outside | waiting | polling | outEvent | flushWaiting | exited => simp [hpc] at h

end cases

theorem step_alone (hk : s.kind 0 ≠ .main) (hr : s.running = false) (hfit : s.view.Fits)
    (hstart : a ≠ .start) (hjoin : a ≠ .join) (h : step 1 n m mc s a = some s') :
    Lone n m mc s.view a s'.view := by
  have hzero {t : ℕ} (ht : t < 1) : t = 0 := Nat.lt_one_iff.mp ht
  have hwait : s.pc 0 ≠ .waiting := by
    intro hpc
    simp only [View.Fits, State.view, hpc] at hfit
  cases a with
  | call t kind =>
    simp only [step] at h
    split_ifs at h with hc
    obtain rfl := hzero hc.1
    obtain rfl := Option.some.inj h
    have hv : State.view { s with threads := Function.update s.threads 0 ⟨kind, s.owns 0, .lock⟩ } =
        { s.view with pc := .lock, kind := kind } := by
      simp [State.view]
    rw [hv]
    exact .call hc.2.2.1 hc.2.2.2
  | run t wake found =>
    simp only [step] at h
    split_ifs at h with ht
    obtain rfl := hzero ht
    exact runThread_alone hk hr hfit h
  | wakeup t =>
    simp only [step] at h
    split_ifs at h with hc hc'
    · obtain rfl := hzero hc.1
      exact absurd hc.2 hwait
    · obtain rfl := hzero hc'.1
      simp only [View.Fits, State.view, hc'.2] at hfit
  | waitReturns t idents =>
    simp only [step] at h
    split_ifs at h with hc
    obtain rfl := hzero hc.1
    obtain rfl := Option.some.inj h
    rw [view_setPc]
    exact .waitReturns hc.2.1 hc.2.2
  | timeout t =>
    simp only [step] at h
    split_ifs at h with hc
    obtain rfl := hzero hc.1
    obtain rfl := Option.some.inj h
    rw [view_setPc]
    exact .timeout hc.2
  | writeEvent t as =>
    simp only [step] at h
    split at h
    · rename_i e hpc
      split_ifs at h with ht
      obtain rfl := hzero ht
      obtain ⟨o, ho, rfl⟩ := Option.map_eq_some_iff.mp h
      rw [view_setPc]
      exact .writeEvent hpc ho
    · cases h
  | more t wake =>
    simp only [step] at h
    split at h
    · rename_i ident hpc
      split_ifs at h with hc
      obtain rfl := hzero hc.1
      obtain rfl := signal_alone h hwait
      exact .more hpc
    · cases h
  | submit f wake =>
    simp only [step] at h
    split_ifs at h
    obtain rfl := signal_alone h hwait
    exact .submit
  | commit act =>
    simp only [step] at h
    split_ifs at h with hb
    obtain ⟨o, ho, rfl⟩ := Option.map_eq_some_iff.mp h
    exact .commit hb ho
  | start => exact absurd rfl hstart
  | join => exact absurd rfl hjoin
  | endBegin =>
    obtain rfl := Option.some.inj h
    exact .endBegin
  | endReturn =>
    simp only [step] at h
    split_ifs at h
    obtain rfl := Option.some.inj h
    rw [view_wakeAll _ _ hwait]
    exact .endReturn

end Mpio.Wavy.Mutex
