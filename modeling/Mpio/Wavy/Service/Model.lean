import Mpio.Wavy.Drain
import Mpio.Wavy.Loop.Fetch

/-!
# The loop and `out` together

`Wavy.Loop` knows of `m_queue` only how many write events it has, and `Wavy.Out` does not say who takes
them. Here the two run together. A worker of `thread_main` with an event of `out` calls `poll_event`; one
that finds `m_queue` not empty calls `next`, then `write_event`, and what that returns decides whether it
broadcasts `m_flush_cond`. Meanwhile other threads submit tasks, add and remove handlers, commit, and
call `flush`. The kernel reports the descriptor of `out` only if some descriptor is armed there.

`flush` reads `m_watching` and looks at the tasks, and returns or waits, in one step. It holds `m_mutex`
from its first look until it waits: no task is popped in between, and no thread broadcasts. There are
workers, so it never calls `run_once`.

A step of this system is at most one step of the loop and one or two of `out`, so whatever holds in every
run of either holds here (`reachable_loop`, `reachable_out`).
-/

namespace Mpio.Wavy

open Lib

/-- What the callers do with `out`, the rest of their sections apart. -/
def Action.ofCaller : Action → Bool
  | .write .. | .submit .. | .commit .. | .push .. | .migrate .. | .clearXfer .. | .rewrite .. => true
  | .writeEvent .. | .goOn _ | .pollWait _ | .pollPush | .next => false

namespace Service

/-- How far a worker in `do_out` is: it has taken the event of a descriptor, is inside the section on its
mutex, or `write_event` has returned. -/
inductive Duty
  | none
  | taken (fd : ℕ)
  | inside (fd : ℕ)
  | done (empty : Bool)
  deriving DecidableEq

/-- `write_event` returns when its section is over, and says whether `m_watching` has become 0. -/
def Duty.after (fd : ℕ) (o o' : Wavy.State) (d : Duty) : Duty :=
  if d = .inside fd ∧ o'.cs fd = .idle then .done (decide (o.cs fd = .decr ∧ o'.watching = 0)) else d

/-- Where a caller of `flush` is. -/
inductive Flusher
  | outside
  | waiting
  | woken
  deriving DecidableEq

structure State where
  loop : Loop.State
  out : Wavy.State
  duty : ℕ → Duty
  flusher : ℕ → Flusher

/-- Some descriptor can be reported to `out`. -/
def Ready (n : ℕ) (o : Wavy.State) : Prop := ∃ fd < n, o.interest fd = .armed

instance (n : ℕ) (o : Wavy.State) : Decidable (Ready n o) :=
  inferInstanceAs (Decidable (∃ fd < n, o.interest fd = .armed))

/-- `run` is the next section of a worker, `found` what `poll_event` finds if it is called there. `goOn` is
the next step of the thread inside the section of `fd`, a worker or a caller. `look` is what follows a
wait in `flush`. -/
inductive Action
  | loop (a : Loop.Action)
  | run (t : ℕ) (wake : Option ℕ) (found : Option (List ℕ))
  | writeEvent (t : ℕ) (as : List Answer)
  | goOn (fd : ℕ)
  | outDone (t : ℕ)
  | out (act : Wavy.Action)
  | flush (f : ℕ)
  | look (f : ℕ)
  | flushWakeup (f : ℕ)

/-- The loop condition of `flush`, and what follows. -/
def State.look (s : State) (f : ℕ) : State :=
  { s with
    flusher := Function.update s.flusher f
      (if s.out.watching ≠ 0 ∨ s.loop.tasks ≠ 0 then .waiting else .outside) }

/-- `m_flush_cond.broadcast()`. -/
def wakeAll (flusher : ℕ → Flusher) (f : ℕ) : Flusher :=
  if flusher f = .waiting then .woken else flusher f

/-- A section of worker `t` has led the loop to `l`. -/
def ran (n m : ℕ) (mc : Memcpy) (s : State) (t : ℕ) (found : Option (List ℕ)) (l : Loop.State) :
    Option State :=
  match l.pc t, found with
  | .rearmOut _, some fds =>
    (stepOut n m mc s.out (.pollWait fds)).bind fun o =>
      (stepOut n m mc o .pollPush).map fun o => { s with loop := l, out := o }
  | .rearmOut _, none => none
  | .outEvent, none =>
    match s.out.queue with
    | [] => none
    | fd :: _ =>
      (stepOut n m mc s.out .next).map fun o =>
        { s with loop := l, out := o, duty := Function.update s.duty t (.taken fd) }
  | _, none =>
    some { s with loop := l, flusher := if s.loop.pc t = .flush then wakeAll s.flusher else s.flusher }
  | _, some _ => none

/-- `N` workers, `n` descriptors, `m` `xfer`s of callers and `F` callers of `flush`. -/
def step (N n m F : ℕ) (mc : Memcpy) (s : State) : Action → Option State
  | .loop a =>
    if a.aside = true ∧ (a.reportsOut = true → Ready n s.out) then
      (Loop.step N s.loop a).map fun l => { s with loop := l }
    else none
  | .run t wake found =>
    (Loop.step N s.loop (.run t wake (found.getD []).length)).bind (ran n m mc s t found)
  | .writeEvent t as =>
    match s.duty t with
    | .taken fd =>
      (stepOut n m mc s.out (.writeEvent fd as)).map fun o =>
        { s with out := o, duty := Function.update s.duty t (.inside fd) }
    | _ => none
  | .goOn fd =>
    (stepOut n m mc s.out (.goOn fd)).map fun o =>
      { s with out := o, duty := fun t => (s.duty t).after fd s.out o }
  | .outDone t =>
    match s.duty t with
    | .done empty =>
      (Loop.step N s.loop (.outDone t empty)).map fun l =>
        { s with loop := l, duty := Function.update s.duty t .none }
    | _ => none
  | .out act =>
    if act.ofCaller then (stepOut n m mc s.out act).map fun o => { s with out := o } else none
  | .flush f => if f < F ∧ s.flusher f = .outside then some (s.look f) else none
  | .look f => if f < F ∧ s.flusher f = .woken then some (s.look f) else none
  | .flushWakeup f =>
    if f < F ∧ s.flusher f = .waiting then
      some { s with flusher := Function.update s.flusher f .woken }
    else none

def State.init (world : World) : State where
  loop := .init fun _ => .main
  out := .start world
  duty _ := .none
  flusher _ := .outside

def serviceSystem (N n m F : ℕ) (mc : Memcpy) : System State Action where
  init s := ∃ world, s = .init world
  step := step N n m F mc

/-! ## The steps one by one -/

variable {N n m F : ℕ} {mc : Memcpy} {s s' : State} {act : Action}

/-- Everything a step can be. -/
inductive Step (N n m F : ℕ) (mc : Memcpy) (s : State) : Action → State → Prop
  | loop {a : Loop.Action} {l : Loop.State} (ha : a.aside = true) (hr : a.reportsOut = true → Ready n s.out)
    (hl : Loop.step N s.loop a = some l) : Step N n m F mc s (.loop a) { s with loop := l }
  | poll {t : ℕ} {wake : Option ℕ} {fds : List ℕ} {l : Loop.State} {o o' : Wavy.State} {ke : Loop.Event}
    (hl : Loop.step N s.loop (.run t wake fds.length) = some l) (ht : l.pc t = .rearmOut ke)
    (ho : stepOut n m mc s.out (.pollWait fds) = some o) (ho' : stepOut n m mc o .pollPush = some o') :
    Step N n m F mc s (.run t wake (some fds)) { s with loop := l, out := o' }
  | next {t : ℕ} {wake : Option ℕ} {l : Loop.State} {o : Wavy.State} {fd : ℕ} {queue : List ℕ}
    (hl : Loop.step N s.loop (.run t wake 0) = some l) (ht : l.pc t = .outEvent)
    (hq : s.out.queue = fd :: queue) (ho : stepOut n m mc s.out .next = some o) :
    Step N n m F mc s (.run t wake none)
      { s with loop := l, out := o, duty := Function.update s.duty t (.taken fd) }
  | run {t : ℕ} {wake : Option ℕ} {l : Loop.State} (hl : Loop.step N s.loop (.run t wake 0) = some l)
    (hp : (l.pc t).apart = true) :
    Step N n m F mc s (.run t wake none)
      { s with loop := l, flusher := if s.loop.pc t = .flush then wakeAll s.flusher else s.flusher }
  | writeEvent {t fd : ℕ} {as : List Answer} {o : Wavy.State} (hd : s.duty t = .taken fd)
    (ho : stepOut n m mc s.out (.writeEvent fd as) = some o) :
    Step N n m F mc s (.writeEvent t as)
      { s with out := o, duty := Function.update s.duty t (.inside fd) }
  | goOn {fd : ℕ} {o : Wavy.State} (ho : stepOut n m mc s.out (.goOn fd) = some o) :
    Step N n m F mc s (.goOn fd)
      { s with out := o, duty := fun t => (s.duty t).after fd s.out o }
  | outDone {t : ℕ} {empty : Bool} {l : Loop.State} (hd : s.duty t = .done empty)
    (hl : Loop.step N s.loop (.outDone t empty) = some l) :
    Step N n m F mc s (.outDone t) { s with loop := l, duty := Function.update s.duty t .none }
  | out {act : Wavy.Action} {o : Wavy.State} (ha : act.ofCaller = true)
    (ho : stepOut n m mc s.out act = some o) : Step N n m F mc s (.out act) { s with out := o }
  | flush {f : ℕ} (hf : f < F) (hs : s.flusher f = .outside) : Step N n m F mc s (.flush f) (s.look f)
  | look {f : ℕ} (hf : f < F) (hs : s.flusher f = .woken) : Step N n m F mc s (.look f) (s.look f)
  | flushWakeup {f : ℕ} (hf : f < F) (hs : s.flusher f = .waiting) :
    Step N n m F mc s (.flushWakeup f) { s with flusher := Function.update s.flusher f .woken }

theorem ran_cases {t : ℕ} {wake : Option ℕ} {found : Option (List ℕ)} {l : Loop.State}
    (hl : Loop.step N s.loop (.run t wake (found.getD []).length) = some l)
    (h : ran n m mc s t found l = some s') : Step N n m F mc s (.run t wake found) s' := by
  unfold ran at h
  split at h
  · rename_i ke fds ht
    obtain ⟨o, ho, h⟩ := Option.bind_eq_some_iff.mp h
    obtain ⟨o', ho', rfl⟩ := Option.map_eq_some_iff.mp h
    exact .poll hl ht ho ho'
  · cases h
  · rename_i ht
    split at h
    · cases h
    · rename_i fd queue hq
      obtain ⟨o, ho, rfl⟩ := Option.map_eq_some_iff.mp h
      exact .next hl ht hq ho
  · rename_i hre hout
    obtain rfl := Option.some.inj h
    refine .run hl ?_
    unfold Loop.Pc.apart
    split
    · rename_i ke ht
      exact (hre ke ht).elim
    · rename_i ht
      exact (hout ht).elim
    · rfl
  · cases h

theorem step_cases (h : step N n m F mc s act = some s') : Step N n m F mc s act s' := by
  cases act with
  | loop a =>
    simp only [step] at h
    split_ifs at h with hc
    obtain ⟨l, hl, rfl⟩ := Option.map_eq_some_iff.mp h
    exact .loop hc.1 hc.2 hl
  | run t wake found =>
    simp only [step] at h
    obtain ⟨l, hl, h⟩ := Option.bind_eq_some_iff.mp h
    exact ran_cases hl h
  | writeEvent t as =>
    simp only [step] at h
    split at h
    · rename_i fd hd
      obtain ⟨o, ho, rfl⟩ := Option.map_eq_some_iff.mp h
      exact .writeEvent hd ho
    · cases h
  | goOn fd =>
    simp only [step] at h
    obtain ⟨o, ho, rfl⟩ := Option.map_eq_some_iff.mp h
    exact .goOn ho
  | outDone t =>
    simp only [step] at h
    split at h
    · rename_i empty hd
      obtain ⟨l, hl, rfl⟩ := Option.map_eq_some_iff.mp h
      exact .outDone hd hl
    · cases h
  | out act =>
    simp only [step] at h
    split_ifs at h with ha
    obtain ⟨o, ho, rfl⟩ := Option.map_eq_some_iff.mp h
    exact .out ha ho
  | flush f =>
    simp only [step] at h
    split_ifs at h with hc
    obtain rfl := Option.some.inj h
    exact .flush hc.1 hc.2
  | look f =>
    simp only [step] at h
    split_ifs at h with hc
    obtain rfl := Option.some.inj h
    exact .look hc.1 hc.2
  | flushWakeup f =>
    simp only [step] at h
    split_ifs at h with hc
    obtain rfl := Option.some.inj h
    exact .flushWakeup hc.1 hc.2

end Service

end Mpio.Wavy
