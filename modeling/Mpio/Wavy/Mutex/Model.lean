import Mpio.Wavy.Loop.Model
import Mpio.Wavy.Out

/-!
# `m_mutex`, the two queues and `flush`

`loop_impl` once more, from the side of its mutex. Here `m_task_queue` holds tasks, `m_queue` is the one
of `mp::wavy::out`, and a thread has its `pthread_scoped_lock`: `owns` says whether the lock refers to
`m_mutex`, `mutex` who holds it. Workers run `thread_main`; other threads call `run_once`,
`run_nonblock` and `flush`, and everybody may submit and commit. What is done in one section under
`m_mutex` is one step, except in `flush`, where the lock, the loop condition and what follows are steps
of their own. What is done outside it is one step for each operation on a queue: `run_once(lk, false)`
goes to `do_queue` after a timeout without the lock. `m_watching` changes inside the sections of `out`.

Which event a handler gets is the matter of `Wavy.Loop`; here the kernel may report anything and a
handler is one step.

Not part of the program: the tasks `submitted`, `popped` and `executed` so far, the events `reported`,
`dequeued` and `written`, and `undefined`, which says that `front` or `pop` was called on an empty
queue.
-/

namespace Mpio.Wavy.Mutex

open Lib

/-- Where a thread is. From `hasQueue` to `taskLast` it works on the queues without the lock. -/
inductive Pc
  | outside
  | lock
  | waiting
  | woken
  | polling
  | polled (idents : List ℕ)
  | timedOut
  | hasQueue
  | outFront
  | outPop (e : ℕ)
  | tasksEmpty
  | taskFront
  | taskPop (f : ℕ)
  | taskLast (f : ℕ)
  | task (f : ℕ) (last : Bool)
  | outEvent (e : ℕ)
  | writing (e : ℕ)
  | broadcast
  | rearm
  | handler (ident : ℕ)
  | flushTop
  | flushHold
  | flushWaiting
  | flushWoken
  | flushBack
  | exited
  deriving DecidableEq

/-- What a thread executes. -/
inductive Kind
  | main
  | once
  | nonblock
  | flush
  deriving DecidableEq

structure Thread where
  kind : Kind
  owns : Bool
  pc : Pc
  deriving DecidableEq

/-- What the polling of `thread_main` and `run_once` goes by. -/
structure Polling where
  more : List ℕ
  backlog : List ℕ
  off : ℕ
  num : ℕ
  pollable : Bool
  endFlag : Bool
  running : Bool

/-- The queues. -/
structure Queues where
  tasks : List ℕ
  out : Wavy.State
  undefined : Bool
  submitted : List ℕ
  popped : List ℕ
  executed : List ℕ
  reported : List ℕ
  dequeued : List ℕ
  written : List ℕ

structure State extends Polling, Queues where
  threads : ℕ → Thread
  mutex : Option ℕ

def State.pc (s : State) (t : ℕ) : Pc := (s.threads t).pc

def State.owns (s : State) (t : ℕ) : Bool := (s.threads t).owns

def State.kind (s : State) (t : ℕ) : Kind := (s.threads t).kind

def State.setPc (s : State) (t : ℕ) (p : Pc) : State :=
  { s with threads := Function.update s.threads t ⟨s.kind t, s.owns t, p⟩ }

def State.setOwns (s : State) (t : ℕ) (b : Bool) : State :=
  { s with threads := Function.update s.threads t ⟨s.kind t, b, s.pc t⟩ }

/-! ## The lock and the condition variables -/

/-- The constructor of `pthread_scoped_lock`. -/
def State.lock (s : State) (t : ℕ) : Option State :=
  if s.mutex = none then some ({ s with mutex := some t }.setOwns t true) else none

/-- `pthread_scoped_lock::unlock`, and its destructor. -/
def State.unlock (s : State) (t : ℕ) : State :=
  if s.owns t then { s with mutex := none }.setOwns t false else s

/-- `pthread_scoped_lock::relock`. -/
def State.relock (s : State) (t : ℕ) : Option State := (s.unlock t).lock t

/-- `pthread_cond::wait` lets go of the mutex, behind the back of the scoped lock. -/
def State.wait (s : State) (t : ℕ) (p : Pc) : State := { s with mutex := none }.setPc t p

/-- It takes the mutex again before it returns. -/
def State.waited (s : State) (t : ℕ) : Option State :=
  if s.mutex = none then some { s with mutex := some t } else none

/-- `m_cond.signal()`; the environment picks the thread. -/
def signal (N : ℕ) (wake : Option ℕ) (s : State) : Option State :=
  match wake with
  | some t => if t < N ∧ s.pc t = .waiting then some (s.setPc t .woken) else none
  | none => if ∀ t < N, s.pc t ≠ .waiting then some s else none

/-- Every thread at `p` goes on to `p'`. -/
def State.wakeAll (s : State) (p p' : Pc) : State :=
  { s with threads := fun t => ⟨s.kind t, s.owns t, if s.pc t = p then p' else s.pc t⟩ }

/-! ## Sections -/

/-- The end of a round: a worker starts the next, `run_once` returns and its lock is destroyed, and
`flush` goes on with the lock as it is. -/
def State.ret (s : State) (t : ℕ) : State :=
  match s.kind t with
  | .main => (s.unlock t).setPc t .lock
  | .once | .nonblock => (s.unlock t).setPc t .outside
  | .flush => s.setPc t .flushBack

/-- `m_out->poll_event()`. -/
def pollEvent (found : List ℕ) (s : State) : Option State :=
  (s.out.pollWait found).map fun o =>
    { s with
      out := { o with queue := o.queue ++ o.backlog, backlog := [] }
      reported := s.reported ++ o.backlog }

/-- From `process_handler` to the unlock. -/
def processHandler (t ident : ℕ) (found : List ℕ) (s : State) : Option State :=
  if ident = Loop.outIdent then (pollEvent found s).map fun s => (s.unlock t).setPc t .rearm
  else some ((s.unlock t).setPc t (.handler ident))

/-- `do_task`, up to the unlock. -/
def doTask (N t : ℕ) (wake : Option ℕ) (s : State) : Option State :=
  match s.tasks with
  | [] => none
  | f :: rest =>
    let s := { s with tasks := rest, popped := s.popped ++ [f] }
    if rest = [] then some ((s.unlock t).setPc t (.task f true))
    else (signal N wake s).map fun s => (s.unlock t).setPc t (.task f false)

/-- `do_out`, up to the unlock. -/
def doOut (t : ℕ) (s : State) : Option State :=
  match s.out.queue with
  | [] => none
  | e :: rest =>
    let s := { s with
      out := { s.out with queue := rest, taken := e :: s.out.taken }
      dequeued := s.dequeued ++ [e] }
    some ((s.unlock t).setPc t (.outEvent e))

/-- `ke = m_backlog[m_off++]` and what follows. -/
def takeBacklog (t : ℕ) (found : List ℕ) (s : State) : Option State :=
  match s.backlog[s.off]? with
  | some ident => processHandler t ident found { s with off := s.off + 1 }
  | none => none

def pollOrTake (t : ℕ) (found : List ℕ) (s : State) : Option State :=
  if s.num = s.off then some (({ s with pollable := false }.unlock t).setPc t .polling)
  else takeBacklog t found s

/-- `thread_main` from `retry_task` on. -/
def threadMain (N t : ℕ) (wake : Option ℕ) (found : List ℕ) (s : State) : Option State :=
  if s.endFlag then some ((s.unlock t).setPc t .exited)
  else
    match s.more with
    | ident :: rest => processHandler t ident found { s with more := rest }
    | [] =>
      if s.pollable = false then
        if s.out.queue ≠ [] then doOut t s
        else if s.tasks ≠ [] then doTask N t wake s
        else some (s.wait t .waiting)
      else if Loop.TASK_QUEUE_LIMIT < s.tasks.length then doTask N t wake s
      else pollOrTake t found s

/-- `do_queue` of `run_once`, under the lock. -/
def doQueue (N t : ℕ) (wake : Option ℕ) (block : Bool) (s : State) : Option State :=
  if s.out.queue ≠ [] then doOut t s
  else if s.tasks ≠ [] then doTask N t wake s
  else some (if block then s.wait t .waiting else s.ret t)

def runOnce (N t : ℕ) (wake : Option ℕ) (found : List ℕ) (block : Bool) (s : State) : Option State :=
  if s.endFlag then some (s.ret t)
  else
    match s.more with
    | ident :: rest => processHandler t ident found { s with more := rest }
    | [] =>
      if s.pollable = false then doQueue N t wake block s
      else if s.tasks ≠ [] then doTask N t wake s
      else if s.out.queue ≠ [] then doOut t s
      else pollOrTake t found s

/-- What follows once the lock is there. -/
def locked (N t : ℕ) (wake : Option ℕ) (found : List ℕ) (s : State) : Option State :=
  match s.kind t with
  | .main => threadMain N t wake found s
  | .once => runOnce N t wake found true s
  | .nonblock => runOnce N t wake found false s
  | .flush => some (s.setPc t .flushTop)

/-- What follows `m_cond.wait`. -/
def afterWait (N t : ℕ) (wake : Option ℕ) (found : List ℕ) (s : State) : Option State :=
  match s.kind t with
  | .main => threadMain N t wake found s
  | .once | .nonblock | .flush => some (s.ret t)

/-- After a wait that returned events. -/
def afterPoll (N t : ℕ) (wake : Option ℕ) (found idents : List ℕ) (s : State) : Option State :=
  (signal N wake { s with off := 0, num := idents.length, pollable := true }).bind (takeBacklog t found)

/-- After a wait that returned none. -/
def afterTimeout (t : ℕ) (s : State) : State :=
  match s.kind t with
  | .main => if s.endFlag then { s with pollable := true }.setPc t .exited else s.setPc t .polling
  | .once | .flush => { s with pollable := true }.ret t
  | .nonblock => { s with pollable := true }.setPc t .hasQueue

/-- The call of `front` or `pop` on an empty queue. -/
def State.fail (s : State) (t : ℕ) : State := { s with undefined := true }.setPc t .exited

/-- `do_queue` without the lock, one operation after the other. -/
def unlockedQueue (N t : ℕ) (wake : Option ℕ) (s : State) : Option State :=
  match s.pc t with
  | .hasQueue => some (s.setPc t (if s.out.queue ≠ [] then .outFront else .tasksEmpty))
  | .outFront =>
    match s.out.queue with
    | [] => some (s.fail t)
    | e :: _ => some (s.setPc t (.outPop e))
  | .outPop e =>
    match s.out.queue with
    | [] => some (s.fail t)
    | d :: rest =>
      some ({ s with
        out := { s.out with queue := rest, taken := e :: s.out.taken }
        dequeued := s.dequeued ++ [d] }.setPc t (.outEvent e))
  | .tasksEmpty => some (if s.tasks ≠ [] then s.setPc t .taskFront else s.ret t)
  | .taskFront =>
    match s.tasks with
    | [] => some (s.fail t)
    | f :: _ => some (s.setPc t (.taskPop f))
  | .taskPop f =>
    match s.tasks with
    | [] => some (s.fail t)
    | g :: rest =>
      some ({ s with tasks := rest, popped := s.popped ++ [g] }.setPc t (.taskLast f))
  | .taskLast f =>
    if s.tasks = [] then some (s.setPc t (.task f true))
    else (signal N wake s).map (·.setPc t (.task f false))
  | _ => none

/-- `flush`, from its loop condition on. -/
def flush (N t : ℕ) (wake : Option ℕ) (found : List ℕ) (s : State) : Option State :=
  match s.pc t with
  | .flushTop =>
    some (if s.out.watching ≠ 0 ∨ s.tasks ≠ [] then s.setPc t .flushHold
      else (s.unlock t).setPc t .outside)
  | .flushHold => if s.running then some (s.wait t .flushWaiting) else runOnce N t wake found true s
  | .flushWoken => (s.waited t).map (·.setPc t .flushTop)
  | .flushBack => (if s.owns t then some s else s.relock t).map (·.setPc t .flushTop)
  | _ => none

/-- The rest of `write_event`: the value returned says that `m_watching` has become 0. -/
def writeEvent (n m : ℕ) (mc : Memcpy) (t e : ℕ) (s : State) : Option State :=
  match s.out.cs e with
  | .reactivate => (stepOut n m mc s.out (.goOn e)).map fun o => { s with out := o }.ret t
  | .remove | .clear => (stepOut n m mc s.out (.goOn e)).map fun o => { s with out := o }
  | .decr =>
    (stepOut n m mc s.out (.goOn e)).map fun o =>
      if o.watching = 0 then { s with out := o }.setPc t .broadcast else { s with out := o }.ret t
  | .idle | .addFd | .incr => none

/-! ## Steps -/

/-- `run` is the next step of a thread, `wake` and `found` being what it may need from outside.
`writeEvent` enters the section of `out`; `commit` is what callers do with `out`, `more` a call of a
handler on its event. -/
inductive Action
  | call (t : ℕ) (kind : Kind)
  | run (t : ℕ) (wake : Option ℕ) (found : List ℕ)
  | wakeup (t : ℕ)
  | waitReturns (t : ℕ) (idents : List ℕ)
  | timeout (t : ℕ)
  | writeEvent (t : ℕ) (as : List Answer)
  | more (t : ℕ) (wake : Option ℕ)
  | submit (f : ℕ) (wake : Option ℕ)
  | commit (act : Wavy.Action)
  | start
  | join
  | endBegin
  | endReturn

/-- The next step of thread `t`. -/
def runThread (N n m : ℕ) (mc : Memcpy) (t : ℕ) (wake : Option ℕ) (found : List ℕ) (s : State) :
    Option State :=
  match s.pc t with
  | .lock => (s.lock t).bind (locked N t wake found)
  | .woken => (s.waited t).bind (afterWait N t wake found)
  | .polled idents => (s.relock t).bind (afterPoll N t wake found idents)
  | .timedOut => some (afterTimeout t s)
  | .hasQueue | .outFront | .outPop _ | .tasksEmpty | .taskFront | .taskPop _ | .taskLast _ =>
    unlockedQueue N t wake s
  | .task f last =>
    let s := { s with executed := s.executed ++ [f] }
    some (if last then s.setPc t .broadcast else s.ret t)
  | .writing e => writeEvent n m mc t e s
  | .broadcast => (s.relock t).map fun s => (s.wakeAll .flushWaiting .flushWoken).ret t
  | .rearm | .handler _ => some (s.ret t)
  | .flushTop | .flushHold | .flushWoken | .flushBack => flush N t wake found s
  | .outside | .waiting | .polling | .outEvent _ | .flushWaiting | .exited => none

/-- What a caller does with `out`. -/
def byCaller (o : Wavy.State) : Wavy.Action → Bool
  | .write .. | .submit .. | .commit .. | .push .. | .migrate .. | .clearXfer .. | .rewrite .. => true
  | .goOn fd => o.cs fd == .addFd || o.cs fd == .incr
  | .writeEvent .. | .pollWait .. | .pollPush | .next => false

/-- `N` threads, `n` descriptors and `m` `xfer`s of callers. -/
def step (N n m : ℕ) (mc : Memcpy) (s : State) : Action → Option State
  | .call t kind =>
    if t < N ∧ s.kind t ≠ .main ∧ kind ≠ .main ∧ s.pc t = .outside then
      some { s with threads := Function.update s.threads t ⟨kind, s.owns t, .lock⟩ }
    else none
  | .run t wake found => if t < N then runThread N n m mc t wake found s else none
  | .wakeup t =>
    if t < N ∧ s.pc t = .waiting then some (s.setPc t .woken)
    else if t < N ∧ s.pc t = .flushWaiting then some (s.setPc t .flushWoken)
    else none
  | .waitReturns t idents =>
    if t < N ∧ s.pc t = .polling ∧ idents ≠ [] then
      some ({ s with backlog := idents }.setPc t (.polled idents))
    else none
  | .timeout t => if t < N ∧ s.pc t = .polling then some (s.setPc t .timedOut) else none
  | .writeEvent t as =>
    match s.pc t with
    | .outEvent e =>
      if t < N then
        (stepOut n m mc s.out (.writeEvent e as)).map fun o =>
          { s with out := o, written := s.written ++ [e] }.setPc t (.writing e)
      else none
    | _ => none
  | .more t wake =>
    match s.pc t with
    | .handler ident =>
      if t < N ∧ s.mutex = none then signal N wake { s with more := s.more ++ [ident] } else none
    | _ => none
  | .submit f wake =>
    if s.mutex = none then
      signal N wake { s with tasks := s.tasks ++ [f], submitted := s.submitted ++ [f] }
    else none
  | .commit act =>
    if byCaller s.out act then (stepOut n m mc s.out act).map fun o => { s with out := o } else none
  | .start =>
    if s.running = false ∧ s.mutex = none then
      some { s with
        running := true
        threads := fun t =>
          if s.kind t = .main ∧ s.pc t = .outside then ⟨.main, s.owns t, .lock⟩ else s.threads t }
    else none
  | .join =>
    if ∀ t < N, s.kind t = .main → s.pc t = .exited then some { s with running := false } else none
  | .endBegin => some { s with endFlag := true }
  | .endReturn =>
    if s.endFlag = true ∧ s.mutex = none then some (s.wakeAll .waiting .woken) else none

/-- A new loop; thread `t` is a worker if `kinds t` says so. -/
def State.init (kinds : ℕ → Kind) (world : World) : State where
  threads t := ⟨kinds t, false, .outside⟩
  mutex := none
  tasks := []
  out := .start world
  more := []
  backlog := []
  off := 0
  num := 0
  pollable := true
  endFlag := false
  running := false
  undefined := false
  submitted := []
  popped := []
  executed := []
  reported := []
  dequeued := []
  written := []

def mutexSystem (N n m : ℕ) (mc : Memcpy) (kinds : ℕ → Kind) : System State Action where
  init s := ∃ world, s = .init kinds world
  step := step N n m mc

end Mpio.Wavy.Mutex
