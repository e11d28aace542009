import Mpio.Lib.Run

/-!
# `mp::wavy::loop_impl`

The event loop of `mpsrc/wavy_loop.cc` over the epoll kernel of `mpsrc/wavy_kernel_epoll.h`, with the
registration of handlers, timers and signals. Threads run `thread_main` or call `run_once`; each has a
program counter, and a section between acquiring and releasing `m_mutex` is one step. `m_cond.signal`
wakes one waiting thread if there is one, and a wait may also end by itself.

A handler object lives while the slot, a running dispatch or somebody outside holds a `shared_ptr` to
it. When the last one goes its descriptor is closed, which also takes it out of epoll, and its number
may be given to a later `add_*` call. Number 0 stands for the descriptor of `out`.

The path of `run_once(lk, false)` after a timeout works on `m_task_queue` and on the queue of `out`
without the mutex; here it is one step. It touches neither the backlog nor `m_more_queue` nor any
registration.

Not part of the program: the `origin` of an event (the handler whose registration reported it),
`reported` and `taken` (the events that came from the kernel and those taken from the backlog),
`delivered`, `stopped`, `targets` and `ended`.
-/

namespace Mpio.Wavy.Loop

open Lib

/-- `kernel::event`, with the handler whose registration reported it. -/
structure Event where
  ident : ℕ
  origin : ℕ
  deriving DecidableEq

/-- `event_impl::m_flags`. -/
structure Flags where
  reactivated : Bool
  removed : Bool
  deriving DecidableEq

/-- Where a thread is. -/
inductive Pc
  | outside
  | start
  | waiting
  | woken
  | polling
  | polled (evs : List Event)
  | timedOut
  | nbQueue
  | task (last : Bool)
  | outEvent
  | flush
  | rearmOut (ke : Event)
  | dispatch (ke : Event)
  | running (ke : Event) (h : ℕ) (flags : Flags)
  | evReset (ke : Event) (h : ℕ) (flags : Flags)
  | rearm (ke : Event) (h : ℕ)
  | drop (ke : Event) (h : Option ℕ)
  | reset (ke : Event) (h : Option ℕ)
  | exited
  deriving DecidableEq

/-- What a thread executes: `thread_main`, or a call of `run_once`. -/
inductive Kind
  | main
  | once (block : Bool)
  deriving DecidableEq

structure Thread where
  kind : Kind
  pc : Pc
  deriving DecidableEq

/-- An entry of the interest set, and the handler whose descriptor it is. -/
structure Reg where
  armed : Bool
  owner : ℕ
  deriving DecidableEq

inductive SourceKind
  | handler
  | timer
  | signal
  deriving DecidableEq

/-- How far the `add_*` call of a handler is. -/
inductive AddStage
  | fresh
  | published
  | registered
  | returned
  deriving DecidableEq

/-- What `m_mutex` protects, with `m_pollable` and `m_end_flag`. -/
structure Queues where
  off : ℕ
  num : ℕ
  pollable : Bool
  backlog : List Event
  more : List Event
  tasks : ℕ
  outQueue : ℕ
  endFlag : Bool
  ended : Bool
  reported : List Event
  taken : List Event

/-- The interest set of the kernel, `m_state`, and the handler objects with their descriptors. -/
structure Registry where
  interest : ℕ → Option Reg
  slot : ℕ → Option ℕ
  fdOwner : ℕ → Option ℕ
  identOf : ℕ → ℕ
  ext : ℕ → Bool
  add : ℕ → AddStage
  removals : List (SourceKind × ℕ)
  stopped : ℕ → Bool
  targets : ℕ → Bool

structure State extends Queues, Registry where
  threads : ℕ → Thread
  delivered : List (ℕ × ℕ)

/-- The identifier of `out`, and its handler. -/
def outIdent : ℕ := 0

/-- `MP_WAVY_TASK_QUEUE_LIMIT`. -/
def TASK_QUEUE_LIMIT : ℕ := 16

def State.pc (s : State) (t : ℕ) : Pc := (s.threads t).pc

def State.setPc (s : State) (t : ℕ) (pc : Pc) : State :=
  { s with threads := Function.update s.threads t ⟨(s.threads t).kind, pc⟩ }

/-- Where a thread goes when a round is over. -/
def Kind.back : Kind → Pc
  | .main => .start
  | .once _ => .outside

def State.back (s : State) (t : ℕ) : State := s.setPc t (s.threads t).kind.back

/-! ## Condition variable -/

/-- `m_cond.signal()`; the environment picks the thread. -/
def signal (N : ℕ) (wake : Option ℕ) (s : State) : Option State :=
  match wake with
  | some t => if t < N ∧ s.pc t = .waiting then some (s.setPc t .woken) else none
  | none => if ∀ t < N, s.pc t ≠ .waiting then some s else none

/-- `m_cond.broadcast()`. -/
def broadcast (s : State) : State :=
  { s with threads := fun t =>
      ⟨(s.threads t).kind, if s.pc t = .waiting then .woken else s.pc t⟩ }

/-! ## Kernel -/

/-- `EPOLL_CTL_ADD`, failing when the descriptor is registered. -/
def addFd (s : State) (i h : ℕ) : State :=
  { s with interest := Function.update s.interest i (some ((s.interest i).getD ⟨true, h⟩)) }

/-- `EPOLL_CTL_DEL`. -/
def removeFd (s : State) (i : ℕ) : State :=
  { s with interest := Function.update s.interest i none }

/-- `EPOLL_CTL_MOD`, failing when the descriptor is not registered. -/
def reactivate (s : State) (i : ℕ) : State :=
  { s with interest :=
      Function.update s.interest i ((s.interest i).map fun r => ⟨true, r.owner⟩) }

/-! ## Handler objects -/

/-- The `shared_ptr` in a dispatch, with the event. -/
def Pc.held : Pc → Option (Event × ℕ)
  | .running ke h _ | .evReset ke h _ | .rearm ke h => some (ke, h)
  | .drop ke (some h) | .reset ke (some h) => some (ke, h)
  | _ => none

def alive (N : ℕ) (s : State) (h : ℕ) : Bool :=
  s.ext h || s.slot (s.identOf h) == some h ||
    (List.range N).any fun t => (s.pc t).held.map (·.2) == some h

/-- `::close`, which also ends the registration. -/
def close (s : State) (i : ℕ) : State :=
  { s with
    fdOwner := Function.update s.fdOwner i none
    interest := Function.update s.interest i none }

/-- The destructor of `h`, when the last reference is gone. -/
def settle (N h : ℕ) (s : State) : State :=
  if s.fdOwner (s.identOf h) = some h ∧ alive N s h = false then close s (s.identOf h) else s

def settle? (N : ℕ) : Option ℕ → State → State
  | none, s => s
  | some h, s => settle N h s

/-- `m_state[ident].reset()`. -/
def resetHandler (N i : ℕ) (s : State) : State :=
  settle? N (s.slot i) { s with slot := Function.update s.slot i none }

/-! ## Locked sections -/

/-- From `process_handler` to the unlock; `k` events are found by `m_out->poll_event()`. -/
def processHandler (t : ℕ) (ke : Event) (k : ℕ) (s : State) : State :=
  if ke.ident = outIdent then { s with outQueue := s.outQueue + k }.setPc t (.rearmOut ke)
  else s.setPc t (.dispatch ke)

/-- `do_task`, up to the unlock. -/
def doTask (N t : ℕ) (wake : Option ℕ) (s : State) : Option State :=
  let s := { s with tasks := s.tasks - 1 }
  if s.tasks = 0 then some (s.setPc t (.task true))
  else (signal N wake s).map (·.setPc t (.task false))

/-- `do_out`, up to the unlock. -/
def doOut (t : ℕ) (s : State) : State := { s with outQueue := s.outQueue - 1 }.setPc t .outEvent

/-- `ke = m_backlog[m_off++]` and what follows. -/
def takeBacklog (t k : ℕ) (s : State) : Option State :=
  match s.backlog[s.off]? with
  | some ke => some (processHandler t ke k { s with off := s.off + 1, taken := s.taken ++ [ke] })
  | none => none

/-- `if(m_num == m_off) { m_pollable = false; lk.unlock(); ...`. -/
def pollOrTake (t k : ℕ) (s : State) : Option State :=
  if s.num = s.off then some ({ s with pollable := false }.setPc t .polling) else takeBacklog t k s

/-- `thread_main` from `retry_task` on. -/
def threadMain (N t : ℕ) (wake : Option ℕ) (k : ℕ) (s : State) : Option State :=
  if s.endFlag then some (s.setPc t .exited)
  else
    match s.more with
    | ke :: rest => some (processHandler t ke k { s with more := rest })
    | [] =>
      if s.pollable = false then
        if 0 < s.outQueue then some (doOut t s)
        else if 0 < s.tasks then doTask N t wake s
        else some (s.setPc t .waiting)
      else if TASK_QUEUE_LIMIT < s.tasks then doTask N t wake s
      else pollOrTake t k s

/-- `do_queue` of `run_once`. -/
def doQueue (N t : ℕ) (wake : Option ℕ) (block : Bool) (s : State) : Option State :=
  if 0 < s.outQueue then some (doOut t s)
  else if 0 < s.tasks then doTask N t wake s
  else some (s.setPc t (if block then .waiting else .outside))

def runOnce (N t : ℕ) (wake : Option ℕ) (k : ℕ) (block : Bool) (s : State) : Option State :=
  if s.endFlag then some (s.setPc t .outside)
  else
    match s.more with
    | ke :: rest => some (processHandler t ke k { s with more := rest })
    | [] =>
      if s.pollable = false then doQueue N t wake block s
      else if 0 < s.tasks then doTask N t wake s
      else if 0 < s.outQueue then some (doOut t s)
      else pollOrTake t k s

/-- After a wait that returned events. -/
def relock (N t : ℕ) (wake : Option ℕ) (k : ℕ) (evs : List Event) (s : State) : Option State :=
  (signal N wake { s with off := 0, num := evs.length, pollable := true }).bind (takeBacklog t k)

/-- After a wait that returned none. -/
def afterTimeout (t : ℕ) (s : State) : State :=
  match (s.threads t).kind with
  | .main => if s.endFlag then { s with pollable := true }.setPc t .exited else s.setPc t .polling
  | .once block => { s with pollable := true }.setPc t (if block then .outside else .nbQueue)

/-! ## Steps -/

/-- `run` is the next step of a thread, `wake` and `k` being what its section may need from outside.
`waitReturns` and `timeout` end `m_kernel.wait`; `more`, `next` and `evRemove` are calls of a handler on
its event, `finish` its return (`false` also stands for an exception); `outDone` is the return of
`write_event`. `addHandler` is a call of `add_handler` in one step; `addBegin` and `addEnd`,
`removeBegin` and `removeEnd` are the two steps of a call. `keepRef` and `dropRef`: somebody outside
copies a `shared_ptr`, or drops the last one outside. -/
inductive Action
  | call (t : ℕ) (block : Bool)
  | run (t : ℕ) (wake : Option ℕ) (k : ℕ)
  | wakeup (t : ℕ)
  | waitReturns (t : ℕ) (idents : List ℕ)
  | timeout (t : ℕ)
  | outDone (t : ℕ) (empty : Bool)
  | more (t : ℕ) (wake : Option ℕ)
  | next (t : ℕ)
  | evRemove (t : ℕ)
  | finish (t : ℕ) (cont : Bool)
  | submit (wake : Option ℕ)
  | endBegin
  | endReturn
  | addHandler (h i : ℕ)
  | addBegin (kind : SourceKind) (h i : ℕ)
  | addEnd (kind : SourceKind) (h : ℕ)
  | removeBegin (kind : SourceKind) (i : ℕ)
  | removeEnd (kind : SourceKind) (i : ℕ)
  | keepRef (h : ℕ)
  | dropRef (h : ℕ)

/-- The next step of thread `t`. -/
def runThread (N : ℕ) (s : State) (t : ℕ) (wake : Option ℕ) (k : ℕ) : Option State :=
  match s.pc t with
  | .start =>
    match (s.threads t).kind with
    | .main => threadMain N t wake k s
    | .once block => runOnce N t wake k block s
  | .woken =>
    match (s.threads t).kind with
    | .main => threadMain N t wake k s
    | .once _ => some (s.setPc t .outside)
  | .polled evs => relock N t wake k evs s
  | .timedOut => some (afterTimeout t s)
  | .nbQueue => doQueue N t wake false s
  | .task last => some (if last then s.setPc t .flush else s.back t)
  | .flush => some (s.back t)
  | .rearmOut ke => some ((reactivate s ke.ident).back t)
  | .dispatch ke =>
    match s.slot ke.ident with
    | some h =>
      some ({ s with delivered := (ke.origin, h) :: s.delivered }.setPc t
        (.running ke h ⟨false, false⟩))
    | none => some (s.setPc t (.drop ke none))
  | .evReset ke h flags =>
    some (resetHandler N ke.ident (s.setPc t (.running ke h { flags with removed := true })))
  | .rearm ke h => some (settle N h ((reactivate s ke.ident).back t))
  | .drop ke h => some ((removeFd s ke.ident).setPc t (.reset ke h))
  | .reset ke h => some (settle? N h ((resetHandler N ke.ident s).back t))
  | _ => none

/-- The event the kernel reports for `i`. -/
def State.eventOf (s : State) (i : ℕ) : Event := ⟨i, ((s.interest i).map (·.owner)).getD 0⟩

/-- The kernel writes the backlog and disables the registrations it reports. -/
def State.report (s : State) (idents : List ℕ) : State :=
  { s with
    backlog := idents.map (s.eventOf ·)
    reported := s.reported ++ idents.map (s.eventOf ·)
    interest := fun i =>
      if i ∈ idents then (s.interest i).map fun r => ⟨false, r.owner⟩ else s.interest i }

/-- `m_kernel.wait` returns. -/
def waitReturns (s : State) (t : ℕ) (idents : List ℕ) : Option State :=
  if s.pc t = .polling ∧ idents ≠ [] ∧ idents.Nodup ∧
      ∀ i ∈ idents, ((s.interest i).map (·.armed)) = some true then
    some ((s.report idents).setPc t (.polled (idents.map (s.eventOf ·))))
  else none

/-- What a handler returned. -/
def State.stop (s : State) (h : ℕ) (cont : Bool) : State :=
  { s with stopped := Function.update s.stopped h (s.stopped h || !cont) }

/-- The decision after a handler has returned. -/
def finishHandler (N : ℕ) (s : State) (t : ℕ) (cont : Bool) : Option State :=
  match s.pc t with
  | .running ke h flags =>
    if flags.reactivated || flags.removed then some (settle N h ((s.stop h cont).back t))
    else if cont then some ((s.stop h cont).setPc t (.rearm ke h))
    else some ((s.stop h cont).setPc t (.drop ke (some h)))
  | _ => none

/-- A new handler object for the open descriptor `i`. -/
def create (s : State) (h i : ℕ) : Option State :=
  if s.add h = .fresh ∧ s.fdOwner i = none then
    some { s with
      identOf := Function.update s.identOf h i
      fdOwner := Function.update s.fdOwner i (some h)
      ext := Function.update s.ext h true }
  else none

/-- `set_handler`. -/
def setHandler (N : ℕ) (s : State) (h : ℕ) : State :=
  settle? N (s.slot (s.identOf h)) { s with slot := Function.update s.slot (s.identOf h) (some h) }

def setAdd (s : State) (h : ℕ) (stage : AddStage) : State :=
  { s with add := Function.update s.add h stage }

/-- `add_handler_impl` publishes the handler and then registers it; the constructors of timer and signal
handlers register, and `add_timer` and `add_signal` publish afterwards. -/
def addBegin (N : ℕ) (s : State) (kind : SourceKind) (h i : ℕ) : Option State :=
  (create s h i).map fun s =>
    match kind with
    | .handler => setAdd (setHandler N s h) h .published
    | .timer | .signal => setAdd (addFd s i h) h .registered

def addEnd (N : ℕ) (s : State) (kind : SourceKind) (h : ℕ) : Option State :=
  match kind with
  | .handler =>
    if s.add h = .published then some (setAdd (addFd s (s.identOf h) h) h .returned) else none
  | .timer | .signal =>
    if s.add h = .registered then some (setAdd (setHandler N s h) h .returned) else none

/-- The registrations under `i` become targets of a removal. -/
def target (s : State) (i : ℕ) : State :=
  { s with targets := fun h =>
      s.targets h || s.slot i == some h || (s.interest i).map (·.owner) == some h }

/-- `remove_handler` and `remove_timer` reset the slot first, `remove_signal` the registration. -/
def removeBegin (N : ℕ) (s : State) (kind : SourceKind) (i : ℕ) : Option State :=
  if i = outIdent then none
  else
    let s := { target s i with removals := (kind, i) :: s.removals }
    match kind with
    | .handler | .timer => some (resetHandler N i s)
    | .signal => some (removeFd s i)

def removeEnd (N : ℕ) (s : State) (kind : SourceKind) (i : ℕ) : Option State :=
  if (kind, i) ∈ s.removals then
    let s := { s with removals := s.removals.erase (kind, i) }
    match kind with
    | .handler | .timer => some (removeFd s i)
    | .signal => some (resetHandler N i s)
  else none

def step (N : ℕ) (s : State) : Action → Option State
  | .call t block =>
    match (s.threads t).kind, s.pc t with
    | .once _, .outside =>
      if t < N then
        some { s with threads := Function.update s.threads t ⟨.once block, .start⟩ }
      else none
    | _, _ => none
  | .run t wake k => if t < N then runThread N s t wake k else none
  | .wakeup t => if t < N ∧ s.pc t = .waiting then some (s.setPc t .woken) else none
  | .waitReturns t idents => if t < N then waitReturns s t idents else none
  | .timeout t => if t < N ∧ s.pc t = .polling then some (s.setPc t .timedOut) else none
  | .outDone t empty =>
    if t < N ∧ s.pc t = .outEvent then some (if empty then s.setPc t .flush else s.back t) else none
  | .more t wake =>
    match s.pc t with
    | .running ke h flags =>
      if t < N ∧ flags.reactivated = false then
        (signal N wake { s with more := s.more ++ [ke] }).map
          (·.setPc t (.running ke h { flags with reactivated := true }))
      else none
    | _ => none
  | .next t =>
    match s.pc t with
    | .running ke h flags =>
      if t < N ∧ flags.reactivated = false then
        some ((reactivate s ke.ident).setPc t (.running ke h { flags with reactivated := true }))
      else none
    | _ => none
  | .evRemove t =>
    match s.pc t with
    | .running ke h flags =>
      if t < N ∧ flags.removed = false then
        some ((removeFd s ke.ident).setPc t (.evReset ke h flags))
      else none
    | _ => none
  | .finish t cont => if t < N then finishHandler N s t cont else none
  | .submit wake => signal N wake { s with tasks := s.tasks + 1 }
  | .endBegin => some { s with endFlag := true }
  | .endReturn => if s.endFlag then some { broadcast s with ended := true } else none
  | .addHandler h i =>
    (create s h i).map fun s => setAdd (addFd (setHandler N s h) i h) h .returned
  | .addBegin kind h i => addBegin N s kind h i
  | .addEnd kind h => addEnd N s kind h
  | .removeBegin kind i => removeBegin N s kind i
  | .removeEnd kind i => removeEnd N s kind i
  | .keepRef h =>
    if s.add h = .returned ∧ alive N s h = true then
      some { s with ext := Function.update s.ext h true }
    else none
  | .dropRef h =>
    if s.add h = .returned then some (settle N h { s with ext := Function.update s.ext h false })
    else none

/-- A new loop: `out` is registered, and thread `t` does what `kinds t` says. -/
def State.init (kinds : ℕ → Kind) : State where
  threads t := ⟨kinds t, (kinds t).back⟩
  off := 0
  num := 0
  pollable := true
  backlog := []
  more := []
  tasks := 0
  outQueue := 0
  endFlag := false
  interest i := if i = outIdent then some ⟨true, outIdent⟩ else none
  slot i := if i = outIdent then some outIdent else none
  fdOwner i := if i = outIdent then some outIdent else none
  identOf _ := outIdent
  ext h := h == outIdent
  add h := if h = outIdent then .returned else .fresh
  removals := []
  ended := false
  reported := []
  taken := []
  delivered := []
  stopped _ := false
  targets _ := false

/-- `N` threads. -/
def loopSystem (N : ℕ) (kinds : ℕ → Kind) : System State Action where
  init s := s = .init kinds
  step := step N

end Mpio.Wavy.Loop
