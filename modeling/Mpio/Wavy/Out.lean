import Mpio.Lib.Run
import Mpio.Wavy.Execute

/-!
# `mp::wavy::out`

The write queues of all descriptors. Any number of threads call `write`, `commit_raw` (through the
five functions of `loop` that build its buffer) and `commit`; workers call `poll_event`, `next` and
`write_event`. A critical section on the mutex of a `ctx` is not one step: its work on the queue is
one, and each `epoll_ctl` and each atomic change of `m_watching` after it is another, with the stage
kept in `cs`. In between, everything that does not take the same mutex may happen.

`epoll_ctl` on the kernel of `out` is one-shot: a delivered registration stays disabled until
`reactivate`. `ADD` of a registered descriptor and `MOD` of an unregistered one fail without effect.

`wire`, `payload`, `broken`, `invoked` and `handed` are not part of the program. They record what was
accepted and called at each descriptor, what was committed to it, whether a fatal answer has ended its
stream, and the finalizers called and given away so far.
-/

namespace Mpio.Wavy

open Lib

/-- A finalizer and its argument. -/
abbrev Finalizer := UInt64 × UInt64

/-- What the thread inside the critical section of a descriptor does next. -/
inductive Stage
  | idle
  | addFd
  | incr
  | reactivate
  | remove
  | clear
  | decr
  deriving DecidableEq

/-- An entry of the interest set: registered and waiting, or delivered. -/
inductive Interest
  | absent
  | armed
  | disabled
  deriving DecidableEq

/-- The work of one critical section on the queue of its descriptor. -/
structure Section where
  ctx : Xfer
  log : List Item
  calls : List (ℕ × Answer)
  stage : Stage
  shut : Bool
  fatal : Bool
  outcome : Outcome

/-! ## The operations on one `ctx` -/

/-- `watch` follows a push that did not throw. -/
def watchAfter (o : Outcome) : Stage := if o = .ok then .addFd else .idle

def out.write (w : World) (ctx : Xfer) (buf size : UInt64) (as : List Answer) (junk : Xfer.Junk) : Section :=
  if ctx.empty then
    let a := answer as
    let call := [(size.toNat, a)]
    let sent := ((Rec.iovec [⟨buf, size⟩]).items w).take a.accepted
    if a.accepted = 0 ∧ a.retry = false then ⟨ctx, [], call, .idle, true, true, .ok⟩
    else if a.accepted ≠ 0 ∧ size.toNat ≤ a.accepted then ⟨ctx, sent, call, .idle, false, false, .ok⟩
    else
      let rest := IoVec.skip ⟨buf, size⟩ a.accepted
      let r := ctx.pushWrite rest.iovBase rest.iovLen junk
      ⟨r.1, sent, call, watchAfter r.2, false, false, r.2⟩
  else
    let r := ctx.pushWrite buf size junk
    ⟨r.1, [], [], .idle, false, false, r.2⟩

def out.commitRaw (w : World) (mc : Memcpy) (ctx : Xfer) (xfbuf : List UInt8) (as : List Answer)
    (junk : Xfer.Junk) : Section :=
  if ctx.empty then
    let e := execute w mc xfbuf.length xfbuf.length xfbuf 0 as
    if e.cont then
      let r := ctx.pushXfraw e.block e.tail junk
      ⟨r.1, e.log, e.calls, watchAfter r.2, false, false, r.2⟩
    else ⟨ctx, e.log, e.calls, .idle, false, e.tail != 0, .ok⟩
  else
    let r := ctx.pushXfraw xfbuf xfbuf.length junk
    ⟨r.1, [], [], .idle, false, false, r.2⟩

/-- `commit`, with the caller's `xfer` afterwards. -/
def out.commit (w : World) (mc : Memcpy) (ctx xf : Xfer) (as : List Answer) (junk : Xfer.Junk) :
    Section × Xfer :=
  if ctx.empty then
    let t := xf.tryWrite w mc as
    if t.2.1.cont then
      let r := t.1.migrate ctx junk
      (⟨r.2.1, t.2.1.log, t.2.1.calls, watchAfter r.2.2, false, false, r.2.2⟩, r.1)
    else (⟨ctx, t.2.1.log, t.2.1.calls, .idle, t.2.2, !t.1.empty, .ok⟩, t.1)
  else
    let r := xf.migrate ctx junk
    (⟨r.2.1, [], [], .idle, false, false, r.2.2⟩, r.1)

def out.writeEvent (w : World) (mc : Memcpy) (ctx : Xfer) (as : List Answer) : Section :=
  let t := ctx.tryWrite w mc as
  ⟨t.1, t.2.1.log, t.2.1.calls, if t.2.1.cont then .reactivate else .remove, t.2.2,
    !t.2.1.cont && !t.1.empty, .ok⟩

/-! ## The functions of `loop` that call `commit_raw` -/

inductive Call
  | write (buf size fin user : UInt64)
  | writev (vec : List IoVec) (fin user : UInt64)
  | sendfile (infd : UInt32) (off size fin user : UInt64)
  | hsendfile (header headerSize : UInt64) (infd : UInt32) (off size fin user : UInt64)
  | hvsendfile (headerVec : List IoVec) (infd : UInt32) (off size fin user : UInt64)

/-- The stack buffer each of them builds. -/
def Call.xfbuf (stack : ℕ → UInt8) : Call → List UInt8
  | .write buf size fin user =>
    let xfbuf := fresh (sizeofMem + sizeofFinalize) stack
    let xfbuf := fillMem xfbuf 0 buf size
    fillFinalize xfbuf sizeofMem fin user
  | .writev vec fin user =>
    let xfbuf := fresh (sizeofIovec vec.length + sizeofFinalize) stack
    let xfbuf := fillIovec (fromArray vec) xfbuf 0 vec.length
    fillFinalize xfbuf (sizeofIovec vec.length) fin user
  | .sendfile infd off size fin user =>
    let xfbuf := fresh (sizeofSendfile + sizeofFinalize) stack
    let xfbuf := fillSendfile xfbuf 0 infd off size
    fillFinalize xfbuf sizeofSendfile fin user
  | .hsendfile header headerSize infd off size fin user =>
    let xfbuf := fresh (sizeofMem + sizeofSendfile + sizeofFinalize) stack
    let xfbuf := fillMem xfbuf 0 header headerSize
    let xfbuf := fillSendfile xfbuf sizeofMem infd off size
    fillFinalize xfbuf (sizeofMem + sizeofSendfile) fin user
  | .hvsendfile headerVec infd off size fin user =>
    let xfbuf := fresh (sizeofIovec headerVec.length + sizeofSendfile + sizeofFinalize) stack
    let xfbuf := fillIovec (fromArray headerVec) xfbuf 0 headerVec.length
    let xfbuf := fillSendfile xfbuf (sizeofIovec headerVec.length) infd off size
    fillFinalize xfbuf (sizeofIovec headerVec.length + sizeofSendfile) fin user

/-- What the call asks for. -/
def Call.recs : Call → List Rec
  | .write buf size fin user => [.iovec [⟨buf, size⟩], .finalize fin user]
  | .writev vec fin user => [.iovec vec, .finalize fin user]
  | .sendfile infd off size fin user => [.sendfile infd off size, .finalize fin user]
  | .hsendfile header headerSize infd off size fin user =>
    [.iovec [⟨header, headerSize⟩], .sendfile infd off size, .finalize fin user]
  | .hvsendfile headerVec infd off size fin user =>
    [.iovec headerVec, .sendfile infd off size, .finalize fin user]

/-- The records a caller pushes to an `xfer` of its own. -/
def Xfer.pushRec (x : Xfer) (junk : Xfer.Junk) : Rec → Xfer × Outcome
  | .iovec [v] => x.pushWrite v.iovBase v.iovLen junk
  | .iovec vec => x.pushWritev vec junk
  | .sendfile infd off len => x.pushSendfile infd off len junk
  | .finalize fin user => x.pushFinalize fin user junk

/-! ## The whole object -/

structure State where
  ctx : ℕ → Xfer
  cs : ℕ → Stage
  xfers : ℕ → Xfer
  world : World
  watching : ℤ
  interest : ℕ → Interest
  backlog : List ℕ
  queue : List ℕ
  taken : List ℕ
  shut : ℕ → Bool
  wire : ℕ → List Item
  payload : ℕ → List Item
  broken : ℕ → Bool
  invoked : List Finalizer
  handed : List Finalizer

/-- `submit` stands for the functions of `loop` that call `commit_raw`; `pollWait` and `pollPush` are the
two halves of `poll_event`; `push`, `migrate` and `clearXfer` are what callers do with their own
`xfer`s, and `rewrite` what they do with memory and files. -/
inductive Action
  | write (fd : ℕ) (buf size : UInt64) (as : List Answer) (junk : Xfer.Junk)
  | submit (fd : ℕ) (call : Call) (stack : ℕ → UInt8) (as : List Answer) (junk : Xfer.Junk)
  | commit (fd k : ℕ) (as : List Answer) (junk : Xfer.Junk)
  | writeEvent (fd : ℕ) (as : List Answer)
  | goOn (fd : ℕ)
  | pollWait (fds : List ℕ)
  | pollPush
  | next
  | push (k : ℕ) (r : Rec) (junk : Xfer.Junk)
  | migrate (k l : ℕ) (junk : Xfer.Junk)
  | clearXfer (k : ℕ)
  | rewrite (world : World)

/-- What entering a critical section does: its descriptor and work, what it commits there, the
caller's `xfer`s and the events taken afterwards, and the finalizers it is given. -/
structure Entry where
  fd : ℕ
  work : Section
  payload : List Item
  xfers : ℕ → Xfer
  taken : List ℕ
  handed : List Finalizer

def enter (m : ℕ) (mc : Memcpy) (s : State) : Action → Option Entry
  | .write fd buf size as junk =>
    some ⟨fd, out.write s.world (s.ctx fd) buf size as junk, (Rec.iovec [⟨buf, size⟩]).items s.world,
      s.xfers, s.taken, []⟩
  | .submit fd call stack as junk =>
    some ⟨fd, out.commitRaw s.world mc (s.ctx fd) (call.xfbuf stack) as junk, items s.world call.recs,
      s.xfers, s.taken, finalizers call.recs⟩
  | .commit fd k as junk =>
    let r := out.commit s.world mc (s.ctx fd) (s.xfers k) as junk
    if k < m then
      some ⟨fd, r.1, items s.world (s.xfers k).recs, Function.update s.xfers k r.2, s.taken, []⟩
    else none
  | .writeEvent fd as =>
    if fd ∈ s.taken then
      some ⟨fd, out.writeEvent s.world mc (s.ctx fd) as, [], s.xfers, s.taken.erase fd, []⟩
    else none
  | _ => none

/-- The finalizers in a log. -/
def fins : List Item → List Finalizer
  | [] => []
  | .fin fin user :: l => (fin, user) :: fins l
  | .byte _ :: l => fins l

/-- The bytes in a log. -/
def bytesOf : List Item → List UInt8
  | [] => []
  | .byte b :: l => b :: bytesOf l
  | .fin .. :: l => bytesOf l

def State.entered (s : State) (e : Entry) : State :=
  { s with
    ctx := Function.update s.ctx e.fd e.work.ctx
    cs := Function.update s.cs e.fd e.work.stage
    xfers := e.xfers
    taken := e.taken
    shut := Function.update s.shut e.fd (s.shut e.fd || e.work.shut)
    wire := Function.update s.wire e.fd (s.wire e.fd ++ e.work.log)
    payload := Function.update s.payload e.fd (s.payload e.fd ++ e.payload)
    broken := Function.update s.broken e.fd (s.broken e.fd || e.work.fatal)
    invoked := s.invoked ++ fins e.work.log
    handed := s.handed ++ e.handed }

/-- The next step of the thread inside the critical section of `fd`. -/
def State.goOn (s : State) (fd : ℕ) : Option State :=
  match s.cs fd with
  | .idle => none
  | .addFd =>
    some { s with
      interest := Function.update s.interest fd
        (if s.interest fd = .absent then .armed else s.interest fd)
      cs := Function.update s.cs fd .incr }
  | .incr => some { s with watching := s.watching + 1, cs := Function.update s.cs fd .idle }
  | .reactivate =>
    some { s with
      interest := Function.update s.interest fd (if s.interest fd = .absent then .absent else .armed)
      cs := Function.update s.cs fd .idle }
  | .remove =>
    some { s with
      interest := Function.update s.interest fd .absent
      cs := Function.update s.cs fd .clear }
  | .clear =>
    some { s with
      ctx := Function.update s.ctx fd (s.ctx fd).clear.1
      invoked := s.invoked ++ (s.ctx fd).clear.2
      cs := Function.update s.cs fd .decr }
  | .decr => some { s with watching := s.watching - 1, cs := Function.update s.cs fd .idle }

/-- `m_kernel.wait`: armed registrations are delivered and disabled. -/
def State.pollWait (s : State) (fds : List ℕ) : Option State :=
  if s.backlog = [] ∧ fds.Nodup ∧ ∀ fd ∈ fds, s.interest fd = .armed then
    some { s with
      backlog := fds
      interest := fun fd => if fd ∈ fds then .disabled else s.interest fd }
  else none

/-- One step, with `n` descriptors and `m` `xfer`s of callers. -/
def stepOut (n m : ℕ) (mc : Memcpy) (s : State) (act : Action) : Option State :=
  match enter m mc s act with
  | some e =>
    if e.fd < n ∧ s.cs e.fd = .idle ∧ e.work.outcome ≠ .diverges then some (s.entered e) else none
  | none =>
    match act with
    | .goOn fd => if fd < n then s.goOn fd else none
    | .pollWait fds => s.pollWait fds
    | .pollPush => some { s with queue := s.queue ++ s.backlog, backlog := [] }
    | .next =>
      match s.queue with
      | [] => none
      | fd :: queue => some { s with queue := queue, taken := fd :: s.taken }
    | .push k r junk =>
      if k < m ∧ ((s.xfers k).pushRec junk r).2 = .ok then
        some { s with
          xfers := Function.update s.xfers k ((s.xfers k).pushRec junk r).1
          handed := s.handed ++ finalizers [r] }
      else none
    | .migrate k l junk =>
      let r := (s.xfers k).migrate (s.xfers l) junk
      if k < m ∧ l < m ∧ k ≠ l ∧ r.2.2 = .ok then
        some { s with xfers := Function.update (Function.update s.xfers k r.1) l r.2.1 }
      else none
    | .clearXfer k =>
      if k < m then
        some { s with
          xfers := Function.update s.xfers k (s.xfers k).clear.1
          invoked := s.invoked ++ (s.xfers k).clear.2 }
      else none
    | .rewrite world => some { s with world := world }
    | .write .. | .submit .. | .commit .. | .writeEvent .. => none

/-- A new object, with no `xfer` in use. -/
def State.start (world : World) : State where
  ctx _ := .new
  cs _ := .idle
  xfers _ := .new
  world := world
  watching := 0
  interest _ := .absent
  backlog := []
  queue := []
  taken := []
  shut _ := false
  wire _ := []
  payload _ := []
  broken _ := false
  invoked := []
  handed := []

def outSystem (n m : ℕ) (mc : Memcpy) : System State Action where
  init s := ∃ world, s = .start world
  step := stepOut n m mc

/-! ## The steps one by one -/

variable {n m : ℕ} {mc : Memcpy} {s s' : State} {act : Action}

/-- Everything a step can be. -/
inductive Step (n m : ℕ) (mc : Memcpy) (s : State) (act : Action) : State → Prop
  | entered {e : Entry} : enter m mc s act = some e → e.fd < n → s.cs e.fd = .idle →
      e.work.outcome ≠ .diverges → Step n m mc s act (s.entered e)
  | goOn {fd : ℕ} {s' : State} : fd < n → s.goOn fd = some s' → Step n m mc s act s'
  | pollWait {fds : List ℕ} : s.backlog = [] → fds.Nodup → (∀ fd ∈ fds, s.interest fd = .armed) →
      Step n m mc s act { s with
        backlog := fds
        interest := fun fd => if fd ∈ fds then .disabled else s.interest fd }
  | pollPush : Step n m mc s act { s with queue := s.queue ++ s.backlog, backlog := [] }
  | next {fd : ℕ} {queue : List ℕ} : s.queue = fd :: queue →
      Step n m mc s act { s with queue := queue, taken := fd :: s.taken }
  | push {k : ℕ} {r : Rec} {junk : Xfer.Junk} : act = .push k r junk → k < m →
      ((s.xfers k).pushRec junk r).2 = .ok →
      Step n m mc s act { s with
        xfers := Function.update s.xfers k ((s.xfers k).pushRec junk r).1
        handed := s.handed ++ finalizers [r] }
  | migrate {k l : ℕ} {junk : Xfer.Junk} : k < m → l < m → k ≠ l →
      ((s.xfers k).migrate (s.xfers l) junk).2.2 = .ok →
      Step n m mc s act { s with
        xfers := Function.update
          (Function.update s.xfers k ((s.xfers k).migrate (s.xfers l) junk).1) l
          ((s.xfers k).migrate (s.xfers l) junk).2.1 }
  | clearXfer {k : ℕ} : k < m →
      Step n m mc s act { s with
        xfers := Function.update s.xfers k (s.xfers k).clear.1
        invoked := s.invoked ++ (s.xfers k).clear.2 }
  | rewrite {world : World} : act = .rewrite world → Step n m mc s act { s with world := world }

theorem stepOut_cases (h : stepOut n m mc s act = some s') : Step n m mc s act s' := by
  unfold stepOut at h
  rcases he : enter m mc s act with _ | e
  · rw [he] at h
    cases act with
    | write | submit | commit | writeEvent => cases h
    | goOn fd =>
      simp only at h
      split_ifs at h with hfd
      exact .goOn hfd h
    | pollWait fds =>
      simp only [State.pollWait] at h
      split_ifs at h with hc
      obtain rfl := Option.some.inj h
      exact .pollWait hc.1 hc.2.1 hc.2.2
    | pollPush =>
      obtain rfl := Option.some.inj h
      exact .pollPush
    | next =>
      simp only at h
      split at h
      · cases h
      · rename_i hq
        obtain rfl := Option.some.inj h
        exact .next hq
    | push k r junk =>
      simp only at h
      split_ifs at h with hc
      obtain rfl := Option.some.inj h
      exact .push rfl hc.1 hc.2
    | migrate k l junk =>
      simp only at h
      split_ifs at h with hc
      obtain rfl := Option.some.inj h
      exact .migrate hc.1 hc.2.1 hc.2.2.1 hc.2.2.2
    | clearXfer k =>
      simp only at h
      split_ifs at h with hc
      obtain rfl := Option.some.inj h
      exact .clearXfer hc
    | rewrite world =>
      obtain rfl := Option.some.inj h
      exact .rewrite rfl
  · rw [he] at h
    simp only at h
    split_ifs at h with hc
    obtain rfl := Option.some.inj h
    exact .entered he hc.1 hc.2.1 hc.2.2

theorem stepOut_enter {e : Entry} (he : enter m mc s act = some e)
    (h : stepOut n m mc s act = some s') : s' = s.entered e ∧ s.cs e.fd = .idle := by
  unfold stepOut at h
  rw [he] at h
  simp only at h
  split_ifs at h with hc
  exact ⟨(Option.some.inj h).symm, hc.2.1⟩

theorem State.goOn_queue {fd : ℕ} (h : s.goOn fd = some s') : s'.queue = s.queue := by
  unfold State.goOn at h
  cases hcs : s.cs fd with
  | idle => simp [hcs] at h
  | addFd | incr | reactivate | remove | clear | decr =>
    rw [hcs] at h
    obtain rfl := Option.some.inj h
    rfl

theorem State.goOn_other {fd fd' : ℕ} (hs : s.goOn fd = some s') (hf : fd' ≠ fd) :
    s'.ctx fd' = s.ctx fd' ∧ s'.cs fd' = s.cs fd' ∧ s'.interest fd' = s.interest fd' := by
  unfold State.goOn at hs
  cases hstage : s.cs fd with
  | idle => simp [hstage] at hs
  | addFd | incr | reactivate | remove | clear | decr =>
    rw [hstage] at hs
    obtain rfl := Option.some.inj hs
    simp [Function.update_of_ne hf]

/-- `m_watching` changes only inside a critical section, and `m_queue` only in `poll_event` and `next`. -/
theorem stepOut_changes (h : stepOut n m mc s act = some s') :
    (s'.watching = s.watching ∨ ∃ fd, act = .goOn fd ∧ s.goOn fd = some s') ∧
    (s'.queue = s.queue ∨ act = .pollPush ∨ act = .next) := by
  rcases he : enter m mc s act with _ | e
  · unfold stepOut at h
    rw [he] at h
    cases act with
    | write | submit | commit | writeEvent => cases h
    | goOn fd =>
      simp only at h
      split_ifs at h
      exact ⟨.inr ⟨fd, rfl, h⟩, .inl (State.goOn_queue h)⟩
    | pollWait fds =>
      simp only [State.pollWait] at h
      split_ifs at h
      obtain rfl := Option.some.inj h
      exact ⟨.inl rfl, .inl rfl⟩
    | pollPush =>
      obtain rfl := Option.some.inj h
      exact ⟨.inl rfl, .inr (.inl rfl)⟩
    | next =>
      simp only at h
      split at h
      · cases h
      · obtain rfl := Option.some.inj h
        exact ⟨.inl rfl, .inr (.inr rfl)⟩
    | push | migrate | clearXfer =>
      simp only at h
      split_ifs at h
      obtain rfl := Option.some.inj h
      exact ⟨.inl rfl, .inl rfl⟩
    | rewrite =>
      obtain rfl := Option.some.inj h
      exact ⟨.inl rfl, .inl rfl⟩
  · obtain ⟨rfl, -⟩ := stepOut_enter he h
    exact ⟨.inl rfl, .inl rfl⟩

end Mpio.Wavy
