import Mathlib.Algebra.Ring.Int.Defs
import Mathlib.Algebra.Ring.Nat
import Mathlib.Data.List.Basic
import Mathlib.Data.Set.Defs
import Mathlib.Tactic.SplitIfs
import Mathlib.Tactic.Push

/-!
# `loop::connect`

`connect_task` of `wavy_connect.cc`: its constructor packs the arguments, its `operator()` makes the
connection in one call and tells the callback how it went. Every system call answers a return value
and leaves a value in `errno`, both the environment's choice; `close` and `free` leave one too. A run
is the list of the calls it makes, in order.

The labels `error` and `out` of the source are definitions: `error` reads `errno` before anything
can overwrite it, closes the descriptor and goes on to `out`, which frees the pack and calls back.
-/

namespace Mpio.Wavy.Connect

/-! ## The constructor -/

/-- A `timespec` in its normal form. -/
structure Timespec where
  tvSec : ℕ
  tvNsec : ℕ
  sec_lt : tvSec < 2 ^ 63
  nsec_lt : tvNsec < 10 ^ 9

def Timespec.zero : Timespec := ⟨0, 0, Nat.two_pow_pos 63, Nat.pow_pos (Nat.succ_pos 9)⟩

def Timespec.second : Timespec := ⟨1, 0, Nat.one_lt_two_pow (Nat.succ_ne_zero 62), Nat.pow_pos (Nat.succ_pos 9)⟩

/-- The conversion of a `double` that holds `v` to `int`, undefined from `2 ^ 31` on. Integers are
exact in a `double` up to `2 ^ 53`, and rounding larger ones does not bring them back below. -/
def intOfDouble (v : ℕ) : Option ℤ := if v < 2 ^ 31 then some v else none

/-- `m->timeout_msec`; `none` is an undefined conversion. -/
def timeoutMsec : Option Timespec → Option ℤ
  | some t => if t.tvSec ≠ 0 ∧ t.tvNsec ≠ 0 then intOfDouble (t.tvSec + t.tvNsec * 10 ^ 6) else some (-1)
  | none => some (-1)

/-- The `pack` that a task owns. -/
structure Pack where
  socketFamily : ℤ
  socketType : ℤ
  protocol : ℤ
  addrlen : ℕ
  timeoutMsec : ℤ
  addr : List UInt8

/-- How the constructor ends. -/
inductive Built
  | badAlloc
  | undefined
  | task (m : Pack)

/-- `connect_task(...)`; `mem` says whether `malloc` finds memory. -/
def connectTask (socketFamily socketType protocol : ℤ) (addr : List UInt8) (addrlen : ℕ)
    (timeout : Option Timespec) (mem : Bool) : Built :=
  if mem then
    match Connect.timeoutMsec timeout with
    | none => .undefined
    | some msec => .task ⟨socketFamily, socketType, protocol, addrlen, msec, addr.take addrlen⟩
  else .badAlloc

/-! ## The call -/

def EINTR : ℤ := 4

def ETIMEDOUT : ℤ := 110

def EINPROGRESS : ℤ := 115

/-- What a system call answers: its return value, and `errno` afterwards. -/
structure Ret where
  ret : ℤ
  errno : ℤ

/-- The answers a task gets: `polls` in order, the value `getsockopt` stores, what `free` leaves in
`errno`. -/
structure Kernel where
  socket : Ret
  fcntl : Ret
  connect : Ret
  polls : List Ret
  getsockopt : Ret
  soError : ℤ
  close : Ret
  free : ℤ

/-- The calls a task makes. `socket`, `connect` and `poll` read their arguments from the pack. -/
inductive Event
  | socket (family type protocol : ℤ)
  | fcntl (fd : ℤ)
  | connect (fd : ℤ) (addr : List UInt8) (addrlen : ℕ)
  | poll (fd timeout : ℤ)
  | getsockopt (fd : ℤ)
  | close (fd : ℤ)
  | free
  | callback (fd err : ℤ)
  deriving DecidableEq

/-- The locals of `operator()`, `errno`, and the calls made so far. -/
structure State where
  fd : ℤ
  err : ℤ
  errno : ℤ
  trace : List Event

/-- A system call. -/
def State.call (s : State) (e : Event) (errno : ℤ) : State :=
  { s with errno := errno, trace := s.trace ++ [e] }

/-- From the label `out` on. -/
def out (k : Kernel) (s : State) : State :=
  let s := s.call .free k.free
  { s with trace := s.trace ++ [.callback s.fd s.err] }

/-- From the label `error` on. -/
def error (k : Kernel) (s : State) : State :=
  let s := { s with err := s.errno }
  let s := s.call (.close s.fd) k.close.errno
  out k { s with fd := -1 }

/-- The `while` loop; `none` when the answers given do not bring it to its end. -/
def pollLoop (m : Pack) (k : Kernel) : State → List Ret → Option State
  | _, [] => none
  | s, r :: rs =>
    let s := s.call (.poll s.fd m.timeoutMsec) r.errno
    if r.ret < 0 then
      if s.errno = EINTR then pollLoop m k s rs else some (error k s)
    else if r.ret = 0 then
      some (error k { s with errno := ETIMEDOUT })
    else
      let s := s.call (.getsockopt s.fd) k.getsockopt.errno
      if k.getsockopt.ret < 0 then some (error k s)
      else if k.soError ≠ 0 then some (error k { s with errno := k.soError })
      else some (out k s)

/-- `connect_task::operator()`. -/
def operatorCall (m : Pack) (k : Kernel) (errno : ℤ) : Option State :=
  let s : State := ⟨0, 0, errno, []⟩
  let s := s.call (.socket m.socketFamily m.socketType m.protocol) k.socket.errno
  let s := { s with fd := k.socket.ret }
  if s.fd < 0 then some (out k { s with err := s.errno })
  else
    let s := s.call (.fcntl s.fd) k.fcntl.errno
    if k.fcntl.ret < 0 then some (error k s)
    else
      let s := s.call (.connect s.fd m.addr m.addrlen) k.connect.errno
      if k.connect.ret ≥ 0 then some (out k s)
      else if s.errno ≠ EINPROGRESS then some (error k s)
      else pollLoop m k s k.polls

/-! ## The step that fails -/

/-- The answer that ends the loop: the first one that is not an interrupted `poll`. -/
def decides (polls : List Ret) : Option Ret :=
  polls.find? fun r => decide (¬ (r.ret < 0 ∧ r.errno = EINTR))

/-- The connection is under way and `poll` answers `r` in the end. -/
def Polls (k : Kernel) (r : Ret) : Prop :=
  0 ≤ k.socket.ret ∧ 0 ≤ k.fcntl.ret ∧ k.connect.ret < 0 ∧ k.connect.errno = EINPROGRESS ∧
    decides k.polls = some r

/-- Some step of making the connection fails, for the reason given. -/
inductive Fails (k : Kernel) : ℤ → Prop
  | socket : k.socket.ret < 0 → Fails k k.socket.errno
  | fcntl : 0 ≤ k.socket.ret → k.fcntl.ret < 0 → Fails k k.fcntl.errno
  | connect : 0 ≤ k.socket.ret → 0 ≤ k.fcntl.ret → k.connect.ret < 0 →
      k.connect.errno ≠ EINPROGRESS → Fails k k.connect.errno
  | poll {r : Ret} : Polls k r → r.ret < 0 → Fails k r.errno
  | timeout {r : Ret} : Polls k r → r.ret = 0 → Fails k ETIMEDOUT
  | getsockopt {r : Ret} : Polls k r → 0 < r.ret → k.getsockopt.ret < 0 →
      Fails k k.getsockopt.errno
  | soError {r : Ret} : Polls k r → 0 < r.ret → 0 ≤ k.getsockopt.ret → k.soError ≠ 0 →
      Fails k k.soError

/-- What the manual pages promise: `socket` fails with `-1`, and a call that fails sets `errno`. -/
structure Conforms (k : Kernel) : Prop where
  socket_ret : k.socket.ret < 0 → k.socket.ret = -1
  socket : k.socket.ret < 0 → k.socket.errno ≠ 0
  fcntl : k.fcntl.ret < 0 → k.fcntl.errno ≠ 0
  connect : k.connect.ret < 0 → k.connect.errno ≠ 0
  poll : ∀ r ∈ k.polls, r.ret < 0 → r.errno ≠ 0
  getsockopt : k.getsockopt.ret < 0 → k.getsockopt.errno ≠ 0

theorem Fails.ne_zero {k : Kernel} {e : ℤ} (hk : Conforms k) (h : Fails k e) : e ≠ 0 := by
  cases h with
  | socket h => exact hk.socket h
  | fcntl _ h => exact hk.fcntl h
  | connect _ _ h _ => exact hk.connect h
  | poll hp h => exact hk.poll _ (List.mem_of_find?_eq_some hp.2.2.2.2) h
  | timeout => decide
  | getsockopt _ _ h => exact hk.getsockopt h
  | soError _ _ _ h => exact h

/-! ## How a run ends -/

/-- The descriptors that a list of calls closes. -/
def closes (t : List Event) : List ℤ :=
  t.filterMap fun e => match e with
    | .close fd => some fd
    | _ => none

/-- The calls made before the clean-up: they close, free and report nothing. -/
def Plain (t : List Event) : Prop :=
  ∀ e ∈ t, (∀ fd, e ≠ .close fd) ∧ e ≠ .free ∧ ∀ fd err, e ≠ .callback fd err

theorem Plain.append {t : List Event} {e : Event} (h : Plain t) (hclose : ∀ fd, e ≠ .close fd)
    (hfree : e ≠ .free) (hback : ∀ fd err, e ≠ .callback fd err) : Plain (t ++ [e]) := by
  intro x hx
  rcases List.mem_append.mp hx with hx | hx
  · exact h x hx
  · rw [List.mem_singleton.mp hx]
    exact ⟨hclose, hfree, hback⟩

theorem Plain.closes_eq {t : List Event} (h : Plain t) : closes t = [] := by
  refine List.filterMap_eq_nil_iff.mpr fun e he => ?_
  have hclose := (h e he).1
  cases e with
  | close fd => exact absurd rfl (hclose fd)
  | _ => rfl

/-- The run made plain calls on `fd`, then gave it to the callback. -/
def Succeeded (fd : ℤ) (s : State) : Prop :=
  ∃ t, Plain t ∧ s.trace = t ++ [.free, .callback fd 0]

/-- The run made plain calls on `fd`, closed it, and gave the callback the error `e`. -/
def Failed (fd e : ℤ) (s : State) : Prop :=
  ∃ t, Plain t ∧ s.trace = t ++ [.close fd, .free, .callback (-1) e]

theorem out_succeeded {k : Kernel} {s : State} (h : Plain s.trace) (herr : s.err = 0) :
    Succeeded s.fd (out k s) := by
  refine ⟨s.trace, h, ?_⟩
  simp [out, State.call, herr]

theorem error_failed {k : Kernel} {s : State} (h : Plain s.trace) :
    Failed s.fd s.errno (error k s) := by
  refine ⟨s.trace, h, ?_⟩
  simp [error, out, State.call]

/-- The loop, from a state with no error recorded: the induction is on the answers of `poll`, of
which those interrupted only lengthen the trace. -/
theorem pollLoop_spec {m : Pack} {k : Kernel} {s s' : State} {polls : List Ret}
    (hplain : Plain s.trace) (herr : s.err = 0) (h : pollLoop m k s polls = some s') :
    ∃ r, decides polls = some r ∧
      ((r.ret < 0 ∧ Failed s.fd r.errno s') ∨ (r.ret = 0 ∧ Failed s.fd ETIMEDOUT s') ∨
        (0 < r.ret ∧ k.getsockopt.ret < 0 ∧ Failed s.fd k.getsockopt.errno s') ∨
        (0 < r.ret ∧ 0 ≤ k.getsockopt.ret ∧ k.soError ≠ 0 ∧ Failed s.fd k.soError s') ∨
        (0 < r.ret ∧ 0 ≤ k.getsockopt.ret ∧ k.soError = 0 ∧ Succeeded s.fd s')) := by
  induction polls generalizing s with
  | nil => simp [pollLoop] at h
  | cons r rs ih =>
    have hpoll : Plain (s.call (.poll s.fd m.timeoutMsec) r.errno).trace :=
      hplain.append (by simp) (by simp) (by simp)
    have hopt : Plain ((s.call (.poll s.fd m.timeoutMsec) r.errno).call (.getsockopt s.fd)
        k.getsockopt.errno).trace := hpoll.append (by simp) (by simp) (by simp)
    simp only [pollLoop] at h
    by_cases hneg : r.ret < 0
    · rw [if_pos hneg] at h
      by_cases hintr : r.errno = EINTR
      · rw [if_pos (show (s.call _ r.errno).errno = EINTR from hintr)] at h
        obtain ⟨r', hr', hcases⟩ := ih hpoll herr h
        refine ⟨r', ?_, hcases⟩
        rw [decides, List.find?_cons_of_neg (by simp [hneg, hintr])]
        exact hr'
      · rw [if_neg (show (s.call _ r.errno).errno ≠ EINTR from hintr), Option.some.injEq] at h
        refine ⟨r, ?_, .inl ⟨hneg, h ▸ error_failed hpoll⟩⟩
        rw [decides, List.find?_cons_of_pos (by simp [hintr])]
    · rw [if_neg hneg] at h
      refine ⟨r, by rw [decides, List.find?_cons_of_pos (by simp [hneg])], .inr ?_⟩
      split_ifs at h with hzero hfail hval
      · exact .inl ⟨hzero, Option.some.inj h ▸ error_failed hpoll⟩
      · exact .inr (.inl ⟨by omega, hfail, Option.some.inj h ▸ error_failed hopt⟩)
      · exact .inr (.inr (.inl ⟨by omega, by omega, hval, Option.some.inj h ▸ error_failed hopt⟩))
      · push Not at hval
        exact .inr (.inr (.inr ⟨by omega, by omega, hval,
          Option.some.inj h ▸ out_succeeded hopt herr⟩))

theorem not_fails_of_connect {k : Kernel} (hs : 0 ≤ k.socket.ret) (hf : 0 ≤ k.fcntl.ret)
    (hc : 0 ≤ k.connect.ret) (e : ℤ) : ¬ Fails k e := by
  rintro (h | ⟨_, h⟩ | ⟨_, _, h, _⟩ | ⟨⟨_, _, h, _⟩, _⟩ | ⟨⟨_, _, h, _⟩, _⟩ | ⟨⟨_, _, h, _⟩, _⟩ |
    ⟨⟨_, _, h, _⟩, _⟩)
  all_goals omega

theorem not_fails_of_polls {k : Kernel} {r : Ret} (hp : Polls k r) (hr : 0 < r.ret)
    (hopt : 0 ≤ k.getsockopt.ret) (hval : k.soError = 0) (e : ℤ) : ¬ Fails k e := by
  have hsame : ∀ {r'}, Polls k r' → r' = r := fun hp' =>
    Option.some.inj (hp'.2.2.2.2.symm.trans hp.2.2.2.2)
  obtain ⟨hs, hf, hc, hprog, -⟩ := hp
  intro h
  cases h with
  | socket h => omega
  | fcntl _ h => omega
  | connect _ _ _ h => exact h hprog
  | poll hp' h => rw [hsame hp'] at h; omega
  | timeout hp' h => rw [hsame hp'] at h; omega
  | getsockopt _ _ h => omega
  | soError _ _ _ h => exact h hval

/-- A run that ends: no step failed and the descriptor goes to the callback, or a step failed and the
callback gets the reason, with the descriptor closed when there is one. -/
theorem operatorCall_spec {m : Pack} {k : Kernel} {errno : ℤ} {s : State}
    (h : operatorCall m k errno = some s) :
    (0 ≤ k.socket.ret ∧ (∀ e, ¬ Fails k e) ∧ Succeeded k.socket.ret s) ∨
    (0 ≤ k.socket.ret ∧ ∃ e, Fails k e ∧ Failed k.socket.ret e s) ∨
    (k.socket.ret < 0 ∧ ∃ t, Plain t ∧
      s.trace = t ++ [.free, .callback k.socket.ret k.socket.errno]) := by
  have hstart : Plain [.socket m.socketFamily m.socketType m.protocol] :=
    Plain.append (t := []) (by intro e he; cases he) (by simp) (by simp) (by simp)
  have hfcntl : Plain ([.socket m.socketFamily m.socketType m.protocol] ++ [.fcntl k.socket.ret]) :=
    hstart.append (by simp) (by simp) (by simp)
  have hconnect := hfcntl.append (e := .connect k.socket.ret m.addr m.addrlen)
    (by simp) (by simp) (by simp)
  simp only [operatorCall] at h
  split_ifs at h with hs hf hc hprog
  · refine .inr (.inr ⟨hs, _, hstart, ?_⟩)
    rw [← Option.some.inj h]
    simp [out, State.call]
  · have hfd : 0 ≤ k.socket.ret := Int.not_lt.mp hs
    exact .inr (.inl ⟨hfd, _, .fcntl hfd hf, Option.some.inj h ▸ error_failed hfcntl⟩)
  · have hfd : 0 ≤ k.socket.ret := Int.not_lt.mp hs
    exact .inl ⟨hfd, not_fails_of_connect hfd (Int.not_lt.mp hf) hc,
      Option.some.inj h ▸ out_succeeded hconnect rfl⟩
  · have hfd : 0 ≤ k.socket.ret := Int.not_lt.mp hs
    exact .inr (.inl ⟨hfd, _, .connect hfd (Int.not_lt.mp hf) (Int.not_le.mp hc) hprog,
      Option.some.inj h ▸ error_failed hconnect⟩)
  · have hfd : 0 ≤ k.socket.ret := Int.not_lt.mp hs
    push Not at hprog
    obtain ⟨r, hr, hcases⟩ := pollLoop_spec hconnect rfl h
    have hp : Polls k r := ⟨hfd, Int.not_lt.mp hf, Int.not_le.mp hc, hprog, hr⟩
    rcases hcases with ⟨h1, hF⟩ | ⟨h1, hF⟩ | ⟨h1, h2, hF⟩ | ⟨h1, h2, h3, hF⟩ | ⟨h1, h2, h3, hS⟩
    · exact .inr (.inl ⟨hfd, _, .poll hp h1, hF⟩)
    · exact .inr (.inl ⟨hfd, _, .timeout hp h1, hF⟩)
    · exact .inr (.inl ⟨hfd, _, .getsockopt hp h1 h2, hF⟩)
    · exact .inr (.inl ⟨hfd, _, .soError hp h1 h2 h3, hF⟩)
    · exact .inl ⟨hfd, not_fails_of_polls hp h1 h2 h3, hS⟩

/-- One outcome: the pack is freed once, right before the one call of the callback, and every call
that reads it comes before that. Either nothing failed, the callback gets the descriptor, open, and
no error; or it gets `-1` and the reason of the step that failed, and the descriptor, if there ever
was one, was closed once. -/
theorem operatorCall_one_outcome {m : Pack} {k : Kernel} {errno : ℤ} {s : State} (hk : Conforms k)
    (h : operatorCall m k errno = some s) :
    ∃ before fd err, s.trace = before ++ [.free, .callback fd err] ∧
      (∀ e ∈ before, e ≠ .free ∧ ∀ fd err, e ≠ .callback fd err) ∧
      ((0 ≤ fd ∧ err = 0 ∧ fd = k.socket.ret ∧ (∀ e, ¬ Fails k e) ∧ closes before = []) ∨
        (fd = -1 ∧ err ≠ 0 ∧ Fails k err ∧
          closes before = if k.socket.ret < 0 then [] else [k.socket.ret])) := by
  rcases operatorCall_spec h with ⟨hfd, hno, t, ht, htrace⟩ | ⟨hfd, e, he, t, ht, htrace⟩ |
    ⟨hfd, t, ht, htrace⟩
  · refine ⟨t, _, _, htrace, fun e he => (ht e he).2, .inl ?_⟩
    exact ⟨hfd, rfl, rfl, hno, ht.closes_eq⟩
  · refine ⟨t ++ [.close k.socket.ret], -1, e, by rw [htrace]; simp, ?_, .inr ?_⟩
    · intro x hx
      rcases List.mem_append.mp hx with hx | hx
      · exact (ht x hx).2
      · rw [List.mem_singleton.mp hx]
        simp
    · refine ⟨rfl, he.ne_zero hk, he, ?_⟩
      rw [if_neg (Int.not_lt.mpr hfd), closes, List.filterMap_append]
      show closes t ++ [k.socket.ret] = _
      rw [ht.closes_eq]
      rfl
  · rw [hk.socket_ret hfd] at htrace
    refine ⟨t, _, _, htrace, fun e he => (ht e he).2, .inr ?_⟩
    refine ⟨rfl, hk.socket hfd, .socket hfd, ?_⟩
    rw [if_pos hfd]
    exact ht.closes_eq

/-- A `poll` interrupted twice, then a refused connection: `close` and `free` overwrite `errno`. -/
theorem operatorCall_one_outcome_refused :
    ∃ (k : Kernel) (s : State), operatorCall ⟨2, 1, 0, 0, -1, []⟩ k 0 = some s ∧
      k.soError = 111 ∧ k.close.errno = 5 ∧
      ∃ before fd err, s.trace = before ++ [.free, .callback fd err] ∧
      (∀ e ∈ before, e ≠ .free ∧ ∀ fd err, e ≠ .callback fd err) ∧
      ((0 ≤ fd ∧ err = 0 ∧ fd = k.socket.ret ∧ (∀ e, ¬ Fails k e) ∧ closes before = []) ∨
        (fd = -1 ∧ err ≠ 0 ∧ Fails k err ∧
          closes before = if k.socket.ret < 0 then [] else [k.socket.ret])) :=
  ⟨⟨⟨7, 0⟩, ⟨0, 0⟩, ⟨-1, EINPROGRESS⟩, [⟨-1, EINTR⟩, ⟨-1, EINTR⟩, ⟨1, EINTR⟩], ⟨0, 9⟩, 111, ⟨-1, 5⟩, 12⟩,
    _, rfl, rfl, rfl, operatorCall_one_outcome
      (by refine ⟨?_, ?_, ?_, ?_, ?_, ?_⟩ <;> simp [EINTR, EINPROGRESS]) rfl⟩

/-! ## The timeout that `poll` gets -/

/-- Every `poll` among the calls waits `msec` milliseconds. -/
def WaitsFor (msec : ℤ) (t : List Event) : Prop := ∀ fd msec', .poll fd msec' ∈ t → msec' = msec

theorem WaitsFor.call {msec : ℤ} {s : State} {e : Event} (h : WaitsFor msec s.trace)
    (he : ∀ fd msec', e = .poll fd msec' → msec' = msec) (errno : ℤ) :
    WaitsFor msec (s.call e errno).trace := by
  intro fd msec' hmem
  rcases List.mem_append.mp hmem with hmem | hmem
  · exact h fd msec' hmem
  · exact he fd msec' (List.mem_singleton.mp hmem).symm

theorem WaitsFor.out {msec : ℤ} {k : Kernel} {s : State} (h : WaitsFor msec s.trace) :
    WaitsFor msec (Connect.out k s).trace := by
  intro fd msec' hmem
  simp only [Connect.out, State.call, List.mem_append, List.mem_singleton, reduceCtorEq, or_false] at hmem
  exact h fd msec' hmem

theorem WaitsFor.error {msec : ℤ} {k : Kernel} {s : State} (h : WaitsFor msec s.trace) :
    WaitsFor msec (Connect.error k s).trace := by
  have hclose := h.call (e := .close s.fd) (by simp) k.close.errno
  unfold Connect.error
  apply WaitsFor.out
  exact hclose

theorem pollLoop_waitsFor {m : Pack} {k : Kernel} {s s' : State} {polls : List Ret}
    (hs : WaitsFor m.timeoutMsec s.trace) (h : pollLoop m k s polls = some s') :
    WaitsFor m.timeoutMsec s'.trace := by
  induction polls generalizing s with
  | nil => simp [pollLoop] at h
  | cons r rs ih =>
    have hpoll : WaitsFor m.timeoutMsec (s.call (.poll s.fd m.timeoutMsec) r.errno).trace :=
      hs.call (by simp) _
    have hopt : WaitsFor m.timeoutMsec ((s.call (.poll s.fd m.timeoutMsec) r.errno).call
        (.getsockopt s.fd) k.getsockopt.errno).trace := hpoll.call (by simp) _
    simp only [pollLoop] at h
    split_ifs at h
    · exact ih hpoll h
    · exact Option.some.inj h ▸ hpoll.error
    · exact Option.some.inj h ▸ WaitsFor.error (s := { State.call _ _ _ with errno := _ }) hpoll
    · exact Option.some.inj h ▸ hopt.error
    · exact Option.some.inj h ▸ WaitsFor.error (s := { State.call _ _ _ with errno := _ }) hopt
    · exact Option.some.inj h ▸ hopt.out

theorem operatorCall_waitsFor {family type protocol : ℤ} {addr : List UInt8} {addrlen : ℕ}
    {timeout : Option Timespec} {mem : Bool} {m : Pack} {k : Kernel} {errno : ℤ} {s : State}
    (hm : connectTask family type protocol addr addrlen timeout mem = .task m)
    (h : operatorCall m k errno = some s) :
    timeoutMsec timeout = some m.timeoutMsec ∧ WaitsFor m.timeoutMsec s.trace := by
  constructor
  · unfold connectTask at hm
    split_ifs at hm
    cases ht : timeoutMsec timeout with
    | none => simp [ht] at hm
    | some msec =>
      simp only [ht, Built.task.injEq] at hm
      rw [← hm]
  · have hsocket : WaitsFor m.timeoutMsec [.socket m.socketFamily m.socketType m.protocol] := by
      simp [WaitsFor]
    have hfcntl : WaitsFor m.timeoutMsec
        [.socket m.socketFamily m.socketType m.protocol, .fcntl k.socket.ret] := by
      simp [WaitsFor]
    have hconnect : WaitsFor m.timeoutMsec [.socket m.socketFamily m.socketType m.protocol,
        .fcntl k.socket.ret, .connect k.socket.ret m.addr m.addrlen] := by
      simp [WaitsFor]
    simp only [operatorCall] at h
    split_ifs at h
    · exact Option.some.inj h ▸ WaitsFor.out hsocket
    · exact Option.some.inj h ▸ WaitsFor.error hfcntl
    · exact Option.some.inj h ▸ WaitsFor.out hconnect
    · exact Option.some.inj h ▸ WaitsFor.error hconnect
    · exact pollLoop_waitsFor hconnect h

/-! ## The timeout

In nanoseconds and whole numbers: `r` milliseconds are a rounding of the timeout when they differ
from it by less than one. The code adds seconds to a million times the nanoseconds, so its answer is
right only where the two mistakes cancel. -/

namespace Timespec

def nanos (t : Timespec) : ℤ := t.tvSec * 10 ^ 9 + t.tvNsec

def IsZero (t : Timespec) : Prop := t.tvSec = 0 ∧ t.tvNsec = 0

/-- Below `2 ^ 31` milliseconds. -/
def Below (t : Timespec) : Prop := t.nanos < 2 ^ 31 * 10 ^ 6

/-- `r` is the timeout in milliseconds, rounded down or up. -/
def Rounds (t : Timespec) (r : ℤ) : Prop := t.nanos - 10 ^ 6 < r * 10 ^ 6 ∧ r * 10 ^ 6 < t.nanos + 10 ^ 6

/-- Both fields are zero; or neither is, and the timeout is `2 ^ 31` milliseconds or more or one of
those for which seconds plus a million times the nanoseconds come to the milliseconds. -/
def Coincides (t : Timespec) : Prop :=
  t.IsZero ∨ (t.tvSec ≠ 0 ∧ t.tvNsec ≠ 0 ∧
    (¬ t.Below ∨ 10 ^ 6 * t.tvNsec = 999 * t.tvSec ∨ 10 ^ 6 * t.tvNsec = 999 * t.tvSec + 1))

end Timespec

/-- Infinite for no timeout only, the timeout in milliseconds otherwise, without overflow. -/
def Honours (timeout : Option Timespec) : Prop :=
  (timeoutMsec timeout = some (-1) → ∀ t, timeout = some t → t.IsZero) ∧
    ∀ t, timeout = some t → ¬ t.IsZero → t.Below →
      ∃ r, timeoutMsec timeout = some r ∧ t.Rounds r

/-- A longer timeout is no shorter wait. -/
def InOrder (t t' : Timespec) : Prop :=
  ¬ t.IsZero → t'.Below → t.nanos ≤ t'.nanos →
    ∃ r r', timeoutMsec (some t) = some r ∧ timeoutMsec (some t') = some r' ∧ r ≤ r'

/-- The timeouts of `S` are honoured, and in their order. -/
def HonoursAll (S : Set (Option Timespec)) : Prop :=
  (∀ timeout ∈ S, Honours timeout) ∧ ∀ t t', some t ∈ S → some t' ∈ S → InOrder t t'

theorem timeoutMsec_of_ne_zero {t : Timespec} (hsec : t.tvSec ≠ 0) (hnsec : t.tvNsec ≠ 0) {r : ℤ} :
    timeoutMsec (some t) = some r ↔
      t.tvSec + t.tvNsec * 10 ^ 6 < 2 ^ 31 ∧ r = t.tvSec + t.tvNsec * 10 ^ 6 := by
  simp only [timeoutMsec, if_pos (And.intro hsec hnsec), intOfDouble]
  split_ifs with hlt
  · constructor
    · intro h
      have hr := Option.some.inj h
      exact ⟨hlt, by omega⟩
    · rintro ⟨-, rfl⟩
      exact congrArg some (by omega)
  · exact ⟨nofun, fun h => absurd h.1 hlt⟩

theorem timeoutMsec_of_zero {t : Timespec} (h : t.tvSec = 0 ∨ t.tvNsec = 0) :
    timeoutMsec (some t) = some (-1) := by
  rw [timeoutMsec, if_neg]
  omega

theorem coincides_of_honours {t : Timespec} (h : Honours (some t)) : t.Coincides := by
  obtain ⟨honly, hms⟩ := h
  by_cases hz : t.tvSec = 0 ∨ t.tvNsec = 0
  · exact .inl (honly (timeoutMsec_of_zero hz) t rfl)
  · push Not at hz
    refine .inr ⟨hz.1, hz.2, ?_⟩
    by_cases hbelow : t.Below
    · obtain ⟨r, hr, hround⟩ := hms t rfl (fun hzero => hz.1 hzero.1) hbelow
      rw [timeoutMsec_of_ne_zero hz.1 hz.2] at hr
      obtain ⟨hlt, rfl⟩ := hr
      simp only [Timespec.Rounds, Timespec.nanos] at hround
      exact .inr (by omega)
    · exact .inl hbelow

theorem timeoutMsec_of_coincides {t : Timespec} (h : t.Coincides) (hz : ¬ t.IsZero)
    (hbelow : t.Below) : timeoutMsec (some t) = some ((t.tvSec : ℤ) + t.tvNsec * 10 ^ 6) ∧
      t.Rounds ((t.tvSec : ℤ) + t.tvNsec * 10 ^ 6) := by
  rcases h with h | ⟨hsec, hnsec, hcase⟩
  · exact absurd h hz
  · rcases hcase with hcase | hcase
    · exact absurd hbelow hcase
    · simp only [Timespec.Below, Timespec.nanos] at hbelow
      refine ⟨(timeoutMsec_of_ne_zero hsec hnsec).mpr ⟨by omega, rfl⟩, ?_⟩
      simp only [Timespec.Rounds, Timespec.nanos]
      omega

theorem honours_of_coincides {timeout : Option Timespec} (h : ∀ t, timeout = some t → t.Coincides) :
    Honours timeout := by
  constructor
  · intro hneg t ht
    subst ht
    rcases h t rfl with hz | ⟨hsec, hnsec, -⟩
    · exact hz
    · rw [timeoutMsec_of_ne_zero hsec hnsec] at hneg
      omega
  · intro t ht hz hbelow
    subst ht
    exact ⟨_, timeoutMsec_of_coincides (h t rfl) hz hbelow⟩

theorem inOrder_of_coincides {t t' : Timespec} (h : t.Coincides) (h' : t'.Coincides) :
    InOrder t t' := by
  intro hz hbelow hle
  have hbelow₀ : t.Below := by
    unfold Timespec.Below at hbelow ⊢
    omega
  have hz' : ¬ t'.IsZero := by
    rintro ⟨hsec, hnsec⟩
    simp only [Timespec.nanos, hsec, hnsec] at hle
    exact hz ⟨by omega, by omega⟩
  refine ⟨_, _, (timeoutMsec_of_coincides h hz hbelow₀).1, (timeoutMsec_of_coincides h' hz' hbelow).1, ?_⟩
  rcases h with h | ⟨-, -, h⟩
  · exact absurd h hz
  · rcases h' with h' | ⟨-, -, h'⟩
    · exact absurd h' hz'
    · rcases h with h | h
      · exact absurd hbelow₀ h
      · rcases h' with h' | h'
        · exact absurd hbelow h'
        · simp only [Timespec.nanos] at hle
          omega

/-- Over any set of timeouts, the task honours them all exactly when each one coincides. -/
theorem honoursAll_iff (S : Set (Option Timespec)) :
    HonoursAll S ↔ ∀ t, some t ∈ S → t.Coincides := by
  constructor
  · rintro ⟨h, -⟩ t ht
    exact coincides_of_honours (h _ ht)
  · intro h
    refine ⟨?_, fun t t' ht ht' => inOrder_of_coincides (h t ht) (h t' ht')⟩
    intro timeout hmem
    refine honours_of_coincides ?_
    rintro t rfl
    exact h t hmem

/-- One second waits for ever, and a second and a half overflows. -/
theorem not_honoursAll_univ :
    timeoutMsec (some ⟨1, 0, by decide, by decide⟩) = some (-1) ∧
      timeoutMsec (some ⟨1, 500000000, by decide, by decide⟩) = none ∧ ¬ HonoursAll Set.univ := by
  refine ⟨by decide, by decide, ?_⟩
  rintro ⟨h, -⟩
  have hone := (h (some ⟨1, 0, by decide, by decide⟩) trivial).1 (by decide) _ rfl
  cases hone.1

end Mpio.Wavy.Connect
