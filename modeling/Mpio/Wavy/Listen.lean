import Mpio.Lib.Ledger
import Mpio.Lib.Run
import Mpio.Wavy.Connect

/-!
# `loop::listen` and its handler

`loop::listen` of `wavy_listen.cc` makes a listening socket and gives it to a `listen_handler`, whose
base class closes it when the handler dies; `on_read` accepts connections and gives each to the
callback. The answers of the system calls, and whether an allocation fails or the callback throws, are
the environment's choice. A state keeps what the calls did with descriptors (`Lib.Ledger`), the handlers
in `m_state`, and the accepted sockets whose callback returned.

`add_handler` takes the descriptor over as soon as a handler object exists: whatever fails from there
on destroys the object, and with it closes the socket. The `catch` in `loop::listen` then closes it
again.
-/

namespace Mpio.Wavy.Listen

open Lib Connect

/-- What is thrown. -/
inductive Thrown
  | systemError (errno : ℤ) (what : String)
  | badAlloc
  | other

/-- How `shared_ptr<listen_handler>(new listen_handler(fd, callback))` goes: there is no memory for the
object, copying the callback into it throws, there is no memory for the count, or it is made. -/
inductive Alloc
  | newFails
  | copyThrows
  | countFails
  | made
  deriving DecidableEq

/-- The answers that a call of `listen` gets. -/
structure Answers where
  socket : Ret
  setsockopt : Ret
  bind : Ret
  listen : Ret
  alloc : Alloc
  fcntl : Ret
  close : Ret

/-- The number that `socket` answers. -/
def Answers.lsock (a : Answers) : ℕ := a.socket.ret.toNat

structure State where
  uses : List (Use ℕ)
  slot : ℕ → Bool
  given : List ℕ

namespace State

variable (s : State) (fd : ℕ)

def acquire : State := { s with uses := .acquire fd :: s.uses }

def close : State := { s with uses := .release fd :: s.uses }

/-- `m_state[fd] = sh`; a handler that was there dies. -/
def setHandler : State :=
  let s := if s.slot fd then s.close fd else s
  { s with slot := Function.update s.slot fd true }

/-- `m_state[fd].reset()`. -/
def resetHandler : State :=
  let s := if s.slot fd then s.close fd else s
  { s with slot := Function.update s.slot fd false }

end State

/-! ## `loop::listen` -/

/-- `add_handler` and `add_handler_impl`. The answer of `add_fd` is not looked at. -/
def addHandler (s : State) (fd : ℕ) (a : Answers) : State × Option Thrown :=
  match a.alloc with
  | .newFails => (s, some .badAlloc)
  | .copyThrows => (s.close fd, some .other)
  | .countFails => (s.close fd, some .badAlloc)
  | .made =>
    -- the only `shared_ptr` goes with the exception
    if a.fcntl.ret < 0 then (s.close fd, some (.systemError a.fcntl.errno "failed to set nonblock flag"))
    else (s.setHandler fd, none)

/-- `loop::listen`. -/
def listen (s : State) (a : Answers) : State × Except Thrown ℕ :=
  if a.socket.ret < 0 then (s, .error (.systemError a.socket.errno "socket() failed"))
  else
    let lsock := a.lsock
    let s := s.acquire lsock
    if a.setsockopt.ret < 0 then (s.close lsock, .error (.systemError a.close.errno "setsockopt failed"))
    else if a.bind.ret < 0 then (s.close lsock, .error (.systemError a.close.errno "bind failed"))
    else if a.listen.ret < 0 then (s.close lsock, .error (.systemError a.close.errno "listen failed"))
    else
      match addHandler s lsock a with
      | (s, some e) => (s.close lsock, .error e)
      | (s, none) => (s, .ok lsock)

/-! ## `listen_handler::on_read` -/

/-- An answer of `accept`, with whether the callback throws; `errno` is what the callback leaves of it. -/
inductive Accept
  | sock (fd : ℕ) (throws : Bool)
  | again
  | fails (errno : ℤ) (throws : Bool)

/-- How far `on_read` has come. -/
inductive Ending
  | running
  | returned
  | threw (e : Thrown)

/-- `on_read`, as far as the answers go. -/
def onRead (s : State) : List Accept → State × Ending
  | [] => (s, .running)
  | .again :: _ => (s, .returned)
  | .fails errno throws :: _ =>
    (s, .threw (if throws then .other else .systemError errno "accept failed"))
  | .sock fd throws :: accepts =>
    let s := s.acquire fd
    onRead (if throws then s.close fd else { s with given := fd :: s.given }) accepts

/-! ## Runs -/

/-- The loop drops a handler; who was given a socket closes it. -/
inductive Action
  | listen (a : Answers)
  | onRead (fd : ℕ) (accepts : List Accept)
  | resetHandler (fd : ℕ)
  | closeGiven (fd : ℕ)

/-- The kernel hands out numbers that are not in use. -/
def Fresh (s : State) (a : Answers) : Prop := 0 ≤ a.socket.ret → a.lsock ∉ Use.held s.uses

def FreshAll (s : State) : List Accept → Prop
  | .sock fd throws :: accepts =>
    fd ∉ Use.held s.uses ∧
      FreshAll (if throws then (s.acquire fd).close fd
        else { s.acquire fd with given := fd :: s.given }) accepts
  | _ => True

instance (s : State) (a : Answers) : Decidable (Fresh s a) := inferInstanceAs (Decidable (_ → _))

instance decFreshAll (s : State) : (accepts : List Accept) → Decidable (FreshAll s accepts)
  | .sock fd throws :: accepts =>
    let _ := decFreshAll (if throws then (s.acquire fd).close fd
      else { s.acquire fd with given := fd :: s.given }) accepts
    inferInstanceAs (Decidable (_ ∧ _))
  | [] | .again :: _ | .fails _ _ :: _ => inferInstanceAs (Decidable True)

def step (s : State) : Action → Option State
  | .listen a => if Fresh s a then some (listen s a).1 else none
  | .onRead fd accepts => if s.slot fd ∧ FreshAll s accepts then some (onRead s accepts).1 else none
  | .resetHandler fd => some (s.resetHandler fd)
  | .closeGiven fd => if fd ∈ s.given then some { s.close fd with given := s.given.erase fd } else none

def listenSystem : System State Action where
  init s := s = ⟨[], fun _ => false, []⟩
  step := step

/-! ## Owners -/

/-- How many own `fd`: the handler in its slot, the callbacks that were given it and returned. -/
def State.owners (s : State) (fd : ℕ) : ℕ := (s.slot fd).toNat + s.given.count fd

/-- Nothing is closed that is not open, and what was obtained and not closed has an owner. -/
structure Owned (s : State) : Prop where
  once : Use.Once s.uses
  count : ∀ fd, s.uses.count (.acquire fd) = s.uses.count (.release fd) + s.owners fd

/-- A call of `listen` that leaves every descriptor owned, and closes its own if it throws. -/
def Settled (s : State) (a : Answers) : Prop :=
  Owned (listen s a).1 ∧ ∀ e, (listen s a).2 = .error e → 0 ≤ a.socket.ret →
    (listen s a).1.uses.count (.release a.lsock) = s.uses.count (.release a.lsock) + 1

/-- The failure comes when a handler object has the descriptor. -/
def Answers.FailsLate (a : Answers) : Prop :=
  (0 ≤ a.socket.ret ∧ 0 ≤ a.setsockopt.ret ∧ 0 ≤ a.bind.ret ∧ 0 ≤ a.listen.ret) ∧
    (a.alloc = .copyThrows ∨ a.alloc = .countFails ∨ a.alloc = .made ∧ a.fcntl.ret < 0)

instance (a : Answers) : Decidable a.FailsLate := inferInstanceAs (Decidable (_ ∧ _))

/-- No call of `listen` fails late. -/
def Early : Action → Prop
  | .listen a => ¬ a.FailsLate
  | _ => True

instance : (act : Action) → Decidable (Early act)
  | .listen a => inferInstanceAs (Decidable (¬ a.FailsLate))
  | .onRead .. | .resetHandler _ | .closeGiven _ => inferInstanceAs (Decidable True)

section

variable {s : State}

theorem Owned.owners_eq (h : Owned s) (fd : ℕ) :
    s.owners fd = if fd ∈ Use.held s.uses then 1 else 0 := by
  have hcount := h.once.count_acquire fd
  rw [h.count fd] at hcount
  exact Nat.add_left_cancel hcount

theorem Owned.held (h : Owned s) {fd : ℕ} (hfd : s.owners fd ≠ 0) : fd ∈ Use.held s.uses := by
  by_contra hn
  rw [h.owners_eq, if_neg hn] at hfd
  exact hfd rfl

theorem Owned.slot_eq_false (h : Owned s) {fd : ℕ} (hfd : fd ∉ Use.held s.uses) :
    s.slot fd = false := by
  have howners := h.owners_eq fd
  rw [if_neg hfd, State.owners] at howners
  by_contra hslot
  simp [hslot] at howners

theorem Owned.acquire (h : Owned s) {s' : State} {fd : ℕ} (hfd : fd ∉ Use.held s.uses)
    (huses : s'.uses = .acquire fd :: s.uses)
    (howners : ∀ x, s'.owners x = s.owners x + if fd = x then 1 else 0) : Owned s' := by
  refine ⟨huses ▸ ⟨hfd, h.once⟩, fun x => ?_⟩
  have hx := h.count x
  rw [huses, howners, List.count_cons, List.count_cons_of_ne (by simp), hx, ← Nat.add_assoc]
  simp

theorem Owned.close (h : Owned s) {s' : State} {fd : ℕ} (huses : s'.uses = .release fd :: s.uses)
    (howners : ∀ x, s.owners x = s'.owners x + if fd = x then 1 else 0) : Owned s' := by
  have hheld : fd ∈ Use.held s.uses := h.held (by rw [howners, if_pos rfl]; omega)
  refine ⟨huses ▸ ⟨hheld, h.once⟩, fun x => ?_⟩
  have hx := h.count x
  rw [huses, List.count_cons_of_ne (by simp), List.count_cons, hx, howners, Nat.add_right_comm]
  simp
  omega

theorem Owned.acquire_close (h : Owned s) {fd : ℕ} (hfd : fd ∉ Use.held s.uses) :
    Owned ((s.acquire fd).close fd) := by
  refine ⟨⟨Finset.mem_insert_self _ _, hfd, h.once⟩, fun x => ?_⟩
  have hx := h.count x
  simp only [State.acquire, State.close, List.count_cons, State.owners] at hx ⊢
  simp [hx]
  omega

theorem Owned.acquire_give (h : Owned s) {fd : ℕ} (hfd : fd ∉ Use.held s.uses) :
    Owned { s.acquire fd with given := fd :: s.given } :=
  h.acquire hfd rfl fun x => by simp [State.owners, State.acquire, List.count_cons, Nat.add_assoc]

theorem State.owners_setHandler {fd : ℕ} (hslot : s.slot fd = false) (x : ℕ) :
    (s.setHandler fd).owners x = s.owners x + if fd = x then 1 else 0 := by
  simp only [State.owners, State.setHandler, hslot, Bool.false_eq_true, if_false]
  by_cases heq : x = fd
  · subst heq
    simp [hslot]
    omega
  · simp [heq, Ne.symm heq]

theorem State.owners_resetHandler {fd : ℕ} (hslot : s.slot fd = true) (x : ℕ) :
    s.owners x = (s.resetHandler fd).owners x + if fd = x then 1 else 0 := by
  simp only [State.owners, State.resetHandler, hslot, if_true, State.close]
  by_cases heq : x = fd
  · subst heq
    simp [hslot]
    omega
  · simp [heq, Ne.symm heq]

theorem Owned.acquire_setHandler (h : Owned s) {fd : ℕ} (hfd : fd ∉ Use.held s.uses) :
    Owned ((s.acquire fd).setHandler fd) := by
  have hslot : (s.acquire fd).slot fd = false := h.slot_eq_false hfd
  refine h.acquire hfd ?_ (State.owners_setHandler hslot)
  simp only [State.setHandler, hslot, Bool.false_eq_true, if_false]
  rfl

theorem Owned.resetHandler (h : Owned s) (fd : ℕ) : Owned (s.resetHandler fd) := by
  by_cases hslot : s.slot fd
  · exact h.close (by simp [State.resetHandler, hslot, State.close]) (State.owners_resetHandler hslot)
  · have hslot : s.slot fd = false := by simpa using hslot
    have hsame : s.resetHandler fd = s := by
      simp only [State.resetHandler, hslot, Bool.false_eq_true, if_false]
      rw [← hslot, Function.update_eq_self]
    exact hsame.symm ▸ h

theorem Owned.closeGiven (h : Owned s) {fd : ℕ} (hfd : fd ∈ s.given) :
    Owned { s.close fd with given := s.given.erase fd } := by
  refine h.close rfl fun x => ?_
  have hpos : 0 < s.given.count fd := List.count_pos_iff.mpr hfd
  simp only [State.owners, State.close, List.count_erase, beq_iff_eq]
  split_ifs with heq
  · subst heq
    omega
  · omega

theorem Owned.onRead (h : Owned s) {accepts : List Accept} (hfresh : FreshAll s accepts) :
    Owned (onRead s accepts).1 := by
  induction accepts generalizing s with
  | nil => exact h
  | cons a accepts ih =>
    cases a with
    | again => exact h
    | fails errno throws => exact h
    | sock fd throws =>
      obtain ⟨hfd, hrest⟩ := hfresh
      cases throws with
      | true => exact ih (h.acquire_close hfd) hrest
      | false => exact ih (h.acquire_give hfd) hrest

/-! ## The results -/

theorem listen_cases (s : State) (a : Answers) :
    (a.socket.ret < 0 ∧ (listen s a).1 = s) ∨
    (0 ≤ a.socket.ret ∧ ¬ a.FailsLate ∧ (∃ e, (listen s a).2 = .error e) ∧
      (listen s a).1 = (s.acquire a.lsock).close a.lsock) ∨
    (0 ≤ a.socket.ret ∧ ¬ a.FailsLate ∧ (listen s a).2 = .ok a.lsock ∧
      (listen s a).1 = (s.acquire a.lsock).setHandler a.lsock) ∨
    (0 ≤ a.socket.ret ∧ a.FailsLate ∧ (∃ e, (listen s a).2 = .error e) ∧
      (listen s a).1 = ((s.acquire a.lsock).close a.lsock).close a.lsock) := by
  by_cases hsocket : a.socket.ret < 0
  · exact .inl ⟨hsocket, by simp [listen, hsocket]⟩
  refine .inr ?_
  have hobtained : 0 ≤ a.socket.ret := by omega
  by_cases hearly : a.setsockopt.ret < 0 ∨ a.bind.ret < 0 ∨ a.listen.ret < 0
  · -- `listen` closes it itself
    refine .inl ⟨hobtained, ?_, ?_⟩
    · rintro ⟨⟨-, h1, h2, h3⟩, -⟩
      omega
    · unfold listen
      split_ifs
      · exact ⟨⟨_, rfl⟩, rfl⟩
      · exact ⟨⟨_, rfl⟩, rfl⟩
      · exact ⟨⟨_, rfl⟩, rfl⟩
      · omega
  · obtain ⟨h1, h2, h3⟩ : 0 ≤ a.setsockopt.ret ∧ 0 ≤ a.bind.ret ∧ 0 ≤ a.listen.ret := by omega
    have hlisten : listen s a = match addHandler (s.acquire a.lsock) a.lsock a with
        | (s, some e) => (s.close a.lsock, .error e)
        | (s, none) => (s, .ok a.lsock) := by
      simp only [listen, not_lt.mpr hobtained, not_lt.mpr h1, not_lt.mpr h2, not_lt.mpr h3, if_false]
    rw [hlisten]
    cases halloc : a.alloc with
    | newFails => simp [addHandler, Answers.FailsLate, halloc, hobtained]
    | copyThrows => simp [addHandler, Answers.FailsLate, halloc, hobtained, h1, h2, h3]
    | countFails => simp [addHandler, Answers.FailsLate, halloc, hobtained, h1, h2, h3]
    | made =>
      by_cases hfcntl : a.fcntl.ret < 0
      · simp [addHandler, Answers.FailsLate, halloc, hfcntl, hobtained, h1, h2, h3]
      · simp [addHandler, Answers.FailsLate, halloc, hfcntl, hobtained]

/-- A call settles its socket unless it fails late: then it closes the socket twice. -/
theorem Owned.settled_iff (h : Owned s) {a : Answers} (hfresh : Fresh s a) :
    Settled s a ↔ ¬ a.FailsLate := by
  obtain ⟨hsocket, hst⟩ | ⟨hsocket, hearly, -, hst⟩ | ⟨hsocket, hearly, hret, hst⟩ |
    ⟨hsocket, hlate, -, hst⟩ := listen_cases s a
  · have hearly : ¬ a.FailsLate := fun hlate => absurd hlate.1.1 (by omega)
    simp only [hearly, not_false_eq_true, iff_true]
    exact ⟨hst.symm ▸ h, fun _ _ hobtained => absurd hobtained (by omega)⟩
  · simp only [hearly, not_false_eq_true, iff_true]
    refine ⟨hst ▸ h.acquire_close (hfresh hsocket), fun _ _ _ => ?_⟩
    rw [hst, State.close, List.count_cons_self, State.acquire, List.count_cons_of_ne (by simp)]
  · simp only [hearly, not_false_eq_true, iff_true]
    exact ⟨hst ▸ h.acquire_setHandler (hfresh hsocket), fun e he _ => by simp [hret] at he⟩
  · simp only [hlate, not_true_eq_false, iff_false]
    rintro ⟨howned, -⟩
    rw [hst] at howned
    exact Finset.notMem_erase _ _ howned.once.1

theorem Owned.step (h : Owned s) {act : Action} {s' : State} (hearly : Early act)
    (hs : Listen.step s act = some s') : Owned s' := by
  cases act with
  | listen a =>
    obtain ⟨hfresh, rfl⟩ : Fresh s a ∧ (listen s a).1 = s' := by simpa [Listen.step] using hs
    exact ((h.settled_iff hfresh).mpr hearly).1
  | onRead fd accepts =>
    obtain ⟨⟨-, hfresh⟩, rfl⟩ : (s.slot fd ∧ FreshAll s accepts) ∧ (Listen.onRead s accepts).1 = s' := by
      simpa [Listen.step] using hs
    exact h.onRead hfresh
  | resetHandler fd =>
    obtain rfl : s.resetHandler fd = s' := by simpa [Listen.step] using hs
    exact h.resetHandler fd
  | closeGiven fd =>
    obtain ⟨hfd, rfl⟩ : fd ∈ s.given ∧ { s.close fd with given := s.given.erase fd } = s' := by
      simpa [Listen.step] using hs
    exact h.closeGiven hfd

end

/-- In every run in which no call of `listen` failed late, each descriptor is closed once or has one
owner, also after whatever `on_read` meets; and a call of `listen` settles its socket exactly when it
does not fail late. -/
theorem listen_owns {s : State} (hs : listenSystem.Reachable (fun _ act => Early act) s) :
    (Owned s ∧ ∀ fd, s.owners fd ≤ 1) ∧
      (∀ accepts, FreshAll s accepts → Owned (onRead s accepts).1) ∧
      ∀ a, Fresh s a → (Settled s a ↔ ¬ a.FailsLate) := by
  have howned : Owned s := by
    refine hs.invariant ?_ fun s act s' _ h hearly hstep => h.step hearly hstep
    rintro s rfl
    exact ⟨trivial, fun fd => by simp [State.owners]⟩
  refine ⟨⟨howned, fun fd => ?_⟩, fun accepts => howned.onRead, fun a => howned.settled_iff⟩
  rw [howned.owners_eq]
  split_ifs <;> omega

/-- Answers with which `listen` succeeds, unless `fcntl` fails. -/
def answers (socket fcntl : ℤ) : Answers :=
  ⟨⟨socket, 0⟩, ⟨0, 0⟩, ⟨0, 0⟩, ⟨0, 0⟩, .made, ⟨fcntl, 9⟩, ⟨0, 0⟩⟩

theorem listen_owns_twoAccepts : ∃ s, listenSystem.Reachable (fun _ act => Early act) s ∧
    (s.owners 3 = 1 ∧ s.owners 4 = 1 ∧ s.owners 5 = 0) ∧ Owned s ∧ Settled s (answers 6 0) ∧
      ¬ Settled s (answers 6 (-1)) := by
  have hexec : (listenSystem.exec (fun _ act => Early act) ⟨[], fun _ => false, []⟩
      [.listen (answers 3 0), .onRead 3 [.sock 4 false, .sock 5 true, .again]]).map
        (fun s => decide ((s.owners 3 = 1 ∧ s.owners 4 = 1 ∧ s.owners 5 = 0) ∧
          Fresh s (answers 6 0) ∧ Fresh s (answers 6 (-1)))) = some true := by
    decide
  obtain ⟨s, hs, hq⟩ := System.exists_reachable_of_exec _ _ rfl hexec
  obtain ⟨howners, hfresh, hfresh'⟩ := of_decide_eq_true hq
  obtain ⟨⟨howned, -⟩, -, hsettled⟩ := listen_owns hs
  refine ⟨s, hs, howners, howned, (hsettled _ hfresh).mpr (by decide), fun h => ?_⟩
  exact (hsettled _ hfresh').mp h (by decide)

/-- `fcntl` fails: the handler closes the socket, and `listen` closes it again. -/
theorem listen_closes_twice :
    ¬ ∀ s, listenSystem.Reachable (fun _ _ => True) s → ∀ a, Fresh s a → Settled s a := by
  intro hall
  obtain ⟨howned, -⟩ := hall ⟨[], fun _ => false, []⟩ (.init rfl) (answers 3 (-1)) (by decide)
  obtain ⟨hheld, -⟩ : 3 ∈ (Use.held [.acquire 3]).erase 3 ∧ _ := howned.once
  exact Finset.notMem_erase 3 _ hheld

end Mpio.Wavy.Listen
