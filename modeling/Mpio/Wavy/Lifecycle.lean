import Mpio.Lib.Ledger
import Mpio.Lib.Run

/-!
# The workers of a loop

`start`, `add_thread`, `end`, `join`, `detach` and the destructor of `loop_impl`, with `pthread_thread`
of `mp/pthread.h`. The functions that work on `m_workers` are called one at a time, by a thread outside or
by a worker (`self`); the workers run beside them, and leave `thread_main` only after `end`. `join` waits
for one thread after the other, so its loop is a step for each.

A thread can be joined or detached once; doing it again is undefined, and nothing is known about the call
that does it. `pthread_join` of the calling thread answers `EDEADLK`, upon which `join` detaches it.
`pthread_thread::run` allocates a `function_t`, which the `auto_ptr` of `run` deletes if the thread cannot
be created, and the one of `trampoline` when the thread is done.

Not part of the program: `detached` says that `detach` was called while there were workers, and
`selfJoined` are the workers that called `join` or the destructor themselves.
-/

namespace Mpio.Wavy.Lifecycle

open Lib

/-- What can still be done with a `pthread_t`. -/
inductive Handle
  | joinable
  | detached
  | joined
  deriving DecidableEq

inductive Thrown
  | runtimeError (what : String)
  | pthreadError (code : ℤ) (msg : String)
  deriving DecidableEq

/-- `join` or the destructor, called by `self`, with the threads it has not come to yet. -/
structure Call where
  self : Option ℕ
  rest : List ℕ
  destroys : Bool
  deriving DecidableEq

structure State where
  born : ℕ
  running : ℕ → Bool
  handle : ℕ → Handle
  workers : List ℕ
  endFlag : Bool
  call : Option Call
  allocs : ℕ
  func : ℕ → ℕ
  uses : List (Use ℕ)
  thrown : Option Thrown
  undefined : Bool
  destroyed : Bool
  detached : Bool
  selfJoined : List ℕ

namespace State

/-- `pthread_create` succeeds: the function is released to the new thread. -/
def created (s : State) : State :=
  { s with
    born := s.born + 1
    running := Function.update s.running s.born true
    handle := Function.update s.handle s.born .joinable
    workers := s.workers ++ [s.born]
    allocs := s.allocs + 1
    func := Function.update s.func s.born s.allocs
    uses := .acquire s.allocs :: s.uses }

/-- `pthread_create` fails: the function is deleted, and the entry in `m_workers` popped again. -/
def notCreated (s : State) (err : ℤ) : State :=
  { s with
    allocs := s.allocs + 1
    uses := .release s.allocs :: .acquire s.allocs :: s.uses
    thrown := some (.pthreadError err "failed to create thread") }

/-- `add_thread`, with the answer of `pthread_create` for each thread it asks for. -/
def addThread : State → List (Option ℤ) → State
  | s, [] => s
  | s, none :: as => addThread s.created as
  | s, some err :: _ => s.notCreated err

def isRunning (s : State) : Bool := !s.workers.isEmpty

def start (s : State) (as : List (Option ℤ)) : State :=
  if s.isRunning then { s with thrown := some (.runtimeError "loop is already running") }
  else s.addThread as

/-- A worker leaves `thread_main`, and `trampoline` deletes its function. -/
def finished (s : State) (t : ℕ) : State :=
  { s with
    running := Function.update s.running t false
    uses := .release (s.func t) :: s.uses }

/-- `join`, or the destructor after its call of `end`. -/
def joining (s : State) (self : Option ℕ) (destroys : Bool) : State :=
  { s with
    call := some ⟨self, s.workers, destroys⟩
    selfJoined := self.toList ++ s.selfJoined }

/-- `it->join()` and, after `EDEADLK`, `it->detach()`. It waits for a thread that runs. -/
def joinThread (s : State) (c : Call) (t : ℕ) (rest : List ℕ) : Option State :=
  if s.handle t ≠ .joinable then some { s with undefined := true, call := none }
  else if c.self = some t then
    some { s with
      handle := Function.update s.handle t .detached
      call := some { c with rest := rest } }
  else if s.running t then none
  else
    some { s with
      handle := Function.update s.handle t .joined
      call := some { c with rest := rest } }

/-- The next round of the loop of `join`, or what follows it. -/
def goOn (s : State) : Option State :=
  match s.call with
  | none => none
  | some c =>
    match c.rest with
    | t :: rest => s.joinThread c t rest
    | [] => some { s with workers := [], call := none, destroyed := c.destroys }

/-- `detach`, which leaves `m_workers` as it is. -/
def detach (s : State) : State :=
  { s with
    handle := fun t => if t ∈ s.workers then .detached else s.handle t
    undefined := s.undefined || s.workers.any fun t => s.handle t != .joinable
    detached := s.detached || s.isRunning }

end State

inductive Action
  | start (as : List (Option ℤ))
  | addThread (as : List (Option ℤ))
  | endLoop
  | finish (t : ℕ)
  | join (self : Option ℕ)
  | destroy (self : Option ℕ)
  | detach
  | goOn

/-- Nobody is inside `join` or the destructor, and the loop exists; a caller that is a worker runs. -/
def State.Free (s : State) (self : Option ℕ) : Prop :=
  s.call = none ∧ s.destroyed = false ∧ ∀ t ∈ self, s.running t = true

instance (s : State) (self : Option ℕ) : Decidable (s.Free self) :=
  match self with
  | none => decidable_of_iff (s.call = none ∧ s.destroyed = false) (by simp [State.Free])
  | some t =>
    decidable_of_iff (s.call = none ∧ s.destroyed = false ∧ s.running t = true) (by simp [State.Free])

def step (s : State) : Action → Option State
  | .start as => if s.Free none then some (s.start as) else none
  | .addThread as => if s.Free none then some (s.addThread as) else none
  | .endLoop => if s.destroyed = false then some { s with endFlag := true } else none
  | .finish t =>
    if s.running t ∧ s.endFlag ∧ s.call.bind (·.self) ≠ some t then some (s.finished t) else none
  | .join self => if s.Free self then some (s.joining self false) else none
  | .destroy self => if s.Free self then some ({ s with endFlag := true }.joining self true) else none
  | .detach => if s.Free none then some s.detach else none
  | .goOn => s.goOn

/-- A new loop. -/
def State.init : State where
  born := 0
  running _ := false
  handle _ := .joinable
  workers := []
  endFlag := false
  call := none
  allocs := 0
  func _ := 0
  uses := []
  thrown := none
  undefined := false
  destroyed := false
  detached := false
  selfJoined := []

def lifecycleSystem : System State Action where
  init s := s = .init
  step := step

/-! ## The steps -/

variable {s s' : State} {a : Action} {P : State → Action → Prop}

/-- What holds before and is kept by each creation of a thread, succeeding or not, holds after
`add_thread`. -/
theorem State.addThread_induct {I : State → Prop} (hcreated : ∀ s, I s → I s.created)
    (hnot : ∀ s err, I s → I (s.notCreated err)) (as : List (Option ℤ)) (h : I s) : I (s.addThread as) := by
  induction as generalizing s with
  | nil => exact h
  | cons a as ih =>
    cases a with
    | none => exact ih (hcreated s h)
    | some err => exact hnot s err h

/-- What a round of `join` can do. -/
inductive GoesOn (s : State) : State → Prop
  | undefined {c : Call} {t : ℕ} {rest : List ℕ} (hc : s.call = some c) (hr : c.rest = t :: rest)
    (hh : s.handle t ≠ .joinable) : GoesOn s { s with undefined := true, call := none }
  | next {c : Call} {t : ℕ} {rest : List ℕ} {h : Handle} (hc : s.call = some c) (hr : c.rest = t :: rest)
    (hj : s.handle t = .joinable)
    (hh : h = .detached ∧ c.self = some t ∨ h = .joined ∧ s.running t = false) :
    GoesOn s { s with
      handle := Function.update s.handle t h
      call := some { c with rest := rest } }
  | done {c : Call} (hc : s.call = some c) (hr : c.rest = []) :
    GoesOn s { s with workers := [], call := none, destroyed := c.destroys }

/-- What a step can do. -/
inductive Step (s : State) : State → Prop
  | refused (hc : s.call = none) (e : Thrown) : Step s { s with thrown := some e }
  | adds (hc : s.call = none) (hd : s.destroyed = false) (as : List (Option ℤ)) : Step s (s.addThread as)
  | ended : Step s { s with endFlag := true }
  | finished {t : ℕ} (hr : s.running t = true) : Step s (s.finished t)
  | joins (b : Bool) {self : Option ℕ} (hc : s.call = none) (hd : s.destroyed = false) (destroys : Bool) :
    Step s ({ s with endFlag := b }.joining self destroys)
  | detach (hc : s.call = none) (hd : s.destroyed = false) : Step s s.detach
  | goesOn {s' : State} (h : GoesOn s s') : Step s s'

theorem goOn_cases (h : s.goOn = some s') : GoesOn s s' := by
  unfold State.goOn at h
  cases hc : s.call with
  | none => simp [hc] at h
  | some c =>
    simp only [hc] at h
    cases hr : c.rest with
    | nil =>
      simp only [hr] at h
      obtain rfl := Option.some.inj h
      exact .done hc hr
    | cons t rest =>
      simp only [hr, State.joinThread] at h
      split_ifs at h with hj hself hrun
      · obtain rfl := Option.some.inj h
        exact .undefined hc hr hj
      · obtain rfl := Option.some.inj h
        exact .next hc hr (not_not.mp hj) (.inl ⟨rfl, hself⟩)
      · obtain rfl := Option.some.inj h
        exact .next hc hr (not_not.mp hj) (.inr ⟨rfl, by simpa using hrun⟩)

theorem step_cases (h : step s a = some s') : Step s s' := by
  cases a with
  | start as =>
    simp only [step, Option.ite_none_right_eq_some, Option.some.injEq] at h
    obtain ⟨⟨hc, hd, -⟩, rfl⟩ := h
    unfold State.start
    split_ifs
    · exact .refused hc _
    · exact .adds hc hd as
  | addThread as =>
    simp only [step, Option.ite_none_right_eq_some, Option.some.injEq] at h
    obtain ⟨⟨hc, hd, -⟩, rfl⟩ := h
    exact .adds hc hd as
  | endLoop =>
    simp only [step, Option.ite_none_right_eq_some, Option.some.injEq] at h
    obtain ⟨-, rfl⟩ := h
    exact .ended
  | finish t =>
    simp only [step, Option.ite_none_right_eq_some, Option.some.injEq] at h
    obtain ⟨⟨hr, -⟩, rfl⟩ := h
    exact .finished hr
  | join self =>
    simp only [step, Option.ite_none_right_eq_some, Option.some.injEq] at h
    obtain ⟨⟨hc, hd, -⟩, rfl⟩ := h
    exact .joins s.endFlag hc hd false
  | destroy self =>
    simp only [step, Option.ite_none_right_eq_some, Option.some.injEq] at h
    obtain ⟨⟨hc, hd, -⟩, rfl⟩ := h
    exact .joins true hc hd true
  | detach =>
    simp only [step, Option.ite_none_right_eq_some, Option.some.injEq] at h
    obtain ⟨⟨hc, hd, -⟩, rfl⟩ := h
    exact .detach hc hd
  | goOn => exact .goesOn (goOn_cases h)

/-! ## The functions of the threads -/

/-- The functions that exist are those of the threads that run. -/
structure Funcs (s : State) : Prop where
  once : Use.Once s.uses
  held : ∀ f, f ∈ Use.held s.uses ↔ ∃ t, s.running t = true ∧ s.func t = f
  lt : ∀ t, s.running t = true → t < s.born ∧ s.func t < s.allocs
  inj : ∀ t u, s.running t = true → s.running u = true → s.func t = s.func u → t = u

theorem Funcs.fresh (h : Funcs s) : s.allocs ∉ Use.held s.uses := by
  rw [h.held]
  rintro ⟨t, ht, heq⟩
  have := (h.lt t ht).2
  omega

theorem Funcs.frame (h : Funcs s) (hu : s'.uses = s.uses) (hr : s'.running = s.running)
    (hf : s'.func = s.func) (hb : s'.born = s.born) (ha : s'.allocs = s.allocs) : Funcs s' := by
  constructor
  · rw [hu]
    exact h.once
  · rw [hu, hr, hf]
    exact h.held
  · rw [hr, hf, hb, ha]
    exact h.lt
  · rw [hr, hf]
    exact h.inj

theorem Funcs.created (h : Funcs s) : Funcs s.created := by
  have hborn : s.running s.born = false := by
    by_contra hr
    exact absurd (h.lt s.born (by simpa using hr)).1 (lt_irrefl _)
  -- a thread that runs now is the new one, or ran before and has the function it had
  have hcase (t : ℕ) (ht : s.created.running t = true) :
      t = s.born ∧ s.created.func t = s.allocs ∨
        t ≠ s.born ∧ s.running t = true ∧ s.created.func t = s.func t := by
    by_cases heq : t = s.born
    · subst heq
      exact .inl ⟨rfl, by simp [State.created]⟩
    · refine .inr ⟨heq, ?_, ?_⟩
      · simpa [State.created, Function.update_of_ne heq] using ht
      · simp [State.created, Function.update_of_ne heq]
  refine ⟨⟨h.fresh, h.once⟩, fun f => ?_, fun t ht => ?_, fun t u ht hu heq => ?_⟩
  · show f ∈ insert s.allocs (Use.held s.uses) ↔ _
    rw [Finset.mem_insert, h.held]
    constructor
    · rintro (rfl | ⟨t, ht, rfl⟩)
      · exact ⟨s.born, by simp [State.created], by simp [State.created]⟩
      · have hne : t ≠ s.born := fun heq => by simp [heq, hborn] at ht
        exact ⟨t, by simpa [State.created, Function.update_of_ne hne] using ht,
          by simp [State.created, Function.update_of_ne hne]⟩
    · rintro ⟨t, ht, rfl⟩
      obtain ⟨-, hf⟩ | ⟨-, hr, hf⟩ := hcase t ht
      · exact .inl hf
      · exact .inr ⟨t, hr, hf.symm⟩
  · show t < s.born + 1 ∧ _ < s.allocs + 1
    obtain ⟨heq, hf⟩ | ⟨-, hr, hf⟩ := hcase t ht
    · rw [hf]
      omega
    · have := h.lt t hr
      rw [hf]
      omega
  · obtain ⟨ht', hft⟩ | ⟨-, hrt, hft⟩ := hcase t ht
    all_goals obtain ⟨hu', hfu⟩ | ⟨-, hru, hfu⟩ := hcase u hu
    · rw [ht', hu']
    · have := (h.lt u hru).2
      omega
    · have := (h.lt t hrt).2
      omega
    · exact h.inj t u hrt hru (by rw [← hft, ← hfu, heq])

theorem Funcs.notCreated (h : Funcs s) (err : ℤ) : Funcs (s.notCreated err) := by
  have hheld : Use.held (s.notCreated err).uses = Use.held s.uses := by
    show (insert s.allocs (Use.held s.uses)).erase s.allocs = _
    exact Finset.erase_insert h.fresh
  refine ⟨⟨Finset.mem_insert_self .., h.fresh, h.once⟩, fun f => ?_, fun t ht => ?_, h.inj⟩
  · rw [hheld]
    exact h.held f
  · have := h.lt t ht
    exact ⟨this.1, this.2.trans (Nat.lt_succ_self _)⟩

theorem Funcs.finished (h : Funcs s) {t : ℕ} (ht : s.running t = true) : Funcs (s.finished t) := by
  have hcase (u : ℕ) : (s.finished t).running u = true ↔ u ≠ t ∧ s.running u = true := by
    by_cases heq : u = t
    · subst heq
      simp [State.finished]
    · simp [State.finished, heq]
  refine ⟨⟨(h.held _).mpr ⟨t, ht, rfl⟩, h.once⟩, fun f => ?_, fun u hu => ?_, fun u v hu hv => ?_⟩
  · show f ∈ (Use.held s.uses).erase (s.func t) ↔ _
    rw [Finset.mem_erase, h.held]
    constructor
    · rintro ⟨hne, u, hu, rfl⟩
      exact ⟨u, (hcase u).mpr ⟨fun heq => hne (by rw [heq]), hu⟩, rfl⟩
    · rintro ⟨u, hu, rfl⟩
      obtain ⟨hne, hr⟩ := (hcase u).mp hu
      exact ⟨fun heq => hne (h.inj u t hr ht heq), u, hr, rfl⟩
  · exact h.lt u ((hcase u).mp hu).2
  · exact h.inj u v ((hcase u).mp hu).2 ((hcase v).mp hv).2

theorem Funcs.step (h : Funcs s) (hs : Step s s') : Funcs s' := by
  cases hs with
  | adds hc hd as =>
    exact State.addThread_induct (I := Funcs) (fun _ h => h.created) (fun _ err h => h.notCreated err) as h
  | finished hr => exact h.finished hr
  | refused | ended | joins | detach => exact h.frame rfl rfl rfl rfl rfl
  | goesOn hg => cases hg <;> exact h.frame rfl rfl rfl rfl rfl

theorem reachable_funcs (h : lifecycleSystem.Reachable P s) : Funcs s := by
  refine h.invariant ?_ fun _ _ _ _ hi _ hs => hi.step (step_cases hs)
  rintro _ rfl
  refine ⟨trivial, by simp [Use.held, State.init], fun t ht => ?_, fun t u ht => ?_⟩
  · cases ht
  · cases ht

/-! ## The handles -/

/-- The workers that `join` still has to come to. -/
def State.pending (s : State) : List ℕ := s.call.elim s.workers (·.rest)

/-- Without a call of `detach`, the threads that can be joined are those that `join` will come to. -/
structure Live (s : State) : Prop where
  defined : s.undefined = false
  nodup : s.pending.Nodup
  pending : ∀ t, t ∈ s.pending ↔ t < s.born ∧ s.handle t = .joinable
  joined : ∀ t, s.handle t = .joined → s.running t = false
  detached : ∀ t, s.handle t = .detached → t ∈ s.selfJoined
  self : ∀ c ∈ s.call, ∀ t ∈ c.self, t ∈ s.selfJoined
  destroyed : s.destroyed = true → s.pending = []

/-- After a call of `detach`, the first worker cannot be joined, and `join` does not come past it. -/
structure Gone (s : State) : Prop where
  first : ∃ t rest, s.workers = t :: rest ∧ s.handle t ≠ .joinable ∧ t < s.born
  call : ∀ c ∈ s.call, c.rest = s.workers
  destroyed : s.destroyed = false

structure Inv (s : State) : Prop where
  members : ∀ t ∈ s.workers, t < s.born
  live : s.detached = false → Live s
  gone : s.detached = true → Gone s

theorem State.pending_of_idle (hc : s.call = none) : s.pending = s.workers := by
  rw [State.pending, hc]
  rfl

theorem State.mem_pending {c : Call} {t : ℕ} {rest : List ℕ} (hc : s.call = some c)
    (hr : c.rest = t :: rest) : t ∈ s.pending := by
  rw [State.pending, hc]
  show t ∈ c.rest
  rw [hr]
  exact List.mem_cons_self

theorem Live.created (h : Live s) (hm : ∀ t ∈ s.workers, t < s.born) (hc : s.call = none)
    (hd : s.destroyed = false) : Live s.created := by
  have hpending : s.created.pending = s.pending ++ [s.born] := by
    rw [State.pending_of_idle hc, State.pending_of_idle (show s.created.call = none from hc)]
    rfl
  have hnot : s.born ∉ s.pending := by
    rw [State.pending_of_idle hc]
    exact fun hmem => lt_irrefl _ (hm _ hmem)
  have hold {t : ℕ} (ht : t ≠ s.born) : s.created.handle t = s.handle t := Function.update_of_ne ht ..
  have hnew : s.created.handle s.born = .joinable := Function.update_self ..
  refine ⟨h.defined, ?_, fun t => ?_, fun t ht => ?_, fun t ht => ?_, h.self, fun ht => ?_⟩
  · rw [hpending]
    exact h.nodup.append (List.nodup_singleton _) (by simpa using hnot)
  · rw [hpending, List.mem_append, List.mem_singleton, h.pending]
    show _ ↔ t < s.born + 1 ∧ _
    by_cases heq : t = s.born
    · subst heq
      simp [hnew]
    · rw [hold heq]
      simp only [heq, or_false]
      exact and_congr_left fun _ => ⟨fun hlt => hlt.trans (Nat.lt_succ_self _), fun hlt => by omega⟩
  · have hne : t ≠ s.born := fun heq => by
      rw [heq, hnew] at ht
      cases ht
    rw [hold hne] at ht
    simpa [State.created, Function.update_of_ne hne] using h.joined t ht
  · have hne : t ≠ s.born := fun heq => by
      rw [heq, hnew] at ht
      cases ht
    rw [hold hne] at ht
    exact h.detached t ht
  · change s.destroyed = true at ht
    rw [hd] at ht
    cases ht

theorem Gone.created (h : Gone s) (hc : s.call = none) : Gone s.created := by
  obtain ⟨t, rest, hw, hh, hlt⟩ := h.first
  refine ⟨⟨t, rest ++ [s.born], ?_, ?_, hlt.trans (Nat.lt_succ_self _)⟩, fun c hcall => ?_, h.destroyed⟩
  · show s.workers ++ [s.born] = _
    rw [hw]
    rfl
  · simpa [State.created, Function.update_of_ne hlt.ne] using hh
  · rw [show s.created.call = none from hc] at hcall
    cases hcall

theorem Inv.adds (h : Inv s) (hc : s.call = none) (hd : s.destroyed = false) (as : List (Option ℤ)) :
    Inv (s.addThread as) := by
  refine (State.addThread_induct (I := fun s => Inv s ∧ s.call = none ∧ s.destroyed = false)
    ?_ ?_ as ⟨h, hc, hd⟩).1
  · rintro s ⟨h, hc, hd⟩
    refine ⟨⟨fun t ht => ?_, fun hdet => (h.live hdet).created h.members hc hd,
      fun hdet => (h.gone hdet).created hc⟩, hc, hd⟩
    show t < s.born + 1
    obtain ht | ht := List.mem_append.mp (show t ∈ s.workers ++ [s.born] from ht)
    · exact (h.members t ht).trans (Nat.lt_succ_self _)
    · rw [List.mem_singleton.mp ht]
      exact Nat.lt_succ_self _
  · rintro s err ⟨h, hc, hd⟩
    exact ⟨⟨h.members, fun hdet => ⟨(h.live hdet).defined, (h.live hdet).nodup, (h.live hdet).pending,
      (h.live hdet).joined, (h.live hdet).detached, (h.live hdet).self, (h.live hdet).destroyed⟩,
      fun hdet => ⟨(h.gone hdet).first, (h.gone hdet).call, (h.gone hdet).destroyed⟩⟩, hc, hd⟩

theorem Live.joins (h : Live s) (hc : s.call = none) (b : Bool) (self : Option ℕ) (d : Bool) :
    Live ({ s with endFlag := b }.joining self d) := by
  have hpending : ({ s with endFlag := b }.joining self d).pending = s.pending :=
    (State.pending_of_idle hc).symm
  refine ⟨h.defined, hpending ▸ h.nodup, fun t => by rw [hpending]; exact h.pending t, h.joined,
    fun t ht => List.mem_append_right _ (h.detached t ht), fun c hcall t ht => ?_,
    fun hd => by rw [hpending]; exact h.destroyed hd⟩
  obtain rfl := Option.some.inj hcall
  exact List.mem_append_left _ (by simpa using ht)

theorem Inv.detach (h : Inv s) (hc : s.call = none) (hd : s.destroyed = false) : Inv s.detach := by
  refine ⟨h.members, fun hdet => ?_, fun _ => ?_⟩
  · -- there were no workers
    obtain ⟨hdet, hrun⟩ := Bool.or_eq_false_iff.mp hdet
    have hnil : s.workers = [] := by simpa [State.isRunning] using hrun
    have hl := h.live hdet
    have hhandle : s.detach.handle = s.handle := by
      funext t
      simp [State.detach, hnil]
    exact ⟨by simp [State.detach, hnil, hl.defined], hl.nodup, fun t => by rw [hhandle]; exact hl.pending t,
      fun t => by rw [hhandle]; exact hl.joined t, fun t => by rw [hhandle]; exact hl.detached t, hl.self,
      hl.destroyed⟩
  · rename_i hdet
    obtain ⟨t, rest, hw⟩ : ∃ t rest, s.workers = t :: rest := by
      obtain hdet | hrun := Bool.or_eq_true_iff.mp hdet
      · obtain ⟨t, rest, hw, -⟩ := (h.gone hdet).first
        exact ⟨t, rest, hw⟩
      · exact List.exists_cons_of_ne_nil (by simpa [State.isRunning] using hrun)
    refine ⟨⟨t, rest, hw, ?_, h.members t (by simp [hw])⟩, fun c hcall => ?_, hd⟩
    · simp [State.detach, hw]
    · rw [show s.detach.call = none from hc] at hcall
      cases hcall

theorem Live.next (h : Live s) {c : Call} {t : ℕ} {rest : List ℕ} {hd : Handle} (hc : s.call = some c)
    (hr : c.rest = t :: rest)
    (hh : hd = .detached ∧ c.self = some t ∨ hd = .joined ∧ s.running t = false) :
    Live { s with handle := Function.update s.handle t hd, call := some { c with rest := rest } } := by
  have hpending : s.pending = t :: rest := by
    rw [State.pending, hc]
    exact hr
  obtain ⟨hnot, hnodup⟩ := List.nodup_cons.mp (hpending ▸ h.nodup)
  have hne : hd ≠ .joinable := by
    obtain ⟨rfl, -⟩ | ⟨rfl, -⟩ := hh <;> exact Handle.noConfusion
  refine ⟨h.defined, hnodup, fun u => ?_, fun u hu => ?_, fun u hu => ?_, fun c' hc' u hu => ?_,
    fun hdest => ?_⟩
  · show u ∈ rest ↔ u < s.born ∧ Function.update s.handle t hd u = .joinable
    by_cases heq : u = t
    · subst heq
      simp [hnot, hne]
    · rw [Function.update_of_ne heq, ← h.pending, hpending, List.mem_cons]
      simp [heq]
  · by_cases heq : u = t
    · subst heq
      simp only [Function.update_self] at hu
      obtain ⟨rfl, -⟩ | ⟨-, hrun⟩ := hh
      · cases hu
      · exact hrun
    · simp only [Function.update_of_ne heq] at hu
      exact h.joined u hu
  · by_cases heq : u = t
    · subst heq
      simp only [Function.update_self] at hu
      obtain ⟨-, hself⟩ | ⟨rfl, -⟩ := hh
      · exact h.self c hc u hself
      · cases hu
    · simp only [Function.update_of_ne heq] at hu
      exact h.detached u hu
  · obtain rfl := Option.some.inj hc'
    exact h.self c hc u hu
  · have := h.destroyed hdest
    rw [hpending] at this
    cases this

theorem Inv.goesOn (h : Inv s) (hs : GoesOn s s') : Inv s' := by
  cases hs with
  | @undefined c t rest hc hr hh =>
    refine ⟨h.members, fun hdet => ?_, fun hdet => ?_⟩
    · exact absurd (((h.live hdet).pending t).mp (State.mem_pending hc hr)).2 hh
    · exact ⟨(h.gone hdet).first, (fun _ h => by cases h), (h.gone hdet).destroyed⟩
  | @next c t rest hd hc hr hj hh =>
    refine ⟨h.members, fun hdet => (h.live hdet).next hc hr hh, fun hdet => ?_⟩
    obtain ⟨u, rest', hw, hu, -⟩ := (h.gone hdet).first
    have := (h.gone hdet).call c hc
    rw [hr, hw] at this
    obtain ⟨rfl, -⟩ := List.cons.inj this
    exact absurd hj hu
  | @done c hc hr =>
    have hpending : s.detached = false → s.pending = [] := fun _ => by
      rw [State.pending, hc]
      exact hr
    refine ⟨(fun _ h => by cases h), fun hdet => ?_, fun hdet => ?_⟩
    · have hl := h.live hdet
      have hiff := hl.pending
      rw [hpending hdet] at hiff
      exact ⟨hl.defined, List.nodup_nil, hiff, hl.joined, hl.detached, (fun _ h => by cases h), fun _ => rfl⟩
    · obtain ⟨u, rest', hw, -⟩ := (h.gone hdet).first
      have := (h.gone hdet).call c hc
      rw [hr, hw] at this
      cases this

theorem Inv.step (h : Inv s) (hs : Step s s') : Inv s' := by
  cases hs with
  | adds hc hd as => exact h.adds hc hd as
  | detach hc hd => exact h.detach hc hd
  | refused | ended =>
    exact ⟨h.members, fun hdet => ⟨(h.live hdet).defined, (h.live hdet).nodup, (h.live hdet).pending,
      (h.live hdet).joined, (h.live hdet).detached, (h.live hdet).self, (h.live hdet).destroyed⟩,
      fun hdet => ⟨(h.gone hdet).first, (h.gone hdet).call, (h.gone hdet).destroyed⟩⟩
  | @finished t hr =>
    refine ⟨h.members, fun hdet => ?_, fun hdet => ?_⟩
    · have hl := h.live hdet
      refine ⟨hl.defined, hl.nodup, hl.pending, fun u hu => ?_, hl.detached, hl.self, hl.destroyed⟩
      by_cases heq : u = t
      · simp [State.finished, heq]
      · simpa [State.finished, Function.update_of_ne heq] using hl.joined u hu
    · exact ⟨(h.gone hdet).first, (h.gone hdet).call, (h.gone hdet).destroyed⟩
  | @joins b self hc hd d =>
    refine ⟨h.members, fun hdet => (h.live hdet).joins hc b self d, fun hdet => ?_⟩
    refine ⟨(h.gone hdet).first, fun c hcall => ?_, hd⟩
    obtain rfl := Option.some.inj hcall
    rfl
  | goesOn hg => exact h.goesOn hg

theorem reachable_inv (h : lifecycleSystem.Reachable P s) : Inv s := by
  refine h.invariant ?_ fun _ _ _ _ hi _ hs => hi.step (step_cases hs)
  rintro _ rfl
  refine ⟨(fun _ h => by cases h), fun _ => ?_, fun h => by cases h⟩
  exact ⟨rfl, List.nodup_nil, fun t => by simp [State.pending, State.init], (fun _ h => by cases h),
    (fun _ h => by cases h), (fun _ h => by cases h), fun h => by cases h⟩

/-- In every run, each function that a thread was given is deleted once, and those that exist are those
of the threads that run. Unless `detach` was called while there were workers, nothing is undefined, and
every thread that was created is one that `join` will come to, has been joined after it was done, or has
been detached because it called `join` itself. -/
theorem threads_accounted (h : lifecycleSystem.Reachable (fun _ _ => True) s) :
    Use.Once s.uses ∧ (∀ f, f ∈ Use.held s.uses ↔ ∃ t, s.running t = true ∧ s.func t = f) ∧
    (s.detached = false → s.undefined = false ∧ ∀ t < s.born,
      t ∈ s.pending ∧ s.handle t = .joinable ∨ s.handle t = .joined ∧ s.running t = false ∨
        s.handle t = .detached ∧ t ∈ s.selfJoined) := by
  have hf := reachable_funcs h
  refine ⟨hf.once, hf.held, fun hdet => ?_⟩
  have hl := (reachable_inv h).live hdet
  refine ⟨hl.defined, fun t ht => ?_⟩
  cases hh : s.handle t with
  | joinable => exact .inl ⟨(hl.pending t).mpr ⟨ht, hh⟩, rfl⟩
  | joined => exact .inr (.inl ⟨rfl, hl.joined t hh⟩)
  | detached => exact .inr (.inr ⟨rfl, hl.detached t hh⟩)

/-- The second thread of `start` cannot be created; the first is joined. -/
theorem threads_accounted_start : ∃ s, lifecycleSystem.Reachable (fun _ _ => True) s ∧
    s.thrown = some (.pthreadError 11 "failed to create thread") ∧ s.undefined = false ∧
    Use.held s.uses = ∅ := by
  obtain ⟨s, hs, hq⟩ := System.exists_reachable_of_exec (S := lifecycleSystem) (P := fun _ _ => True)
    (s := .init) [.start [none, some 11], .endLoop, .finish 0, .join none, .goOn, .goOn]
    (fun s => s.thrown == some (.pthreadError 11 "failed to create thread") && !s.detached &&
      !s.running 0 && s.born == 1) rfl (by decide)
  simp only [Bool.and_eq_true, beq_iff_eq, Bool.not_eq_true'] at hq
  obtain ⟨⟨⟨hthrown, hdet⟩, hrun⟩, hborn⟩ := hq
  have hall := threads_accounted hs
  refine ⟨s, hs, hthrown, (hall.2.2 hdet).1, Finset.eq_empty_of_forall_notMem fun f hf => ?_⟩
  obtain ⟨t, ht, -⟩ := (hall.2.1 f).mp hf
  have hlt := ((reachable_funcs hs).lt t ht).1
  obtain rfl : t = 0 := by omega
  rw [hrun] at ht
  cases ht

/-! ## The destructor -/

/-- The destructor comes to its end only in runs in which `detach` was not called while there were
workers, and then the threads that still run are those that called `join` or the destructor themselves: no
other worker uses the loop after it is gone. After such a call of `detach`, every `join` and every
destructor joins a thread that was detached. -/
theorem destroyed_quiet (h : lifecycleSystem.Reachable (fun _ _ => True) s) :
    (s.destroyed = true → s.detached = false ∧ s.undefined = false ∧
      ∀ t, s.running t = true → t ∈ s.selfJoined) ∧
    (s.detached = true → s.call ≠ none → ∃ s', step s .goOn = some s' ∧ s'.undefined = true) := by
  have hi := reachable_inv h
  refine ⟨fun hdest => ?_, fun hdet hcall => ?_⟩
  · have hdet : s.detached = false := by
      by_contra hdet
      rw [(hi.gone (by simpa using hdet)).destroyed] at hdest
      cases hdest
    have hl := hi.live hdet
    refine ⟨hdet, hl.defined, fun t ht => ?_⟩
    have hlt := ((reachable_funcs h).lt t ht).1
    cases hh : s.handle t with
    | joinable =>
      have hmem := (hl.pending t).mpr ⟨hlt, hh⟩
      rw [hl.destroyed hdest] at hmem
      cases hmem
    | joined =>
      rw [hl.joined t hh] at ht
      cases ht
    | detached => exact hl.detached t hh
  · obtain ⟨c, hc⟩ := Option.ne_none_iff_exists'.mp hcall
    obtain ⟨t, rest, hw, hh, -⟩ := (hi.gone hdet).first
    have hrest := (hi.gone hdet).call c hc
    refine ⟨{ s with undefined := true, call := none }, ?_, rfl⟩
    simp only [step, State.goOn, hc, hrest, hw, State.joinThread]
    rw [if_pos hh]

/-- A worker is left running, because it called `join` itself. -/
theorem destroyed_quiet_self : ∃ s, lifecycleSystem.Reachable (fun _ _ => True) s ∧
    s.destroyed = true ∧ s.running 0 = true ∧ 0 ∈ s.selfJoined := by
  obtain ⟨s, hs, hq⟩ := System.exists_reachable_of_exec (S := lifecycleSystem) (P := fun _ _ => True)
    (s := .init) [.start [none], .endLoop, .join (some 0), .goOn, .goOn, .destroy none, .goOn]
    (fun s => s.destroyed && s.running 0) rfl (by decide)
  simp only [Bool.and_eq_true] at hq
  exact ⟨s, hs, hq.1, hq.2, ((destroyed_quiet hs).1 hq.1).2.2 0 hq.2⟩

/-! ## `join` returns -/

/-- How much `join` still has to wait for. -/
def State.left (s : State) : ℕ :=
  s.call.elim 0 (·.rest.length + 1) + ∑ t ∈ Finset.range s.born, if s.running t then 1 else 0

/-- `join` has returned. -/
def Returned (s : State) : Prop := s.call = none ∧ s.workers = []

/-- Calls of `end` by other threads. -/
def Action.extra : Action → Bool
  | .endLoop => true
  | _ => false

theorem State.left_finished {t : ℕ} (ht : s.running t = true) (hlt : t < s.born) :
    (s.finished t).left < s.left := by
  have hrest : ∀ u, u ≠ t →
      (if (s.finished t).running u then 1 else 0) = (if s.running u then 1 else 0 : ℕ) := by
    intro u hu
    simp [State.finished, Function.update_of_ne hu]
  have hsum := sum_move hlt hrest
  have hself : (s.finished t).running t = false := by simp [State.finished]
  simp only [ht, hself, if_true, Bool.false_eq_true, if_false, add_zero] at hsum
  show s.call.elim 0 _ + _ < s.call.elim 0 _ + _
  show _ + (∑ u ∈ Finset.range s.born, if (s.finished t).running u then 1 else 0) < _
  omega

theorem join_goes_on (hl : Live s) (hcall : s.call ≠ none) (hend : s.endFlag = true) :
    ∃ a s', a.extra = false ∧ step s a = some s' := by
  obtain ⟨c, hc⟩ := Option.ne_none_iff_exists'.mp hcall
  cases hr : c.rest with
  | nil =>
    exact ⟨.goOn, { s with workers := [], call := none, destroyed := c.destroys }, rfl, by
      simp only [step, State.goOn, hc, hr]⟩
  | cons t rest =>
    have hj : s.handle t = .joinable := ((hl.pending t).mp (State.mem_pending hc hr)).2
    by_cases hself : c.self = some t
    · exact ⟨.goOn, _, rfl, by
        simp only [step, State.goOn, hc, hr, State.joinThread]
        rw [if_neg (not_not.mpr hj), if_pos hself]⟩
    · by_cases hrun : s.running t = true
      · refine ⟨.finish t, s.finished t, rfl, ?_⟩
        simp only [step]
        rw [if_pos ⟨hrun, hend, by rw [hc]; exact hself⟩]
      · exact ⟨.goOn, _, rfl, by
          simp only [step, State.goOn, hc, hr, State.joinThread]
          rw [if_neg (not_not.mpr hj), if_neg hself, if_neg hrun]⟩

theorem join_step (hl : Live s) (hf : Funcs s) (hcall : s.call ≠ none) (hs : step s a = some s') :
    Returned s' ∨ (s'.call ≠ none ∧ (s.endFlag = true → s'.endFlag = true) ∧ s'.detached = s.detached) ∧
      (a.extra = false → s'.left < s.left) := by
  have hbusy (self : Option ℕ) : ¬ s.Free self := fun hfree => hcall hfree.1
  cases a with
  | start | addThread | join | destroy | detach => simp [step, hbusy] at hs
  | endLoop =>
    simp only [step, Option.ite_none_right_eq_some, Option.some.injEq] at hs
    obtain ⟨-, rfl⟩ := hs
    exact .inr ⟨⟨hcall, fun _ => rfl, rfl⟩, fun h => by cases h⟩
  | finish t =>
    simp only [step, Option.ite_none_right_eq_some, Option.some.injEq] at hs
    obtain ⟨⟨hr, -⟩, rfl⟩ := hs
    exact .inr ⟨⟨hcall, id, rfl⟩, fun _ => State.left_finished hr (hf.lt t hr).1⟩
  | goOn =>
    cases goOn_cases (show s.goOn = some s' from hs) with
    | undefined hc hr hh => exact absurd ((hl.pending _).mp (State.mem_pending hc hr)).2 hh
    | @next c t rest h hc hr hj hh =>
      refine .inr ⟨⟨Option.some_ne_none _, id, rfl⟩, fun _ => ?_⟩
      show rest.length + 1 + _ < s.left
      unfold State.left
      rw [hc]
      show _ < c.rest.length + 1 + _
      rw [hr, List.length_cons]
      exact Nat.add_lt_add_right (Nat.lt_succ_self _) _
    | done hc hr => exact .inl ⟨rfl, rfl⟩

/-- After `end`, and unless `detach` was called while there were workers, `join` and the destructor
return and leave no worker in `m_workers`, whenever the workers leave `thread_main`. -/
theorem join_returns (h : lifecycleSystem.Reachable (fun _ _ => True) s) (hcall : s.call ≠ none)
    (hend : s.endFlag = true) (hdet : s.detached = false) (k : ℕ) :
    lifecycleSystem.Inevitable (fun _ _ => True) Action.extra Returned k s := by
  refine System.Inevitable.of_rank State.left (I := fun s =>
    lifecycleSystem.Reachable (fun _ _ => True) s ∧ s.call ≠ none ∧ s.endFlag = true ∧ s.detached = false)
    ?_ ?_ k ⟨h, hcall, hend, hdet⟩
  · rintro s ⟨hr, hcall, hend, hdet⟩
    obtain ⟨a, s', ha, hs⟩ := join_goes_on ((reachable_inv hr).live hdet) hcall hend
    exact ⟨a, s', trivial, ha, hs⟩
  · rintro s a s' ⟨hr, hcall, hend, hdet⟩ - hs
    refine (join_step ((reachable_inv hr).live hdet) (reachable_funcs hr) hcall hs).imp_right ?_
    rintro ⟨⟨hcall', hend', hdet'⟩, hleft⟩
    exact ⟨⟨.step hr trivial hs, hcall', hend' hend, hdet' ▸ hdet⟩, hleft⟩

/-- The destructor waits for a worker. -/
theorem join_returns_destroy : ∃ s, lifecycleSystem.Reachable (fun _ _ => True) s ∧ s.running 0 = true ∧
    lifecycleSystem.Inevitable (fun _ _ => True) Action.extra Returned 2 s := by
  obtain ⟨s, hs, hq⟩ := System.exists_reachable_of_exec (S := lifecycleSystem) (P := fun _ _ => True)
    (s := .init) [.start [none, none], .destroy none]
    (fun s => s.running 0 && s.call != none && s.endFlag && !s.detached) rfl (by decide)
  simp only [Bool.and_eq_true, bne_iff_ne, Bool.not_eq_true'] at hq
  exact ⟨s, hs, hq.1.1.1, join_returns hs hq.1.1.2 hq.1.2 hq.2 2⟩

end Mpio.Wavy.Lifecycle
