import Mpio.Wavy.Loop.Dispatch

/-!
# The stop rule of timers and signals

A loop with timers and signals only, all added before the workers start. `timer_handler` and
`signal_handler` call back and return a bool, which `thread_main` reads after it has caught whatever was
thrown; `false` takes the registration and the slot away, `true` arms the registration again.

`Stage.next` is the rule itself, one source at a time: a call begins, it returns, and the source is
either armed again and may be called once more, or done for good. `life` runs the rule over the notes
that the loop leaves about a source: a call begins, returns, the registration is armed again.

The loop follows the rule (`Tracked`, `reachable_tracked`): the thread that has the token of a source is
the only one that leaves notes about it, and `Matches` says which stage its program counter stands for.
`stop_rule` reads the results off the rule.
-/

namespace Mpio.Wavy.Loop

open Lib

variable {N : ℕ} {s s' : State} {a : Action} {kinds : ℕ → Kind}

/-! ## Handlers -/

/-- How a callback ends. -/
inductive Result
  | ret (cont : Bool)
  | throws
  deriving DecidableEq

/-- `bool cont = false; try { cont = (*h)(e); } catch (...) { }`. -/
def Result.cont : Result → Bool
  | .ret cont => cont
  | .throws => false

structure Timespec where
  tvSec : ℤ
  tvNsec : ℤ
  deriving DecidableEq

/-- A `timer_handler` with the interval it was constructed from, or a `signal_handler`. -/
inductive Source
  | timer (interval : Option Timespec)
  | signal
  deriving DecidableEq

/-- `m_periodic`. -/
def mPeriodic (interval : Option Timespec) : Bool :=
  interval.any fun i => i.tvSec != 0 || i.tvNsec != 0

/-- `operator()`, given how the callback ends. -/
def Source.operatorCall : Source → Result → Result
  | .timer interval, .ret cont => .ret (cont && mPeriodic interval)
  | .signal, .ret cont => .ret cont
  | _, .throws => .throws

def Source.kind : Source → SourceKind
  | .timer _ => .timer
  | .signal => .signal

/-- Whether the source goes on after a callback that returned true. -/
def Source.periodic : Source → Bool
  | .timer interval => mPeriodic interval
  | .signal => true

theorem cont_operatorCall (src : Source) (r : Result) :
    (src.operatorCall r).cont = (r.cont && src.periodic) := by
  cases src <;> cases r <;> simp [Source.operatorCall, Result.cont, Source.periodic]

/-! ## The rule -/

/-- What the loop does for a source. -/
inductive Note
  | began
  | returned (r : Result)
  | rearmed
  deriving DecidableEq

inductive Stage
  | idle
  | running
  | rearming
  | done
  deriving DecidableEq

def Stage.next (src : Source) : Stage → Note → Option Stage
  | .idle, .began => some .running
  | .running, .returned r => some (if (src.operatorCall r).cont then .rearming else .done)
  | .rearming, .rearmed => some .idle
  | _, _ => none

/-- The stage that the notes lead to; `none` when they break the rule. -/
def life (src : Source) (notes : List Note) : Option Stage :=
  notes.foldl (fun stage n => stage.bind (·.next src n)) (some .idle)

theorem life_concat (src : Source) (notes : List Note) (n : Note) :
    life src (notes ++ [n]) = (life src notes).bind (·.next src n) := by
  simp [life, List.foldl_append]

theorem foldl_next_none (src : Source) (notes : List Note) :
    notes.foldl (fun (stage : Option Stage) n => stage.bind (·.next src n)) none = none := by
  induction notes with
  | nil => rfl
  | cons n notes ih => exact ih

theorem life_append {src : Source} {pre post : List Note} {stage : Stage}
    (h : life src (pre ++ post) = some stage) : ∃ stage', life src pre = some stage' ∧
      post.foldl (fun (st : Option Stage) n => st.bind (·.next src n)) (some stage') = some stage := by
  rw [life, List.foldl_append] at h
  cases hpre : life src pre with
  | none =>
    change post.foldl _ (life src pre) = some stage at h
    rw [hpre, foldl_next_none] at h
    cases h
  | some stage' =>
    change post.foldl _ (life src pre) = some stage at h
    rw [hpre] at h
    exact ⟨stage', rfl, h⟩

theorem life_stopped {src : Source} {pre post : List Note} {r : Result} {stage : Stage}
    (h : life src (pre ++ .returned r :: post) = some stage) (hr : (src.operatorCall r).cont = false) :
    post = [] ∧ stage = .done := by
  rw [← List.singleton_append, ← List.append_assoc] at h
  obtain ⟨stage', hpre, hpost⟩ := life_append h
  rw [life_concat] at hpre
  obtain ⟨stage₀, -, hnext⟩ := Option.bind_eq_some_iff.mp hpre
  have hdone : stage' = .done := by
    cases stage₀ <;> simp [Stage.next, hr] at hnext
    exact hnext.symm
  subst hdone
  cases post with
  | nil =>
    simp only [List.foldl_nil, Option.some.injEq] at hpost
    exact ⟨rfl, hpost.symm⟩
  | cons n post =>
    have hnone : Stage.next src .done n = none := by cases n <;> rfl
    rw [List.foldl_cons, Option.bind_some, hnone, foldl_next_none] at hpost
    cases hpost

theorem life_once {src : Source} (hsrc : src.periodic = false) {notes : List Note} {stage : Stage}
    (h : life src notes = some stage) :
    stage ≠ .rearming ∧ notes.count .began = if stage = .idle then 0 else 1 := by
  have hcont : ∀ r, (src.operatorCall r).cont = false := by
    intro r
    rw [cont_operatorCall, hsrc, Bool.and_false]
  induction notes using List.reverseRecOn generalizing stage with
  | nil =>
    obtain rfl := Option.some.inj h
    exact ⟨Stage.noConfusion, rfl⟩
  | append_singleton notes n ih =>
    rw [life_concat] at h
    obtain ⟨stage₀, h₀, hnext⟩ := Option.bind_eq_some_iff.mp h
    obtain ⟨hne, hcount⟩ := ih h₀
    rw [List.count_append, hcount]
    cases stage₀ <;> cases n <;> simp [Stage.next, hcont] at hnext hne <;> subst hnext <;> simp

/-- The call keeps the source. -/
def Note.keeps (src : Source) : Note → Bool
  | .returned r => (src.operatorCall r).cont
  | _ => false

/-- Every call that keeps the source is followed by one re-arming, the last one perhaps not yet. -/
theorem life_rearmed {src : Source} {notes : List Note} {stage : Stage} (h : life src notes = some stage) :
    notes.countP (·.keeps src) = notes.count .rearmed + if stage = .rearming then 1 else 0 := by
  induction notes using List.reverseRecOn generalizing stage with
  | nil =>
    obtain rfl := Option.some.inj h
    rfl
  | append_singleton notes n ih =>
    rw [life_concat] at h
    obtain ⟨stage₀, h₀, hnext⟩ := Option.bind_eq_some_iff.mp h
    have hcount := ih h₀
    rw [List.countP_append, List.count_append, hcount]
    cases stage₀ <;> cases n <;> simp [Stage.next] at hnext
    · subst hnext
      simp [Note.keeps]
    · rename_i r
      cases hr : (src.operatorCall r).cont <;> simp [hr] at hnext <;> subst hnext <;> simp [Note.keeps, hr]
    · subst hnext
      simp [Note.keeps]

/-! ## The loop -/

/-- The steps that a loop with timers and signals only can take, `operator()` apart: their callbacks
have no event to call `more`, `next` or `remove` on. -/
def Action.ordinary : Action → Bool
  | .call _ _ | .run _ _ _ | .wakeup _ | .waitReturns _ _ | .timeout _ | .outDone _ _ | .submit _
  | .endBegin | .endReturn => true
  | _ => false

/-- The steps of a thread. -/
def Action.byThread : Action → Bool
  | .call _ _ | .run _ _ _ | .wakeup _ | .waitReturns _ _ | .timeout _ | .outDone _ _ => true
  | _ => false

/-- The notes that a step leaves: the call of a handler, and `m_kernel.reactivate` after it. -/
def notes (s : State) : Action → List (ℕ × Note)
  | .run t _ _ =>
    match s.pc t with
    | .dispatch ke => (s.slot ke.ident).toList.map fun h => (h, .began)
    | .rearm _ h => [(h, .rearmed)]
    | _ => []
  | _ => []

/-- The loop with its sources. `started` says that a thread has taken a step; it and `trace` are not part
of the program. -/
structure SourceState where
  loop : State
  source : ℕ → Option Source
  started : Bool
  trace : List (ℕ × Note)

/-- `add` is a whole call of `add_timer` or `add_signal`, `callback` the return of a callback. -/
inductive SourceAction
  | add (src : Source) (h i : ℕ)
  | loop (a : Action)
  | callback (t : ℕ) (r : Result)

def sourceStep (N : ℕ) (x : SourceState) : SourceAction → Option SourceState
  | .add src h i =>
    if x.started then none
    else
      -- the constructor registers, set_handler publishes, and the local shared_ptr goes
      (addBegin N x.loop src.kind h i).bind fun s =>
      (addEnd N s src.kind h).bind fun s =>
      (step N s (.dropRef h)).map fun s =>
        { x with loop := s, source := Function.update x.source h (some src) }
  | .loop a =>
    if a.ordinary then
      (step N x.loop a).map fun s =>
        { x with loop := s, started := x.started || a.byThread, trace := x.trace ++ notes x.loop a }
    else none
  | .callback t r =>
    match x.loop.pc t with
    | .running _ h _ =>
      match x.source h with
      | some src =>
        (step N x.loop (.finish t (src.operatorCall r).cont)).map fun s =>
          { x with loop := s, trace := x.trace ++ [(h, .returned r)] }
      | none => none
    | _ => none

def sourceSystem (N : ℕ) (kinds : ℕ → Kind) : System SourceState SourceAction where
  init x := x = ⟨.init kinds, fun _ => none, false, []⟩
  step := sourceStep N

/-- The notes about one source. -/
def notesOf (h : ℕ) (trace : List (ℕ × Note)) : List Note := (trace.filter (·.1 = h)).map (·.2)

@[simp] theorem notesOf_append (h : ℕ) (l l' : List (ℕ × Note)) :
    notesOf h (l ++ l') = notesOf h l ++ notesOf h l' := by
  simp [notesOf]

theorem notesOf_self (h : ℕ) (n : Note) : notesOf h [(h, n)] = [n] := by
  simp [notesOf]

theorem notesOf_other {h h' : ℕ} (hne : h' ≠ h) (n : Note) : notesOf h [(h', n)] = [] := by
  simp [notesOf, hne]

/-! ## One thread has the token -/

theorem held_of_not {p : Pc} (h : p.atHandler = false) : p.held = none := by
  cases p <;> first | rfl | cases h

/-- Where the thread with the token of `h` is. -/
def Stage.At (h : ℕ) : Stage → Pc → Prop
  | .idle, _ => False
  | .running, p => ∃ ke, p = .running ke h ⟨false, false⟩
  | .rearming, p => ∃ ke, p = .rearm ke h
  | .done, p => ∃ ke, p = .drop ke (some h)

theorem Stage.At.held {h : ℕ} {st : Stage} {p : Pc} (hp : st.At h p) : ∃ ke, p.held = some (ke, h) := by
  cases st with
  | idle => exact hp.elim
  | running | rearming | done =>
    obtain ⟨ke, rfl⟩ := hp
    exact ⟨ke, rfl⟩

theorem Stage.At.load {h t : ℕ} {st : Stage} (hp : st.At h (s.pc t)) (ho : Owned N s) (htN : t < N) :
    (s.pc t).load (s.identOf h) = 1 := by
  obtain ⟨ke, hheld⟩ := hp.held
  have hident := ho.ident _ _ (ho.held t htN ke h hheld)
  cases st with
  | idle => exact hp.elim
  | running | rearming | done =>
    obtain ⟨ke', hpc⟩ := hp
    rw [hpc] at hheld ⊢
    obtain ⟨rfl, -⟩ := Prod.mk.inj (Option.some.inj hheld)
    rw [hident, load_of_active rfl]
    simp [Pc.grip]

theorem Stage.At.inj {h : ℕ} {st st' : Stage} {p : Pc} (hp : st.At h p) (hp' : st'.At h p) : st = st' := by
  cases st <;> cases st' <;> simp only [Stage.At] at hp hp'
  all_goals
    obtain ⟨ke, rfl⟩ := hp
    obtain ⟨ke', hp'⟩ := hp'
    first | rfl | cases hp'

theorem sum_load_le (i : ℕ) : ∑ t ∈ Finset.range N, (s.pc t).load i ≤ tokens N s i := by
  have hcount : ∑ t ∈ Finset.range N, (s.pc t).pending.countP (·.ident = i) ≤
      (pending N s).countP (·.ident = i) := by
    unfold pending
    rw [Multiset.countP_add, ← Multiset.coe_countPAddMonoidHom, map_sum]
    exact Nat.le_add_left _ _
  simp only [Pc.load, Finset.sum_add_distrib, tokens]
  omega

theorem Tokens.sole (hT : Tokens N s) {t u i : ℕ} (htN : t < N) (huN : u < N)
    (ht : (s.pc t).load i = 1) (hu : (s.pc u).load i = 1) : t = u := by
  by_contra hne
  have hpair : ({t, u} : Finset ℕ) ⊆ Finset.range N := by
    intro x hx
    rw [Finset.mem_insert, Finset.mem_singleton] at hx
    rw [Finset.mem_range]
    omega
  have hle := Finset.sum_le_sum_of_subset (f := fun x => (s.pc x).load i) hpair
  rw [Finset.sum_pair hne, ht, hu] at hle
  have htotal := hle.trans (sum_load_le i)
  rw [hT i, State.present] at htotal
  split_ifs at htotal <;> omega

/-- What the loop looks like in each stage of `h`. -/
structure Matches (N : ℕ) (s : State) (h : ℕ) (st : Stage) : Prop where
  stopped : s.stopped h = true ↔ st = .done
  idle : st = .idle → ∀ t < N, (s.pc t).held.map (·.2) ≠ some h
  busy : st = .running ∨ st = .rearming → ∃ t < N, st.At h (s.pc t)
  done : st = .done → (∃ t < N, st.At h (s.pc t)) ∨ s.interest (s.identOf h) = none ∧
    ((∃ t < N, ∃ ke, s.pc t = .reset ke (some h)) ∨ s.slot (s.identOf h) = none)

/-- A thread with the token of `h` is where the stage says. -/
theorem Matches.at_of_load {h t : ℕ} {st : Stage} (hm : Matches N s h st) (hl : Ledger N s) (ho : Owned N s)
    (htN : t < N) (ht : (s.pc t).load (s.identOf h) = 1) : st = .idle ∨ st.At h (s.pc t) := by
  have hthread : (∃ u < N, st.At h (s.pc u)) → st.At h (s.pc t) := by
    rintro ⟨u, huN, hu⟩
    rwa [hl.tokens.sole htN huN ht (hu.load ho huN)]
  cases st with
  | idle => exact .inl rfl
  | running => exact .inr (hthread (hm.busy (.inl rfl)))
  | rearming => exact .inr (hthread (hm.busy (.inr rfl)))
  | done =>
    rcases hm.done rfl with hex | ⟨hnone, -⟩
    · exact .inr (hthread hex)
    · have hsome := (hl.tokens.of_load htN ht).1
      rw [hnone] at hsome
      cases hsome

/-- A step that moves no thread into or out of a dispatch of `h`. -/
theorem Matches.frame {h : ℕ} {st : Stage} (hm : Matches N s h st) (hstop : s'.stopped h = s.stopped h)
    (hident : s'.identOf h = s.identOf h)
    (hint : s.interest (s.identOf h) = none → s'.interest (s.identOf h) = none)
    (hslot : s.slot (s.identOf h) = none → s'.slot (s.identOf h) = none)
    (hpc : ∀ t, s'.pc t = s.pc t ∨
      (s.pc t).held.map (·.2) ≠ some h ∧ (s'.pc t).held.map (·.2) ≠ some h) : Matches N s' h st := by
  have hkeep : ∀ t ke, (s.pc t).held = some (ke, h) → s'.pc t = s.pc t := by
    intro t ke hheld
    refine (hpc t).resolve_right fun hne => hne.1 ?_
    rw [hheld]
    rfl
  have hat : (∃ t < N, st.At h (s.pc t)) → ∃ t < N, st.At h (s'.pc t) := by
    rintro ⟨t, htN, ht⟩
    obtain ⟨ke, hheld⟩ := ht.held
    exact ⟨t, htN, by rwa [hkeep t ke hheld]⟩
  refine ⟨by rw [hstop]; exact hm.stopped, ?_, fun hst => hat (hm.busy hst), ?_⟩
  · intro hst t htN
    rcases hpc t with heq | hne
    · rw [heq]
      exact hm.idle hst t htN
    · exact hne.2
  · intro hst
    rw [hident]
    rcases hm.done hst with hex | ⟨hnone, hreset⟩
    · exact .inl (hat hex)
    · refine .inr ⟨hint hnone, ?_⟩
      rcases hreset with ⟨t, htN, ke, ht⟩ | hempty
      · refine .inl ⟨t, htN, ke, ?_⟩
        rw [hkeep t ke (by rw [ht]; rfl), ht]
      · exact .inr (hslot hempty)

theorem Matches.apart {h : ℕ} {st : Stage} (hm : Matches N s h st) (hr : s'.toRegistry = s.toRegistry)
    (hpc : Apart s s') : Matches N s' h st := by
  refine hm.frame (by rw [hr]) (by rw [hr]) (fun hn => by rw [hr]; exact hn)
    (fun hn => by rw [hr]; exact hn) ?_
  intro t
  refine (hpc t).imp_right ?_
  rintro ⟨h₁, h₂⟩
  rw [held_of_not h₁, held_of_not h₂]
  exact ⟨nofun, nofun⟩

/-! ## The steps of a dispatch -/

theorem interest_settle {i h : ℕ} (hn : s.interest i = none) : (settle N h s).interest i = none := by
  rcases settle_cases N h s with heq | ⟨-, -, heq⟩
  · rw [heq, hn]
  · rw [heq]
    show Function.update s.interest (s.identOf h) none i = none
    by_cases hi : i = s.identOf h
    · rw [hi, Function.update_self]
    · rw [Function.update_of_ne hi, hn]

theorem interest_settle? {i : ℕ} {h : Option ℕ} (hn : s.interest i = none) :
    (settle? N h s).interest i = none := by
  cases h with
  | none => exact hn
  | some h => exact interest_settle hn

theorem interest_reactivate {i j : ℕ} (hn : s.interest i = none) : (reactivate s j).interest i = none := by
  show Function.update s.interest j _ i = none
  by_cases hi : i = j
  · rw [hi, Function.update_self, ← hi, hn]
    rfl
  · rw [Function.update_of_ne hi, hn]

theorem interest_removeFd {i j : ℕ} (hn : s.interest i = none) : (removeFd s j).interest i = none := by
  show Function.update s.interest j none i = none
  by_cases hi : i = j
  · rw [hi, Function.update_self]
  · rw [Function.update_of_ne hi, hn]

@[simp] theorem settle_slot (N h : ℕ) (s : State) : (settle N h s).slot = s.slot := by
  unfold settle
  split_ifs <;> rfl

@[simp] theorem settle_stopped (N h : ℕ) (s : State) : (settle N h s).stopped = s.stopped := by
  unfold settle
  split_ifs <;> rfl

@[simp] theorem settle_identOf (N h : ℕ) (s : State) : (settle N h s).identOf = s.identOf := by
  unfold settle
  split_ifs <;> rfl

@[simp] theorem settle?_slot (N : ℕ) (h : Option ℕ) (s : State) : (settle? N h s).slot = s.slot := by
  cases h <;> simp [settle?]

@[simp] theorem settle?_stopped (N : ℕ) (h : Option ℕ) (s : State) :
    (settle? N h s).stopped = s.stopped := by
  cases h <;> simp [settle?]

@[simp] theorem settle?_identOf (N : ℕ) (h : Option ℕ) (s : State) :
    (settle? N h s).identOf = s.identOf := by
  cases h <;> simp [settle?]

theorem interest_resetHandler {i j : ℕ} (hn : s.interest i = none) :
    (resetHandler N j s).interest i = none := interest_settle? hn

theorem slot_resetHandler (i j : ℕ) :
    (resetHandler N j s).slot i = if i = j then none else s.slot i := by
  rw [resetHandler, settle?_slot]
  show Function.update s.slot j none i = _
  split_ifs with hi
  · rw [hi, Function.update_self]
  · rw [Function.update_of_ne hi]

/-- No handler has called back into its event. -/
def Plain (N : ℕ) (s : State) : Prop :=
  ∀ t < N, ∀ ke h flags, s.pc t = .running ke h flags → flags = ⟨false, false⟩

/-- A thread in a dispatch of `h` has its token, unless the source is stopped. -/
theorem at_of_held {h u : ℕ} {ke : Event} (hp : Plain N s) (hl : Ledger N s) (huN : u < N)
    (hheld : (s.pc u).held = some (ke, h)) (hstop : s.stopped h = false) :
    ∃ st : Stage, st.At h (s.pc u) := by
  have horder := hl.filed.threads u huN
  cases hpc : s.pc u with
  | running ke' h' flags =>
    rw [hpc] at hheld
    obtain ⟨rfl, rfl⟩ := Prod.mk.inj (Option.some.inj hheld)
    obtain rfl := hp u huN _ _ _ hpc
    exact ⟨.running, ke', rfl⟩
  | evReset ke' h' flags =>
    rw [hpc] at horder
    exact horder.elim
  | rearm ke' h' =>
    rw [hpc] at hheld
    obtain ⟨rfl, rfl⟩ := Prod.mk.inj (Option.some.inj hheld)
    exact ⟨.rearming, ke', rfl⟩
  | drop ke' x =>
    rw [hpc] at horder hheld
    obtain ⟨h', rfl, -, -⟩ := horder
    obtain ⟨rfl, rfl⟩ := Prod.mk.inj (Option.some.inj hheld)
    exact ⟨.done, ke', rfl⟩
  | reset ke' x =>
    rw [hpc] at horder hheld
    obtain ⟨⟨h', rfl, -, hs⟩, -⟩ := horder
    obtain ⟨rfl, rfl⟩ := Prod.mk.inj (Option.some.inj hheld)
    rw [hstop] at hs
    cases hs
  | _ =>
    rw [hpc] at hheld
    cases hheld

/-- When the thread with the token of `h` leaves, nobody is in a dispatch of `h`. -/
theorem elsewhere_of_token {h t : ℕ} {ke : Event} (hp : Plain N s) (hl : Ledger N s) (ho : Owned N s)
    (htN : t < N) (ht : (s.pc t).load (s.identOf h) = 1) (hstop : s.stopped h = false) {u : ℕ} (huN : u < N)
    (hu : u ≠ t) : (s.pc u).held ≠ some (ke, h) := by
  intro hheld
  obtain ⟨st, hst⟩ := at_of_held hp hl huN hheld hstop
  exact hu (hl.tokens.sole huN htN (hst.load ho huN) ht)

/-- What a step of thread `t` in the dispatch of another handler does to `h`. -/
theorem Matches.other {h t : ℕ} {st : Stage} (hm : Matches N s h st)
    (hstop : s'.stopped h = s.stopped h) (hident : s'.identOf h = s.identOf h)
    (hint : s.interest (s.identOf h) = none → s'.interest (s.identOf h) = none)
    (hslot : s.slot (s.identOf h) = none → s'.slot (s.identOf h) = none)
    (hpc : ∀ u, u ≠ t → s'.pc u = s.pc u) (ht : (s.pc t).held.map (·.2) ≠ some h)
    (ht' : (s'.pc t).held.map (·.2) ≠ some h) : Matches N s' h st := by
  refine hm.frame hstop hident hint hslot ?_
  intro u
  by_cases hu : u = t
  · rw [hu]
    exact .inr ⟨ht, ht'⟩
  · exact .inl (hpc u hu)

/-- The stage of `h` after some notes. -/
def advance (src : Source) (st : Stage) (notes : List Note) : Option Stage :=
  notes.foldl (fun st n => st.bind (·.next src n)) (some st)

theorem life_advance {src : Source} {l l' : List Note} {st st' : Stage} (h : life src l = some st)
    (h' : advance src st l' = some st') : life src (l ++ l') = some st' := by
  rw [life, List.foldl_append]
  change l'.foldl _ (life src l) = some st'
  rw [h]
  exact h'

section dispatch

variable {h t : ℕ} {st : Stage} {src : Source} {ke : Event}

theorem Matches.dispatch {h' : ℕ} (hm : Matches N s h st) (hl : Ledger N s) (ho : Owned N s) (htN : t < N)
    (ht : s.pc t = .dispatch ke) (hslot : s.slot ke.ident = some h') :
    ∃ st', advance src st (notesOf h [(h', .began)]) = some st' ∧
      Matches N ({ s with delivered := (ke.origin, h') :: s.delivered }.setPc t
        (.running ke h' ⟨false, false⟩)) h st' := by
  by_cases hh : h' = h
  · subst hh
    have hident := ho.ident _ _ (ho.slot _ _ hslot)
    have hload : (s.pc t).load (s.identOf h') = 1 := by
      rw [hident, ht, load_single rfl (fun _ => rfl), if_pos rfl]
    -- an event on its way is the token, so the source is idle
    have hidle : st = .idle := by
      rcases hm.at_of_load hl ho htN hload with hidle | hat
      · exact hidle
      · obtain ⟨ke', hheld⟩ := hat.held
        rw [ht] at hheld
        cases hheld
    subst hidle
    refine ⟨.running, by rw [notesOf_self]; rfl, ?_⟩
    refine ⟨hm.stopped.trans ⟨nofun, nofun⟩, nofun, fun _ => ⟨t, htN, ke, ?_⟩, nofun⟩
    exact pc_setPc_self _ _ _
  · refine ⟨st, by rw [notesOf_other hh]; rfl, ?_⟩
    refine hm.other rfl rfl id id (fun u hu => pc_setPc_of_ne hu _ _) (by rw [ht]; nofun) ?_
    rw [pc_setPc_self]
    exact fun heq => hh (Option.some.inj heq)

theorem Matches.rearm {h' : ℕ} (hm : Matches N s h st) (hp : Plain N s) (hl : Ledger N s) (ho : Owned N s)
    (htN : t < N) (ht : s.pc t = .rearm ke h') :
    ∃ st', advance src st (notesOf h [(h', .rearmed)]) = some st' ∧
      Matches N (settle N h' ((reactivate s ke.ident).back t)) h st' := by
  have hback : ((settle N h' ((reactivate s ke.ident).back t)).pc t).held = none := by
    rw [settle_pc, State.back, pc_setPc_self]
    exact held_back _
  by_cases hh : h' = h
  · subst hh
    have hat : Stage.At h' .rearming (s.pc t) := ⟨ke, ht⟩
    have hload := hat.load ho htN
    have hrearming : st = .rearming := by
      rcases hm.at_of_load hl ho htN hload with hidle | hat'
      · exact absurd (by rw [ht]; rfl) (hm.idle hidle t htN)
      · exact hat'.inj hat
    subst hrearming
    have hstop : s.stopped h' = false := by
      rw [← Bool.not_eq_true, hm.stopped]
      exact Stage.noConfusion
    refine ⟨.idle, by rw [notesOf_self]; rfl, ?_, ?_, (by rintro (h | h) <;> cases h), Stage.noConfusion⟩
    · rw [settle_stopped]
      exact hm.stopped.trans (iff_of_false Stage.noConfusion Stage.noConfusion)
    · intro _ u huN heq
      by_cases hu : u = t
      · rw [hu, hback] at heq
        cases heq
      · rw [settle_pc, State.back, pc_setPc_of_ne hu, reactivate_pc] at heq
        obtain ⟨⟨ke', x⟩, hheld, rfl⟩ := Option.map_eq_some_iff.mp heq
        exact elsewhere_of_token hp hl ho htN hload hstop huN hu hheld
  · refine ⟨st, by rw [notesOf_other hh]; rfl, ?_⟩
    refine hm.other (t := t) (by rw [settle_stopped]; rfl) (by rw [settle_identOf]; rfl) ?_ ?_ ?_ ?_ ?_
    · intro hn
      exact interest_settle (interest_reactivate hn)
    · intro hn
      rw [settle_slot]
      exact hn
    · intro u hu
      rw [settle_pc, State.back, pc_setPc_of_ne hu, reactivate_pc]
    · rw [ht]
      exact fun heq => hh (Option.some.inj heq)
    · rw [hback]
      exact (Option.some_ne_none _).symm

theorem Matches.drop {x : Option ℕ} (hm : Matches N s h st) (hl : Ledger N s) (ho : Owned N s) (htN : t < N)
    (ht : s.pc t = .drop ke x) : Matches N ((removeFd s ke.ident).setPc t (.reset ke x)) h st := by
  by_cases hx : x = some h
  · subst hx
    have hident := ho.ident _ _ (ho.held t htN ke h (by rw [ht]; rfl))
    have horder := hl.filed.threads t htN
    rw [ht] at horder
    obtain ⟨h', heq, -, hstop⟩ := horder
    obtain rfl := Option.some.inj heq
    obtain rfl := hm.stopped.mp hstop
    refine ⟨hm.stopped, nofun, (by rintro (h | h) <;> cases h), fun _ => .inr ⟨?_, .inl ⟨t, htN, ke, ?_⟩⟩⟩
    · show Function.update s.interest ke.ident none (s.identOf h) = none
      rw [hident, Function.update_self]
    · exact pc_setPc_self _ _ _
  · have hne : ∀ p : Pc, p = .drop ke x ∨ p = .reset ke x → p.held.map (·.2) ≠ some h := by
      rintro p (rfl | rfl) heq <;> cases x with
      | none => cases heq
      | some h' => exact hx heq
    refine hm.other rfl rfl interest_removeFd id (fun u hu => pc_setPc_of_ne hu _ _) ?_ ?_
    · exact hne _ (.inl ht)
    · rw [pc_setPc_self]
      exact hne _ (.inr rfl)

theorem Matches.reset {x : Option ℕ} (hm : Matches N s h st) (hl : Ledger N s) (ho : Owned N s) (htN : t < N)
    (ht : s.pc t = .reset ke x) : Matches N (settle? N x ((resetHandler N ke.ident s).back t)) h st := by
  have hback : ((settle? N x ((resetHandler N ke.ident s).back t)).pc t).held = none := by
    rw [settle?_pc, State.back, pc_setPc_self]
    exact held_back _
  have hstopped : (settle? N x ((resetHandler N ke.ident s).back t)).stopped = s.stopped := by
    rw [settle?_stopped, back_toRegistry, resetHandler, settle?_stopped]
  have hidentOf : (settle? N x ((resetHandler N ke.ident s).back t)).identOf = s.identOf := by
    rw [settle?_identOf, back_toRegistry, resetHandler, settle?_identOf]
  have hslot : ∀ i, (settle? N x ((resetHandler N ke.ident s).back t)).slot i =
      if i = ke.ident then none else s.slot i := by
    intro i
    rw [settle?_slot, back_toRegistry, slot_resetHandler]
  have hint : ∀ i, s.interest i = none →
      (settle? N x ((resetHandler N ke.ident s).back t)).interest i = none :=
    fun i hn => interest_settle? (interest_resetHandler hn)
  by_cases hx : x = some h
  · subst hx
    have hident := ho.ident _ _ (ho.held t htN ke h (by rw [ht]; rfl))
    have horder := hl.filed.threads t htN
    rw [ht] at horder
    obtain ⟨⟨h', heq, -, hstop⟩, hnone⟩ := horder
    obtain rfl := Option.some.inj heq
    obtain rfl := hm.stopped.mp hstop
    refine ⟨by rw [hstopped]; exact hm.stopped, Stage.noConfusion, (by rintro (h | h) <;> cases h),
      fun _ => .inr ⟨?_, .inr ?_⟩⟩
    · rw [hidentOf, hident]
      exact hint _ hnone
    · rw [hidentOf, hident, hslot, if_pos rfl]
  · refine hm.other (t := t) (by rw [hstopped]) (by rw [hidentOf]) (hint _) ?_ ?_ ?_ ?_
    · intro hn
      rw [hslot]
      split_ifs
      · rfl
      · exact hn
    · intro u hu
      rw [settle?_pc, State.back, pc_setPc_of_ne hu, resetHandler_pc]
    · rw [ht]
      cases x with
      | none => exact (Option.some_ne_none _).symm
      | some h' => exact fun heq => hx heq
    · rw [hback]
      exact (Option.some_ne_none _).symm

theorem Matches.finish {h' : ℕ} {r : Result} {src' : Source} (hm : Matches N s h st) (hl : Ledger N s)
    (ho : Owned N s) (htN : t < N) (ht : s.pc t = .running ke h' ⟨false, false⟩)
    (hsrc : h' = h → src' = src)
    (hf : finishHandler N s t (src'.operatorCall r).cont = some s') :
    ∃ st', advance src st (notesOf h [(h', .returned r)]) = some st' ∧ Matches N s' h st' := by
  have hs' : s' = (s.stop h' (src'.operatorCall r).cont).setPc t
      (if (src'.operatorCall r).cont then .rearm ke h' else .drop ke (some h')) := by
    simp only [finishHandler, ht, Bool.or_self, Bool.false_eq_true, if_false] at hf
    split_ifs at hf ⊢ <;> exact (Option.some.inj hf).symm
  by_cases hh : h' = h
  · subst hh
    obtain rfl := hsrc rfl
    have hat : Stage.At h' .running (s.pc t) := ⟨ke, ht⟩
    have hrunning : st = .running := by
      rcases hm.at_of_load hl ho htN (hat.load ho htN) with hidle | hat'
      · exact absurd (by rw [ht]; rfl) (hm.idle hidle t htN)
      · exact hat'.inj hat
    subst hrunning
    have hstop : s.stopped h' = false := by
      rw [← Bool.not_eq_true, hm.stopped]
      exact Stage.noConfusion
    have hpc : s'.pc t = if (src'.operatorCall r).cont then .rearm ke h' else .drop ke (some h') := by
      rw [hs', pc_setPc_self]
    have hstop' : s'.stopped h' = !(src'.operatorCall r).cont := by
      rw [hs']
      show Function.update s.stopped h' _ h' = _
      rw [Function.update_self, hstop, Bool.false_or]
    rw [notesOf_self]
    cases hcont : (src'.operatorCall r).cont with
    | true =>
      rw [hcont] at hpc hstop'
      refine ⟨.rearming, ?_, ⟨?_, Stage.noConfusion, fun _ => ⟨t, htN, ke, hpc⟩, Stage.noConfusion⟩⟩
      · simp [advance, Stage.next, hcont]
      · rw [hstop']
        exact iff_of_false Bool.false_ne_true Stage.noConfusion
    | false =>
      rw [hcont] at hpc hstop'
      refine ⟨.done, ?_, ⟨?_, Stage.noConfusion, ?_, fun _ => .inl ⟨t, htN, ke, hpc⟩⟩⟩
      · simp [advance, Stage.next, hcont]
      · rw [hstop']
        exact ⟨fun _ => rfl, fun _ => rfl⟩
      · rintro (heq | heq) <;> cases heq
  · refine ⟨st, by rw [notesOf_other hh]; rfl, ?_⟩
    refine hm.other (t := t) ?_ (by rw [hs']; rfl) (by rw [hs']; exact id) (by rw [hs']; exact id) ?_ ?_ ?_
    · rw [hs']
      exact Function.update_of_ne (Ne.symm hh) _ _
    · intro u hu
      rw [hs', pc_setPc_of_ne hu]
      rfl
    · rw [ht]
      exact fun heq => hh (Option.some.inj heq)
    · rw [hs', pc_setPc_self]
      split_ifs <;> exact fun heq => hh (Option.some.inj heq)

end dispatch

/-! ## Every step follows the rule -/

theorem Locked.notes {t k : ℕ} {wake : Option ℕ} (h : Locked N s t s') : notes s (.run t wake k) = [] := by
  have hnil : ∀ p, s.pc t = p → (∀ ke, p ≠ .dispatch ke) → (∀ ke h, p ≠ .rearm ke h) →
      Loop.notes s (.run t wake k) = [] := by
    intro p hp hd hr
    simp only [Loop.notes, hp]
  have hentering : s.Entering t ∨ s.pc t = .nbQueue → Loop.notes s (.run t wake k) = [] := by
    rintro ((h | ⟨h, -⟩) | h) <;> exact hnil _ h nofun nofun
  cases h with
  | leave ht he => exact hentering (.inl ht)
  | waited ht hk => exact hnil _ ht nofun nofun
  | moreEvent ht he hm => exact hentering (.inl ht)
  | outEvent ht ho => exact hentering ht
  | lastTask ht hn => exact hentering ht
  | task ht hn hs => exact hentering ht
  | wait ht he hm hp ho hn => exact hentering (.inl ht)
  | idle ht => exact hentering (ht.imp_left And.left)
  | poll ht he hm hp hn => exact hentering (.inl ht)
  | backlogEvent ht he hp hn hb => exact hentering (.inl ht)
  | relock ht hs hb => exact hnil _ ht nofun nofun
  | retryPoll ht hk => exact hnil _ ht nofun nofun
  | endPoll ht hk he => exact hnil _ ht nofun nofun
  | resign ht hk hp => exact hnil _ ht nofun nofun
  | done ht => exact hnil _ ht nofun nofun
  | flushed ht => exact hnil _ ht nofun nofun

theorem Matches.runs {h t k : ℕ} {wake : Option ℕ} {st : Stage} {src : Source} (hm : Matches N s h st)
    (hp : Plain N s) (hl : Ledger N s) (ho : Owned N s) (htN : t < N)
    (hd : Dispatches N s t (.run t wake k) s') :
    ∃ st', advance src st (notesOf h (notes s (.run t wake k))) = some st' ∧ Matches N s' h st' := by
  cases hd with
  | @rearmOut _ _ ke ht =>
    refine ⟨st, by simp [notes, ht, notesOf, advance], ?_⟩
    refine hm.other (t := t) rfl rfl interest_reactivate id (fun u hu => pc_setPc_of_ne hu _ _) ?_ ?_
    · rw [ht]
      exact (Option.some_ne_none _).symm
    · rw [State.back, pc_setPc_self, held_back]
      exact (Option.some_ne_none _).symm
  | @dispatch _ _ ke h' ht hh =>
    have hn : notes s (.run t wake k) = [(h', .began)] := by simp [notes, ht, hh]
    rw [hn]
    exact hm.dispatch hl ho htN ht hh
  | @dispatchEmpty _ _ ke ht hh =>
    refine ⟨st, by simp [notes, ht, hh, notesOf, advance], ?_⟩
    refine hm.other (t := t) rfl rfl id id (fun u hu => pc_setPc_of_ne hu _ _) ?_ ?_
    · rw [ht]
      exact (Option.some_ne_none _).symm
    · rw [pc_setPc_self]
      exact (Option.some_ne_none _).symm
  | evReset ht =>
    have horder := hl.filed.threads t htN
    rw [ht] at horder
    exact horder.elim
  | @rearm _ _ ke h' ht =>
    have hn : notes s (.run t wake k) = [(h', .rearmed)] := by simp [notes, ht]
    rw [hn]
    exact hm.rearm hp hl ho htN ht
  | drop ht => exact ⟨st, by simp [notes, ht, notesOf, advance], hm.drop hl ho htN ht⟩
  | reset ht => exact ⟨st, by simp [notes, ht, notesOf, advance], hm.reset hl ho htN ht⟩

theorem removing_of_ordinary (h : a.ordinary = true) : a.removing = false := by
  cases a <;> first | rfl | cases h

theorem simple_of_ordinary (h : a.ordinary = true) : a.simple = true := by
  cases a <;> first | rfl | cases h

/-- An ordinary step follows the rule of every source. -/
theorem Matches.step {h : ℕ} {st : Stage} (hm : Matches N s h st) (src : Source) (hp : Plain N s)
    (hl : Ledger N s) (ho : Owned N s) (ha : a.ordinary = true) (hs : Step N s a s') :
    ∃ st', advance src st (notesOf h (notes s a)) = some st' ∧ Matches N s' h st' := by
  cases hs with
  | locked htN hlocked =>
    rw [hlocked.notes]
    exact ⟨st, rfl, hm.apart hlocked.toRegistry hlocked.apart⟩
  | @dispatches t a _ htN hd =>
    have hrun : ∃ wake k, a = .run t wake k := by
      cases hd <;> first | exact ⟨_, _, rfl⟩ | cases ha
    obtain ⟨wake, k, rfl⟩ := hrun
    exact hm.runs hp hl ho htN hd
  | call htN hk ht => exact ⟨st, rfl, hm.apart rfl (apart_call ht)⟩
  | wakeup htN ht | timeout htN ht =>
    exact ⟨st, rfl, hm.apart rfl (apart_setPc (atHandler_of ht rfl) rfl)⟩
  | @waitReturns t idents htN ht hne hnodup harmed =>
    refine ⟨st, rfl, hm.frame rfl rfl ?_ id ?_⟩
    · intro hn
      show (if s.identOf h ∈ idents then (s.interest (s.identOf h)).map _ else s.interest (s.identOf h)) = none
      rw [hn]
      split_ifs <;> rfl
    · intro u
      refine (apart_report ht u).imp_right ?_
      rintro ⟨h₁, h₂⟩
      rw [held_of_not h₁, held_of_not h₂]
      exact ⟨nofun, nofun⟩
  | @outDone t empty htN ht =>
    refine ⟨st, rfl, ?_⟩
    cases empty
    · exact hm.apart rfl (apart_setPc (atHandler_of ht rfl) (atHandler_back _))
    · exact hm.apart rfl (apart_setPc (atHandler_of ht rfl) rfl)
  | more htN ht hf hs => cases ha
  | submit hs => exact ⟨st, rfl, hm.apart hs.toRegistry fun u => hs.apart u⟩
  | endBegin => exact ⟨st, rfl, hm.apart rfl fun u => .inl rfl⟩
  | endReturn he => exact ⟨st, rfl, hm.apart rfl apart_broadcast⟩
  | registers h =>
    cases h <;> cases ha

theorem Plain.apart (hp : Plain N s) (hpc : Apart s s') : Plain N s' := by
  intro t htN ke h flags ht
  rcases hpc t with heq | ⟨hnot, -⟩
  · exact hp t htN ke h flags (heq.symm.trans ht)
  · rw [ht] at hnot
    cases hnot

theorem Plain.moved {t : ℕ} (hp : Plain N s) (hpc : ∀ u, u ≠ t → s'.pc u = s.pc u)
    (ht : ∀ ke h flags, s'.pc t = .running ke h flags → flags = ⟨false, false⟩) : Plain N s' := by
  intro u huN ke h flags hu
  by_cases hut : u = t
  · rw [hut] at hu
    exact ht ke h flags hu
  · exact hp u huN ke h flags ((hpc u hut).symm.trans hu)

theorem not_running_back {t : ℕ} {ke : Event} {h : ℕ} {flags : Flags} (s : State) :
    (s.back t).pc t ≠ .running ke h flags := by
  intro heq
  have hheld := held_back (s.threads t).kind
  rw [State.back, pc_setPc_self] at heq
  rw [heq] at hheld
  cases hheld

theorem Plain.dispatches {t : ℕ} (hp : Plain N s) (hl : Ledger N s) (htN : t < N)
    (ha : a.ordinary = true ∨ ∃ u cont, a = .finish u cont) (hd : Dispatches N s t a s') : Plain N s' := by
  refine hp.moved (fun u hu => hd.pc_of_ne hu) ?_
  intro ke h flags ht
  cases hd with
  | rearmOut => exact absurd ht (not_running_back _)
  | dispatch =>
    rw [pc_setPc_self] at ht
    cases ht
    rfl
  | dispatchEmpty =>
    rw [pc_setPc_self] at ht
    cases ht
  | evReset hev =>
    have horder := hl.filed.threads t htN
    rw [hev] at horder
    exact horder.elim
  | rearm =>
    rw [settle_pc] at ht
    exact absurd ht (not_running_back _)
  | drop =>
    rw [pc_setPc_self] at ht
    cases ht
  | reset =>
    rw [settle?_pc] at ht
    exact absurd ht (not_running_back _)
  | next | evRemove => rcases ha with ha | ⟨u, cont, ha⟩ <;> cases ha
  | finish =>
    rw [settle_pc] at ht
    exact absurd ht (not_running_back _)
  | finishRearm | finishDrop =>
    rw [pc_setPc_self] at ht
    cases ht

theorem Plain.step (hp : Plain N s) (hl : Ledger N s) (ha : a.ordinary = true) (hs : Step N s a s') :
    Plain N s' := by
  cases hs with
  | locked htN hlocked => exact hp.apart hlocked.apart
  | dispatches htN hd => exact hp.dispatches hl htN (.inl ha) hd
  | call htN hk ht => exact hp.apart (apart_call ht)
  | wakeup htN ht | timeout htN ht => exact hp.apart (apart_setPc (atHandler_of ht rfl) rfl)
  | waitReturns htN ht hne hnodup harmed => exact hp.apart (apart_report ht)
  | @outDone t empty htN ht =>
    cases empty
    · exact hp.apart (apart_setPc (atHandler_of ht rfl) (atHandler_back _))
    · exact hp.apart (apart_setPc (atHandler_of ht rfl) rfl)
  | more htN ht hf hs => cases ha
  | submit hs => exact hp.apart fun u => hs.apart u
  | endBegin => exact hp.apart fun u => .inl rfl
  | endReturn he => exact hp.apart apart_broadcast
  | registers h => cases h <;> cases ha

/-- The runs of the loop that the results about tokens are about. -/
def Watches (s : State) (a : Action) : Prop := a.removing = false ∧ lookupReady s a = true

/-- The loop follows the rule of every source. -/
structure Tracked (N : ℕ) (kinds : ℕ → Kind) (x : SourceState) : Prop where
  base : (loopSystem N kinds).Reachable Watches x.loop
  whole : Whole x.loop
  plain : Plain N x.loop
  quiet : x.started = false → x.trace = [] ∧ (∀ h, x.loop.stopped h = false) ∧
    ∀ t, (x.loop.pc t).atHandler = false
  rule : ∀ h src, x.source h = some src → ∃ st, life src (notesOf h x.trace) = some st ∧
    Matches N x.loop h st

theorem Tracked.ledger {x : SourceState} (hx : Tracked N kinds x) : Ledger N x.loop :=
  reachable_ledger hx.base

theorem Tracked.owned {x : SourceState} (hx : Tracked N kinds x) : Owned N x.loop :=
  reachable_owned hx.base

theorem matches_idle {h : ℕ} (hstop : s.stopped h = false) (hpc : ∀ t, (s.pc t).atHandler = false) :
    Matches N s h .idle := by
  refine ⟨?_, ?_, ?_, nofun⟩
  · rw [hstop]
    exact ⟨nofun, nofun⟩
  · intro _ t _
    rw [held_of_not (hpc t)]
    nofun
  · rintro (heq | heq) <;> cases heq

theorem tracked_init (N : ℕ) (kinds : ℕ → Kind) : Tracked N kinds ⟨.init kinds, fun _ => none, false, []⟩ := by
  refine ⟨.init rfl, ?_, ?_, fun _ => ⟨rfl, fun _ => rfl, fun t => atHandler_back (kinds t)⟩, nofun⟩
  · intro h
    by_cases h0 : h = outIdent
    · exact .inr (if_pos h0)
    · exact .inl (if_neg h0)
  · intro t _ ke h flags ht
    have hheld := held_back (kinds t)
    change (kinds t).back = _ at ht
    rw [ht] at hheld
    cases hheld

/-- What a whole call of `add_timer` or `add_signal` leaves as it was. -/
theorem add_frame {src : Source} {h i : ℕ} {s₁ s₂ s₃ : State} (h₁ : addBegin N s src.kind h i = some s₁)
    (h₂ : addEnd N s₁ src.kind h = some s₂) (h₃ : step N s₂ (.dropRef h) = some s₃) :
    s₃.threads = s.threads ∧ s₃.stopped = s.stopped ∧ s₃.add = Function.update s.add h .returned := by
  simp only [step, Option.ite_none_right_eq_some, Option.some.injEq] at h₃
  obtain ⟨-, rfl⟩ := h₃
  cases src with
  | timer interval | signal =>
    simp only [addBegin, addEnd, Source.kind] at h₁ h₂
    obtain ⟨s₀, hc, rfl⟩ := Option.map_eq_some_iff.mp h₁
    obtain ⟨-, -, rfl⟩ := create_cases hc
    simp only [Option.ite_none_right_eq_some, Option.some.injEq] at h₂
    obtain ⟨-, rfl⟩ := h₂
    refine ⟨?_, ?_, ?_⟩
    · simp
    · simp [setAdd, setHandler, addFd]
    · simp [setAdd, setHandler, addFd]

theorem Tracked.add {x x' : SourceState} (hx : Tracked N kinds x) {src : Source} {h i : ℕ}
    (hs : sourceStep N x (.add src h i) = some x') : Tracked N kinds x' := by
  simp only [sourceStep] at hs
  split_ifs at hs with hstarted
  obtain ⟨s₁, h₁, hs⟩ := Option.bind_eq_some_iff.mp hs
  obtain ⟨s₂, h₂, hs⟩ := Option.bind_eq_some_iff.mp hs
  obtain ⟨s₃, h₃, rfl⟩ := Option.map_eq_some_iff.mp hs
  obtain ⟨htrace, hstop, hpc⟩ := hx.quiet (by simpa using hstarted)
  obtain ⟨hthreads, hstopped, hadd⟩ := add_frame h₁ h₂ h₃
  have hpc₃ : ∀ t, s₃.pc t = x.loop.pc t := fun t => by simp only [State.pc, hthreads]
  have hquiet : ∀ t, (s₃.pc t).atHandler = false := fun t => by rw [hpc₃, hpc]
  have hbase₁ : (loopSystem N kinds).Reachable Watches s₁ :=
    .step hx.base (a := .addBegin src.kind h i) ⟨rfl, rfl⟩ h₁
  have hbase₂ : (loopSystem N kinds).Reachable Watches s₂ :=
    .step hbase₁ (a := .addEnd src.kind h) ⟨rfl, rfl⟩ h₂
  refine ⟨.step hbase₂ (a := .dropRef h) ⟨rfl, rfl⟩ h₃, ?_, ?_, ?_, ?_⟩
  · intro h'
    show s₃.add h' = _ ∨ s₃.add h' = _
    rw [hadd]
    by_cases hh : h' = h
    · rw [hh, Function.update_self]
      exact .inr rfl
    · rw [Function.update_of_ne hh]
      exact hx.whole h'
  · intro t _ ke h' flags ht
    have hnot := hquiet t
    change s₃.pc t = _ at ht
    rw [ht] at hnot
    cases hnot
  · intro _
    exact ⟨htrace, fun h' => by rw [hstopped]; exact hstop h', hquiet⟩
  · intro h' src' _
    refine ⟨.idle, ?_, matches_idle (by rw [hstopped]; exact hstop h') hquiet⟩
    rw [htrace]
    rfl

theorem Tracked.loop {x x' : SourceState} (hx : Tracked N kinds x)
    (hs : sourceStep N x (.loop a) = some x') : Tracked N kinds x' := by
  simp only [sourceStep] at hs
  split_ifs at hs with ha
  obtain ⟨s', hstep, rfl⟩ := Option.map_eq_some_iff.mp hs
  have hcases := step_cases hstep
  refine ⟨.step hx.base ⟨removing_of_ordinary ha, hx.whole.lookupReady a⟩ hstep,
    hx.whole.step (simple_of_ordinary ha) hcases, hx.plain.step hx.ledger ha hcases, ?_, ?_⟩
  · -- nothing happens to a source before a thread takes a step
    intro hquiet
    obtain ⟨hstarted, hby⟩ := Bool.or_eq_false_iff.mp hquiet
    obtain ⟨htrace, hstop, hpc⟩ := hx.quiet hstarted
    have hapart : s'.toRegistry = x.loop.toRegistry ∧ Apart x.loop s' ∧ notes x.loop a = [] := by
      cases hcases with
      | submit hs => exact ⟨hs.toRegistry, fun u => hs.apart u, rfl⟩
      | endBegin => exact ⟨rfl, fun u => .inl rfl, rfl⟩
      | endReturn he => exact ⟨rfl, apart_broadcast, rfl⟩
      | dispatches htN hd => cases hd <;> first | (cases ha; done) | cases hby
      | registers h => cases h <;> cases ha
      | more htN ht hf hs => cases ha
      | _ => cases hby
    obtain ⟨hreg, happ, hnotes⟩ := hapart
    refine ⟨by rw [htrace, hnotes]; rfl, fun h => by rw [hreg]; exact hstop h, fun t => ?_⟩
    rcases happ t with heq | ⟨hnot, -⟩
    · show (s'.pc t).atHandler = false
      rw [heq]
      exact hpc t
    · exact hnot
  · intro h src hsrc
    obtain ⟨st, hlife, hm⟩ := hx.rule h src hsrc
    obtain ⟨st', hadv, hm'⟩ := hm.step src hx.plain hx.ledger hx.owned ha hcases
    refine ⟨st', ?_, hm'⟩
    rw [notesOf_append]
    exact life_advance hlife hadv

theorem Tracked.callback {x x' : SourceState} (hx : Tracked N kinds x) {t : ℕ} {r : Result}
    (hs : sourceStep N x (.callback t r) = some x') : Tracked N kinds x' := by
  simp only [sourceStep] at hs
  split at hs
  · rename_i ke h flags ht
    split at hs
    · rename_i src hsrc
      obtain ⟨s', hstep, rfl⟩ := Option.map_eq_some_iff.mp hs
      have hcases := step_cases hstep
      obtain ⟨htN, hfin⟩ : t < N ∧ finishHandler N x.loop t (src.operatorCall r).cont = some s' := by
        simpa only [step, Option.ite_none_right_eq_some] using hstep
      obtain rfl := hx.plain t htN _ _ _ ht
      have hplain : Plain N s' := by
        cases hcases with
        | dispatches htN hd => exact hx.plain.dispatches hx.ledger htN (.inr ⟨_, _, rfl⟩) hd
        | registers h => cases h
      refine ⟨.step hx.base (a := .finish t (src.operatorCall r).cont) ⟨rfl, rfl⟩ hstep,
        hx.whole.step rfl hcases, hplain, ?_, ?_⟩
      · intro hquiet
        have hnot := (hx.quiet hquiet).2.2 t
        rw [ht] at hnot
        cases hnot
      · intro h' src' hsrc'
        obtain ⟨st, hlife, hm⟩ := hx.rule h' src' hsrc'
        have hsame : h = h' → src = src' := by
          rintro rfl
          exact Option.some.inj (hsrc.symm.trans hsrc')
        obtain ⟨st', hadv, hm'⟩ := hm.finish hx.ledger hx.owned htN ht hsame hfin
        refine ⟨st', ?_, hm'⟩
        rw [notesOf_append]
        exact life_advance hlife hadv
    · cases hs
  · cases hs

theorem reachable_tracked {x : SourceState} {P : SourceState → SourceAction → Prop}
    (hx : (sourceSystem N kinds).Reachable P x) : Tracked N kinds x := by
  refine hx.invariant (fun _ h => h ▸ tracked_init N kinds) ?_
  intro x a x' _ hi _ hs
  cases a with
  | add src h i => exact hi.add hs
  | loop a => exact hi.loop hs
  | callback t r => exact hi.callback hs

/-! ## What the rule gives -/

/-- The results about one source: `sole` and `stops` for all of them, `once` for a timer without an
interval, `rearmed` and `rearms` for the others, and `removed` for a source that has stopped. -/
structure ObeysStopRule (N : ℕ) (x : SourceState) (h : ℕ) (src : Source) : Prop where
  sole : ∀ t < N, ∀ u < N, ∀ ke ke' flags flags', x.loop.pc t = .running ke h flags →
    x.loop.pc u = .running ke' h flags' → t = u
  stops : ∀ pre post r, x.trace = pre ++ (h, .returned r) :: post → r.cont = false →
    (h, .began) ∉ post
  once : ∀ interval, src = .timer interval → mPeriodic interval = false →
    x.trace.count (h, .began) ≤ 1
  rearmed : src.periodic = true →
    ∃ st, life src (notesOf h x.trace) = some st ∧
      x.trace.count (h, .returned (.ret true)) =
        x.trace.count (h, .rearmed) + (if st = .rearming then 1 else 0) ∧
      (st = .rearming → ∃ t < N, ∃ ke, x.loop.pc t = .rearm ke h)
  rearms : ∀ t < N, ∀ ke, x.loop.pc t = .rearm ke h → ∃ x', sourceStep N x (.loop (.run t none 0)) = some x' ∧
    x'.loop.armed (x.loop.identOf h) = 1 ∧ x'.trace = x.trace ++ [(h, .rearmed)]
  removed : ∀ r, (h, .returned r) ∈ x.trace → (src.operatorCall r).cont = false →
    x.loop.armed (x.loop.identOf h) = 0 ∧ (∀ ke ∈ pending N x.loop, ke.ident ≠ x.loop.identOf h) ∧
    (x.loop.slot (x.loop.identOf h) = none ∨ ∃ t < N, ∃ ke,
      x.loop.pc t = .drop ke (some h) ∨ x.loop.pc t = .reset ke (some h))

theorem count_notesOf (h : ℕ) (n : Note) (trace : List (ℕ × Note)) :
    (notesOf h trace).count n = trace.count (h, n) := by
  induction trace with
  | nil => rfl
  | cons p trace ih =>
    obtain ⟨h', n'⟩ := p
    rw [← List.singleton_append, notesOf_append, List.count_append, ih, List.count_append]
    congr 1
    by_cases hh : h' = h
    · subst hh
      rw [notesOf_self, List.count_singleton, List.count_singleton]
      simp
    · rw [notesOf_other hh, List.count_singleton]
      simp [hh]

theorem countP_keeps {src : Source} (hsrc : src.periodic = true) (notes : List Note) :
    notes.countP (·.keeps src) = notes.count (.returned (.ret true)) := by
  rw [List.count]
  refine List.countP_congr fun n _ => ?_
  cases n with
  | began | rearmed => simp [Note.keeps]
  | returned r =>
    rw [Note.keeps, cont_operatorCall, hsrc, Bool.and_true]
    cases r with
    | ret cont => cases cont <;> simp [Result.cont]
    | throws => simp [Result.cont]

theorem Matches.no_token {h : ℕ} (hm : Matches N s h .done) (hl : Ledger N s) (ho : Owned N s) :
    s.armed (s.identOf h) = 0 ∧ (pending N s).countP (·.ident = s.identOf h) = 0 := by
  rcases hm.done rfl with ⟨t, htN, ht⟩ | ⟨hnone, -⟩
  · have hload := ht.load ho htN
    obtain ⟨-, harmed, htok⟩ := hl.tokens.of_load htN hload
    obtain ⟨ke, hpc⟩ := ht
    have hgrip : (s.pc t).grip (s.identOf h) = 1 := by
      rw [← load_of_active (by rw [hpc]; rfl)]
      exact hload
    have hsum : (s.pc t).grip (s.identOf h) ≤ ∑ u ∈ Finset.range N, (s.pc u).grip (s.identOf h) :=
      Finset.single_le_sum (f := fun u => (s.pc u).grip (s.identOf h)) (fun _ _ => Nat.zero_le _)
        (Finset.mem_range.mpr htN)
    unfold tokens at htok
    exact ⟨harmed, by omega⟩
  · have htok := hl.tokens (s.identOf h)
    rw [State.present, hnone] at htok
    unfold tokens at htok
    simp only [Option.isSome_none, Bool.false_eq_true, if_false] at htok
    exact ⟨by omega, by omega⟩

theorem Tracked.rearms {x : SourceState} (hx : Tracked N kinds x) {h t : ℕ} {ke : Event} (htN : t < N)
    (ht : x.loop.pc t = .rearm ke h) : ∃ x', sourceStep N x (.loop (.run t none 0)) = some x' ∧
      x'.loop.armed (x.loop.identOf h) = 1 ∧ x'.trace = x.trace ++ [(h, .rearmed)] := by
  have hat : Stage.At h .rearming (x.loop.pc t) := ⟨ke, ht⟩
  have hident := hx.owned.ident _ _ (hx.owned.held t htN ke h (by rw [ht]; rfl))
  obtain ⟨hsome, -, -⟩ := hx.ledger.tokens.of_load htN (hat.load hx.owned htN)
  have hstep : step N x.loop (.run t none 0) =
      some (settle N h ((reactivate x.loop ke.ident).back t)) := by
    simp only [step, if_pos htN, runThread, ht]
  have hnotes : notes x.loop (.run t none 0) = [(h, .rearmed)] := by simp only [notes, ht]
  refine ⟨_, by simp only [sourceStep, Action.ordinary, if_true, hstep, Option.map_some]; rfl, ?_, ?_⟩
  · -- the slot still holds the handler, so nothing is closed
    have hf : Filed N ((reactivate x.loop ke.ident).back t) := (hx.ledger.filed.reactivate _).back
    obtain ⟨f, heq⟩ := settle_eq hf (hx.owned.reactivate _).back h
    show (settle N h ((reactivate x.loop ke.ident).back t)).armed _ = 1
    rw [heq]
    show (reactivate x.loop ke.ident).armed _ = 1
    rw [armed_reactivate, if_pos hident, State.present, ← hident, if_pos hsome]
  · show x.trace ++ notes x.loop (.run t none 0) = _
    rw [hnotes]

/-- Over every run, every timer and every signal obeys the stop rule. -/
theorem stop_rule {x : SourceState} (hx : (sourceSystem N kinds).Reachable (fun _ _ => True) x) {h : ℕ}
    {src : Source} (hsrc : x.source h = some src) : ObeysStopRule N x h src := by
  have ht := reachable_tracked hx
  obtain ⟨st, hlife, hm⟩ := ht.rule h src hsrc
  refine ⟨?_, ?_, ?_, ?_, fun t htN ke hpc => ht.rearms htN hpc, ?_⟩
  · intro t htN u huN ke ke' flags flags' hpt hpu
    obtain rfl := ht.plain t htN _ _ _ hpt
    obtain rfl := ht.plain u huN _ _ _ hpu
    have hat : Stage.At h .running (x.loop.pc t) := ⟨ke, hpt⟩
    have hau : Stage.At h .running (x.loop.pc u) := ⟨ke', hpu⟩
    exact ht.ledger.tokens.sole htN huN (hat.load ht.owned htN) (hau.load ht.owned huN)
  · intro pre post r htrace hr hmem
    have hcont : (src.operatorCall r).cont = false := by rw [cont_operatorCall, hr, Bool.false_and]
    rw [htrace, ← List.singleton_append, notesOf_append, notesOf_append, notesOf_self,
      List.singleton_append] at hlife
    have hnil := (life_stopped hlife hcont).1
    have hcount := count_notesOf h .began post
    rw [hnil, List.count_nil] at hcount
    exact List.count_eq_zero.mp hcount.symm hmem
  · rintro interval rfl hper
    have hcount := (life_once (show Source.periodic (.timer interval) = false from hper) hlife).2
    rw [count_notesOf] at hcount
    rw [hcount]
    split_ifs <;> omega
  · intro hper
    have hcount := life_rearmed hlife
    rw [countP_keeps hper, count_notesOf, count_notesOf] at hcount
    refine ⟨st, hlife, hcount, ?_⟩
    rintro rfl
    obtain ⟨t, htN, ke, hpc⟩ := hm.busy (.inr rfl)
    exact ⟨t, htN, ke, hpc⟩
  · intro r hmem hcont
    obtain ⟨pre, post, htrace⟩ := List.append_of_mem hmem
    rw [htrace, ← List.singleton_append, notesOf_append, notesOf_append, notesOf_self,
      List.singleton_append] at hlife
    obtain ⟨-, rfl⟩ := life_stopped hlife hcont
    obtain ⟨harmed, hpend⟩ := hm.no_token ht.ledger ht.owned
    refine ⟨harmed, fun ke hke heq => ?_, ?_⟩
    · exact (Multiset.countP_eq_zero.mp hpend) ke hke heq
    · rcases hm.done rfl with ⟨t, htN, ke, hpc⟩ | ⟨-, ⟨t, htN, ke, hpc⟩ | hempty⟩
      · exact .inr ⟨t, htN, ke, .inl hpc⟩
      · exact .inr ⟨t, htN, ke, .inr hpc⟩
      · exact .inl hempty

/-- A periodic timer and a signal on two workers: the timer is called twice and stops at the second call,
while the other worker waits in the kernel. -/
theorem stop_rule_twice : ∃ x, (sourceSystem 2 fun _ => .main).Reachable (fun _ _ => True) x ∧
    x.source 1 = some (.timer (some ⟨0, 100⟩)) ∧
    x.trace = [(1, .began), (1, .returned (.ret true)), (1, .rearmed), (1, .began),
      (1, .returned .throws)] ∧
    x.loop.slot 5 = none ∧ x.loop.armed 5 = 0 ∧ ObeysStopRule 2 x 1 (.timer (some ⟨0, 100⟩)) := by
  obtain ⟨x, hx, hq⟩ := System.exists_reachable_of_exec (S := sourceSystem 2 fun _ => .main)
    (P := fun _ _ => True) (s := ⟨.init fun _ => .main, fun _ => none, false, []⟩)
    [.add (.timer (some ⟨0, 100⟩)) 1 5, .add .signal 2 6, .loop (.run 0 none 0),
      .loop (.waitReturns 0 [5]), .loop (.run 0 none 0), .loop (.run 0 none 0), .loop (.run 1 none 0),
      .callback 0 (.ret true), .loop (.run 0 none 0), .loop (.waitReturns 1 [5]), .loop (.run 1 none 0),
      .loop (.run 1 none 0), .loop (.run 0 none 0), .callback 1 .throws, .loop (.run 1 none 0),
      .loop (.run 1 none 0)]
    (fun x => x.source 1 == some (.timer (some ⟨0, 100⟩)) &&
      x.trace == [(1, .began), (1, .returned (.ret true)), (1, .rearmed), (1, .began),
        (1, .returned .throws)] && x.loop.slot 5 == none && x.loop.identOf 1 == 5) rfl (by decide)
  simp only [Bool.and_eq_true, beq_iff_eq] at hq
  obtain ⟨⟨⟨hsrc, htrace⟩, hslot⟩, hident⟩ := hq
  have hrule := stop_rule hx hsrc
  have hmem : (1, Note.returned .throws) ∈ x.trace := by rw [htrace]; decide
  have harmed := (hrule.removed _ hmem rfl).1
  rw [hident] at harmed
  exact ⟨x, hx, hsrc, htrace, hslot, harmed, hrule⟩

end Mpio.Wavy.Loop
