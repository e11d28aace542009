import Mathlib.Data.Finset.Basic
import Mpio.Lib.Run
import Mpio.Wavy.Connect

/-!
# The kqueue kernel

`wavy_kernel_kqueue.h`. A kqueue is a set of filters, each under an `ident` and a kind. A descriptor's
filter is under its number, a timer's under its xident; a signal's is under the signal's number, and
its xident is the `udata`. All are `EV_ONESHOT`: a filter is gone once its event is delivered, until
`reactivate` puts it back.

`owner` and `signo` of an object are not part of the program: they say for which object a filter was
registered, and which signal an object is for. Objects are numbered in the order of their construction.
That `alloc_xident` answers an xident that is not in use is the subject of `Wavy.Xident`.
-/

namespace Mpio.Wavy.Kqueue

open Lib Connect

inductive Filter
  | read
  | write
  | timer
  | signal
  deriving DecidableEq

/-- A filter, besides its `ident` and its kind. -/
structure Knote where
  data : ℕ
  udata : ℕ
  owner : ℕ
  deriving DecidableEq

/-- The filter that `reactivate` adds for a timer. -/
def Knote.rearmed (note : Knote) : Knote := ⟨note.udata, note.udata, note.owner⟩

/-- `kernel::event`. -/
structure Event where
  kevIdent : ℕ
  filter : Filter
  note : Knote
  deriving DecidableEq

def Event.ident (e : Event) : ℕ := if e.filter = .signal then e.note.udata else e.kevIdent

/-- `MP_WAVY_KERNEL_KQUEUE_XIDENT_MAX`. -/
def xidentMax : ℕ := 256

/-- `kernel::timer` and `kernel::signal`; `none` is `-1`. -/
inductive Obj
  | timer (xident : Option ℕ)
  | signal (xident : Option ℕ) (signo : ℕ)
  deriving DecidableEq

def Obj.xident : Obj → Option ℕ
  | timer xident => xident
  | signal xident _ => xident

/-! ## The times of a timer -/

/-- A time in milliseconds, as `add_timer` computes it in a `time_t`; `none` is an overflow. -/
def msec (t : Timespec) : Option ℕ :=
  if t.tvSec * 1000 < 2 ^ 63 ∧ t.tvSec * 1000 + t.tvNsec / 1000 / 1000 < 2 ^ 63 then
    some (t.tvSec * 1000 + t.tvNsec / 1000 / 1000)
  else none

/-- `data` and `udata` of `add_timer`. -/
def timerData (value interval : Option Timespec) : Option (ℕ × ℕ) := do
  let udata ← interval.elim (some 0) msec
  let data ← value.elim (some udata) msec
  return (data, udata)

/-! ## The kernel -/

structure State where
  filters : ℕ × Filter → Option Knote
  used : Finset ℕ
  objs : ℕ → Option Obj
  born : ℕ
  events : List Event

inductive Action
  | newTimer
  | newSignal
  | addFd (fd : ℕ) (event : Filter) (ok : Bool)
  | removeFd (fd : ℕ) (event : Filter)
  | addTimer (k : ℕ) (value interval : Option Timespec) (xident : Option ℕ) (ok : Bool)
  | removeTimer (ident : ℕ)
  | addSignal (k signo : ℕ) (xident : Option ℕ) (ok : Bool)
  | removeSignal (ident : ℕ)
  | destroy (k : ℕ)
  | deliver (ident : ℕ) (filter : Filter)
  | reactivate (e : Event) (ok : Bool)

namespace State

/-- `set_event` with `EV_ADD | EV_ONESHOT`; `ok` says whether `kevent` succeeds. -/
def add (s : State) (ident : ℕ) (filter : Filter) (note : Knote) (ok : Bool) : State :=
  if ok then { s with filters := Function.update s.filters (ident, filter) (some note) } else s

/-- `set_event` with `EV_DELETE`. -/
def delete (s : State) (ident : ℕ) (filter : Filter) : State :=
  { s with filters := Function.update s.filters (ident, filter) none }

def setObj (s : State) (k : ℕ) (o : Option Obj) : State :=
  { s with objs := Function.update s.objs k o }

def allocXident (s : State) (xident : ℕ) : State := { s with used := insert xident s.used }

def freeXident (s : State) (xident : ℕ) : State := { s with used := s.used.erase xident }

/-- The destructors of `timer` and `signal`. -/
def destroy (s : State) (k : ℕ) : Obj → State
  | .timer none | .signal none _ => s.setObj k none
  | .timer (some xident) => ((s.delete xident .timer).freeXident xident).setObj k none
  | .signal (some xident) _ => ((s.delete xident .signal).freeXident xident).setObj k none

/-- `reactivate`. -/
def reactivate (s : State) (e : Event) (ok : Bool) : State :=
  match e.filter with
  | .read => s.add e.ident .read ⟨0, 0, 0⟩ ok
  | .write => s.add e.ident .write ⟨0, 0, 0⟩ ok
  | .timer => s.add e.ident .timer e.note.rearmed ok
  | .signal => s.add e.kevIdent .signal ⟨0, e.note.udata, e.note.owner⟩ ok

end State

/-- An answer of `alloc_xident`. -/
def Free (fdmax : ℕ) (s : State) (xident : ℕ) : Prop :=
  fdmax ≤ xident ∧ xident < fdmax + xidentMax ∧ xident ∉ s.used

instance (fdmax : ℕ) (s : State) (xident : ℕ) : Decidable (Free fdmax s xident) :=
  inferInstanceAs (Decidable (_ ∧ _))

def step (fdmax : ℕ) (s : State) : Action → Option State
  | .newTimer => some { s.setObj s.born (some (.timer none)) with born := s.born + 1 }
  | .newSignal => some { s.setObj s.born (some (.signal none 0)) with born := s.born + 1 }
  | .addFd fd event ok =>
    if fd < fdmax ∧ (event = .read ∨ event = .write) then some (s.add fd event ⟨0, 0, 0⟩ ok) else none
  | .removeFd fd event => if event = .read ∨ event = .write then some (s.delete fd event) else none
  | .addTimer k value interval xident ok =>
    match s.objs k, xident with
    | some (.timer _), none => some s
    | some (.timer _), some xident =>
      if Free fdmax s xident then
        (timerData value interval).map fun d =>
          let s := (s.allocXident xident).add xident .timer ⟨d.1, d.2, k⟩ ok
          if ok then s.setObj k (some (.timer (some xident))) else s.freeXident xident
      else none
    | _, _ => none
  | .removeTimer ident => some (s.delete ident .timer)
  | .addSignal k signo xident ok =>
    match s.objs k, xident with
    | some (.signal _ _), none => some s
    | some (.signal _ _), some xident =>
      if Free fdmax s xident then
        let s := (s.allocXident xident).add signo .signal ⟨0, xident, k⟩ ok
        some (if ok then s.setObj k (some (.signal (some xident) signo)) else s.freeXident xident)
      else none
    | _, _ => none
  | .removeSignal ident => some (s.delete ident .signal)
  | .destroy k => (s.objs k).map (s.destroy k)
  | .deliver ident filter =>
    (s.filters (ident, filter)).map fun note =>
      { s.delete ident filter with events := ⟨ident, filter, note⟩ :: s.events }
  | .reactivate e ok => if e ∈ s.events then some (s.reactivate e ok) else none

def kqueueSystem (fdmax : ℕ) : System State Action where
  init s := s = ⟨fun _ => none, ∅, fun _ => none, 0, []⟩
  step := step fdmax

/-! ## Filters of live objects -/

/-- The filter is one of a descriptor, or of the live object that it was registered for. -/
def Owned (fdmax : ℕ) (s : State) (ident : ℕ) (filter : Filter) (note : Knote) : Prop :=
  match filter with
  | .read | .write => ident < fdmax
  | .timer => s.objs note.owner = some (.timer (some ident))
  | .signal => s.objs note.owner = some (.signal (some note.udata) ident)

def Matched (fdmax : ℕ) (s : State) : Prop :=
  ∀ ident filter note, s.filters (ident, filter) = some note → Owned fdmax s ident filter note

/-- Object `k` is for a signal whose filter carries its xident, and the xident is not the number of the
signal. -/
def State.lingers (s : State) (k : ℕ) : Bool :=
  match s.objs k with
  | some (.signal (some xident) signo) =>
    xident ≠ signo ∧ (s.filters (signo, .signal)).map Knote.udata = some xident
  | _ => false

/-- An object gets an xident only once; a signal object whose filter lingers is not destroyed; the event of
a timer or a signal is reactivated while its object lives. -/
def Careful (s : State) : Action → Prop
  | .addTimer k _ _ xident ok | .addSignal k _ xident ok =>
    xident.isSome ∧ ok → (s.objs k).bind Obj.xident = none
  | .destroy k => s.lingers k = false
  | .reactivate e ok =>
    ok → e.filter = .timer ∨ e.filter = .signal → (s.objs e.note.owner).isSome
  | _ => True

instance (s : State) : (act : Action) → Decidable (Careful s act)
  | .addTimer .. | .addSignal .. => inferInstanceAs (Decidable (_ → _))
  | .destroy k => inferInstanceAs (Decidable (s.lingers k = false))
  | .reactivate .. => inferInstanceAs (Decidable (_ → _))
  | .newTimer | .newSignal | .addFd .. | .removeFd .. | .removeTimer _ | .removeSignal _ | .deliver .. =>
    inferInstanceAs (Decidable True)

/-! ## The invariant -/

/-- Also: an event that was delivered is of a live object or of one that is gone for good, and live
objects have xidents of their own. -/
structure Inv (fdmax : ℕ) (s : State) : Prop where
  matched : Matched fdmax s
  events : ∀ e ∈ s.events, Owned fdmax s e.kevIdent e.filter e.note ∨
    (e.filter = .timer ∨ e.filter = .signal) ∧ s.objs e.note.owner = none ∧ e.note.owner < s.born
  used : ∀ k o x, s.objs k = some o → o.xident = some x → x ∈ s.used
  range : ∀ x ∈ s.used, fdmax ≤ x
  apart : ∀ k k' o o' x, s.objs k = some o → s.objs k' = some o' → o.xident = some x →
    o'.xident = some x → k = k'
  unborn : ∀ k, s.born ≤ k → s.objs k = none

section

variable {fdmax : ℕ} {s : State} {k x : ℕ} {o : Obj}

theorem Owned.congr {s' : State} {ident : ℕ} {filter : Filter} {note : Knote}
    (h : Owned fdmax s ident filter note)
    (hobj : filter = .timer ∨ filter = .signal → s'.objs note.owner = s.objs note.owner) :
    Owned fdmax s' ident filter note := by
  cases filter with
  | read | write => exact h
  | timer => exact (hobj (.inl rfl)).trans h
  | signal => exact (hobj (.inr rfl)).trans h

theorem Owned.xident {e : Event} (h : Owned fdmax s e.kevIdent e.filter e.note)
    (hf : e.filter = .timer ∨ e.filter = .signal) :
    ∃ o, s.objs e.note.owner = some o ∧ o.xident = some e.ident := by
  obtain ⟨ident, filter, note⟩ := e
  obtain rfl | rfl := hf
  · exact ⟨_, h, rfl⟩
  · exact ⟨_, h, rfl⟩

theorem Owned.owner_ne {e : Event} (h : Owned fdmax s e.kevIdent e.filter e.note)
    (hf : e.filter = .timer ∨ e.filter = .signal) (hk : ∀ o, s.objs k = some o → o.xident = none) :
    e.note.owner ≠ k := by
  rintro rfl
  obtain ⟨o, ho, hx⟩ := h.xident hf
  simp [hk o ho] at hx

theorem Inv.add (h : Inv fdmax s) {ident : ℕ} {filter : Filter} {note : Knote} {ok : Bool}
    (hown : ok = true → Owned fdmax s ident filter note) : Inv fdmax (s.add ident filter note ok) := by
  cases ok with
  | false => exact h
  | true =>
    refine ⟨fun ident' filter' note' hf => ?_, h.events, h.used, h.range, h.apart, h.unborn⟩
    simp only [State.add, if_true] at hf
    by_cases heq : (ident', filter') = (ident, filter)
    · obtain ⟨rfl, rfl⟩ := Prod.mk.inj heq
      rw [Function.update_self] at hf
      obtain rfl := Option.some.inj hf
      exact hown rfl
    · rw [Function.update_of_ne heq] at hf
      exact h.matched _ _ _ hf

theorem State.of_delete {ident ident' : ℕ} {filter filter' : Filter} {note : Knote}
    (h : (s.delete ident filter).filters (ident', filter') = some note) :
    s.filters (ident', filter') = some note ∧ (ident', filter') ≠ (ident, filter) := by
  by_cases heq : (ident', filter') = (ident, filter)
  · rw [heq] at h
    simp [State.delete] at h
  · simp only [State.delete, Function.update_of_ne heq] at h
    exact ⟨h, heq⟩

theorem Inv.delete (h : Inv fdmax s) (ident : ℕ) (filter : Filter) : Inv fdmax (s.delete ident filter) :=
  ⟨fun _ _ _ hf => h.matched _ _ _ (State.of_delete hf).1, h.events, h.used, h.range, h.apart, h.unborn⟩

theorem Inv.setObj (h : Inv fdmax s) {o : Option Obj} {born : ℕ} (hborn : s.born ≤ born) (hkb : k < born)
    (hfree : ∀ ident filter note, s.filters (ident, filter) = some note →
      filter = .timer ∨ filter = .signal → note.owner ≠ k)
    (hevents : ∀ e ∈ s.events, e.filter = .timer ∨ e.filter = .signal → e.note.owner = k → o = none)
    (hused : ∀ o' x, o = some o' → o'.xident = some x → x ∈ s.used)
    (hapart : ∀ k' o' o'' x, k' ≠ k → o = some o' → s.objs k' = some o'' → o'.xident = some x →
      o''.xident ≠ some x) :
    Inv fdmax { s.setObj k o with born := born } := by
  have hother {k' : ℕ} (hk : k' ≠ k) : (s.setObj k o).objs k' = s.objs k' := Function.update_of_ne hk ..
  have hself : (s.setObj k o).objs k = o := Function.update_self ..
  refine ⟨fun ident filter note hf => ?_, fun e he => ?_, fun k' o' x hk' hx => ?_, h.range,
    fun k1 k2 o1 o2 x h1 h2 hx1 hx2 => ?_, fun k' hk' => ?_⟩
  · exact (h.matched _ _ _ hf).congr fun hts => hother (hfree _ _ _ hf hts)
  · by_cases hts : e.filter = .timer ∨ e.filter = .signal
    · by_cases heq : e.note.owner = k
      · refine .inr ⟨hts, ?_, heq ▸ hkb⟩
        show (s.setObj k o).objs e.note.owner = none
        rw [heq, hself]
        exact hevents e he hts heq
      · obtain hown | ⟨-, hdead, hlt⟩ := h.events e he
        · exact .inl (hown.congr fun _ => hother heq)
        · exact .inr ⟨hts, (hother heq).trans hdead, lt_of_lt_of_le hlt hborn⟩
    · obtain hown | ⟨hts', -⟩ := h.events e he
      · exact .inl (hown.congr fun hts' => absurd hts' hts)
      · exact absurd hts' hts
  · by_cases heq : k' = k
    · rw [heq] at hk'
      exact hused o' x (hself ▸ hk') hx
    · exact h.used k' o' x (hother heq ▸ hk') hx
  · by_cases heq1 : k1 = k
    · by_cases heq2 : k2 = k
      · rw [heq1, heq2]
      · rw [heq1] at h1
        exact absurd hx2 (hapart k2 o1 o2 x heq2 (hself ▸ h1) (hother heq2 ▸ h2) hx1)
    · by_cases heq2 : k2 = k
      · rw [heq2] at h2
        exact absurd hx1 (hapart k1 o2 o1 x heq1 (hself ▸ h2) (hother heq1 ▸ h1) hx2)
      · exact h.apart k1 k2 o1 o2 x (hother heq1 ▸ h1) (hother heq2 ▸ h2) hx1 hx2
  · have hk' : born ≤ k' := hk'
    have hne : k' ≠ k := by omega
    exact (hother hne).trans (h.unborn k' (by omega))

theorem Inv.lt_born (h : Inv fdmax s) (hk : s.objs k = some o) : k < s.born := by
  by_contra hge
  simp [h.unborn k (by omega)] at hk

theorem Inv.owner_ne (h : Inv fdmax s) (hk : ∀ o, s.objs k = some o → o.xident = none) (ident : ℕ)
    (filter : Filter) (note : Knote) (hf : s.filters (ident, filter) = some note)
    (hts : filter = .timer ∨ filter = .signal) : note.owner ≠ k :=
  @Owned.owner_ne fdmax s k ⟨ident, filter, note⟩ (h.matched _ _ _ hf) hts hk

theorem Inv.construct (h : Inv fdmax s) (ho : o.xident = none) :
    Inv fdmax { s.setObj s.born (some o) with born := s.born + 1 } := by
  have hnone : s.objs s.born = none := h.unborn _ le_rfl
  have hnever : ∀ o', s.objs s.born = some o' → o'.xident = none := by simp [hnone]
  refine h.setObj (Nat.le_succ _) (Nat.lt_succ_self _) (h.owner_ne hnever) (fun e he hts heq => ?_)
    (fun o' x ho' hx => ?_) (fun k' o' o'' x _ ho' _ hx => ?_)
  · obtain hown | ⟨-, -, hlt⟩ := h.events e he
    · exact absurd heq (hown.owner_ne hts hnever)
    · omega
  · obtain rfl := Option.some.inj ho'
    simp [ho] at hx
  · obtain rfl := Option.some.inj ho'
    simp [ho] at hx

theorem Inv.give (h : Inv fdmax s) {o' : Obj} (hk : s.objs k = some o) (ho : o.xident = none)
    (hx : Free fdmax s x) (ho' : o'.xident = some x) :
    Inv fdmax ((s.allocXident x).setObj k (some o')) := by
  obtain ⟨hmin, -, hnew⟩ := hx
  have hnever : ∀ o1, s.objs k = some o1 → o1.xident = none := by
    intro o1 h1
    rw [hk] at h1
    exact Option.some.inj h1 ▸ ho
  have halloc : Inv fdmax (s.allocXident x) := by
    refine ⟨h.matched, h.events, fun k' o1 x' hk' hx' => ?_, fun x' hx' => ?_, h.apart, h.unborn⟩
    · exact Finset.mem_insert_of_mem (h.used k' o1 x' hk' hx')
    · obtain rfl | hx' := Finset.mem_insert.mp hx'
      · exact hmin
      · exact h.range x' hx'
  refine halloc.setObj le_rfl (h.lt_born hk) (h.owner_ne hnever) (fun e he hts heq => ?_)
    (fun o1 x' h1 hx' => ?_) (fun k' o1 o2 x' _ h1 h2 hx1 hx2 => ?_)
  · obtain hown | ⟨-, hdead, -⟩ := h.events e he
    · exact absurd heq (hown.owner_ne hts hnever)
    · rw [heq, hk] at hdead
      cases hdead
  · obtain rfl := Option.some.inj h1
    obtain rfl := Option.some.inj (ho'.symm.trans hx')
    exact Finset.mem_insert_self ..
  · obtain rfl := Option.some.inj h1
    obtain rfl := Option.some.inj (ho'.symm.trans hx1)
    exact hnew (h.used k' o2 x h2 hx2)

theorem Inv.drop (h : Inv fdmax s) (hk : s.objs k = some o)
    (hfree : ∀ ident filter note, s.filters (ident, filter) = some note →
      filter = .timer ∨ filter = .signal → note.owner ≠ k) : Inv fdmax (s.setObj k none) :=
  h.setObj le_rfl (h.lt_born hk) hfree (fun _ _ _ _ => rfl) (by simp) (by simp)

theorem Inv.freeXident (h : Inv fdmax s) (hx : ∀ k o, s.objs k = some o → o.xident ≠ some x) :
    Inv fdmax (s.freeXident x) := by
  refine ⟨h.matched, h.events, fun k o x' hk hx' => ?_, fun x' hx' => ?_, h.apart, h.unborn⟩
  · refine Finset.mem_erase.mpr ⟨?_, h.used k o x' hk hx'⟩
    rintro rfl
    exact hx k o hk hx'
  · exact h.range x' (Finset.mem_of_mem_erase hx')

theorem Inv.release (h : Inv fdmax s) (hk : s.objs k = some o) (ho : o.xident = some x)
    (hfree : ∀ ident filter note, s.filters (ident, filter) = some note →
      filter = .timer ∨ filter = .signal → note.owner ≠ k) :
    Inv fdmax ((s.freeXident x).setObj k none) := by
  refine (h.drop hk hfree).freeXident fun k' o' hk' hx' => ?_
  by_cases heq : k' = k
  · rw [heq] at hk'
    simp [State.setObj] at hk'
  · have hk' : s.objs k' = some o' := by simpa [State.setObj, Function.update_of_ne heq] using hk'
    exact heq (h.apart k' k o' o x hk' hk hx' ho)

theorem Inv.destroy (h : Inv fdmax s) (hk : s.objs k = some o) (hc : Careful s (.destroy k)) :
    Inv fdmax (s.destroy k o) := by
  have hidle (ho : o.xident = none) : Inv fdmax (s.setObj k none) := by
    refine h.drop hk (h.owner_ne fun o' hk' => ?_)
    rw [hk] at hk'
    exact Option.some.inj hk' ▸ ho
  match o, hk, hidle with
  | .timer none, _, hidle => exact hidle rfl
  | .signal none _, _, hidle => exact hidle rfl
  | .timer (some x), hk, _ =>
    refine (h.delete x .timer).release hk rfl fun ident filter note hf hts => ?_
    obtain ⟨hf, hne⟩ := State.of_delete hf
    have hown := h.matched _ _ _ hf
    rintro rfl
    obtain rfl | rfl := hts
    · have heq : x = ident := by simpa [Owned, hk] using hown
      exact hne (by rw [heq])
    · simp [Owned, hk] at hown
  | .signal (some x) signo, hk, _ =>
    refine (h.delete x .signal).release hk rfl fun ident filter note hf hts => ?_
    obtain ⟨hf, hne⟩ := State.of_delete hf
    have hown := h.matched _ _ _ hf
    rintro rfl
    obtain rfl | rfl := hts
    · simp [Owned, hk] at hown
    · -- the filter of its signal, which carries its xident
      obtain ⟨hudata, rfl⟩ : x = note.udata ∧ signo = ident := by simpa [Owned, hk] using hown
      have hxg : x = signo := by
        rw [hudata]
        simpa [Careful, State.lingers, hk, hf, hudata] using hc
      exact hne (by rw [hxg])

theorem Inv.deliver (h : Inv fdmax s) {ident : ℕ} {filter : Filter} {note : Knote}
    (hf : s.filters (ident, filter) = some note) :
    Inv fdmax { s.delete ident filter with events := ⟨ident, filter, note⟩ :: s.events } := by
  have hdel := h.delete ident filter
  refine ⟨hdel.matched, fun e he => ?_, h.used, h.range, h.apart, h.unborn⟩
  obtain rfl | he := List.mem_cons.mp he
  · exact .inl (h.matched _ _ _ hf)
  · exact h.events e he

theorem Inv.reactivate (h : Inv fdmax s) {e : Event} (he : e ∈ s.events) (ok : Bool)
    (hc : Careful s (.reactivate e ok)) : Inv fdmax (s.reactivate e ok) := by
  have hown (hok : ok = true) : Owned fdmax s e.kevIdent e.filter e.note := by
    obtain hown | ⟨hts, hdead, -⟩ := h.events e he
    · exact hown
    · have halive := hc hok hts
      simp [hdead] at halive
  obtain ⟨ident, filter, note⟩ := e
  cases filter with
  | read | write | timer | signal => exact h.add hown

/-- `add_timer` and `add_signal`: the object gets the xident and its filter, or the xident is given back. -/
theorem Inv.register (h : Inv fdmax s) {o' : Obj} {ident : ℕ} {filter : Filter} {note : Knote} {ok : Bool}
    (hk : s.objs k = some o) (ho : ok = true → o.xident = none) (hx : Free fdmax s x)
    (ho' : o'.xident = some x)
    (hown : Owned fdmax ((s.allocXident x).setObj k (some o')) ident filter note) :
    Inv fdmax (if ok then ((s.allocXident x).add ident filter note ok).setObj k (some o')
      else ((s.allocXident x).add ident filter note ok).freeXident x) := by
  cases ok with
  | true => exact @Inv.add _ _ (h.give hk (ho rfl) hx ho') ident filter note true fun _ => hown
  | false =>
    have hsame : ((s.allocXident x).add ident filter note false).freeXident x = s := by
      simp [State.allocXident, State.add, State.freeXident, Finset.erase_insert hx.2.2]
    rw [if_neg Bool.false_ne_true, hsame]
    exact h

theorem Inv.step (h : Inv fdmax s) {act : Action} {s' : State} (hc : Careful s act)
    (hs : Kqueue.step fdmax s act = some s') : Inv fdmax s' := by
  cases act with
  | newTimer =>
    obtain rfl := Option.some.inj hs
    exact h.construct rfl
  | newSignal =>
    obtain rfl := Option.some.inj hs
    exact h.construct rfl
  | addFd fd event ok =>
    simp only [Kqueue.step] at hs
    split_ifs at hs with hfd
    obtain rfl := Option.some.inj hs
    obtain ⟨hlt, rfl | rfl⟩ := hfd
    · exact h.add fun _ => hlt
    · exact h.add fun _ => hlt
  | removeFd fd event =>
    simp only [Kqueue.step] at hs
    split_ifs at hs
    obtain rfl := Option.some.inj hs
    exact h.delete fd event
  | addTimer k value interval xident ok =>
    simp only [Kqueue.step] at hs
    split at hs
    · obtain rfl := Option.some.inj hs
      exact h
    · rename_i old x hk
      by_cases hx : Free fdmax s x
      · rw [if_pos hx] at hs
        obtain ⟨d, -, rfl⟩ := Option.map_eq_some_iff.mp hs
        have hold (hok : ok = true) : Obj.xident (.timer old) = none := by simpa [hk] using hc ⟨rfl, hok⟩
        exact h.register hk hold hx rfl (by simp [Owned, State.setObj])
      · simp [hx] at hs
    · cases hs
  | removeTimer ident =>
    obtain rfl := Option.some.inj hs
    exact h.delete ident .timer
  | addSignal k signo xident ok =>
    simp only [Kqueue.step] at hs
    split at hs
    · obtain rfl := Option.some.inj hs
      exact h
    · rename_i old signo' x hk
      by_cases hx : Free fdmax s x
      · rw [if_pos hx] at hs
        obtain rfl := Option.some.inj hs
        have hold (hok : ok = true) : Obj.xident (.signal old signo') = none := by
          simpa [hk] using hc ⟨rfl, hok⟩
        exact h.register hk hold hx rfl (by simp [Owned, State.setObj])
      · simp [hx] at hs
    · cases hs
  | removeSignal ident =>
    obtain rfl := Option.some.inj hs
    exact h.delete ident .signal
  | destroy k =>
    obtain ⟨o, hk, rfl⟩ := Option.map_eq_some_iff.mp hs
    exact h.destroy hk hc
  | deliver ident filter =>
    obtain ⟨note, hf, rfl⟩ := Option.map_eq_some_iff.mp hs
    exact h.deliver hf
  | reactivate e ok =>
    simp only [Kqueue.step] at hs
    split_ifs at hs with he
    obtain rfl := Option.some.inj hs
    exact h.reactivate he ok hc

end

/-- In every run whose steps are careful, the filters of timers and signals are those of live objects, and
the event that a filter can deliver carries the xident of the object that it was registered for and of
no other; the events of descriptors carry no object's. -/
theorem filters_match {fdmax : ℕ} {s : State} (hs : (kqueueSystem fdmax).Reachable Careful s) :
    Matched fdmax s ∧ ∀ e : Event, s.filters (e.kevIdent, e.filter) = some e.note →
      (e.filter = .timer ∨ e.filter = .signal →
        ∀ k, (∃ o, s.objs k = some o ∧ o.xident = some e.ident) ↔ k = e.note.owner) ∧
      (e.filter = .read ∨ e.filter = .write → ∀ k o, s.objs k = some o → o.xident ≠ some e.ident) := by
  have hinv : Inv fdmax s := by
    refine hs.invariant ?_ fun s act s' _ h hc hstep => h.step hc hstep
    rintro s rfl
    exact ⟨by simp [Matched], by simp, by simp, by simp, by simp, by simp⟩
  refine ⟨hinv.matched, fun e hf => ?_⟩
  have hown := hinv.matched _ _ _ hf
  refine ⟨fun hts k => ?_, fun hfd k o hk hx => ?_⟩
  · obtain ⟨o, ho, hx⟩ := hown.xident hts
    constructor
    · rintro ⟨o', hk, hx'⟩
      exact hinv.apart k e.note.owner o' o e.ident hk ho hx' hx
    · rintro rfl
      exact ⟨o, ho, hx⟩
  · have hmin : fdmax ≤ e.ident := hinv.range _ (hinv.used k o _ hk hx)
    obtain ⟨ident, filter, note⟩ := e
    have hlt : ident < fdmax := by
      obtain rfl | rfl := hfd
      · exact hown
      · exact hown
    have hident : Event.ident ⟨ident, filter, note⟩ = ident := by
      obtain rfl | rfl := hfd
      · rfl
      · rfl
    omega

/-- A signal is delivered and its object destroyed; a timer gets the xident, and its event goes to it. -/
theorem filters_match_reused : ∃ s, (kqueueSystem 1024).Reachable Careful s ∧
    s.filters (1024, .timer) = some ⟨1000, 0, 1⟩ ∧
    ∀ k, (∃ o, s.objs k = some o ∧ o.xident = some 1024) ↔ k = 1 := by
  have hexec : ((kqueueSystem 1024).exec Careful ⟨fun _ => none, ∅, fun _ => none, 0, []⟩
      [.newSignal, .addSignal 0 15 (some 1024) true, .deliver 15 .signal, .destroy 0, .newTimer,
        .addTimer 1 (some .second) none (some 1024) true]).map
          (fun s => decide (s.filters (1024, .timer) = some ⟨1000, 0, 1⟩)) = some true := by
    decide
  obtain ⟨s, hs, hq⟩ := System.exists_reachable_of_exec _ _ rfl hexec
  have hf := of_decide_eq_true hq
  exact ⟨s, hs, hf, ((filters_match hs).2 ⟨1024, .timer, ⟨1000, 0, 1⟩⟩ hf).1 (.inl rfl)⟩

/-- A signal object that is destroyed before its signal comes leaves the filter. -/
theorem filters_outlive :
    ¬ ∀ fdmax s, (kqueueSystem fdmax).Reachable (fun _ _ => True) s → Matched fdmax s := by
  intro hall
  have hexec : ((kqueueSystem 1024).exec (fun _ _ => True) ⟨fun _ => none, ∅, fun _ => none, 0, []⟩
      [.newSignal, .addSignal 0 15 (some 1024) true, .destroy 0]).map
        (fun s => decide (s.filters (15, .signal) = some ⟨0, 1024, 0⟩ ∧ s.objs 0 = none)) = some true := by
    decide
  obtain ⟨s, hs, hq⟩ := System.exists_reachable_of_exec _ _ rfl hexec
  obtain ⟨hf, hgone⟩ := of_decide_eq_true hq
  have hown : s.objs 0 = some (.signal (some 1024) 15) := hall 1024 s hs 15 .signal ⟨0, 1024, 0⟩ hf
  rw [hgone] at hown
  cases hown

end Mpio.Wavy.Kqueue
