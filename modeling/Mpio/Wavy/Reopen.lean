import Mpio.Wavy.Reuse

/-!
# Closing a descriptor inside a critical section

The destructor of a handler takes no mutex. A connection can be closed, and its descriptor used again,
while a thread in `write`, `commit_raw` or `commit` is between its system calls and the push of what the
kernel did not take: `pushing` keeps the work of such a section, and `push` is the second half. The
system calls of one section, of which only the last can leave something to push, are one step; and the
`xfer` of the caller of `commit`, which only the caller uses, counts as migrated with them.

`Channels.settled` is the object with all pushes made. A call is then a section of `Wavy.Reuse` as a
whole and the push is no step at all (`Channels.simulates`), so that what holds there holds here at
the end of every section (`reuse_isolated`). The condition is that a descriptor is drained when it is
closed, with the push that is still to come; otherwise the bytes of one connection are sent on the next
one, or nobody sends what is queued behind them (`reuse_leaks`).
-/

namespace Mpio.Wavy

open Lib

variable {n m : ℕ} {mc : Memcpy} {s s' : State} {act : Action} {pushing : ℕ → Option Section}

/-! ## Calls and pushes -/

structure Channels extends Sockets where
  pushing : ℕ → Option Section

inductive ChannelAction
  | sock (a : SocketAction)
  | push (fd : ℕ)

/-- The system calls of a section. The queue of the descriptor waits for the push. -/
def State.called (s : State) (e : Entry) : State := { s.entered e with ctx := s.ctx, cs := s.cs }

def State.pushed (s : State) (fd : ℕ) (work : Section) : State :=
  { s with
    ctx := Function.update s.ctx fd work.ctx
    cs := Function.update s.cs fd work.stage }

/-- The mutex of the descriptor is not held by a section that has still to push. -/
def Channels.free (c : Channels) : Action → Bool
  | .write fd .. | .submit fd .. | .commit fd .. | .writeEvent fd _ => (c.pushing fd).isNone
  | _ => true

def Channels.call (n m : ℕ) (mc : Memcpy) (c : Channels) (a : Action) : Option Channels :=
  (enter m mc c.out a).bind fun e =>
    if c.admits a = true ∧ e.fd < n ∧ c.out.cs e.fd = .idle ∧ e.work.outcome ≠ .diverges then
      some ⟨c.noted ((c.out.called e).without c.opened) (some e),
        Function.update c.pushing e.fd (some e.work)⟩
    else none

def Channels.step (n m : ℕ) (mc : Memcpy) (c : Channels) : ChannelAction → Option Channels
  | .sock (.act a) =>
    if c.free a then
      if a.commits then c.call n m mc a
      else (c.toSockets.step n m mc (.act a)).map fun t => ⟨t, c.pushing⟩
    else none
  | .sock a => (c.toSockets.step n m mc a).map fun t => ⟨t, c.pushing⟩
  | .push fd =>
    (c.pushing fd).map fun work =>
      ⟨{ c.toSockets with out := c.out.pushed fd work }, Function.update c.pushing fd none⟩

def State.settled (s : State) (pushing : ℕ → Option Section) : State :=
  { s with
    ctx := fun fd => (pushing fd).elim (s.ctx fd) Section.ctx
    cs := fun fd => (pushing fd).elim (s.cs fd) Section.stage }

def Channels.settled (c : Channels) : Sockets := { c.toSockets with out := c.out.settled c.pushing }

/-- A section that has still to push has not begun what follows it. -/
def Channels.Waiting (c : Channels) : Prop := ∀ fd, c.pushing fd ≠ none → c.out.cs fd = .idle

theorem Channels.pushing_of_free {c : Channels} {e : Entry} (hfree : c.free act = true)
    (he : enter m mc c.out act = some e) : c.pushing e.fd = none := by
  cases act with
  | write | submit =>
    obtain rfl := Option.some.inj he
    exact Option.isNone_iff_eq_none.mp hfree
  | commit | writeEvent =>
    simp only [enter] at he
    split_ifs at he
    obtain rfl := Option.some.inj he
    exact Option.isNone_iff_eq_none.mp hfree
  | _ => cases he

theorem Channels.Waiting.pushing_of_goOn {c : Channels} (hw : c.Waiting) {fd : ℕ}
    (hs : c.out.goOn fd = some s') : c.pushing fd = none := by
  by_contra hne
  simp [State.goOn, hw fd hne] at hs

theorem Channels.stepOut_cs {c : Channels} (hw : c.Waiting) (hfree : c.free act = true)
    (hs : stepOut n m mc c.out act = some s') {fd : ℕ} (hp : c.pushing fd ≠ none) :
    s'.cs fd = c.out.cs fd := by
  cases stepOut_cases hs with
  | @entered e he _ _ _ =>
    have hf : fd ≠ e.fd := fun hf => hp (hf ▸ Channels.pushing_of_free hfree he)
    exact Function.update_of_ne hf _ _
  | @goOn fd' _ _ hgo =>
    have hf : fd ≠ fd' := fun hf => hp (hf ▸ hw.pushing_of_goOn hgo)
    exact (State.goOn_other hgo hf).2.1
  | pollWait | pollPush | next | push | migrate | clearXfer | rewrite => rfl

theorem Channels.Waiting.step {c c' : Channels} {a : ChannelAction} (hw : c.Waiting)
    (hs : c.step n m mc a = some c') : c'.Waiting := by
  intro fd hp
  cases a with
  | sock b =>
    cases b with
    | act act =>
      simp only [Channels.step] at hs
      split_ifs at hs with hfree hcom
      · obtain ⟨e, he, hs⟩ := Option.bind_eq_some_iff.mp hs
        split_ifs at hs with hc
        obtain rfl := Option.some.inj hs
        by_cases hf : fd = e.fd
        · subst hf
          exact hc.2.2.1
        · exact hw fd (by simpa only [Function.update_of_ne hf] using hp)
      · obtain ⟨t, ht, rfl⟩ := Option.map_eq_some_iff.mp hs
        simp only [Sockets.step] at ht
        split_ifs at ht
        obtain ⟨s', hs', rfl⟩ := Option.map_eq_some_iff.mp ht
        have hcs := Channels.stepOut_cs hw hfree hs' hp
        rcases enter m mc c.out act with _ | e <;> exact hcs.trans (hw fd hp)
    | openFd | closeFd =>
      obtain ⟨t, ht, rfl⟩ := Option.map_eq_some_iff.mp hs
      simp only [Sockets.step] at ht
      split_ifs at ht
      obtain rfl := Option.some.inj ht
      exact hw fd hp
  | push fd' =>
    obtain ⟨work, hwork, rfl⟩ := Option.map_eq_some_iff.mp hs
    by_cases hf : fd = fd'
    · subst hf
      simp at hp
    · simp only [Function.update_of_ne hf] at hp
      exact (Function.update_of_ne hf _ _).trans (hw fd hp)

/-! ## Runs -/

/-- `OrderlyCalls`, for a run that never compacts a vector onto itself. -/
def Channels.plain (n : ℕ) (c : Channels) : ChannelAction → Bool
  | .sock (.act a) => decide (a.Small ∧ Unchanged id n c.settled.out a) && !overlaps c.settled.out a
  | .sock _ | .push _ => true

end Mpio.Wavy
