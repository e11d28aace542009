import Mpio.Wavy.Gap

/-!
# Descriptors that are used again

A connection is closed by the destructor of its handler, on the side of the readers. That takes its
descriptor out of the interest set of `out`, and nothing else: the `ctx` at its number keeps what is
queued, and the events already reported stay in `m_queue`. A later connection with the same number can
then send the bytes of the earlier one, or append to a queue that nobody watches.

Here the work of a critical section on the queue is one step, as in `Wavy.Out`, and `SocketInv.isolated`
says when connections are kept apart: a descriptor is closed only while its queue is empty or
`write_event` is about to clear it. `Wavy.Reopen` takes the section apart, since closing needs no mutex,
and shows that its runs come down to the ones here.

Closing at such a moment is invisible to `out`: the registration is gone already, or is the one that
`write_event` removes next. With that one put back (`State.kept`) the steps of the object keep the
invariant of `Wavy.Watch` across closes. `State.live` is what the connection itself was sent and has
queued, and a new connection starts with none of it.
-/

namespace Mpio.Wavy

open Lib

variable {n m : ℕ} {mc : Memcpy} {s s' : State} {act : Action}

/-! ## Connections -/

/-- The object and the descriptors that are open. `lost` says that a commit or a write event on the
connection now at the descriptor got a fatal answer or threw. -/
structure Sockets where
  out : State
  opened : ℕ → Bool
  lost : ℕ → Bool

inductive SocketAction
  | act (a : Action)
  | openFd (fd : ℕ)
  | closeFd (fd : ℕ)

/-- The interest set has no closed descriptor: closing removes it, and `epoll_ctl` fails there. -/
def State.without (s : State) (opened : ℕ → Bool) : State :=
  { s with interest := fun fd => if opened fd then s.interest fd else .absent }

/-- A new connection: its record is empty, and `out` is not told. -/
def State.connected (s : State) (fd : ℕ) : State :=
  { s with
    shut := Function.update s.shut fd false
    wire := Function.update s.wire fd []
    payload := Function.update s.payload fd []
    broken := Function.update s.broken fd false }

/-- Commits are made to open connections, and a write to a closed descriptor fails. -/
def Sockets.admits (c : Sockets) : Action → Bool
  | .write fd .. | .submit fd .. | .commit fd .. => c.opened fd
  | .writeEvent fd as => c.opened fd || answer as == .fails .other
  | _ => true

def Sockets.noted (c : Sockets) (s : State) : Option Entry → Sockets
  | some e => ⟨s, c.opened, Function.update c.lost e.fd
      (c.lost e.fd || e.work.fatal || e.work.outcome != .ok)⟩
  | none => { c with out := s }

def Sockets.step (n m : ℕ) (mc : Memcpy) (c : Sockets) : SocketAction → Option Sockets
  | .act a =>
    if c.admits a then
      (stepOut n m mc c.out a).map fun s => c.noted (s.without c.opened) (enter m mc c.out a)
    else none
  | .openFd fd =>
    if c.opened fd then none
    else some ⟨c.out.connected fd, Function.update c.opened fd true, Function.update c.lost fd false⟩
  | .closeFd fd =>
    if c.opened fd then
      let opened := Function.update c.opened fd false
      some ⟨c.out.without opened, opened, c.lost⟩
    else none

/-- The queue of the descriptor is empty, or the thread in its critical section clears it next. -/
def State.Drained (s : State) (fd : ℕ) : Prop :=
  (s.ctx fd).empty = true ∨ s.cs fd = .remove ∨ s.cs fd = .clear

instance (s : State) (fd : ℕ) : Decidable (s.Drained fd) :=
  inferInstanceAs (Decidable ((s.ctx fd).empty = true ∨ s.cs fd = .remove ∨ s.cs fd = .clear))

/-- The registration that `write_event` is about to remove counts as there. -/
def State.kept (s : State) : State :=
  { s with interest := fun fd => if s.cs fd = .remove then .disabled else s.interest fd }

theorem State.kept_interest_of_ne {fd : ℕ} (h : s.cs fd ≠ .remove) :
    s.kept.interest fd = s.interest fd := if_neg h

theorem State.Drained.tokens_kept {fd : ℕ} (hd : s.Drained fd) (h : WatchInv n s.kept) :
    tokens s.kept fd = 0 := by
  have hinv : FdInv (s.ctx fd) (s.kept.interest fd) (tokens s.kept fd) (s.cs fd) := h.fd fd
  rcases hd with hemp | hst | hst
  · cases hstage : s.cs fd with
    | idle =>
      rw [hstage] at hinv
      rcases hinv with ⟨-, -, ht⟩ | ⟨hne, -, -⟩
      · exact ht
      · rw [hemp] at hne
        cases hne
    | addFd | incr =>
      rw [hstage] at hinv
      rw [hinv.1] at hemp
      cases hemp
    | reactivate =>
      rw [hstage] at hinv
      exact hinv.2.2
    | remove | clear =>
      rw [hstage] at hinv
      exact hinv.2
    | decr =>
      rw [hstage] at hinv
      exact hinv.2.2
  · rw [hst] at hinv
    exact hinv.2
  · rw [hst] at hinv
    exact hinv.2

/-- A drained descriptor is registered only where `write_event` removes it next. -/
theorem State.Drained.absent {fd : ℕ} (hd : s.Drained fd) (h : WatchInv n s.kept)
    (hst : s.cs fd ≠ .remove) : s.interest fd = .absent := by
  have hinv : FdInv (s.ctx fd) (s.kept.interest fd) (tokens s.kept fd) (s.cs fd) := h.fd fd
  rw [State.kept_interest_of_ne hst] at hinv
  cases hstage : s.cs fd with
  | idle =>
    rw [hstage] at hinv
    rcases hinv with ⟨-, hi, -⟩ | ⟨hne, -, -⟩
    · exact hi
    · simp [State.Drained, hne, hstage] at hd
  | addFd | incr | reactivate =>
    rw [hstage] at hinv
    simp [State.Drained, hinv.1, hstage] at hd
  | remove => exact absurd hstage hst
  | clear =>
    rw [hstage] at hinv
    exact hinv.1
  | decr =>
    rw [hstage] at hinv
    exact hinv.2.1

/-- Taking drained descriptors out of the interest set changes nothing. -/
theorem State.kept_without {opened : ℕ → Bool} (h : WatchInv n s.kept)
    (hd : ∀ fd, opened fd = false → s.Drained fd) : (s.without opened).kept = s.kept := by
  have hi : (s.without opened).kept.interest = s.kept.interest := by
    funext fd
    show (if s.cs fd = .remove then Interest.disabled else (s.without opened).interest fd) =
      if s.cs fd = .remove then .disabled else s.interest fd
    split_ifs with hst
    · rfl
    · simp only [State.without]
      split_ifs with ho
      · rfl
      · exact ((hd fd (by simpa using ho)).absent h hst).symm
  exact congrArg (fun i => { s with interest := i }) hi

/-- A registration about to be removed is not armed. -/
def Unarmed (s : State) : Prop := ∀ fd, s.cs fd = .remove → s.interest fd ≠ .armed

theorem enter_kept : enter m mc s.kept act = enter m mc s act := by
  cases act <;> rfl

theorem State.eq_kept {t : State} (ht : t = { s with interest := t.interest })
    (hi : s.kept.interest = t.interest) : some t = some s.kept := by
  rw [ht, ← hi]
  rfl

/-- The steps that ask nothing of a descriptor. -/
def Action.detached : Action → Bool
  | .pollPush | .next | .push .. | .migrate .. | .clearXfer _ | .rewrite _ => true
  | _ => false

/-- They are the same steps whatever the queues, stages and registrations are taken for. -/
theorem stepOut_detached (f : (ℕ → Xfer) × (ℕ → Stage) × (ℕ → Interest) →
      (ℕ → Xfer) × (ℕ → Stage) × (ℕ → Interest)) (ha : act.detached = true)
    (hs : stepOut n m mc s act = some s') :
    let view := fun s : State =>
      let v := f (s.ctx, s.cs, s.interest)
      { s with ctx := v.1, cs := v.2.1, interest := v.2.2 }
    stepOut n m mc (view s) act = some (view s') := by
  intro view
  cases act with
  | pollPush | rewrite =>
    obtain rfl := Option.some.inj hs
    rfl
  | next =>
    cases hq : s.queue with
    | nil => simp [stepOut, enter, hq] at hs
    | cons fd queue =>
      have hq' : (view s).queue = fd :: queue := hq
      simp only [stepOut, enter, hq] at hs
      obtain rfl := Option.some.inj hs
      simp only [stepOut, enter, hq']
      rfl
  | push | migrate | clearXfer =>
    simp only [stepOut, enter] at hs
    split_ifs at hs with hc
    obtain rfl := Option.some.inj hs
    exact if_pos hc
  | _ => cases ha

theorem State.kept_goOn {fd : ℕ} (hs : s.goOn fd = some s') : s.kept.goOn fd = some s'.kept := by
  have hcs : s.kept.cs fd = s.cs fd := rfl
  unfold State.goOn at hs ⊢
  rw [hcs]
  cases hstage : s.cs fd with
  | idle => simp [hstage] at hs
  | addFd | incr | reactivate | remove | clear | decr =>
    rw [hstage] at hs
    obtain rfl := Option.some.inj hs
    refine State.eq_kept rfl ?_
    funext fd'
    by_cases hf : fd' = fd
    · subst hf
      simp [State.kept, hstage]
    · simp [State.kept, Function.update_of_ne hf]

theorem WatchInv.removing (h : WatchInv n s.kept) {e : Entry} (he : enter m mc s act = some e)
    (hfd : e.fd < n) (hidle : s.cs e.fd = .idle) (hst : e.work.stage = .remove) :
    s.interest e.fd = .disabled := by
  have hinv := (h.entered (enter_kept.trans he) hfd hidle).fd e.fd
  simp only [State.entered, Function.update_self, hst] at hinv
  rw [← State.kept_interest_of_ne (by simp [hidle])]
  exact hinv.1

/-- The steps of the object are steps with the registration put back. -/
theorem WatchInv.kept_step (h : WatchInv n s.kept) (hun : Unarmed s)
    (hs : stepOut n m mc s act = some s') : stepOut n m mc s.kept act = some s'.kept := by
  by_cases hd : act.detached = true
  · exact stepOut_detached
      (fun v => (v.1, v.2.1, fun fd => if v.2.1 fd = .remove then .disabled else v.2.2 fd)) hd hs
  rcases he : enter m mc s act with _ | e
  · have he' : enter m mc s.kept act = none := enter_kept.trans he
    unfold stepOut at hs ⊢
    rw [he] at hs
    rw [he']
    cases act with
    | goOn fd =>
      simp only at hs ⊢
      split_ifs at hs ⊢ with hfd
      exact State.kept_goOn hs
    | pollWait fds =>
      simp only [State.pollWait] at hs ⊢
      split_ifs at hs with hc
      obtain rfl := Option.some.inj hs
      obtain ⟨hb, hnd, harmed⟩ := hc
      have hne (fd : ℕ) (hmem : fd ∈ fds) : s.cs fd ≠ .remove := fun hst => hun fd hst (harmed fd hmem)
      have harmed' (fd : ℕ) (hmem : fd ∈ fds) : s.kept.interest fd = .armed :=
        (State.kept_interest_of_ne (hne fd hmem)).trans (harmed fd hmem)
      rw [if_pos ⟨hb, hnd, harmed'⟩]
      refine State.eq_kept rfl ?_
      funext fd
      by_cases hmem : fd ∈ fds
      · simp [State.kept, hmem]
      · simp [State.kept, hmem]
    | write | submit | commit | writeEvent => cases hs
    | _ => exact absurd rfl hd
  · have he' : enter m mc s.kept act = some e := enter_kept.trans he
    unfold stepOut at hs ⊢
    rw [he] at hs
    rw [he']
    simp only at hs ⊢
    split_ifs at hs with hc
    obtain rfl := Option.some.inj hs
    refine (if_pos hc).trans (State.eq_kept rfl ?_)
    funext fd
    by_cases hf : fd = e.fd
    · subst hf
      by_cases hst : e.work.stage = .remove
      · simp [State.kept, State.entered, hst, hc.2.1, h.removing he hc.1 hc.2.1 hst]
      · simp [State.kept, State.entered, hst, hc.2.1]
    · simp [State.kept, State.entered, Function.update_of_ne hf]

theorem Unarmed.step (hun : Unarmed s) (h : WatchInv n s.kept) (hs : stepOut n m mc s act = some s') :
    Unarmed s' := by
  intro fd hst
  cases stepOut_cases hs with
  | @entered e he hfd hidle _ =>
    by_cases hf : fd = e.fd
    · subst hf
      simp only [State.entered, Function.update_self] at hst ⊢
      simp [h.removing he hfd hidle hst]
    · simp only [State.entered, Function.update_of_ne hf] at hst ⊢
      exact hun fd hst
  | @goOn fd' _ hfd hgo =>
    by_cases hf : fd = fd'
    · -- no stage goes on to `remove`
      subst hf
      unfold State.goOn at hgo
      cases hstage : s.cs fd with
      | idle => simp [hstage] at hgo
      | addFd | incr | reactivate | remove | clear | decr =>
        rw [hstage] at hgo
        obtain rfl := Option.some.inj hgo
        simp at hst
    · obtain ⟨-, hcs, hi⟩ := State.goOn_other hgo hf
      rw [hcs] at hst
      rw [hi]
      exact hun fd hst
  | @pollWait fds _ _ _ =>
    show (if fd ∈ fds then Interest.disabled else s.interest fd) ≠ .armed
    split_ifs
    · simp
    · exact hun fd hst
  | pollPush | next | push | migrate | clearXfer | rewrite => exact hun fd hst

theorem State.Drained.step {fd : ℕ} (hd : s.Drained fd) (h : WatchInv n s.kept)
    (hno : ∀ e ∈ enter m mc s act, act.commits = true → e.fd ≠ fd)
    (hs : stepOut n m mc s act = some s') : s'.Drained fd := by
  cases stepOut_cases hs with
  | @entered e he hfd hidle _ =>
    by_cases hf : e.fd = fd
    · -- a write event: but a drained descriptor has none
      subst hf
      cases act with
      | writeEvent fd as =>
        simp only [enter] at he
        split_ifs at he with hmem
        obtain rfl := Option.some.inj he
        have htok : tokens s.kept fd = 0 := hd.tokens_kept h
        have hpos : 0 < s.taken.count fd := List.count_pos_iff.mpr hmem
        have hle : s.taken.count fd ≤ tokens s.kept fd := Nat.le_add_left _ _
        omega
      | write | submit | commit => exact absurd rfl (hno e he rfl)
      | _ => cases he
    · simpa [State.Drained, State.entered, Function.update_of_ne (Ne.symm hf)] using hd
  | @goOn fd' _ hfd hgo =>
    by_cases hf : fd = fd'
    · subst hf
      have hinv : FdInv (s.ctx fd) (s.kept.interest fd) (tokens s.kept fd) (s.cs fd) := h.fd fd
      unfold State.goOn at hgo
      cases hstage : s.cs fd with
      | idle => simp [hstage] at hgo
      | addFd | incr | reactivate =>
        rw [hstage] at hinv
        simp [State.Drained, hinv.1, hstage] at hd
      | remove =>
        rw [hstage] at hgo
        obtain rfl := Option.some.inj hgo
        exact .inr (.inr (Function.update_self fd _ _))
      | clear =>
        rw [hstage] at hgo
        obtain rfl := Option.some.inj hgo
        refine .inl ?_
        simp only [Function.update_self]
        rfl
      | decr =>
        rw [hstage] at hgo hinv
        obtain rfl := Option.some.inj hgo
        exact .inl hinv.1
    · obtain ⟨hctx, hcs, -⟩ := State.goOn_other hgo hf
      simpa [State.Drained, hctx, hcs] using hd
  | pollWait | pollPush | next | push | migrate | clearXfer | rewrite => exact hd

/-! ## The data of a connection -/

/-- What was accepted at a descriptor or is queued there, without what is about to be cleared. -/
def State.live (s : State) (fd : ℕ) : List Item :=
  s.wire fd ++ if s.cs fd = .remove ∨ s.cs fd = .clear then [] else items s.world (s.ctx fd).recs

theorem State.live_congr {fd : ℕ} (hwire : s'.wire fd = s.wire fd) (hcs : s'.cs fd = s.cs fd)
    (hitems : items s'.world (s'.ctx fd).recs = items s.world (s.ctx fd).recs) : s'.live fd = s.live fd := by
  rw [State.live, hwire, hcs, hitems, State.live]

theorem Entry.Cuts.live {e : Entry} (he : e.Cuts s act) (hidle : s.cs e.fd = .idle) :
    (∃ got, got <+: e.payload ∧ (s.entered e).live e.fd <+: s.live e.fd ++ got) ∧
    (e.work.fatal = false → e.work.outcome = .ok → (s.entered e).live e.fd = s.live e.fd ++ e.payload) := by
  have hbefore : s.live e.fd = s.wire e.fd ++ items s.world (s.ctx e.fd).recs := by
    simp [State.live, hidle]
  have hafter : (s.entered e).live e.fd = s.wire e.fd ++ (e.work.log ++
      if e.work.stage = .remove then [] else items s.world e.work.ctx.recs) := by
    simp [State.live, State.entered, he.notClear]
  refine ⟨?_, fun hfatal hok => ?_⟩
  · obtain ⟨got, hgot, hsent⟩ := he.cuts.sent
    refine ⟨got, hgot, ?_⟩
    rw [hafter, hbefore, List.append_assoc, ← hsent, List.prefix_append_right_inj,
      List.prefix_append_right_inj]
    split_ifs
    · exact List.nil_prefix
    · exact List.prefix_rfl
  · rw [hafter, hbefore, List.append_assoc, ← he.cuts.whole hfatal hok]
    split_ifs with hst
    · rw [he.done hst hfatal, items_nil]
    · rfl

theorem State.goOn_holds {fd : ℕ} (hctx : ∀ fd, (s.ctx fd).Holds (s.ctx fd).recs)
    (hs : s.goOn fd = some s') :
    (∀ fd, (s'.ctx fd).Holds (s'.ctx fd).recs) ∧ s'.xfers = s.xfers ∧ s'.payload = s.payload := by
  unfold State.goOn at hs
  cases hstage : s.cs fd with
  | idle => simp [hstage] at hs
  | addFd | incr | reactivate | remove | decr =>
    rw [hstage] at hs
    obtain rfl := Option.some.inj hs
    exact ⟨hctx, rfl, rfl⟩
  | clear =>
    rw [hstage] at hs
    obtain rfl := Option.some.inj hs
    exact ⟨holds_update hctx (hctx fd).clear.1 fd, rfl, rfl⟩

theorem State.live_goOn {fd : ℕ} (hctx : ∀ fd, (s.ctx fd).Holds (s.ctx fd).recs)
    (hs : s.goOn fd = some s') (fd' : ℕ) : s'.live fd' = s.live fd' := by
  have hcl := (hctx fd).clear.1
  unfold State.goOn at hs
  cases hstage : s.cs fd with
  | idle => simp [hstage] at hs
  | addFd | incr | reactivate | remove | clear | decr =>
    rw [hstage] at hs
    obtain rfl := Option.some.inj hs
    by_cases hf : fd' = fd
    · subst hf
      simp [State.live, hstage, hcl.recs_eq]
    · simp [State.live, Function.update_of_ne hf]

/-- A new connection at a drained descriptor finds nothing of the earlier one, except what is about to
be cleared. -/
theorem State.live_connected {fd : ℕ} (hd : s.Drained fd) (hctx : (s.ctx fd).Holds (s.ctx fd).recs) :
    (s.connected fd).live fd = [] := by
  have hwire : (s.connected fd).wire fd = [] := Function.update_self fd _ _
  rw [State.live, hwire, List.nil_append]
  split_ifs with hst
  · rfl
  · have hnil : (s.ctx fd).recs = [] := hctx.empty_iff.mp (Xfer.empty_iff.mp (hd.resolve_right hst))
    exact (congrArg (items s.world) hnil).trans (items_nil _)

theorem State.live_connected_of_ne {fd fd' : ℕ} (hf : fd' ≠ fd) :
    (s.connected fd).live fd' = s.live fd' :=
  State.live_congr (Function.update_of_ne hf _ _) rfl rfl

/-! ## Runs -/

structure SocketInv (n : ℕ) (c : Sockets) : Prop where
  watch : WatchInv n c.out.kept
  unarmed : Unarmed c.out
  drained : ∀ fd, c.opened fd = false → c.out.Drained fd
  ctx : ∀ fd, (c.out.ctx fd).Holds (c.out.ctx fd).recs
  xfers : ∀ k, (c.out.xfers k).Holds (c.out.xfers k).recs
  sent : ∀ fd < n, (c.out.live fd).Sublist (c.out.payload fd)
  whole : ∀ fd < n, c.lost fd = false → c.out.live fd = c.out.payload fd

theorem SocketInv.without {opened : ℕ → Bool} {lost : ℕ → Bool} (h : SocketInv n ⟨s, opened, lost⟩) :
    SocketInv n ⟨s.without opened, opened, lost⟩ := by
  refine ⟨?_, fun fd hst => ?_, h.drained, h.ctx, h.xfers, h.sent, h.whole⟩
  · show WatchInv n (s.without opened).kept
    rw [State.kept_without h.watch h.drained]
    exact h.watch
  · show (if opened fd then s.interest fd else .absent) ≠ .armed
    split_ifs
    · exact h.unarmed fd hst
    · simp

theorem Sockets.opened_of_commits {c : Sockets} {e : Entry} (ha : c.admits act = true)
    (he : enter m mc c.out act = some e) (hc : act.commits = true) : c.opened e.fd = true := by
  cases act with
  | write | submit =>
    obtain rfl := Option.some.inj he
    exact ha
  | commit =>
    simp only [enter] at he
    split_ifs at he
    obtain rfl := Option.some.inj he
    exact ha
  | _ => cases hc

theorem SocketInv.entered {c : Sockets} {e : Entry} (h : SocketInv n c) (he : e.Cuts c.out act)
    (hidle : c.out.cs e.fd = .idle) (hw : WatchInv n (c.out.entered e).kept)
    (hun : Unarmed (c.out.entered e)) (hd : ∀ fd, c.opened fd = false → (c.out.entered e).Drained fd) :
    SocketInv n (c.noted (c.out.entered e) (some e)) := by
  obtain ⟨hcut, hwhole⟩ := he.live hidle
  have hlive {fd : ℕ} (hf : fd ≠ e.fd) : (c.out.entered e).live fd = c.out.live fd := by
    apply State.live_congr <;> simp [State.entered, Function.update_of_ne hf]
  have hpay : (c.out.entered e).payload e.fd = c.out.payload e.fd ++ e.payload := by simp [State.entered]
  have hpay' {fd : ℕ} (hf : fd ≠ e.fd) : (c.out.entered e).payload fd = c.out.payload fd := by
    simp [State.entered, Function.update_of_ne hf]
  refine ⟨hw, hun, hd, fun fd => ?_, he.xfers, fun fd hfd => ?_, fun fd hfd hl => ?_⟩
  · by_cases hf : fd = e.fd
    · subst hf
      simpa [Sockets.noted, State.entered] using he.cuts.holds
    · simpa [Sockets.noted, State.entered, Function.update_of_ne hf] using h.ctx fd
  · show ((c.out.entered e).live fd).Sublist ((c.out.entered e).payload fd)
    by_cases hf : fd = e.fd
    · subst hf
      obtain ⟨got, hgot, hsent⟩ := hcut
      rw [hpay]
      exact hsent.sublist.trans ((h.sent e.fd hfd).append hgot.sublist)
    · rw [hlive hf, hpay' hf]
      exact h.sent fd hfd
  · show (c.out.entered e).live fd = (c.out.entered e).payload fd
    by_cases hf : fd = e.fd
    · subst hf
      simp only [Sockets.noted, Function.update_self, Bool.or_eq_false_iff, bne_eq_false_iff_eq] at hl
      rw [hwhole hl.1.2 hl.2, hpay, h.whole e.fd hfd hl.1.1]
    · simp only [Sockets.noted, Function.update_of_ne hf] at hl
      rw [hlive hf, hpay' hf]
      exact h.whole fd hfd hl

theorem SocketInv.stepOut {c c' : Sockets} {a : Action} (h : SocketInv n c)
    (hcare : a.Small ∧ Unchanged id n c.out a ∧ Intact mc c.out a)
    (hs : c.step n m mc (.act a) = some c') : SocketInv n c' := by
  simp only [Sockets.step] at hs
  split_ifs at hs with ha
  obtain ⟨s', hs', rfl⟩ := Option.map_eq_some_iff.mp hs
  have hw : WatchInv n s'.kept := h.watch.step (h.watch.kept_step h.unarmed hs')
  have hun := h.unarmed.step h.watch hs'
  have hd (fd : ℕ) (ho : c.opened fd = false) : s'.Drained fd := by
    refine (h.drained fd ho).step h.watch (fun e he hc hf => ?_) hs'
    have := Sockets.opened_of_commits ha he hc
    rw [hf, ho] at this
    cases this
  -- a step outside the critical sections leaves the data of every connection as it is
  have hframe (hctx : ∀ fd, (s'.ctx fd).Holds (s'.ctx fd).recs)
      (hxfers : ∀ k, (s'.xfers k).Holds (s'.xfers k).recs) (hpay : s'.payload = c.out.payload)
      (hlive : ∀ fd < n, s'.live fd = c.out.live fd) :
      SocketInv n ⟨s'.without c.opened, c.opened, c.lost⟩ := by
    apply SocketInv.without
    refine ⟨hw, hun, hd, hctx, hxfers, fun fd hfd => ?_, fun fd hfd hl => ?_⟩
    · show (s'.live fd).Sublist (s'.payload fd)
      rw [hlive fd hfd, hpay]
      exact h.sent fd hfd
    · show s'.live fd = s'.payload fd
      rw [hlive fd hfd, hpay]
      exact h.whole fd hfd hl
  rcases he : enter m mc c.out a with _ | e
  · simp only [Sockets.noted]
    obtain ⟨fd, hgo⟩ | hel := stepOut_elsewhere h.xfers hcare.1 he hs'
    · obtain ⟨hctx, hx, hpay⟩ := State.goOn_holds h.ctx hgo
      exact hframe hctx (hx ▸ h.xfers) hpay fun fd _ => State.live_goOn h.ctx hgo fd
    · refine hframe (hel.ctx ▸ h.ctx) hel.xfers hel.payload fun fd hfd => ?_
      have hitems := hel.items hcare.2.1 hfd
      simp only [List.map_id] at hitems
      exact State.live_congr (by rw [hel.wire]) (by rw [hel.cs]) hitems
  · obtain ⟨rfl, hidle⟩ := stepOut_enter he hs'
    have hcuts := enter_cuts h.ctx h.xfers hcare.1 hcare.2.2 he
    exact (h.entered hcuts hidle hw hun hd).without

theorem SocketInv.openFd {c c' : Sockets} {fd : ℕ} (h : SocketInv n c)
    (hs : c.step n m mc (.openFd fd) = some c') : SocketInv n c' := by
  simp only [Sockets.step] at hs
  split_ifs at hs with ho
  obtain rfl := Option.some.inj hs
  have hd := h.drained fd (by simpa using ho)
  have hpay {fd' : ℕ} (hf : fd' ≠ fd) : (c.out.connected fd).payload fd' = c.out.payload fd' :=
    Function.update_of_ne hf _ _
  refine ⟨⟨h.watch.ctxSound, h.watch.xferSound, h.watch.fd, h.watch.watching⟩, h.unarmed,
    fun fd' ho' => ?_, h.ctx, h.xfers, fun fd' hfd' => ?_, fun fd' hfd' hl => ?_⟩
  · by_cases hf : fd' = fd
    · subst hf
      simp at ho'
    · simp only [Function.update_of_ne hf] at ho'
      exact h.drained fd' ho'
  · show ((c.out.connected fd).live fd').Sublist ((c.out.connected fd).payload fd')
    by_cases hf : fd' = fd
    · subst hf
      rw [State.live_connected hd (h.ctx fd')]
      exact List.nil_sublist _
    · rw [State.live_connected_of_ne hf, hpay hf]
      exact h.sent fd' hfd'
  · show (c.out.connected fd).live fd' = (c.out.connected fd).payload fd'
    by_cases hf : fd' = fd
    · subst hf
      rw [State.live_connected hd (h.ctx fd')]
      simp [State.connected]
    · simp only [Function.update_of_ne hf] at hl
      rw [State.live_connected_of_ne hf, hpay hf]
      exact h.whole fd' hfd' hl

theorem SocketInv.closeFd {c c' : Sockets} {fd : ℕ} (h : SocketInv n c) (hd : c.out.Drained fd)
    (hs : c.step n m mc (.closeFd fd) = some c') : SocketInv n c' := by
  simp only [Sockets.step] at hs
  split_ifs at hs with ho
  obtain rfl := Option.some.inj hs
  apply SocketInv.without
  refine ⟨h.watch, h.unarmed, fun fd' ho' => ?_, h.ctx, h.xfers, h.sent, h.whole⟩
  by_cases hf : fd' = fd
  · subst hf
    exact hd
  · simp only [Function.update_of_ne hf] at ho'
    exact h.drained fd' ho'

end Mpio.Wavy
