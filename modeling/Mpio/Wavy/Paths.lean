import Mpio.Wavy.Refinement

/-!
# The three ways to submit a buffer

`loop::write(fd, buf, size)` has a fast path of its own, `loop::write(fd, buf, size, NULL, NULL)` goes
through `commit_raw`, and `loop::commit` through `xfer::try_write`. What a submission and the write
events after it do to one descriptor is followed on a `Line`: its queue, what was accepted, whether it
is registered for writing, `m_watching`, and whether its read side has been shut down since. A `Line`
is what the whole object shows of a descriptor between two critical sections (`line_finish`).

`Submits` says in one way what each of the three does, on lists of records; they differ in the bool
`shuts`, which is false for `commit_raw`: it calls `execute` itself and never shuts the descriptor
down. `Alike` is kept by every later write event, since a `NULL` finalizer at the end of the queue is
passed without a trace (`execRecs_append_null`). `paths_agree_iff` puts this together.
-/

namespace Mpio.Wavy

open Lib

variable {w : World} {mc : Memcpy} {as : List Answer}

/-! ## One descriptor -/

/-- What is seen of a descriptor between critical sections. -/
structure Line where
  ctx : Xfer
  log : List Item
  watching : ℤ
  registered : Bool
  shut : Bool

/-- A critical section from its work on the queue to its end. -/
def Line.settle (l : Line) (work : Section) : Line :=
  match work.stage with
  | .addFd => ⟨work.ctx, l.log ++ work.log, l.watching + 1, true, l.shut || work.shut⟩
  | .remove => ⟨work.ctx.clear.1, l.log ++ work.log, l.watching - 1, false, l.shut || work.shut⟩
  | _ => ⟨work.ctx, l.log ++ work.log, l.watching, l.registered, l.shut || work.shut⟩

/-- A write event; there is none unless the descriptor is registered. -/
def Line.event (w : World) (mc : Memcpy) (l : Line) (as : List Answer) : Line :=
  if l.registered then l.settle (out.writeEvent w mc l.ctx as) else l

/-- Write events one after the other, each with the kernel's answers. -/
def Line.events (w : World) (mc : Memcpy) (l : Line) (ass : List (List Answer)) : Line :=
  ass.foldl (Line.event w mc) l

def State.line (s : State) (fd : ℕ) : Line :=
  ⟨s.ctx fd, s.wire fd, s.watching, s.interest fd != .absent, s.shut fd⟩

/-- The thread in the critical section of `fd`, if there is one, goes on. -/
def State.go (s : State) (fd : ℕ) : State := (s.goOn fd).getD s

/-- It goes on to its end, which takes at most three steps. -/
def State.finish (s : State) (fd : ℕ) : State := ((s.go fd).go fd).go fd

/-- What a step inside a critical section does to the line. -/
def Line.go (l : Line) : Stage → Stage × Line
  | .idle | .reactivate => (.idle, l)
  | .addFd => (.incr, { l with registered := true })
  | .incr => (.idle, { l with watching := l.watching + 1 })
  | .remove => (.clear, { l with registered := false })
  | .clear => (.decr, { l with ctx := l.ctx.clear.1 })
  | .decr => (.idle, { l with watching := l.watching - 1 })

theorem line_go (s : State) (fd : ℕ) :
    ((s.go fd).cs fd, (s.go fd).line fd) = (s.line fd).go (s.cs fd) := by
  unfold State.go State.goOn
  cases hcs : s.cs fd with
  | idle => simp [Line.go, hcs]
  | incr | remove | clear | decr => simp [Line.go, State.line]
  | addFd => by_cases hi : s.interest fd = .absent <;> simp [Line.go, State.line, hi]
  | reactivate =>
    rcases hi : s.interest fd with _ | _ | _
    · simp [Line.go, State.line, hi]
    · simp [Line.go, State.line, hi]
    · simp [Line.go, State.line, hi]
      rfl

/-- In the whole object, a critical section does to the line of its descriptor what `settle` says. -/
theorem line_finish {s : State} {e : Entry} (hincr : e.work.stage ≠ .incr)
    (hclear : e.work.stage ≠ .clear) (hdecr : e.work.stage ≠ .decr) :
    ((s.entered e).finish e.fd).cs e.fd = .idle ∧
    ((s.entered e).finish e.fd).line e.fd = (s.line e.fd).settle e.work := by
  have hcs : (s.entered e).cs e.fd = e.work.stage := by simp [State.entered]
  have hline : (s.entered e).line e.fd =
      ⟨e.work.ctx, (s.line e.fd).log ++ e.work.log, s.watching, (s.line e.fd).registered,
        (s.line e.fd).shut || e.work.shut⟩ := by simp [State.line, State.entered]
  have hgo_cs (x : State) : (x.go e.fd).cs e.fd = ((x.line e.fd).go (x.cs e.fd)).1 :=
    (Prod.mk.inj (line_go x e.fd)).1
  have hgo_line (x : State) : (x.go e.fd).line e.fd = ((x.line e.fd).go (x.cs e.fd)).2 :=
    (Prod.mk.inj (line_go x e.fd)).2
  cases hst : e.work.stage with
  | idle | addFd | reactivate | remove =>
    rw [hst] at hcs
    simp only [State.finish, hgo_cs, hgo_line, hcs, hline, Line.go, Line.settle, hst]
    exact ⟨trivial, rfl⟩
  | incr => exact absurd hst hincr
  | clear => exact absurd hst hclear
  | decr => exact absurd hst hdecr

/-! ## A finalizer that is not called -/

/-- Nothing, or the record of a `NULL` finalizer. -/
def NullTail (t : List Rec) : Prop := t = [] ∨ t = [.finalize 0 0]

/-- `t` behind a queue; a queue that is worked off takes it along. -/
def closing (rs t : List Rec) : List Rec := if rs = [] then [] else rs ++ t

@[simp] theorem closing_nil (t : List Rec) : closing [] t = [] := rfl

@[simp] theorem closing_cons (r : Rec) (rs t : List Rec) : closing (r :: rs) t = r :: rs ++ t := rfl

theorem closing_eq_nil (rs t : List Rec) : closing rs t = [] ↔ rs = [] := by
  cases rs <;> simp

theorem execRecs_append_null {t : List Rec} (ht : NullTail t) (w : World) (rs : List Rec)
    (as : List Answer) :
    execRecs w (rs ++ t) as =
      { execRecs w rs as with recs := closing (execRecs w rs as).recs t } := by
  have hafter (log : List Item) (calls : List (ℕ × Answer)) (r : Progress) (l : List Rec) :
      Progress.after log calls { r with recs := l } = { Progress.after log calls r with recs := l } := rfl
  fun_induction execRecs w rs as with
  | case1 as =>
    rcases ht with rfl | rfl
    · rfl
    · rfl
  | case2 infd off len rs as a call h0 =>
    simp only [List.cons_append, execRecs, closing_cons]
    rw [if_pos h0]
  | case3 infd off len rs as a call sent h0 hlt wl =>
    simp only [List.cons_append, execRecs, closing_cons]
    rw [if_neg h0, if_pos hlt]
  | case4 infd off len rs as a call sent h0 hge ih =>
    simp only [List.cons_append, execRecs]
    rw [if_neg h0, if_neg hge, ih, hafter]
    rfl
  | case5 fin user rs as ih =>
    simp only [List.cons_append, execRecs]
    rw [ih, hafter]
    rfl
  | case6 vec rs as a call h0 =>
    simp only [List.cons_append, execRecs, closing_cons]
    rw [if_pos h0]
  | case7 vec rs as a call sent h0 i wl hstop =>
    simp only [List.cons_append, execRecs, closing_cons]
    rw [if_neg h0, hstop]
  | case8 vec rs as a call sent h0 hstop ih =>
    simp only [List.cons_append, execRecs]
    rw [if_neg h0, hstop, ih, hafter]
    rfl

theorem overlapAt_append_null {t : List Rec} (ht : NullTail t) (p : ℕ) (rs : List Rec)
    (as : List Answer) : overlapAt p (rs ++ t) as = overlapAt p rs as := by
  induction rs generalizing p as with
  | nil =>
    rcases ht with rfl | rfl
    · rfl
    · rfl
  | cons r rs ih =>
    cases r with
    | sendfile infd off len => simp only [List.cons_append, overlapAt, ih]
    | finalize fin user => simp only [List.cons_append, overlapAt, ih]
    | iovec vec => simp only [List.cons_append, overlapAt, ih]

/-! ## Submissions -/

/-- What a submission of the records `new` does to a queue that holds `rs`: behind other records they
are only queued, and otherwise sent as far as possible; what is left is queued, or dropped after a
fatal answer. `shuts` says whether the descriptor is then shut down. -/
structure Section.Submits (w : World) (rs new : List Rec) (as : List Answer) (shuts : Bool)
    (work : Section) : Prop where
  behind : rs ≠ [] → work.log = [] ∧ work.ctx.Holds (rs ++ new) ∧ work.stage = .idle ∧ work.shut = false
  log : rs = [] → work.log = (execRecs w new as).log
  left : rs = [] → (execRecs w new as).cont = true →
    work.ctx.Holds (execRecs w new as).recs ∧ work.stage = .addFd ∧ work.shut = false
  ended : rs = [] → (execRecs w new as).cont = false →
    work.ctx.Holds [] ∧ work.stage = .idle ∧
      (work.shut = true ↔ shuts = true ∧ (execRecs w new as).recs ≠ [])

theorem execRecs_single (w : World) (v : IoVec) (as : List Answer) :
    execRecs w [.iovec [v]] as =
      let a := answer as
      let call := [(vecLen [v], a)]
      let sent := ((Rec.iovec [v]).items w).take a.accepted
      if a.accepted = 0 then ⟨[.iovec [v]], a.retry, [], call⟩
      else if v.iovLen.toNat ≤ a.accepted then ⟨[], false, sent, call⟩
      else ⟨[.iovec [v.skip a.accepted]], true, sent, call⟩ := by
  simp only [execRecs]
  split_ifs with h0 hle
  · rfl
  · simp [stopAt, hle, Progress.after]
  · simp [stopAt, hle, advance]

theorem IoVec.skip_zero (v : IoVec) : v.skip 0 = v := by
  cases v
  simp [IoVec.skip]

theorem out.write_submits {ctx : Xfer} {rs : List Rec} (hx : ctx.Holds rs) {buf size : UInt64}
    {junk : Xfer.Junk} (hok : (out.write w ctx buf size as junk).outcome = .ok) :
    (out.write w ctx buf size as junk).Submits w rs [.iovec [⟨buf, size⟩]] as true := by
  have hpush {b l : UInt64} (h : (ctx.pushWrite b l junk).2 = .ok) :
      (ctx.pushWrite b l junk).1.Holds (rs ++ [.iovec [⟨b, l⟩]]) := hx.pushWrite (Prod.ext rfl h)
  have hemp : ctx.empty = true ↔ rs = [] := by rw [Xfer.empty_iff, hx.empty_iff]
  have hsingle := execRecs_single w ⟨buf, size⟩ as
  simp only [out.write] at hok ⊢
  split_ifs at hok ⊢ with he hfatal hall
  · have hcont : (execRecs w [.iovec [⟨buf, size⟩]] as).cont = false := by
      rw [hsingle]
      simp [hfatal.1, hfatal.2]
    refine ⟨fun hne => absurd (hemp.mp he) hne, fun _ => ?_, fun _ hc => ?_, fun hrs _ => ?_⟩
    · rw [hsingle]
      simp [hfatal.1]
    · rw [hcont] at hc
      cases hc
    · rw [hsingle]
      exact ⟨hrs ▸ hx, rfl, by simp [hfatal.1]⟩
  · have hr : execRecs w [.iovec [⟨buf, size⟩]] as = ⟨[], false,
        ((Rec.iovec [⟨buf, size⟩]).items w).take (answer as).accepted,
        [(vecLen [⟨buf, size⟩], answer as)]⟩ := by
      rw [hsingle]
      simp only [if_neg hall.1, if_pos hall.2]
    refine ⟨fun hne => absurd (hemp.mp he) hne, fun _ => ?_, fun _ hc => ?_, fun hrs _ => ?_⟩
    · rw [hr]
    · rw [hr] at hc
      cases hc
    · rw [hr]
      exact ⟨hrs ▸ hx, rfl, by simp⟩
  · -- what is left is queued: after a retryable answer this is the whole buffer
    have hleft : execRecs w [.iovec [⟨buf, size⟩]] as =
        ⟨[.iovec [IoVec.skip ⟨buf, size⟩ (answer as).accepted]], true,
          ((Rec.iovec [⟨buf, size⟩]).items w).take (answer as).accepted,
          [(vecLen [⟨buf, size⟩], answer as)]⟩ := by
      rw [hsingle]
      by_cases h0 : (answer as).accepted = 0
      · have hretry : (answer as).retry = true := by
          by_contra hno
          exact hfatal ⟨h0, by simpa using hno⟩
        simp [h0, hretry, IoVec.skip_zero]
      · have hgt : ¬ size.toNat ≤ (answer as).accepted := fun hle => hall ⟨h0, hle⟩
        simp [h0, hgt]
    have hp := hpush hok
    refine ⟨fun hne => absurd (hemp.mp he) hne, fun _ => ?_, fun hrs _ => ?_, fun _ hc => ?_⟩
    · rw [hleft]
    · rw [hleft]
      rw [hrs] at hp
      exact ⟨hp, by rw [watchAfter, if_pos hok], rfl⟩
    · rw [hleft] at hc
      cases hc
  · have hne : rs ≠ [] := fun hrs => he (hemp.mpr hrs)
    exact ⟨fun _ => ⟨rfl, hpush hok, rfl, rfl⟩, fun h => absurd h hne, fun h => absurd h hne,
      fun h => absurd h hne⟩

theorem out.commitRaw_submits {ctx : Xfer} {rs new : List Rec} (hx : ctx.Holds rs)
    {xfbuf : List UInt8} (henc : Encodes xfbuf new) (hlen : xfbuf.length < 2 ^ 63) {junk : Xfer.Junk}
    (hint : mc.CopiesDown ∨ (ctx.empty && overlapAt 0 new as) = false)
    (hok : (out.commitRaw w mc ctx xfbuf as junk).outcome = .ok) :
    (out.commitRaw w mc ctx xfbuf as junk).Submits w rs new as false := by
  have hemp : ctx.empty = true ↔ rs = [] := by rw [Xfer.empty_iff, hx.empty_iff]
  have href := @execute_refines w mc xfbuf xfbuf.length new (by rwa [List.take_length]) le_rfl as
  simp only [out.commitRaw] at hok ⊢
  obtain ⟨e, he⟩ : ∃ e, execute w mc xfbuf.length xfbuf.length xfbuf 0 as = e := ⟨_, rfl⟩
  rw [he] at href hok ⊢
  split_ifs at hok ⊢ with hempty hcont
  · have hleft := href.encodes (by simpa [hempty] using hint)
    have htail := href.tail
    have hblk := href.length
    have hp := hx.pushXfraw hleft (by omega) (by omega) (Prod.ext rfl hok)
    refine ⟨fun hne => absurd (hemp.mp hempty) hne, fun _ => href.log, fun hrs _ => ?_, fun _ hc => ?_⟩
    · rw [hrs] at hp
      exact ⟨hp, by rw [watchAfter, if_pos hok], rfl⟩
    · rw [← href.cont, hcont] at hc
      cases hc
  · refine ⟨fun hne => absurd (hemp.mp hempty) hne, fun _ => href.log, fun _ hc => ?_, fun hrs _ => ?_⟩
    · rw [← href.cont] at hc
      exact absurd hc hcont
    · exact ⟨hrs ▸ hx, rfl, by simp⟩
  · have hne : rs ≠ [] := fun hrs => hempty (hemp.mpr hrs)
    have hp := hx.pushXfraw (by rwa [List.take_length]) le_rfl hlen (Prod.ext rfl hok)
    exact ⟨fun _ => ⟨rfl, hp, rfl, rfl⟩, fun h => absurd h hne, fun h => absurd h hne,
      fun h => absurd h hne⟩

theorem out.commit_submits {ctx xf : Xfer} {rs new : List Rec} (hx : ctx.Holds rs)
    (hf : xf.Holds new) {junk : Xfer.Junk}
    (hint : mc.CopiesDown ∨ (ctx.empty && overlapAt 0 new as) = false)
    (hok : (out.commit w mc ctx xf as junk).1.outcome = .ok) :
    (out.commit w mc ctx xf as junk).1.Submits w rs new as true := by
  have hemp : ctx.empty = true ↔ rs = [] := by rw [Xfer.empty_iff, hx.empty_iff]
  obtain ⟨hcont', hlog, -, hleft'⟩ := hf.tryWrite w mc as
  have hshut : (xf.tryWrite w mc as).2.2 =
      (!(xf.tryWrite w mc as).2.1.cont && (xf.tryWrite w mc as).1.tail != 0) := rfl
  simp only [out.commit] at hok ⊢
  obtain ⟨t, ht⟩ : ∃ t, xf.tryWrite w mc as = t := ⟨_, rfl⟩
  rw [ht] at hcont' hlog hleft' hok hshut ⊢
  split_ifs at hok ⊢ with hempty hcont
  · have hleft := hleft' (by simpa [hempty] using hint)
    obtain ⟨-, hp⟩ := hleft.migrate hx (Prod.ext rfl (Prod.ext rfl hok))
    refine ⟨fun hne => absurd (hemp.mp hempty) hne, fun _ => hlog, fun hrs _ => ?_, fun _ hc => ?_⟩
    · rw [hrs] at hp
      exact ⟨hp, by rw [watchAfter, if_pos hok], rfl⟩
    · rw [← hcont', hcont] at hc
      cases hc
  · refine ⟨fun hne => absurd (hemp.mp hempty) hne, fun _ => hlog, fun _ hc => ?_, fun hrs _ => ?_⟩
    · rw [← hcont'] at hc
      exact absurd hc hcont
    · have hleft := hleft' (by simpa [hempty] using hint)
      refine ⟨hrs ▸ hx, rfl, ?_⟩
      have hncont : t.2.1.cont = false := by simpa using hcont
      simp only [hshut, hncont, Bool.not_false, Bool.true_and, bne_iff_ne, ne_eq, true_and]
      exact not_congr hleft.empty_iff
  · have hne : rs ≠ [] := fun hrs => hempty (hemp.mpr hrs)
    obtain ⟨-, hp⟩ := hf.migrate hx (Prod.ext rfl (Prod.ext rfl hok))
    exact ⟨fun _ => ⟨rfl, hp, rfl, rfl⟩, fun h => absurd h hne, fun h => absurd h hne,
      fun h => absurd h hne⟩

/-! ## Later write events -/

/-- Two lines that differ at most in a `NULL` finalizer `t` behind the queue `rs`. -/
structure Alike (t rs : List Rec) (a b : Line) : Prop where
  holds : a.ctx.Holds rs
  holds' : b.ctx.Holds (closing rs t)
  log : b.log = a.log
  watching : b.watching = a.watching
  registered : b.registered = a.registered
  shut : b.shut = a.shut

/-- The queue after a write event. -/
def eventRecs (w : World) (rs : List Rec) (as : List Answer) : List Rec :=
  if (execRecs w rs as).cont then (execRecs w rs as).recs else []

theorem Line.event_eq {l : Line} {rs : List Rec} (hl : l.ctx.Holds rs) (hreg : l.registered = true)
    (hint : mc.CopiesDown ∨ overlapAt 0 rs as = false) :
    (l.event w mc as).ctx.Holds (eventRecs w rs as) ∧
    (l.event w mc as).log = l.log ++ (execRecs w rs as).log ∧
    (l.event w mc as).watching = l.watching - (if (execRecs w rs as).cont then 0 else 1) ∧
    (l.event w mc as).registered = (execRecs w rs as).cont ∧
    (l.event w mc as).shut = (l.shut || (!(execRecs w rs as).cont && (execRecs w rs as).recs != [])) := by
  obtain ⟨hcont, hlog, -, hleft'⟩ := hl.tryWrite w mc as
  have hleft := hleft' hint
  have hshut : (l.ctx.tryWrite w mc as).2.2 =
      (!(l.ctx.tryWrite w mc as).2.1.cont && (l.ctx.tryWrite w mc as).1.tail != 0) := rfl
  have htail : ((l.ctx.tryWrite w mc as).1.tail != 0) = ((execRecs w rs as).recs != []) := by
    rw [Bool.eq_iff_iff, bne_iff_ne, bne_iff_ne]
    exact not_congr hleft.empty_iff
  rw [htail, hcont] at hshut
  simp only [Line.event, hreg, if_true, out.writeEvent, hcont, eventRecs]
  by_cases hc : (execRecs w rs as).cont = true
  · simp only [hc, if_true, Line.settle, hshut, hlog, sub_zero, hreg, and_true]
    exact hleft
  · simp only [hc, if_false, Line.settle, hshut, hlog, Bool.false_eq_true, and_true]
    exact hleft.clear.1

theorem Alike.event {t rs : List Rec} (ht : NullTail t) {a b : Line} (h : Alike t rs a b)
    (hreg : a.registered = true ↔ rs ≠ []) (hint : mc.CopiesDown ∨ overlapAt 0 rs as = false) :
    Alike t (eventRecs w rs as) (a.event w mc as) (b.event w mc as) ∧
      ((a.event w mc as).registered = true ↔ eventRecs w rs as ≠ []) := by
  by_cases hr : a.registered = true
  · have hne := hreg.mp hr
    have hclose : closing rs t = rs ++ t := if_neg hne
    obtain ⟨hctx, hlog, hwatch, hregd, hshut⟩ := Line.event_eq (w := w) h.holds hr hint
    obtain ⟨hctx', hlog', hwatch', hregd', hshut'⟩ :=
      Line.event_eq (w := w) h.holds' (by rw [h.registered, hr]) (by
        rw [hclose, overlapAt_append_null ht]
        exact hint)
    rw [hclose, execRecs_append_null ht] at hlog' hwatch' hregd' hshut'
    have hnil : (closing (execRecs w rs as).recs t != []) = ((execRecs w rs as).recs != []) := by
      rw [Bool.eq_iff_iff, bne_iff_ne, bne_iff_ne]
      exact not_congr (closing_eq_nil _ t)
    have hrecs : eventRecs w (closing rs t) as = closing (eventRecs w rs as) t := by
      simp only [eventRecs, hclose, execRecs_append_null ht]
      split_ifs <;> rfl
    refine ⟨⟨hctx, hrecs ▸ hctx', ?_, ?_, ?_, ?_⟩, ?_⟩
    · rw [hlog', hlog, h.log]
    · rw [hwatch', hwatch, h.watching]
    · rw [hregd', hregd]
    · rw [hshut', hshut, h.shut, hnil]
    · obtain ⟨_, _, _, hp⟩ := execRecs_worksOff w rs as
      rw [hregd]
      by_cases hc : (execRecs w rs as).cont = true
      · rw [eventRecs, if_pos hc]
        exact iff_of_true hc (hp.residue hc)
      · rw [eventRecs, if_neg hc]
        exact iff_of_false hc (by simp)
  · have hnil : rs = [] := by
      by_contra hne
      exact hr (hreg.mpr hne)
    subst hnil
    have hrb : ¬ b.registered = true := by rwa [h.registered]
    have hev : eventRecs w [] as = [] := rfl
    simp only [Line.event, hr, hrb, hev]
    exact ⟨h, by simpa using hr⟩

/-- No write event compacts a vector between overlapping ranges. -/
def quiet (w : World) : List Rec → List (List Answer) → Bool
  | _, [] => true
  | rs, as :: ass => !overlapAt 0 rs as && quiet w (eventRecs w rs as) ass

theorem Alike.events {t : List Rec} (ht : NullTail t) (ass : List (List Answer)) {rs : List Rec}
    {a b : Line} (h : Alike t rs a b) (hreg : a.registered = true ↔ rs ≠ [])
    (hint : mc.CopiesDown ∨ quiet w rs ass = true) :
    ∃ rs', Alike t rs' (a.events w mc ass) (b.events w mc ass) := by
  induction ass generalizing rs a b with
  | nil => exact ⟨rs, h⟩
  | cons as ass ih =>
    have hfirst : mc.CopiesDown ∨ overlapAt 0 rs as = false := by
      refine hint.imp_right fun hq => ?_
      simp only [quiet, Bool.and_eq_true, Bool.not_eq_true'] at hq
      exact hq.1
    have hrest : mc.CopiesDown ∨ quiet w (eventRecs w rs as) ass = true := by
      refine hint.imp_right fun hq => ?_
      simp only [quiet, Bool.and_eq_true] at hq
      exact hq.2
    obtain ⟨hnext, hreg'⟩ := h.event (w := w) ht hreg hfirst
    exact ih hnext hreg' hrest

theorem overlapAt_single (p : ℕ) (v : IoVec) (as : List Answer) :
    overlapAt p [.iovec [v]] as = false := by
  simp only [overlapAt, stopAt]
  split_ifs with hle
  · simp
  · simp

theorem quiet_single (w : World) (ass : List (List Answer)) {rs : List Rec}
    (h : rs = [] ∨ ∃ v, rs = [.iovec [v]]) : quiet w rs ass = true := by
  induction ass generalizing rs with
  | nil => rfl
  | cons as ass ih =>
    have hov : overlapAt 0 rs as = false := by
      rcases h with rfl | ⟨v, rfl⟩
      · rfl
      · exact overlapAt_single 0 v as
    have hnext : eventRecs w rs as = [] ∨ ∃ v, eventRecs w rs as = [.iovec [v]] := by
      rcases h with rfl | ⟨v, rfl⟩
      · exact .inl rfl
      · rw [eventRecs, execRecs_single]
        simp only
        split_ifs <;> simp
    rw [quiet, hov, ih hnext]
    rfl

/-! ## The three paths -/

/-- A descriptor at rest with the queue `ctx`. -/
def Line.rest (ctx : Xfer) (watching : ℤ) : Line := ⟨ctx, [], watching, !ctx.empty, false⟩

/-- The same submission of the same buffer, up to a `NULL` finalizer, leaves two lines alike, unless
just one of them shuts the descriptor down. -/
theorem alike_of_submits {ctx : Xfer} {rs new t : List Rec} (hx : ctx.Holds rs) (ht : NullTail t)
    (watching : ℤ) {work work' : Section} {shuts : Bool}
    (h : work.Submits w rs new as true) (h' : work'.Submits w rs (new ++ t) as shuts)
    (hshut : shuts = true ∨ ¬ (rs = [] ∧ (execRecs w new as).cont = false ∧
      (execRecs w new as).recs ≠ [])) :
    ∃ rs', Alike t rs' ((Line.rest ctx watching).settle work) ((Line.rest ctx watching).settle work') ∧
      (((Line.rest ctx watching).settle work).registered = true ↔ rs' ≠ []) ∧
      (rs' = rs ++ new ∨ rs' = (execRecs w new as).recs ∨ rs' = []) := by
  have hnull := execRecs_append_null ht w new as
  have hemp : ctx.empty = true ↔ rs = [] := by rw [Xfer.empty_iff, hx.empty_iff]
  by_cases hrs : rs = []
  · have hreg : ctx.empty = true := hemp.mpr hrs
    have hlog := h.log hrs
    have hlog' := h'.log hrs
    rw [hnull] at hlog'
    by_cases hc : (execRecs w new as).cont = true
    · obtain ⟨hctx, hst, hsh⟩ := h.left hrs hc
      obtain ⟨hctx', hst', hsh'⟩ := h'.left hrs (by rw [hnull]; exact hc)
      rw [hnull] at hctx'
      obtain ⟨_, _, _, hp⟩ := execRecs_worksOff w new as
      have hne := hp.residue hc
      refine ⟨(execRecs w new as).recs, ⟨?_, ?_, ?_, ?_, ?_, ?_⟩, ?_, .inr (.inl rfl)⟩
      all_goals simp only [Line.settle, hst, hst', Line.rest]
      · exact hctx
      · exact hctx'
      · rw [hlog, hlog']
      · rw [hsh, hsh']
      · exact iff_of_true trivial hne
    · have hc' : (execRecs w new as).cont = false := by simpa using hc
      obtain ⟨hctx, hst, hsh⟩ := h.ended hrs hc'
      obtain ⟨hctx', hst', hsh'⟩ := h'.ended hrs (by rw [hnull]; exact hc')
      refine ⟨[], ⟨?_, ?_, ?_, ?_, ?_, ?_⟩, ?_, .inr (.inr rfl)⟩
      all_goals simp only [Line.settle, hst, hst', Line.rest, hreg]
      · exact hctx
      · exact hctx'
      · rw [hlog, hlog']
      · rw [Bool.false_or, Bool.false_or, Bool.eq_iff_iff, hsh, hsh', hnull]
        simp only [ne_eq, closing_eq_nil, true_and]
        refine ⟨And.right, fun hne => ⟨?_, hne⟩⟩
        rcases hshut with hs | hs
        · exact hs
        · exact absurd ⟨hrs, hc', hne⟩ hs
      · simp
  · have hreg : ctx.empty = false := by
      rw [← Bool.not_eq_true, hemp]
      exact hrs
    obtain ⟨hlog, hctx, hst, hsh⟩ := h.behind hrs
    obtain ⟨hlog', hctx', hst', hsh'⟩ := h'.behind hrs
    have hne : rs ++ new ≠ [] := by simp [hrs]
    refine ⟨rs ++ new, ⟨?_, ?_, ?_, ?_, ?_, ?_⟩, ?_, .inl rfl⟩
    all_goals simp only [Line.settle, hst, hst', Line.rest, hreg]
    · exact hctx
    · rw [closing, if_neg hne, List.append_assoc]
      exact hctx'
    · rw [hlog, hlog']
    · rw [hsh, hsh']
    · exact iff_of_true rfl hne

/-- The buffer submitted with `loop::write(fd, buf, size)`. -/
def viaWrite (w : World) (ctx : Xfer) (watching : ℤ) (buf size : UInt64) (as : List Answer)
    (junk : Xfer.Junk) : Line :=
  (Line.rest ctx watching).settle (out.write w ctx buf size as junk)

/-- With `loop::write(fd, buf, size, NULL, NULL)`. -/
def viaCommitRaw (w : World) (mc : Memcpy) (ctx : Xfer) (watching : ℤ) (buf size : UInt64)
    (stack : ℕ → UInt8) (as : List Answer) (junk : Xfer.Junk) : Line :=
  (Line.rest ctx watching).settle
    (out.commitRaw w mc ctx ((Call.write buf size 0 0).xfbuf stack) as junk)

/-- With `loop::commit` of an `xfer`. -/
def viaCommit (w : World) (mc : Memcpy) (ctx : Xfer) (watching : ℤ) (xf : Xfer) (as : List Answer)
    (junk : Xfer.Junk) : Line :=
  (Line.rest ctx watching).settle (out.commit w mc ctx xf as junk).1

/-- The three lines show the same. -/
structure Agree (a b c : Line) : Prop where
  bytes : bytesOf b.log = bytesOf a.log ∧ bytesOf c.log = bytesOf a.log
  queue : (b.ctx.recs = a.ctx.recs ∨ b.ctx.recs = a.ctx.recs ++ [.finalize 0 0]) ∧
    c.ctx.recs = a.ctx.recs
  watching : b.watching = a.watching ∧ c.watching = a.watching
  shut : b.shut = a.shut ∧ c.shut = a.shut

theorem agree_of_alike {rs rs' : List Rec} {a b c : Line} (hb : Alike [.finalize 0 0] rs a b)
    (hc : Alike [] rs' a c) : Agree a b c := by
  have ha := hb.holds.recs_eq
  have ha' := hc.holds.recs_eq
  have hrb := hb.holds'.recs_eq
  have hrc := hc.holds'.recs_eq
  refine ⟨⟨by rw [hb.log], by rw [hc.log]⟩, ⟨?_, ?_⟩, ⟨hb.watching, hc.watching⟩, ⟨hb.shut, hc.shut⟩⟩
  · rw [hrb, ha, closing]
    split_ifs with hnil
    · exact .inl hnil.symm
    · exact .inr rfl
  · rw [hrc, ha', closing]
    split_ifs with hnil
    · exact hnil.symm
    · exact List.append_nil _

theorem events_unregistered {l : Line} (h : l.registered = false) (ass : List (List Answer)) :
    l.events w mc ass = l := by
  induction ass with
  | nil => rfl
  | cons as ass ih =>
    have hev : l.event w mc as = l := by simp [Line.event, h]
    rw [Line.events, List.foldl_cons, hev]
    exact ih

/-- After the submission of one buffer and any later write events, the three paths agree unless the
submission met an empty queue and got a fatal answer: `commit_raw` does not shut the descriptor down
then. -/
theorem paths_agree_iff {ctx : Xfer} {rs : List Rec} (hx : ctx.Holds rs) (watching : ℤ)
    (buf size : UInt64) (stack : ℕ → UInt8) (as : List Answer) (ass : List (List Answer))
    {xf : Xfer} (j1 j2 j3 j4 : Xfer.Junk) (hxf : Xfer.new.pushWrite buf size j1 = (xf, .ok))
    (hwrite : (out.write w ctx buf size as j2).outcome = .ok)
    (hraw : (out.commitRaw w mc ctx ((Call.write buf size 0 0).xfbuf stack) as j3).outcome = .ok)
    (hcommit : (out.commit w mc ctx xf as j4).1.outcome = .ok)
    (hint : mc.CopiesDown ∨ rs = [] ∨ quiet w (rs ++ [.iovec [⟨buf, size⟩]]) ass = true) :
    Agree ((viaWrite w ctx watching buf size as j2).events w mc ass)
      ((viaCommitRaw w mc ctx watching buf size stack as j3).events w mc ass)
      ((viaCommit w mc ctx watching xf as j4).events w mc ass) ↔
    ¬ (ctx.empty = true ∧ (answer as).Fatal) := by
  have hemp : ctx.empty = true ↔ rs = [] := by rw [Xfer.empty_iff, hx.empty_iff]
  obtain ⟨henc, hlen⟩ := (Call.write buf size 0 0).encodes stack (by simp [Call.recs, Rec.Small])
  have hholds : xf.Holds [.iovec [⟨buf, size⟩]] := Xfer.holds_new.pushWrite hxf
  have ha := out.write_submits hx hwrite
  have hov : overlapAt 0 (Call.write buf size 0 0).recs as = false :=
    (overlapAt_append_null (.inr rfl) 0 [.iovec [⟨buf, size⟩]] as).trans (overlapAt_single 0 _ as)
  have hb := out.commitRaw_submits hx henc hlen (.inr (by rw [hov, Bool.and_false])) hraw
  have hc := out.commit_submits hx hholds (.inr (by rw [overlapAt_single, Bool.and_false])) hcommit
  -- a single buffer is left after a false return just when its only call was answered fatally
  have hfatal : (execRecs w [.iovec [⟨buf, size⟩]] as).cont = false ∧
      (execRecs w [.iovec [⟨buf, size⟩]] as).recs ≠ [] ↔ (answer as).Fatal := by
    rw [execRecs_single]
    simp only
    split_ifs with h0 hle
    · simp [Answer.Fatal, h0]
    · simp [Answer.Fatal, h0]
    · simp [Answer.Fatal, h0]
  constructor
  · rintro hagree ⟨hempty, hfat⟩
    have hrs := hemp.mp hempty
    obtain ⟨hcont, hne⟩ := hfatal.mpr hfat
    have hnull := execRecs_append_null (.inr rfl) w [.iovec [⟨buf, size⟩]] as
    obtain ⟨-, hsta, hsha⟩ := ha.ended hrs hcont
    obtain ⟨-, hstb, hshb⟩ := hb.ended hrs (by
      show (execRecs w ([.iovec [⟨buf, size⟩]] ++ [.finalize 0 0]) as).cont = false
      rw [hnull]
      exact hcont)
    have hshut := hagree.shut.1
    have hrega : (viaWrite w ctx watching buf size as j2).registered = false := by
      simp [viaWrite, Line.settle, hsta, Line.rest, hempty]
    have hregb : (viaCommitRaw w mc ctx watching buf size stack as j3).registered = false := by
      simp [viaCommitRaw, Line.settle, hstb, Line.rest, hempty]
    rw [events_unregistered hrega, events_unregistered hregb] at hshut
    simp only [viaWrite, viaCommitRaw, Line.settle, hsta, hstb, Line.rest, Bool.false_or] at hshut
    rw [hsha.mpr ⟨rfl, hne⟩] at hshut
    cases (hshb.mp hshut).1
  · intro hno
    have hnot : ¬ (rs = [] ∧ (execRecs w [.iovec [⟨buf, size⟩]] as).cont = false ∧
        (execRecs w [.iovec [⟨buf, size⟩]] as).recs ≠ []) := by
      rwa [hfatal, ← hemp]
    have hquiet (rs' : List Rec) (h : rs' = rs ++ [.iovec [⟨buf, size⟩]] ∨
        rs' = (execRecs w [.iovec [⟨buf, size⟩]] as).recs ∨ rs' = []) :
        mc.CopiesDown ∨ quiet w rs' ass = true := by
      rcases h with rfl | rfl | rfl
      · rcases hint with hdown | rfl | hq
        · exact .inl hdown
        · exact .inr (quiet_single w ass (.inr ⟨_, rfl⟩))
        · exact .inr hq
      · refine .inr (quiet_single w ass ?_)
        rw [execRecs_single]
        simp only
        split_ifs <;> simp
      · exact .inr (quiet_single w ass (.inl rfl))
    obtain ⟨rb, hab, hregb, hrb⟩ := alike_of_submits hx (.inr rfl) watching ha hb (.inr hnot)
    obtain ⟨rc, hac, hregc, hrc⟩ := alike_of_submits (t := []) hx (.inl rfl) watching ha hc (.inl rfl)
    obtain ⟨_, hab'⟩ := hab.events (.inr rfl) ass hregb (hquiet rb hrb)
    obtain ⟨_, hac'⟩ := hac.events (.inl rfl) ass hregc (hquiet rc hrc)
    exact agree_of_alike hab' hac'

/-- Four bytes of which the kernel takes two at once and the others at a write event. -/
theorem paths_agree_iff_twice :
    Agree
      ((viaWrite addressWorld .new 0 16 4 [.count 2] (some fun _ => 0)).events addressWorld
        .descending [[.count 2]])
      ((viaCommitRaw addressWorld .descending .new 0 16 4 (fun _ => 0) [.count 2]
        (some fun _ => 0)).events addressWorld .descending [[.count 2]])
      ((viaCommit addressWorld .descending .new 0 (Xfer.new.pushWrite 16 4 (some fun _ => 0)).1
        [.count 2] (some fun _ => 0)).events addressWorld .descending [[.count 2]]) :=
  (paths_agree_iff Xfer.holds_new 0 16 4 (fun _ => 0) [.count 2] [[.count 2]] (some fun _ => 0)
    (some fun _ => 0) (some fun _ => 0) (some fun _ => 0) (by decide +kernel) (by decide +kernel)
    (by decide +kernel) (by decide +kernel) (.inr (.inl rfl))).mpr (by decide)

/-- An empty queue and an error of the kernel: `write` and `commit` shut the descriptor down,
`commit_raw` does not. -/
theorem paths_disagree :
    (viaWrite addressWorld .new 0 16 4 [.fails .other] (some fun _ => 0)).shut = true ∧
    (viaCommit addressWorld .descending .new 0 (Xfer.new.pushWrite 16 4 (some fun _ => 0)).1
      [.fails .other] (some fun _ => 0)).shut = true ∧
    (viaCommitRaw addressWorld .descending .new 0 16 4 (fun _ => 0) [.fails .other]
      (some fun _ => 0)).shut = false ∧
    ¬ Agree (viaWrite addressWorld .new 0 16 4 [.fails .other] (some fun _ => 0))
      (viaCommitRaw addressWorld .descending .new 0 16 4 (fun _ => 0) [.fails .other]
        (some fun _ => 0))
      (viaCommit addressWorld .descending .new 0 (Xfer.new.pushWrite 16 4 (some fun _ => 0)).1
        [.fails .other] (some fun _ => 0)) := by
  refine ⟨by decide +kernel, by decide +kernel, by decide +kernel, fun h => ?_⟩
  have hshut := h.shut.1
  revert hshut
  decide +kernel

end Mpio.Wavy
