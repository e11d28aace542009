import Mpio.Wavy.Finalize

/-!
# `out` without memory

`write`, `commit_raw` and `commit` throw `std::bad_alloc` when the queue of their descriptor cannot grow,
and at that point the kernel may already have taken a part of what they were given. Here any allocation
may fail. A `Book` is the state of `out` with the list of the calls made at each descriptor and the
finalizers of the calls that threw or were refused.

A call that throws leaves the queue of its descriptor as it was, so the stream of a descriptor is made of
pieces, one for each call: all of what a call that returned was given, and a beginning of what a call that
threw was given. `commit` leaves the rest in the caller's `xfer`, from where it can be committed again;
`write` and `commit_raw` drop it, and with it the finalizer, which `commit_raw` also drops when a fatal
answer ends the stream.

The overloads of `loop::write` and `loop::writev` that take an `auto_ptr` give `object_delete` as the
finalizer and release the `auto_ptr` when the call has returned, so the object of a call that threw is
deleted by the caller. `exhausted_finalizers` says that this adds up.
-/

namespace Mpio.Wavy

open Lib Finset

variable {n m : ℕ} {mc : Memcpy} {s s' : State} {act : Action} {w : World} {β : Type} {φ : Item → β}

/-! ## The calls at a descriptor -/

/-- A call that commits to a descriptor: what it was given, whether it returned, and for `commit` what the
caller's `xfer` denotes afterwards. -/
structure Commit where
  payload : List Item
  returned : Bool
  kept : Option (List Item)
  deriving DecidableEq

/-- The piece of the stream that a call accounts for. -/
structure Commit.Takes (c : Commit) (piece : List Item) : Prop where
  start : piece <+: c.payload
  all : c.returned = true → piece = c.payload
  kept : ∀ rest ∈ c.kept, piece ++ rest = c.payload

/-- The call that enters the section; `write_event` commits nothing. -/
def Entry.commits (w : World) (e : Entry) : Action → List Commit
  | .writeEvent .. => []
  | .commit _ k _ _ => [⟨e.payload, e.work.outcome == .ok, some (items w (e.xfers k).recs)⟩]
  | _ => [⟨e.payload, e.work.outcome == .ok, none⟩]

/-- The finalizers that the section keeps; the others are dropped with the stack buffer. -/
def Entry.spared (e : Entry) : List Finalizer :=
  if e.work.outcome = .ok ∧ e.work.fatal = false then e.handed else []

/-- The finalizers of a call that throws. -/
def Entry.thrown (e : Entry) : List Finalizer := if e.work.outcome = .ok then [] else e.handed

/-- The finalizers of a call that returns although the kernel has refused it. -/
def Entry.leaked (e : Entry) : List Finalizer :=
  if e.work.outcome = .ok ∧ e.work.fatal = true then e.handed else []

theorem Entry.count_handed (e : Entry) (f : Finalizer) :
    e.spared.count f + e.thrown.count f + e.leaked.count f = e.handed.count f := by
  unfold Entry.spared Entry.thrown Entry.leaked
  by_cases ho : e.work.outcome = .ok
  · cases hfat : e.work.fatal <;> simp [ho]
  · simp [ho]

structure Book where
  state : State
  commits : ℕ → List Commit
  thrown : List Finalizer
  leaked : List Finalizer

def Book.step (n m : ℕ) (mc : Memcpy) (b : Book) (act : Action) : Option Book :=
  (stepOut n m mc b.state act).map fun s =>
    match enter m mc b.state act with
    | some e =>
      ⟨s, Function.update b.commits e.fd (b.commits e.fd ++ e.commits b.state.world act),
        b.thrown ++ e.thrown, b.leaked ++ e.leaked⟩
    | none => ⟨s, b.commits, b.thrown, b.leaked⟩

def bookSystem (n m : ℕ) (mc : Memcpy) : System Book Action where
  init b := ∃ world, b = ⟨.start world, fun _ => [], [], []⟩
  step := Book.step n m mc

/-! ## Sections that throw -/

theorem Section.sends_same {ctx : Xfer} {rs : List Rec} (hx : ctx.Holds rs) {work : Section}
    {log : List Item} {given left : List Finalizer} (hwork : work.log = log) (hctx : work.ctx = ctx)
    (hfat : work.fatal = false) (hstage : work.stage ≠ .remove) (hlog : log = [] ∨ rs = [])
    (hacc : fins log ++ left = given) : work.Sends w rs log given left False := by
  have hrs : work.ctx.recs = rs := by rw [hctx, hx.recs_eq]
  refine ⟨by rw [hrs, hctx]; exact hx, fun _ => ?_, fun h => absurd h hstage, fun _ => hfat, fun _ => ?_⟩
  · rw [hrs, hwork]
    rcases hlog with rfl | rfl
    · rw [List.nil_append, List.append_nil]
    · rw [items_nil, List.nil_append, List.append_nil]
  · rw [hrs, hwork, ← hacc]
    rcases hlog with rfl | rfl
    · simp [fins]
    · simp [finalizers]

theorem fins_take_iov (v : IoVec) (k : ℕ) : fins (((Rec.iovec [v]).items w).take k) = [] := by
  rw [items_iov, ← List.map_take, fins_bytes]

theorem out.write_throws {ctx : Xfer} {rs : List Rec} (hx : ctx.Holds rs) {buf size : UInt64}
    {as : List Answer} {junk : Xfer.Junk} (ho : (out.write w ctx buf size as junk).outcome ≠ .ok) :
    (out.write w ctx buf size as junk).Sends w rs (out.write w ctx buf size as junk).log [] [] False ∧
    (out.write w ctx buf size as junk).log <+: (Rec.iovec [⟨buf, size⟩]).items w := by
  simp only [out.write] at ho ⊢
  split_ifs at ho ⊢ with hemp hfat hall
  · exact absurd rfl ho
  · exact absurd rfl ho
  · have hnil : rs = [] := hx.empty_iff.mp (Xfer.empty_iff.mp hemp)
    refine ⟨Section.sends_same hx rfl (Xfer.push_throws _ _ _ ho) rfl (watchAfter_ne_remove _) (.inr hnil)
      ?_, List.take_prefix ..⟩
    simp only [fins_take_iov, List.append_nil]
  · refine ⟨Section.sends_same hx rfl (Xfer.push_throws _ _ _ ho) rfl ?_ (.inl rfl) rfl, List.nil_prefix⟩
    simp

/-- A finalizer behind the other records is left as long as anything is. -/
theorem execRecs_last (w : World) (rs : List Rec) (fin user : UInt64) (as : List Answer)
    (h : (execRecs w (rs ++ [.finalize fin user]) as).recs ≠ []) :
    ∃ rest, (execRecs w (rs ++ [.finalize fin user]) as).recs = rest ++ [.finalize fin user] := by
  induction rs generalizing as with
  | nil => simp [execRecs, Progress.after] at h
  | cons r rs ih =>
    rw [List.cons_append] at h ⊢
    cases r with
    | iovec vec =>
      simp only [execRecs] at h ⊢
      split_ifs at h ⊢ with h0
      · exact ⟨.iovec vec :: rs, rfl⟩
      · rcases hstop : stopAt vec (answer as).accepted with _ | ⟨i, wl⟩ <;> rw [hstop] at h
        · exact ih _ h
        · exact ⟨.iovec (advance vec i wl) :: rs, rfl⟩
    | sendfile infd off len =>
      simp only [execRecs] at h ⊢
      split_ifs at h ⊢ with h0 hlt
      · exact ⟨.sendfile infd off len :: rs, rfl⟩
      · exact ⟨_ :: rs, rfl⟩
      · exact ih _ h
    | finalize fin' user' =>
      simp only [execRecs] at h ⊢
      exact ih _ h

theorem Call.recs_last (call : Call) :
    ∃ rs fin user, call.recs = rs ++ [.finalize fin user] ∧ finalizers rs = [] := by
  cases call with
  | write buf size fin user => exact ⟨[_], fin, user, rfl, rfl⟩
  | writev vec fin user => exact ⟨[_], fin, user, rfl, rfl⟩
  | sendfile infd off size fin user => exact ⟨[_], fin, user, rfl, rfl⟩
  | hsendfile header headerSize infd off size fin user => exact ⟨[_, _], fin, user, rfl, rfl⟩
  | hvsendfile headerVec infd off size fin user => exact ⟨[_, _], fin, user, rfl, rfl⟩

theorem Call.fins_nil (call : Call) (w : World) (as : List Answer)
    (h : (execRecs w call.recs as).recs ≠ []) : fins (execRecs w call.recs as).log = [] := by
  obtain ⟨rs, fin, user, hrecs, hnone⟩ := call.recs_last
  rw [hrecs] at h ⊢
  obtain ⟨rest, hrest⟩ := execRecs_last w rs fin user as h
  have hfins := execRecs_fins w (rs ++ [.finalize fin user]) as
  rw [hrest, finalizers_append, finalizers_append, hnone, List.nil_append] at hfins
  have hlen := congrArg List.length hfins
  simp only [List.length_append] at hlen
  exact List.length_eq_zero_iff.mp (by omega)

/-- What `commit_raw` does when it throws or a fatal answer ends the stream: the queue is as it was, and
the finalizer has not been called. -/
theorem out.commitRaw_drops {ctx : Xfer} {rs : List Rec} (hx : ctx.Holds rs) {call : Call}
    {xfbuf : List UInt8} (henc : Encodes xfbuf call.recs) {as : List Answer} {junk : Xfer.Junk}
    (hint : mc.CopiesDown ∨ (ctx.empty && overlapAt 0 call.recs as) = false)
    (h : (out.commitRaw w mc ctx xfbuf as junk).outcome ≠ .ok ∨
      (out.commitRaw w mc ctx xfbuf as junk).fatal = true) :
    (out.commitRaw w mc ctx xfbuf as junk).ctx = ctx ∧
    fins (out.commitRaw w mc ctx xfbuf as junk).log = [] ∧
    (out.commitRaw w mc ctx xfbuf as junk).log <+: items w call.recs ∧
    ((out.commitRaw w mc ctx xfbuf as junk).log = [] ∨ rs = []) := by
  have href := @execute_refines w mc xfbuf xfbuf.length call.recs (by rwa [List.take_length]) le_rfl as
  have hstart := execRecs_items w call.recs as
  have hleft (hemp : ctx.empty = true) (htail : (execute w mc xfbuf.length xfbuf.length xfbuf 0 as).tail ≠ 0) :
      fins (execute w mc xfbuf.length xfbuf.length xfbuf 0 as).log = [] := by
    have henc' := href.encodes (by simpa [hemp] using hint)
    rw [href.log]
    refine call.fins_nil w as fun hnil => htail ?_
    have hz := congrArg List.length (henc'.nil_iff.mpr hnil)
    rw [List.length_take, href.length, Nat.min_eq_left href.tail] at hz
    exact hz
  rw [← href.log] at hstart
  simp only [out.commitRaw] at h ⊢
  split_ifs at h ⊢ with hemp hcont
  · have ho := h.resolve_right (by simp)
    have htail := execute_cont w mc _ _ _ _ _ hcont
    exact ⟨Xfer.push_throws _ _ _ ho, hleft hemp (by omega), ⟨_, hstart⟩,
      .inr (hx.empty_iff.mp (Xfer.empty_iff.mp hemp))⟩
  · have htail := h.resolve_left (by simp)
    exact ⟨rfl, hleft hemp (by simpa using htail), ⟨_, hstart⟩,
      .inr (hx.empty_iff.mp (Xfer.empty_iff.mp hemp))⟩
  · have ho := h.resolve_right (by simp)
    exact ⟨Xfer.push_throws _ _ _ ho, rfl, List.nil_prefix, .inl rfl⟩

theorem out.commitRaw_thrown {ctx : Xfer} {xfbuf : List UInt8} {as : List Answer} {junk : Xfer.Junk}
    (ho : (out.commitRaw w mc ctx xfbuf as junk).outcome ≠ .ok) :
    (out.commitRaw w mc ctx xfbuf as junk).fatal = false ∧
      (out.commitRaw w mc ctx xfbuf as junk).stage ≠ .remove := by
  simp only [out.commitRaw] at ho ⊢
  split_ifs at ho ⊢
  · exact ⟨rfl, watchAfter_ne_remove _⟩
  · exact absurd rfl ho
  · exact ⟨rfl, by simp⟩

/-- What `commit` does when it throws: the rest is in the caller's `xfer`. -/
theorem out.commit_throws {ctx xf : Xfer} {rs rx : List Rec} (hx : ctx.Holds rs) (hf : xf.Holds rx)
    {as : List Answer} {junk : Xfer.Junk}
    (hint : mc.CopiesDown ∨ (ctx.empty && overlapAt 0 rx as) = false)
    (ho : (out.commit w mc ctx xf as junk).1.outcome ≠ .ok) :
    (out.commit w mc ctx xf as junk).1.Sends w rs (out.commit w mc ctx xf as junk).1.log (finalizers rx)
      (finalizers (out.commit w mc ctx xf as junk).2.recs) False ∧
    (out.commit w mc ctx xf as junk).2.Holds (out.commit w mc ctx xf as junk).2.recs ∧
    (out.commit w mc ctx xf as junk).1.log ++ items w (out.commit w mc ctx xf as junk).2.recs =
      items w rx := by
  obtain ⟨-, hlog, -, hleft'⟩ := hf.tryWrite w mc as
  simp only [out.commit] at ho ⊢
  split_ifs at ho ⊢ with hemp hcont
  · have hnil : rs = [] := hx.empty_iff.mp (Xfer.empty_iff.mp hemp)
    have hleft := hleft' (by simpa [hemp] using hint)
    obtain ⟨hsame, hctx⟩ := Xfer.migrate_throws _ ho
    simp only [hsame, hleft.recs_eq]
    refine ⟨Section.sends_same hx rfl hctx rfl (watchAfter_ne_remove _) (.inr hnil) ?_, hleft, ?_⟩
    · rw [hlog]
      exact execRecs_fins w rx as
    · rw [hlog]
      exact execRecs_items w rx as
  · exact absurd rfl ho
  · obtain ⟨hsame, hctx⟩ := Xfer.migrate_throws _ ho
    simp only [hsame, hf.recs_eq]
    refine ⟨Section.sends_same hx rfl hctx rfl ?_ (.inl rfl) rfl, hf, rfl⟩
    simp

theorem out.commit_empties {ctx xf : Xfer} {rs rx : List Rec} (hx : ctx.Holds rs) (hf : xf.Holds rx)
    {as : List Answer} {junk : Xfer.Junk}
    (hint : mc.CopiesDown ∨ (ctx.empty && overlapAt 0 rx as) = false)
    (ho : (out.commit w mc ctx xf as junk).1.outcome = .ok)
    (hfat : (out.commit w mc ctx xf as junk).1.fatal = false) :
    (out.commit w mc ctx xf as junk).2.recs = [] := by
  obtain ⟨-, -, -, hleft'⟩ := hf.tryWrite w mc as
  simp only [out.commit] at ho hfat ⊢
  split_ifs at ho hfat ⊢ with hemp hcont
  · have hleft := hleft' (by simpa [hemp] using hint)
    exact (hleft.migrate hx (Prod.ext rfl (Prod.ext rfl ho))).1.recs_eq
  · have hleft := hleft' (by simpa [hemp] using hint)
    rw [hleft.recs_eq]
    exact hleft.empty_iff.mp (Xfer.empty_iff.mp (by simpa using hfat))
  · exact (hf.migrate hx (Prod.ext rfl (Prod.ext rfl ho))).1.recs_eq

/-! ## Entries -/

/-- An entry, with what its call has sent or queued and the finalizers it has kept. -/
def Entry.taking (e : Entry) (pieces : List (List Item)) : Entry :=
  { e with payload := pieces.flatten, handed := e.spared }

theorem Entry.Sends.taking {e : Entry} {lost : Prop} (h : e.Sends m s lost)
    (hkeep : ∀ f, (fins e.work.log).count f + pending f e.work.ctx +
      ∑ k ∈ range m, pending f (e.xfers k) =
        pending f (s.ctx e.fd) + ∑ k ∈ range m, pending f (s.xfers k) + e.spared.count f)
    {pieces : List (List Item)} (hp : e.work.fatal = false → pieces.flatten = e.payload) :
    (e.taking pieces).Sends m s False := by
  refine ⟨h.holds, fun hfat => ?_, h.done, h.notClear, h.fatal, h.xfers, fun _ => hkeep⟩
  show _ = _ ++ pieces.flatten
  rw [hp hfat]
  exact h.sent hfat

theorem Commit.takes_returned {payload : List Item} {returned : Bool} {kept : Option (List Item)}
    (hkept : ∀ rest ∈ kept, rest = []) : Commit.Takes ⟨payload, returned, kept⟩ payload := by
  refine ⟨List.prefix_rfl, fun _ => rfl, fun rest hrest => ?_⟩
  rw [hkept rest hrest, List.append_nil]

theorem Commit.Takes.thrown {payload piece : List Item} {o : Outcome} {kept : Option (List Item)}
    (hstart : piece <+: payload) (ho : o ≠ .ok) (hkept : ∀ rest ∈ kept, piece ++ rest = payload) :
    Commit.Takes ⟨payload, o == .ok, kept⟩ piece :=
  ⟨hstart, fun hr => absurd (by simpa using hr) ho, hkept⟩

theorem Section.Sends.thrown {fd : ℕ} {work : Section} {pay : List Item} {given : List Finalizer}
    (hx : ∀ k, (s.xfers k).Holds (s.xfers k).recs)
    (hw : work.Sends s.world (s.ctx fd).recs work.log [] [] False)
    (hclear : work.stage ≠ .clear) (ho : work.outcome ≠ .ok) (taken : List ℕ) :
    ((⟨fd, work, pay, s.xfers, taken, given⟩ : Entry).taking [work.log]).Sends m s False := by
  have hspared : (⟨fd, work, pay, s.xfers, taken, given⟩ : Entry).spared = [] := by
    rw [Entry.spared, if_neg fun h => ho h.1]
  refine ⟨hw.holds, fun hfat => ?_, hw.done, hclear, hw.fatal, hx, fun hl f => ?_⟩
  · simpa [Entry.taking] using hw.sent hfat
  · have := congrArg (List.count f) (hw.account hl)
    simp only [List.count_append, List.count_nil] at this
    simp only [Entry.taking, hspared, pending, List.count_nil]
    omega

theorem out.write_ne_clear {ctx : Xfer} {buf size : UInt64} {as : List Answer} {junk : Xfer.Junk} :
    (out.write w ctx buf size as junk).stage ≠ .clear := by
  simp only [out.write]
  split_ifs
  · simp
  · simp
  · exact watchAfter_ne_clear _
  · simp

theorem out.commitRaw_ne_clear {ctx : Xfer} {xfbuf : List UInt8} {as : List Answer} {junk : Xfer.Junk} :
    (out.commitRaw w mc ctx xfbuf as junk).stage ≠ .clear := by
  simp only [out.commitRaw]
  split_ifs
  · exact watchAfter_ne_clear _
  · simp
  · simp

theorem out.commit_ne_clear {ctx xf : Xfer} {as : List Answer} {junk : Xfer.Junk} :
    (out.commit w mc ctx xf as junk).1.stage ≠ .clear := by
  simp only [out.commit]
  split_ifs
  · exact watchAfter_ne_clear _
  · simp
  · simp

theorem enter_throws (h : DataInv φ n s) (hsmall : act.Small) (hint : Intact mc s act) {e : Entry}
    (he : enter m mc s act = some e) (ho : e.work.outcome ≠ .ok) :
    (e.taking [e.work.log]).Sends m s False ∧
      List.Forall₂ Commit.Takes (e.commits s.world act) [e.work.log] := by
  cases act with
  | write fd buf size as junk =>
    obtain rfl := Option.some.inj he
    obtain ⟨hw, hstart⟩ := out.write_throws (h.ctx fd) ho
    exact ⟨hw.thrown h.xfers out.write_ne_clear ho _, .cons (.thrown hstart ho fun _ h => by cases h) .nil⟩
  | submit fd call stack as junk =>
    obtain rfl := Option.some.inj he
    obtain ⟨hctx, hfins, hstart, hlog⟩ :=
      out.commitRaw_drops (h.ctx fd) (call.encodes stack hsmall).1 hint (.inl ho)
    obtain ⟨hfat, hstage⟩ := out.commitRaw_thrown ho
    have hw := Section.sends_same (w := s.world) (h.ctx fd) rfl hctx hfat hstage hlog
      ((List.append_nil _).trans hfins)
    exact ⟨hw.thrown h.xfers out.commitRaw_ne_clear ho _,
      .cons (.thrown hstart ho fun _ h => by cases h) .nil⟩
  | commit fd k as junk =>
    simp only [enter] at he
    split_ifs at he with hk
    obtain rfl := Option.some.inj he
    obtain ⟨hw, hx, hkept⟩ := out.commit_throws (h.ctx fd) (h.xfers k) hint ho
    refine ⟨⟨hw.holds, fun hfat => ?_, hw.done, out.commit_ne_clear, hw.fatal, holds_update h.xfers hx k,
      fun hl f => ?_⟩, .cons (.thrown ⟨_, hkept⟩ ho fun rest hrest => ?_) .nil⟩
    · simpa [Entry.taking] using hw.sent hfat
    · have hacc := congrArg (List.count f) (hw.account hl)
      have hsum := sum_update hk (pending f) s.xfers
        (out.commit s.world mc (s.ctx fd) (s.xfers k) as junk).2
      simp only [List.count_append] at hacc
      simp only [Entry.taking, Entry.spared, ite_self, List.count_nil]
      simp only [pending] at hsum hacc ⊢
      omega
    · obtain rfl := Option.some.inj hrest
      simp only [Function.update_self]
      exact hkept
  | writeEvent fd as =>
    simp only [enter] at he
    split_ifs at he with ht
    obtain rfl := Option.some.inj he
    exact absurd rfl ho
  | _ => cases he

theorem enter_returns (h : DataInv φ n s) (hsmall : act.Small) (hint : Intact mc s act) {e : Entry}
    (he : enter m mc s act = some e) (ho : e.work.outcome = .ok) :
    ∃ pieces, (e.taking pieces).Sends m s False ∧
      (e.work.fatal = false → List.Forall₂ Commit.Takes (e.commits s.world act) pieces) := by
  have hr : Regular m mc s act := by
    refine ⟨fun e' he' => ?_, hsmall⟩
    obtain rfl := Option.some.inj (he.symm.trans he')
    exact ho
  have hsend := enter_sends h hr hint he
  -- the account of a call that is not `commit_raw`, which is given no finalizer
  have hkeep (hno : ∀ fd call stack as junk, act ≠ .submit fd call stack as junk) (hnone : e.handed = []) :
      ∀ f, (fins e.work.log).count f + pending f e.work.ctx + ∑ k ∈ range m, pending f (e.xfers k) =
        pending f (s.ctx e.fd) + ∑ k ∈ range m, pending f (s.xfers k) + e.spared.count f := by
    intro f
    have hacc := hsend.account (by rintro ⟨_, _, _, _, _, rfl, -⟩; exact hno _ _ _ _ _ rfl) f
    rw [Entry.spared, hnone, ite_self]
    rwa [hnone] at hacc
  cases act with
  | write fd buf size as junk =>
    have hnone : e.handed = [] := by
      obtain rfl := Option.some.inj he
      rfl
    refine ⟨[e.payload], hsend.taking (hkeep (by simp) hnone) fun _ => by simp, fun _ => ?_⟩
    exact .cons (Commit.takes_returned fun _ h => by cases h) .nil
  | submit fd call stack as junk =>
    obtain rfl := Option.some.inj he
    refine ⟨[items s.world call.recs], hsend.taking (fun f => ?_) fun _ => by simp, fun _ => ?_⟩
    · by_cases hfat : (out.commitRaw s.world mc (s.ctx fd) (call.xfbuf stack) as junk).fatal = true
      · obtain ⟨hctx, hfins, -, -⟩ :=
          out.commitRaw_drops (h.ctx fd) (call.encodes stack hsmall).1 hint (.inr hfat)
        simp only [Entry.spared, hfat, hctx, hfins, Bool.true_eq_false, and_false, if_false, List.count_nil]
        omega
      · have hkept := hsend.account (by rintro ⟨_, _, _, _, _, -, -, hf⟩; exact hfat hf) f
        rwa [Entry.spared, if_pos ⟨ho, by simpa using hfat⟩]
    · exact .cons (Commit.takes_returned fun _ h => by cases h) .nil
  | commit fd k as junk =>
    have hnone : e.handed = [] := by
      simp only [enter] at he
      split_ifs at he
      obtain rfl := Option.some.inj he
      rfl
    refine ⟨[e.payload], hsend.taking (hkeep (by simp) hnone) fun _ => by simp, fun hfat => ?_⟩
    refine .cons (Commit.takes_returned fun rest hrest => ?_) .nil
    simp only [enter] at he
    split_ifs at he with hk
    obtain rfl := Option.some.inj he
    obtain rfl := Option.some.inj hrest
    simp only [Function.update_self]
    rw [out.commit_empties (h.ctx fd) (h.xfers k) hint ho hfat, items_nil]
  | writeEvent fd as =>
    have hnone : e.handed = [] ∧ e.payload = [] := by
      simp only [enter] at he
      split_ifs at he
      obtain rfl := Option.some.inj he
      exact ⟨rfl, rfl⟩
    exact ⟨[], hsend.taking (hkeep (by simp) hnone.1) fun _ => by simp [hnone.2], fun _ => .nil⟩
  | _ => cases he

theorem enter_takes (h : DataInv φ n s) (hsmall : act.Small) (hint : Intact mc s act) {e : Entry}
    (he : enter m mc s act = some e) :
    ∃ pieces, (e.taking pieces).Sends m s False ∧
      (e.work.fatal = false → List.Forall₂ Commit.Takes (e.commits s.world act) pieces) := by
  by_cases ho : e.work.outcome = .ok
  · exact enter_returns h hsmall hint he ho
  · obtain ⟨hsend, htakes⟩ := enter_throws h hsmall hint he ho
    exact ⟨_, hsend, fun _ => htakes⟩

/-! ## Runs -/

/-- The state with other records of what was committed and given. -/
def State.audited (s : State) (payload : ℕ → List Item) (handed : List Finalizer) : State :=
  { s with payload := payload, handed := handed }

theorem enter_audited (payload : ℕ → List Item) (handed : List Finalizer) :
    enter m mc (s.audited payload handed) act = enter m mc s act := by
  cases act <;> rfl

theorem stepOut_audited (he : enter m mc s act = none) (hs : stepOut n m mc s act = some s')
    (payload : ℕ → List Item) (handed : List Finalizer) :
    ∃ given, s'.handed = s.handed ++ given ∧ s'.broken = s.broken ∧
      stepOut n m mc (s.audited payload handed) act = some (s'.audited payload (handed ++ given)) := by
  unfold stepOut at hs ⊢
  rw [enter_audited]
  rw [he] at hs ⊢
  have hnone {r : Option State} (hh : s'.handed = s.handed) (hb : s'.broken = s.broken)
      (hr : r = some (s'.audited payload handed)) :
      ∃ given, s'.handed = s.handed ++ given ∧ s'.broken = s.broken ∧
        r = some (s'.audited payload (handed ++ given)) :=
    ⟨[], by rw [hh, List.append_nil], hb, by rw [hr, List.append_nil]⟩
  cases act with
  | write | submit | commit | writeEvent => cases hs
  | goOn fd =>
    simp only at hs ⊢
    split_ifs at hs with hfd
    rw [if_pos hfd]
    simp only [State.goOn] at hs
    cases hcs : s.cs fd with
    | idle => simp [hcs] at hs
    | addFd | incr | reactivate | remove | clear | decr =>
      have hcs' : (s.audited payload handed).cs fd = s.cs fd := rfl
      rw [hcs] at hs hcs'
      obtain rfl := Option.some.inj hs
      refine hnone rfl rfl ?_
      rw [State.goOn, hcs']
      rfl
  | pollWait fds =>
    simp only [State.pollWait] at hs
    split_ifs at hs with hc
    obtain rfl := Option.some.inj hs
    exact hnone rfl rfl (if_pos hc)
  | pollPush | rewrite =>
    obtain rfl := Option.some.inj hs
    exact hnone rfl rfl rfl
  | next =>
    simp only at hs
    split at hs
    · cases hs
    · rename_i hq
      obtain rfl := Option.some.inj hs
      refine hnone rfl rfl ?_
      simp only [State.audited, hq]
  | push k r junk =>
    simp only at hs
    split_ifs at hs with hc
    obtain rfl := Option.some.inj hs
    exact ⟨_, rfl, rfl, if_pos hc⟩
  | migrate | clearXfer =>
    simp only at hs
    split_ifs at hs with hc
    obtain rfl := Option.some.inj hs
    exact hnone rfl rfl (if_pos hc)

/-- `pieces` are the pieces of each stream, and `kept` the finalizers that were not dropped. -/
structure Book.Inv (φ : Item → β) (n m : ℕ) (b : Book) (pieces : ℕ → List (List Item))
    (kept : List Finalizer) : Prop where
  data : DataInv φ n (b.state.audited (fun fd => (pieces fd).flatten) kept)
  fin : FinInv n m (b.state.audited (fun fd => (pieces fd).flatten) kept)
  takes : ∀ fd, b.state.broken fd = false → List.Forall₂ Commit.Takes (b.commits fd) (pieces fd)
  account : ∀ f, kept.count f + b.thrown.count f + b.leaked.count f = b.state.handed.count f

theorem Book.Inv.start (world : World) :
    Book.Inv φ n m ⟨.start world, fun _ => [], [], []⟩ (fun _ => []) [] := by
  refine ⟨.start world, fun f => ?_, fun _ _ => .nil, fun _ => rfl⟩
  simp [State.audited, State.start, pending, Xfer.holds_new.recs_eq, finalizers]

variable {b b' : Book} {pieces : ℕ → List (List Item)} {kept : List Finalizer}

theorem flatten_update (pieces : ℕ → List (List Item)) (fd : ℕ) (new : List (List Item)) :
    (fun fd' => (Function.update pieces fd (pieces fd ++ new) fd').flatten) =
      Function.update (fun fd' => (pieces fd').flatten) fd ((pieces fd).flatten ++ new.flatten) := by
  funext fd'
  by_cases hf : fd' = fd
  · subst hf
    simp
  · simp [Function.update_of_ne hf]

theorem Book.Inv.entered (h : b.Inv φ n m pieces kept) (hsmall : act.Small)
    (hint : Intact mc b.state act) {e : Entry} (he : enter m mc b.state act = some e) (hfd : e.fd < n) :
    ∃ pieces' kept', Book.Inv φ n m
      ⟨b.state.entered e, Function.update b.commits e.fd (b.commits e.fd ++ e.commits b.state.world act),
        b.thrown ++ e.thrown, b.leaked ++ e.leaked⟩ pieces' kept' := by
  have hint' : Intact mc (b.state.audited (fun fd => (pieces fd).flatten) kept) act := by
    cases act <;> exact hint
  obtain ⟨new, hsend, htakes⟩ := enter_takes h.data hsmall hint' (by rwa [enter_audited])
  refine ⟨Function.update pieces e.fd (pieces e.fd ++ new), kept ++ e.spared, ?_, ?_, fun fd hb => ?_,
    fun f => ?_⟩
  · rw [flatten_update]
    exact h.data.entered hsend
  · rw [flatten_update]
    exact h.fin.entered hsend hfd id
  · by_cases hf : fd = e.fd
    · subst hf
      simp only [State.entered, Function.update_self, Bool.or_eq_false_iff] at hb ⊢
      exact List.rel_append (h.takes _ hb.1) (htakes hb.2)
    · simp only [State.entered, Function.update_of_ne hf] at hb ⊢
      exact h.takes fd hb
  · have hacc := h.account f
    have hsplit := e.count_handed f
    simp only [State.entered, List.count_append]
    omega

theorem Book.Inv.step (h : b.Inv φ n m pieces kept) (hsmall : act.Small)
    (hu : Unchanged φ n b.state act) (hint : Intact mc b.state act)
    (hs : Book.step n m mc b act = some b') : ∃ pieces' kept', b'.Inv φ n m pieces' kept' := by
  obtain ⟨s', hs', rfl⟩ := Option.map_eq_some_iff.mp hs
  rcases he : enter m mc b.state act with _ | e
  · obtain ⟨given, hhanded, hbroken, hstep⟩ := stepOut_audited he hs' (fun fd => (pieces fd).flatten) kept
    have hnone : enter m mc (b.state.audited (fun fd => (pieces fd).flatten) kept) act = none := by
      rw [enter_audited, he]
    have hr : Regular m mc (b.state.audited (fun fd => (pieces fd).flatten) kept) act := by
      refine ⟨fun e' he' => ?_, hsmall⟩
      rw [hnone] at he'
      cases he'
    have hu' : Unchanged φ n (b.state.audited (fun fd => (pieces fd).flatten) kept) act := by
      cases act <;> exact hu
    have hint' : Intact mc (b.state.audited (fun fd => (pieces fd).flatten) kept) act := by
      cases act <;> exact hint
    have hno : NoRawFatal (b.state.audited (fun fd => (pieces fd).flatten) kept) act := by
      cases act with
      | submit => cases he
      | _ => trivial
    refine ⟨pieces, kept ++ given, h.data.step hr hu' hint' hstep, h.fin.step h.data hr hint' hno hstep,
      fun fd hb => h.takes fd (by rwa [hbroken] at hb), fun f => ?_⟩
    have hacc := h.account f
    simp only [hhanded, List.count_append]
    omega
  · obtain ⟨rfl, -⟩ := stepOut_enter he hs'
    have hfd : e.fd < n := by
      unfold stepOut at hs'
      rw [he] at hs'
      simp only at hs'
      split_ifs at hs' with hc
      exact hc.1
    exact h.entered hsmall hint he hfd

/-- What any call may do: allocations may fail and the kernel may answer anything; every vector fits its
tag, and no `memcpy` goes wrong. -/
def Exhausting (mc : Memcpy) (b : Book) (act : Action) : Prop := act.Small ∧ Intact mc b.state act

theorem exhausted_inv (h : (bookSystem n m mc).Reachable
    (fun b act => Exhausting mc b act ∧ Unchanged φ n b.state act) b) :
    ∃ pieces kept, b.Inv φ n m pieces kept := by
  apply h.invariant
  · rintro b ⟨world, rfl⟩
    exact ⟨_, _, .start world⟩
  · rintro b act b' - ⟨pieces, kept, hi⟩ ⟨⟨hsmall, hint⟩, hu⟩ hs
    exact hi.step hsmall hu hint hs

/-- Whichever allocations fail: at a descriptor that has had no fatal answer, what was accepted followed
by what is queued is made of one piece for each call, in their order. The piece of a call that returned is
all it was given, that of a call that threw is a beginning of it, and what `commit` has not sent when it
throws is in the caller's `xfer`. -/
theorem exhausted_pieces {fd : ℕ} (hfd : fd < n)
    (h : (bookSystem n m mc).Reachable
      (fun b act => Exhausting mc b act ∧ Unchanged id n b.state act) b)
    (hb : b.state.broken fd = false) :
    ∃ pieces, List.Forall₂ Commit.Takes (b.commits fd) pieces ∧
      b.state.wire fd ++ items b.state.world (b.state.ctx fd).recs = pieces.flatten := by
  obtain ⟨pieces, kept, hi⟩ := exhausted_inv h
  refine ⟨pieces fd, hi.takes fd hb, ?_⟩
  have hstream := hi.data.stream fd hfd hb
  simp only [List.map_id] at hstream
  exact hstream

/-- A staged `xfer` finds a queue that cannot grow, is sent in part when the queue is empty and cannot grow
again, and is queued at the third try; then a `writev` cannot be queued. -/
def exhaustedCommits : List Action :=
  [.push 0 (.iovec [⟨16, 4⟩, ⟨24, 1⟩, ⟨25, 1⟩, ⟨26, 1⟩]) (some fun _ => 0),
    .push 0 (.iovec [⟨32, 2⟩]) (some fun _ => 0), .write 0 40 1 [] (some fun _ => 0), .goOn 0, .goOn 0,
    .commit 0 0 [] none, .pollWait [0], .pollPush, .next, .writeEvent 0 [.count 1], .goOn 0, .goOn 0,
    .goOn 0, .commit 0 0 [.count 2] none, .commit 0 0 [] (some fun _ => 0), .goOn 0, .goOn 0,
    .submit 0 (.writev (List.replicate 8 ⟨64, 1⟩) 7 9) (fun _ => 0) [] none]

theorem exhausted_pieces_staged : ∃ b, (bookSystem 1 1 .ascending).Reachable
      (fun b act => Exhausting .ascending b act ∧ Unchanged id 1 b.state act) b ∧
    (b.commits 0).map (·.returned) = [true, false, false, true, false] ∧
    ∃ pieces, List.Forall₂ Commit.Takes (b.commits 0) pieces ∧
      b.state.wire 0 ++ items b.state.world (b.state.ctx 0).recs = pieces.flatten := by
  obtain ⟨b, hb, hq⟩ := System.exists_reachable_of_exec (S := bookSystem 1 1 .ascending)
    (P := fun b act => (act.Small ∧ overlaps b.state act = false) ∧ Unchanged id 1 b.state act)
    (s := ⟨.start addressWorld, fun _ => [], [], []⟩) exhaustedCommits
    (fun b => decide ((b.commits 0).map (·.returned) = [true, false, false, true, false] ∧
      b.state.broken 0 = false)) ⟨_, rfl⟩ (by decide +kernel)
  obtain ⟨hreturned, hbroken⟩ := of_decide_eq_true hq
  have hb' := hb.mono
    (Q := fun b act => Exhausting .ascending b act ∧ Unchanged id 1 b.state act)
    fun _ _ _ h => ⟨⟨h.1.1, .inr h.1.2⟩, h.2⟩
  exact ⟨b, hb', hreturned, exhausted_pieces (by decide) hb' hbroken⟩

/-- The objects deleted once everything is destroyed: by `object_delete`, and by the `auto_ptr` of a caller
whose call has thrown. -/
def Book.deleted (n m : ℕ) (b : Book) : List Finalizer := calledInAll n m b.state ++ b.thrown

/-- Whichever allocations fail and whatever the kernel answers: each object given away is deleted as often
as it was given, once when it was given once, by its finalizer or by the caller whose call threw, never by
both. The exception are the calls that return although a fatal answer has ended their stream, whose
objects nobody deletes. -/
theorem exhausted_finalizers (h : (bookSystem n m mc).Reachable (Exhausting mc) b) (f : Finalizer) :
    (b.deleted n m).count f + b.leaked.count f = b.state.handed.count f := by
  obtain ⟨pieces, kept, hi⟩ := exhausted_inv (φ := Item.shape)
    (h.mono fun _ _ _ hp => ⟨hp, unchanged_shape⟩)
  have hfin := hi.fin f
  have hacc := hi.account f
  have hctx := count_flatMap_destroy hi.data.ctx f n
  have hxfers := count_flatMap_destroy hi.data.xfers f m
  simp only [State.audited] at hfin hctx hxfers
  rw [Book.deleted, calledInAll, List.count_append, List.count_append, List.count_append]
  omega

/-- The same calls: the object of the `writev` is the caller's to delete, and it is deleted once. -/
theorem exhausted_finalizers_staged : ∃ b, (bookSystem 1 1 .ascending).Reachable (Exhausting .ascending) b ∧
    b.thrown = [(7, 9)] ∧ (b.deleted 1 1).count (7, 9) = 1 := by
  obtain ⟨b, hb, hq⟩ := System.exists_reachable_of_exec (S := bookSystem 1 1 .ascending)
    (P := fun b act => act.Small ∧ overlaps b.state act = false)
    (s := ⟨.start addressWorld, fun _ => [], [], []⟩) exhaustedCommits
    (fun b => decide (b.state.handed = [(7, 9)] ∧ b.thrown = [(7, 9)] ∧ b.leaked = [])) ⟨_, rfl⟩
    (by decide +kernel)
  obtain ⟨hhanded, hthrown, hleaked⟩ := of_decide_eq_true hq
  have hb' := hb.mono (Q := Exhausting .ascending) fun _ _ _ h => ⟨h.1, .inr h.2⟩
  have hcount := exhausted_finalizers hb' (7, 9)
  rw [hhanded, hleaked] at hcount
  exact ⟨b, hb', hthrown, hcount⟩

end Mpio.Wavy
