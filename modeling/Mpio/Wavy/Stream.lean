import Mpio.Wavy.Watch

/-!
# What reaches a descriptor

The work of each critical section is described by `Sends`: what was accepted and called, followed by
what the queue denotes afterwards, is what the queue denoted before followed by what was committed.
`DataInv` carries this along a run: as long as no fatal answer has ended the stream of a descriptor,
its `wire` followed by its queue is its `payload`. It is stated up to a function of the items. The
identity asks that queued memory does not change; `Item.shape`, which forgets the value of a byte, asks
nothing.

`stream_intact` is the byte stream without fatal answers. Its runs are restricted by one condition
that the code does not ensure: no `memcpy` of `fill_iovec` gets overlapping ranges, or the
implementation copies downwards correctly. `stream_garbled` is a run with an implementation of
`memcpy` for which the stream breaks.
-/

namespace Mpio.Wavy

open Lib

variable {n m : ℕ} {mc : Memcpy} {s s' : State} {act : Action} {w : World}
  {β : Type} {φ : Item → β}

/-! ## The stack buffers -/

/-- The vector of the record fits its tag. -/
def Rec.Small : Rec → Prop
  | .iovec vec => vec.length < 2 ^ 31
  | .sendfile .. | .finalize .. => True

instance (r : Rec) : Decidable r.Small :=
  match r with
  | .iovec vec => inferInstanceAs (Decidable (vec.length < 2 ^ 31))
  | .sendfile .. | .finalize .. => inferInstanceAs (Decidable True)

/-- A buffer of `size` bytes whose first `pos` bytes are the records `rs`. -/
structure Built (size : ℕ) (blk : List UInt8) (pos : ℕ) (rs : List Rec) : Prop where
  length : blk.length = size
  encodes : Encodes (blk.take pos) rs

theorem built_fresh (size : ℕ) (stack : ℕ → UInt8) : Built size (fresh size stack) 0 [] := by
  refine ⟨length_fresh size stack, ?_⟩
  rw [List.take_zero]
  exact .nil

theorem Built.fill {size pos : ℕ} {blk blk' : List UInt8} {rs : List Rec}
    (h : Built size blk pos rs) (r : Rec) (hf : pos + r.size ≤ blk.length → Fills blk blk' pos r)
    {pos' : ℕ} (hpos : pos + r.size = pos') (hroom : pos' ≤ size) :
    Built size blk' pos' (rs ++ [r]) := by
  obtain ⟨hlen, b, hb, htake⟩ := hf (by rw [h.length]; omega)
  refine ⟨by rw [hlen, h.length], ?_⟩
  rw [← hpos, htake]
  exact h.encodes.append (.singleton hb)

theorem Built.done {size : ℕ} {blk : List UInt8} {rs : List Rec} (h : Built size blk size rs)
    (hsize : size < 2 ^ 63) : Encodes blk rs ∧ blk.length < 2 ^ 63 := by
  have := h.encodes
  rw [← h.length, List.take_length] at this
  exact ⟨this, by rw [h.length]; exact hsize⟩

theorem Call.encodes (call : Call) (stack : ℕ → UInt8) (h : ∀ r ∈ call.recs, r.Small) :
    Encodes (call.xfbuf stack) call.recs ∧ (call.xfbuf stack).length < 2 ^ 63 := by
  have hsz (k : ℕ) : sizeofIovec k = 4 + 16 * k := rfl
  have hsf : sizeofSendfile = 28 := rfl
  have hfin : sizeofFinalize = 20 := rfl
  cases call with
  | write buf size fin user =>
    have h1 : Built _ _ sizeofMem _ := (built_fresh (sizeofMem + sizeofFinalize) stack).fill
      (.iovec [⟨buf, size⟩]) (fillMem_fills buf size) rfl (by omega)
    have h2 := h1.fill (.finalize fin user) (fillFinalize_fills fin user) rfl le_rfl
    exact h2.done (by decide)
  | writev vec fin user =>
    have hv : vec.length < 2 ^ 31 := h _ (List.mem_cons_self ..)
    have h1 := (built_fresh (sizeofIovec vec.length + sizeofFinalize) stack).fill (.iovec vec)
      (fillIovec_fills hv) (Nat.zero_add _) (by simp only [Rec.size]; omega)
    have h2 := h1.fill (.finalize fin user) (fillFinalize_fills fin user) rfl le_rfl
    exact h2.done (by have := hsz vec.length; omega)
  | sendfile infd off size fin user =>
    have h1 := (built_fresh (sizeofSendfile + sizeofFinalize) stack).fill (.sendfile infd off size)
      (fillSendfile_fills infd off size) (Nat.zero_add _) (by simp only [Rec.size]; omega)
    have h2 := h1.fill (.finalize fin user) (fillFinalize_fills fin user) rfl le_rfl
    exact h2.done (by decide)
  | hsendfile header headerSize infd off size fin user =>
    have h1 : Built _ _ sizeofMem _ :=
      (built_fresh (sizeofMem + sizeofSendfile + sizeofFinalize) stack).fill
        (.iovec [⟨header, headerSize⟩]) (fillMem_fills header headerSize) rfl (by omega)
    have h2 := h1.fill (.sendfile infd off size) (fillSendfile_fills infd off size) rfl
      (by simp only [Rec.size]; omega)
    have h3 := h2.fill (.finalize fin user) (fillFinalize_fills fin user) rfl le_rfl
    exact h3.done (by decide)
  | hvsendfile vec infd off size fin user =>
    have hv : vec.length < 2 ^ 31 := h _ (List.mem_cons_self ..)
    have h1 := (built_fresh (sizeofIovec vec.length + sizeofSendfile + sizeofFinalize) stack).fill
      (.iovec vec) (fillIovec_fills hv) (Nat.zero_add _) (by simp only [Rec.size]; omega)
    have h2 := h1.fill (.sendfile infd off size) (fillSendfile_fills infd off size) rfl
      (by simp only [Rec.size]; omega)
    have h3 := h2.fill (.finalize fin user) (fillFinalize_fills fin user) rfl le_rfl
    exact h3.done (by have := hsz vec.length; omega)

/-! ## Logs -/

theorem fins_append (l l' : List Item) : fins (l ++ l') = fins l ++ fins l' := by
  induction l with
  | nil => rfl
  | cons i l ih => cases i <;> simp [fins, ih]

theorem bytesOf_append (l l' : List Item) : bytesOf (l ++ l') = bytesOf l ++ bytesOf l' := by
  induction l with
  | nil => rfl
  | cons i l ih => cases i <;> simp [bytesOf, ih]

theorem fins_bytes (l : List UInt8) : fins (l.map .byte) = [] := by
  induction l with
  | nil => rfl
  | cons b l ih => simp [fins, ih]

theorem fins_items (w : World) (rs : List Rec) : fins (items w rs) = finalizers rs := by
  induction rs with
  | nil => rfl
  | cons r rs ih =>
    rw [items_cons, fins_append, ih]
    cases r with
    | iovec vec => simp [Rec.items, fins_bytes, finalizers]
    | sendfile infd off len => simp [Rec.items, fins_bytes, finalizers]
    | finalize fin user =>
      simp only [Rec.items, finItem, finalizers]
      split_ifs <;> rfl

/-- The finalizers called by `execute` and those left are those queued. -/
theorem execRecs_fins (w : World) (rs : List Rec) (as : List Answer) :
    fins (execRecs w rs as).log ++ finalizers (execRecs w rs as).recs = finalizers rs := by
  rw [← fins_items w, ← fins_append, execRecs_items, fins_items]

/-! ## The work of a critical section -/

/-- The queue held `rs`; `pay` and the finalizers `given` were committed, and the caller keeps the
finalizers `left`. Unless the stream ended, nothing is lost or out of order; unless `lost`, every
finalizer is called, queued or left. -/
structure Section.Sends (w : World) (rs : List Rec) (pay : List Item) (given left : List Finalizer)
    (lost : Prop) (work : Section) : Prop where
  holds : work.ctx.Holds work.ctx.recs
  sent : work.fatal = false → work.log ++ items w work.ctx.recs = items w rs ++ pay
  done : work.stage = .remove → work.fatal = false → work.ctx.recs = []
  fatal : (∀ c ∈ work.calls, ¬ c.2.Fatal) → work.fatal = false
  account : ¬ lost →
    fins work.log ++ finalizers work.ctx.recs ++ left = finalizers rs ++ given

theorem watchAfter_ne_remove (o : Outcome) : watchAfter o ≠ .remove := by
  unfold watchAfter
  split_ifs <;> simp

theorem watchAfter_ne_clear (o : Outcome) : watchAfter o ≠ .clear := by
  unfold watchAfter
  split_ifs <;> simp

theorem World.take_iov_skip (w : World) (v : IoVec) {k : ℕ} (h : k ≤ v.iovLen.toNat) :
    (w.iov v).take k ++ w.iov (v.skip k) = w.iov v := by
  have hdrop : (w.iov v).drop k = w.iov (v.skip k) := drop_rangeOf w.mem v.iovBase v.iovLen h
  rw [← hdrop, List.take_append_drop]

theorem items_iov (w : World) (v : IoVec) : (Rec.iovec [v]).items w = (w.iov v).map .byte := by
  simp [Rec.items, World.vec]

theorem out.write_sends {ctx : Xfer} {rs : List Rec} (hx : ctx.Holds rs) {buf size : UInt64}
    {as : List Answer} {junk : Xfer.Junk} (hok : (out.write w ctx buf size as junk).outcome = .ok) :
    (out.write w ctx buf size as junk).Sends w rs ((Rec.iovec [⟨buf, size⟩]).items w) [] [] False := by
  have hrs := hx.recs_eq
  have hpush {b l : UInt64} (h : (ctx.pushWrite b l junk).2 = .ok) :
      (ctx.pushWrite b l junk).1.Holds (rs ++ [.iovec [⟨b, l⟩]]) := hx.pushWrite (Prod.ext rfl h)
  have hfin (v : IoVec) : finalizers (rs ++ [.iovec [v]]) = finalizers rs := by
    simp [finalizers_append, finalizers]
  simp only [out.write] at hok ⊢
  split_ifs at hok ⊢ with he hfatal hall
  · exact ⟨hx.self, by simp, by simp, fun h => absurd hfatal (h _ (List.mem_singleton.mpr rfl)),
      by simp [fins, hrs]⟩
  · have hnil : rs = [] := hx.empty_iff.mp (Xfer.empty_iff.mp he)
    have htake : ((Rec.iovec [⟨buf, size⟩]).items w).take (answer as).accepted =
        (Rec.iovec [⟨buf, size⟩]).items w := by
      apply List.take_of_length_le
      rw [items_iov, List.length_map, World.iov, length_rangeOf]
      exact hall.2
    refine ⟨hx.self, fun _ => ?_, by simp, fun _ => rfl, fun _ => ?_⟩
    · simp [htake, hrs, hnil]
    · simp only [htake, hrs, hnil]
      rw [items_iov, fins_bytes]
      rfl
  · have hnil : rs = [] := hx.empty_iff.mp (Xfer.empty_iff.mp he)
    have hle : (answer as).accepted ≤ size.toNat := by
      by_contra hgt
      exact hall ⟨by omega, by omega⟩
    have hp := hpush hok
    refine ⟨hp.self, fun _ => ?_, fun h => absurd h (watchAfter_ne_remove _), fun _ => rfl, fun _ => ?_⟩
    · rw [hp.recs_eq, hnil, List.nil_append, items_iov, ← List.map_take]
      simp only [items, List.flatMap_cons, List.flatMap_nil, List.append_nil, List.nil_append]
      rw [items_iov, ← List.map_append]
      exact congrArg _ (w.take_iov_skip ⟨buf, size⟩ hle)
    · rw [hp.recs_eq, hfin, items_iov, ← List.map_take, fins_bytes, List.nil_append]
  · have hp := hpush hok
    refine ⟨hp.self, fun _ => ?_, by simp, fun _ => rfl, fun _ => ?_⟩
    · rw [hp.recs_eq, items_append]
      simp [items]
    · rw [hp.recs_eq, hfin]
      simp [fins]

theorem out.commitRaw_sends {ctx : Xfer} {rs new : List Rec} (hx : ctx.Holds rs)
    {xfbuf : List UInt8} (henc : Encodes xfbuf new) (hlen : xfbuf.length < 2 ^ 63) {as : List Answer}
    {junk : Xfer.Junk} (hint : mc.CopiesDown ∨ (ctx.empty && overlapAt 0 new as) = false)
    (hok : (out.commitRaw w mc ctx xfbuf as junk).outcome = .ok) :
    (out.commitRaw w mc ctx xfbuf as junk).Sends w rs (items w new) (finalizers new) []
      (finalizers new ≠ [] ∧ (out.commitRaw w mc ctx xfbuf as junk).fatal = true) := by
  have hrs := hx.recs_eq
  have href := @execute_refines w mc xfbuf xfbuf.length new (by rwa [List.take_length]) le_rfl as
  simp only [out.commitRaw] at hok ⊢
  obtain ⟨e, he⟩ : ∃ e, execute w mc xfbuf.length xfbuf.length xfbuf 0 as = e := ⟨_, rfl⟩
  rw [he] at href hok ⊢
  have hitems := execRecs_items w new as
  have hfins := execRecs_fins w new as
  rw [← href.log] at hitems hfins
  split_ifs at hok ⊢ with hemp hcont
  · have hnil : rs = [] := hx.empty_iff.mp (Xfer.empty_iff.mp hemp)
    have hleft := href.encodes (by simpa [hemp] using hint)
    have htail := href.tail
    have hblk := href.length
    have hp := hx.pushXfraw hleft (by omega) (by omega) (Prod.ext rfl hok)
    refine ⟨hp.self, fun _ => ?_, fun h => absurd h (watchAfter_ne_remove _), fun _ => rfl, fun _ => ?_⟩
    · simp [hp.recs_eq, hnil, hitems]
    · simp [hp.recs_eq, hnil, hfins, finalizers]
  · have hnil : rs = [] := hx.empty_iff.mp (Xfer.empty_iff.mp hemp)
    have hleft := href.encodes (by simpa [hemp] using hint)
    have hall (h : (e.tail != 0) = false) : (execRecs w new as).recs = [] := by
      have hz : e.tail = 0 := by simpa using h
      rw [hz, List.take_zero] at hleft
      exact hleft.nil_iff.mp rfl
    refine ⟨hx.self, fun h => ?_, by simp, fun h => ?_, fun h => ?_⟩
    · rw [hall h] at hitems
      simpa [hrs, hnil] using hitems
    · rw [execRecs_done w new as (href.calls ▸ h) (by rw [← href.cont]; simpa using hcont)] at hleft
      have hz := congrArg List.length (hleft.nil_iff.mpr rfl)
      rw [List.length_take, href.length, Nat.min_eq_left href.tail] at hz
      simpa using hz
    · by_cases hnone : finalizers new = []
      · have hlog : fins e.log = [] := by
          rw [hnone] at hfins
          exact (List.append_eq_nil_iff.mp hfins).1
        simp [hlog, hnone, hrs, hnil, finalizers]
      · rw [hall (by simpa using not_and.mp h hnone)] at hfins
        simpa [hrs, hnil, finalizers] using hfins
  · have hp := hx.pushXfraw (by rwa [List.take_length]) le_rfl hlen (Prod.ext rfl hok)
    refine ⟨hp.self, fun _ => ?_, by simp, fun _ => rfl, fun _ => ?_⟩
    · simp [hp.recs_eq, items_append]
    · simp [hp.recs_eq, finalizers_append, fins]

theorem out.commit_sends {ctx xf : Xfer} {rs rx : List Rec} (hx : ctx.Holds rs) (hf : xf.Holds rx)
    {as : List Answer} {junk : Xfer.Junk}
    (hint : mc.CopiesDown ∨ (ctx.empty && overlapAt 0 rx as) = false)
    (hok : (out.commit w mc ctx xf as junk).1.outcome = .ok) :
    (out.commit w mc ctx xf as junk).1.Sends w rs (items w rx) (finalizers rx)
      (finalizers (out.commit w mc ctx xf as junk).2.recs) False ∧
    (out.commit w mc ctx xf as junk).2.Holds (out.commit w mc ctx xf as junk).2.recs := by
  have hrs := hx.recs_eq
  obtain ⟨hcont', hlog, hcalls, hleft'⟩ := hf.tryWrite w mc as
  have hitems := execRecs_items w rx as
  have hfins := execRecs_fins w rx as
  rw [← hlog] at hitems hfins
  simp only [out.commit] at hok ⊢
  obtain ⟨t, ht⟩ : ∃ t, xf.tryWrite w mc as = t := ⟨_, rfl⟩
  rw [ht] at hcont' hlog hcalls hleft' hitems hfins hok ⊢
  split_ifs at hok ⊢ with hemp hcont
  · have hnil : rs = [] := hx.empty_iff.mp (Xfer.empty_iff.mp hemp)
    have hleft := hleft' (by simpa [hemp] using hint)
    obtain ⟨hp1, hp2⟩ := hleft.migrate hx (Prod.ext rfl (Prod.ext rfl hok))
    refine ⟨⟨hp2.self, fun _ => ?_, fun h => absurd h (watchAfter_ne_remove _), fun _ => rfl,
      fun _ => ?_⟩, hp1.self⟩
    · simp [hp2.recs_eq, hnil, hitems]
    · simp [hp1.recs_eq, hp2.recs_eq, hnil, hfins, finalizers]
  · have hnil : rs = [] := hx.empty_iff.mp (Xfer.empty_iff.mp hemp)
    have hleft := hleft' (by simpa [hemp] using hint)
    refine ⟨⟨hx.self, fun h => ?_, by simp, fun h => ?_, fun _ => ?_⟩, hleft.self⟩
    · have hz : t.1.tail = 0 := Xfer.empty_iff.mp (by simpa using h)
      rw [hleft.empty_iff.mp hz] at hitems
      simpa [hrs, hnil] using hitems
    · have hnone := execRecs_done w rx as (hcalls ▸ h) (by rw [← hcont']; simpa using hcont)
      simpa [Xfer.empty_iff] using hleft.empty_iff.mpr hnone
    · simpa [hrs, hnil, finalizers, hleft.recs_eq] using hfins
  · obtain ⟨hp1, hp2⟩ := hf.migrate hx (Prod.ext rfl (Prod.ext rfl hok))
    refine ⟨⟨hp2.self, fun _ => ?_, by simp, fun _ => rfl, fun _ => ?_⟩, hp1.self⟩
    · simp [hp2.recs_eq, items_append]
    · simp [hp1.recs_eq, hp2.recs_eq, finalizers_append, fins, finalizers]

theorem out.writeEvent_sends {ctx : Xfer} {rs : List Rec} (hx : ctx.Holds rs) {as : List Answer}
    (hint : mc.CopiesDown ∨ overlapAt 0 rs as = false) :
    (out.writeEvent w mc ctx as).Sends w rs [] [] [] False := by
  obtain ⟨hcont, hlog, hcalls, hleft'⟩ := hx.tryWrite w mc as
  have hleft := hleft' hint
  have hitems := execRecs_items w rs as
  have hfins := execRecs_fins w rs as
  rw [← hlog, ← hleft.recs_eq] at hitems hfins
  refine ⟨hleft.self, fun _ => by simpa [out.writeEvent] using hitems, fun hst hfat => ?_, fun h => ?_,
    fun _ => by simpa [out.writeEvent] using hfins⟩
  · have hncont : (ctx.tryWrite w mc as).2.1.cont = false := by
      by_contra hcont
      simp [out.writeEvent, hcont] at hst
    simp only [out.writeEvent, hncont] at hfat
    have hz : (ctx.tryWrite w mc as).1.tail = 0 := Xfer.empty_iff.mp (by simpa using hfat)
    show (ctx.tryWrite w mc as).1.recs = []
    rw [hleft.recs_eq]
    exact hleft.empty_iff.mp hz
  · by_cases hc : (ctx.tryWrite w mc as).2.1.cont = true
    · simp [out.writeEvent, hc]
    · have hnone := execRecs_done w rs as (hcalls ▸ h) (by rw [← hcont]; simpa using hc)
      have hz := hleft.empty_iff.mpr hnone
      simp [out.writeEvent, Xfer.empty, hz]

/-! ## Runs -/

/-- Every vector committed or pushed fits its tag. -/
def Action.Small : Action → Prop
  | .submit _ call _ _ _ => ∀ r ∈ call.recs, r.Small
  | .push _ r _ => r.Small
  | _ => True

/-- An item without the value of its byte. -/
def Item.shape : Item → Option Finalizer
  | .byte _ => none
  | .fin f user => some (f, user)

/-- Memory and files that a queue refers to do not change. -/
def Unchanged (φ : Item → β) (n : ℕ) (s : State) : Action → Prop
  | .rewrite world =>
    ∀ fd < n, (items world (s.ctx fd).recs).map φ = (items s.world (s.ctx fd).recs).map φ
  | _ => True

/-- The kernel answers each call with `EAGAIN`, `EINTR` or a count between 1 and the bytes offered. -/
def BenignAnswers (m : ℕ) (mc : Memcpy) (s : State) (act : Action) : Prop :=
  ∀ e ∈ enter m mc s act, ∀ c ∈ e.work.calls, c.2.Benign c.1

/-- Whether the step compacts a vector onto itself: the kernel's answers stop a `writev` of the queue it
executes where the entries left overlap their new place. -/
def overlaps (s : State) : Action → Bool
  | .submit fd call _ as _ => (s.ctx fd).empty && overlapAt 0 call.recs as
  | .commit fd k as _ => (s.ctx fd).empty && overlapAt 0 (s.xfers k).recs as
  | .writeEvent fd as => overlapAt 0 (s.ctx fd).recs as
  | _ => false

/-- No allocation fails and every vector fits its tag. -/
structure Regular (m : ℕ) (mc : Memcpy) (s : State) (act : Action) : Prop where
  alloc : AllocOk m mc s act
  small : act.Small

instance (act : Action) : Decidable act.Small :=
  match act with
  | .submit _ call _ _ _ => inferInstanceAs (Decidable (∀ r ∈ call.recs, r.Small))
  | .push _ r _ => inferInstanceAs (Decidable r.Small)
  | .write .. | .commit .. | .writeEvent .. | .goOn .. | .pollWait .. | .pollPush | .next
  | .migrate .. | .clearXfer .. | .rewrite .. => inferInstanceAs (Decidable True)

instance [DecidableEq β] (s : State) (act : Action) : Decidable (Unchanged φ n s act) :=
  match act with
  | .rewrite world => inferInstanceAs (Decidable
    (∀ fd < n, (items world (s.ctx fd).recs).map φ = (items s.world (s.ctx fd).recs).map φ))
  | .write .. | .submit .. | .commit .. | .writeEvent .. | .goOn .. | .pollWait .. | .pollPush | .next
  | .push .. | .migrate .. | .clearXfer .. => inferInstanceAs (Decidable True)

instance (s : State) (act : Action) : Decidable (BenignAnswers m mc s act) :=
  inferInstanceAs (Decidable (∀ e ∈ enter m mc s act, ∀ c ∈ e.work.calls, c.2.Benign c.1))

instance (s : State) (act : Action) : Decidable (Regular m mc s act) :=
  decidable_of_iff (AllocOk m mc s act ∧ act.Small) ⟨fun h => ⟨h.1, h.2⟩, fun h => ⟨h.alloc, h.small⟩⟩

/-- No `memcpy` goes wrong. -/
def Intact (mc : Memcpy) (s : State) (act : Action) : Prop := mc.CopiesDown ∨ overlaps s act = false

structure DataInv (φ : Item → β) (n : ℕ) (s : State) : Prop where
  ctx : ∀ fd, (s.ctx fd).Holds (s.ctx fd).recs
  xfers : ∀ k, (s.xfers k).Holds (s.xfers k).recs
  stream : ∀ fd < n, s.broken fd = false →
    (s.wire fd).map φ ++ (items s.world (s.ctx fd).recs).map φ = (s.payload fd).map φ
  closing : ∀ fd, s.cs fd = .remove ∨ s.cs fd = .clear → s.broken fd = false → (s.ctx fd).recs = []

theorem DataInv.start (world : World) : DataInv φ n (.start world) where
  ctx _ := Xfer.holds_new.self
  xfers _ := Xfer.holds_new.self
  stream _ _ _ := rfl
  closing _ h _ := by rcases h with h | h <;> cases h

theorem holds_update {f : ℕ → Xfer} (hf : ∀ k, (f k).Holds (f k).recs) {x : Xfer} {rs : List Rec}
    (hx : x.Holds rs) (k : ℕ) :
    ∀ k', (Function.update f k x k').Holds (Function.update f k x k').recs :=
  (Function.forall_update_iff f fun _ (y : Xfer) => y.Holds y.recs).mpr ⟨hx.self, fun k' _ => hf k'⟩

/-- How often a finalizer is queued in an `xfer`. -/
def pending (f : Finalizer) (x : Xfer) : ℕ := (finalizers x.recs).count f

/-- What an entry into a critical section does to the data. -/
structure Entry.Sends (m : ℕ) (s : State) (e : Entry) (lost : Prop) : Prop where
  holds : e.work.ctx.Holds e.work.ctx.recs
  sent : e.work.fatal = false →
    e.work.log ++ items s.world e.work.ctx.recs = items s.world (s.ctx e.fd).recs ++ e.payload
  done : e.work.stage = .remove → e.work.fatal = false → e.work.ctx.recs = []
  notClear : e.work.stage ≠ .clear
  fatal : (∀ c ∈ e.work.calls, ¬ c.2.Fatal) → e.work.fatal = false
  xfers : ∀ k, (e.xfers k).Holds (e.xfers k).recs
  account : ¬ lost → ∀ f,
    (fins e.work.log).count f + pending f e.work.ctx + ∑ k ∈ Finset.range m, pending f (e.xfers k) =
      pending f (s.ctx e.fd) + ∑ k ∈ Finset.range m, pending f (s.xfers k) + e.handed.count f

theorem Section.Sends.entry {fd : ℕ} {work : Section} {pay : List Item} {given : List Finalizer}
    {lost : Prop} (h : DataInv φ n s) (hw : work.Sends s.world (s.ctx fd).recs pay given [] lost)
    (hclear : work.stage ≠ .clear) (taken : List ℕ) :
    Entry.Sends m s ⟨fd, work, pay, s.xfers, taken, given⟩ lost := by
  refine ⟨hw.holds, hw.sent, hw.done, hclear, hw.fatal, h.xfers, fun hl f => ?_⟩
  have := congrArg (List.count f) (hw.account hl)
  simp only [List.count_append, List.count_nil] at this
  simp only [pending]
  omega

theorem enter_sends (h : DataInv φ n s) (hr : Regular m mc s act) (hint : Intact mc s act) {e : Entry}
    (he : enter m mc s act = some e) :
    e.Sends m s (∃ fd call stack as junk, act = .submit fd call stack as junk ∧
      finalizers call.recs ≠ [] ∧ e.work.fatal = true) := by
  have hok := hr.alloc e he
  cases act with
  | write fd buf size as junk =>
    obtain rfl := Option.some.inj he
    have hw := out.write_sends (h.ctx fd) hok
    refine Section.Sends.entry h ⟨hw.holds, hw.sent, hw.done, hw.fatal, fun _ => hw.account (by simp)⟩ ?_ _
    simp only [out.write]
    split_ifs
    · simp
    · simp
    · exact watchAfter_ne_clear _
    · simp
  | submit fd call stack as junk =>
    obtain rfl := Option.some.inj he
    obtain ⟨henc, hlen⟩ := call.encodes stack hr.small
    have hw := out.commitRaw_sends (h.ctx fd) henc hlen hint hok
    refine Section.Sends.entry h
      ⟨hw.holds, hw.sent, hw.done, hw.fatal, fun hl => hw.account fun hf => hl ⟨_, _, _, _, _, rfl, hf⟩⟩ ?_ _
    simp only [out.commitRaw]
    split_ifs
    · exact watchAfter_ne_clear _
    · simp
    · simp
  | commit fd k as junk =>
    simp only [enter] at he
    split_ifs at he with hk
    obtain rfl := Option.some.inj he
    obtain ⟨hw, hx⟩ := out.commit_sends (h.ctx fd) (h.xfers k) hint hok
    refine ⟨hw.holds, hw.sent, hw.done, ?_, hw.fatal, holds_update h.xfers hx k, fun _ f => ?_⟩
    · simp only [out.commit]
      split_ifs
      · exact watchAfter_ne_clear _
      · simp
      · simp
    · have hacc := congrArg (List.count f) (hw.account (by simp))
      have hsum := sum_update hk (pending f) s.xfers
        (out.commit s.world mc (s.ctx fd) (s.xfers k) as junk).2
      simp only [List.count_append, List.count_nil] at hacc ⊢
      simp only [pending] at hsum hacc ⊢
      omega
  | writeEvent fd as =>
    simp only [enter] at he
    split_ifs at he with ht
    obtain rfl := Option.some.inj he
    have hw := out.writeEvent_sends (w := s.world) (h.ctx fd) hint
    refine Section.Sends.entry h ⟨hw.holds, hw.sent, hw.done, hw.fatal, fun _ => hw.account (by simp)⟩ ?_ _
    simp only [out.writeEvent]
    split_ifs <;> simp
  | _ => cases he

theorem DataInv.entered (h : DataInv φ n s) {e : Entry} {lost : Prop} (he : e.Sends m s lost) :
    DataInv φ n (s.entered e) := by
  refine ⟨fun fd => ?_, he.xfers, fun fd hfd hb => ?_, fun fd hst hb => ?_⟩
  · by_cases hf : fd = e.fd
    · subst hf
      simpa [State.entered] using he.holds
    · simpa [State.entered, Function.update_of_ne hf] using h.ctx fd
  · by_cases hf : fd = e.fd
    · subst hf
      simp only [State.entered, Function.update_self, Bool.or_eq_false_iff] at hb ⊢
      rw [List.map_append, List.append_assoc, ← List.map_append, he.sent hb.2, List.map_append,
        ← List.append_assoc, h.stream _ hfd hb.1, ← List.map_append]
    · simp only [State.entered, Function.update_of_ne hf] at hb ⊢
      exact h.stream fd hfd hb
  · by_cases hf : fd = e.fd
    · subst hf
      simp only [State.entered, Function.update_self, Bool.or_eq_false_iff] at hst hb ⊢
      rcases hst with hst | hst
      · exact he.done hst hb.2
      · exact absurd hst he.notClear
    · simp only [State.entered, Function.update_of_ne hf] at hst hb ⊢
      exact h.closing fd hst hb

theorem DataInv.goOn (h : DataInv φ n s) {fd : ℕ} (hs : s.goOn fd = some s') : DataInv φ n s' := by
  -- a stage that leaves the queues alone and does not lead to `clear` unless it comes from `remove`
  have hstage (s' : State) (stage : Stage) (hctx : s'.ctx = s.ctx) (hx : s'.xfers = s.xfers)
      (hwire : s'.wire = s.wire) (hpay : s'.payload = s.payload) (hb : s'.broken = s.broken)
      (hw : s'.world = s.world) (hcs : s'.cs = Function.update s.cs fd stage)
      (hne : stage ≠ .remove) (hclear : stage = .clear → s.cs fd = .remove) : DataInv φ n s' := by
    refine ⟨hctx ▸ h.ctx, hx ▸ h.xfers, ?_, fun fd' hst hbr => ?_⟩
    · rw [hctx, hwire, hpay, hb, hw]
      exact h.stream
    · rw [hcs] at hst
      rw [hb] at hbr
      rw [hctx]
      by_cases hf : fd' = fd
      · subst hf
        rw [Function.update_self] at hst
        exact h.closing fd' (.inl (hclear (hst.resolve_left hne))) hbr
      · rw [Function.update_of_ne hf] at hst
        exact h.closing fd' hst hbr
  simp only [State.goOn] at hs
  cases hcase : s.cs fd with
  | idle => simp [hcase] at hs
  | addFd | incr | reactivate | decr =>
    rw [hcase] at hs
    obtain rfl := Option.some.inj hs
    exact hstage _ _ rfl rfl rfl rfl rfl rfl rfl (by simp) (by simp)
  | remove =>
    rw [hcase] at hs
    obtain rfl := Option.some.inj hs
    exact hstage _ .clear rfl rfl rfl rfl rfl rfl rfl (by simp) (fun _ => hcase)
  | clear =>
    rw [hcase] at hs
    obtain rfl := Option.some.inj hs
    have hcl := (h.ctx fd).clear.1
    refine ⟨holds_update h.ctx hcl fd, h.xfers, fun fd' hfd' hb => ?_, fun fd' hst hb => ?_⟩
    · by_cases hf : fd' = fd
      · subst hf
        simp only [Function.update_self, hcl.recs_eq]
        rw [← h.closing fd' (.inr hcase) hb]
        exact h.stream fd' hfd' hb
      · simp only [Function.update_of_ne hf]
        exact h.stream fd' hfd' hb
    · by_cases hf : fd' = fd
      · subst hf
        simp at hst
      · simp only [Function.update_of_ne hf] at hst ⊢
        exact h.closing fd' hst hb

theorem Xfer.Holds.pushRec_ok {x y : Xfer} {rs : List Rec} {r : Rec} {junk : Xfer.Junk}
    (h : x.Holds rs) (hr : r.Small) (hok : x.pushRec junk r = (y, .ok)) : y.Holds (rs ++ [r]) := by
  unfold Xfer.pushRec at hok
  split at hok
  · exact h.pushWrite hok
  · exact h.pushWritev hr hok
  · exact h.pushSendfile hok
  · exact h.pushFinalize hok

/-- A step outside the critical sections leaves the descriptors alone; only the callers' own objects and
the memory change. -/
structure Elsewhere (s : State) (act : Action) (s' : State) : Prop where
  ctx : s'.ctx = s.ctx
  xfers : ∀ k, (s'.xfers k).Holds (s'.xfers k).recs
  cs : s'.cs = s.cs
  wire : s'.wire = s.wire
  payload : s'.payload = s.payload
  broken : s'.broken = s.broken
  world : s'.world = s.world ∨ act = .rewrite s'.world

theorem Elsewhere.items (h : Elsewhere s act s') (hu : Unchanged φ n s act) {fd : ℕ} (hfd : fd < n) :
    (items s'.world (s'.ctx fd).recs).map φ = (items s.world (s.ctx fd).recs).map φ := by
  rw [h.ctx]
  rcases h.world with hw | rfl
  · rw [hw]
  · exact hu fd hfd

theorem stepOut_elsewhere (hx : ∀ k, (s.xfers k).Holds (s.xfers k).recs) (hsmall : act.Small)
    (he : enter m mc s act = none) (hs : stepOut n m mc s act = some s') :
    (∃ fd, s.goOn fd = some s') ∨ Elsewhere s act s' := by
  cases stepOut_cases hs with
  | entered he' _ _ _ =>
    rw [he] at he'
    cases he'
  | goOn _ hgo => exact .inl ⟨_, hgo⟩
  | pollWait | pollPush | next => exact .inr ⟨rfl, hx, rfl, rfl, rfl, rfl, .inl rfl⟩
  | @push k r junk hact hk hok =>
    subst hact
    have hp := (hx k).pushRec_ok hsmall (Prod.ext rfl hok)
    exact .inr ⟨rfl, holds_update hx hp k, rfl, rfl, rfl, rfl, .inl rfl⟩
  | @migrate k l junk hk hl hkl hok =>
    obtain ⟨h1, h2⟩ := (hx k).migrate (hx l) (Prod.ext rfl (Prod.ext rfl hok))
    exact .inr ⟨rfl, holds_update (holds_update hx h1 k) h2 l, rfl, rfl, rfl, rfl, .inl rfl⟩
  | @clearXfer k hk =>
    exact .inr ⟨rfl, holds_update hx (hx k).clear.1 k, rfl, rfl, rfl, rfl, .inl rfl⟩
  | rewrite hact => exact .inr ⟨rfl, hx, rfl, rfl, rfl, rfl, .inr hact⟩

theorem DataInv.step (h : DataInv φ n s) (hr : Regular m mc s act) (hu : Unchanged φ n s act)
    (hint : Intact mc s act) (hs : stepOut n m mc s act = some s') : DataInv φ n s' := by
  rcases he : enter m mc s act with _ | e
  · obtain ⟨fd, hgo⟩ | hel := stepOut_elsewhere h.xfers hr.small he hs
    · exact h.goOn hgo
    · refine ⟨hel.ctx ▸ h.ctx, hel.xfers, fun fd hfd hb => ?_, ?_⟩
      · rw [hel.broken] at hb
        rw [hel.wire, hel.items hu hfd, hel.payload]
        exact h.stream fd hfd hb
      · rw [hel.cs, hel.broken, hel.ctx]
        exact h.closing
  · obtain ⟨rfl, -⟩ := stepOut_enter he hs
    exact h.entered (enter_sends h hr hint he)

/-- Rewriting memory does not change the shape of what is queued. -/
theorem unchanged_shape : Unchanged Item.shape n s act := by
  have hbytes (l l' : List UInt8) (h : l.length = l'.length) :
      (l.map Item.byte).map Item.shape = (l'.map Item.byte).map Item.shape := by
    simp [Function.comp_def, Item.shape, h]
  cases act with
  | rewrite world =>
    intro fd _
    induction (s.ctx fd).recs with
    | nil => rfl
    | cons r rs ih =>
      rw [items_cons, items_cons, List.map_append, List.map_append, ih]
      congr 1
      cases r with
      | iovec vec => exact hbytes _ _ (by rw [World.length_vec, World.length_vec])
      | sendfile infd off len => exact hbytes _ _ (by rw [length_rangeOf, length_rangeOf])
      | finalize fin user => rfl
  | _ => trivial

/-! ## The byte stream -/

/-- The bytes the kernel has accepted on `fd`. -/
def accepted (s : State) (fd : ℕ) : List UInt8 := bytesOf (s.wire fd)

/-- The bytes denoted by the queue of `fd`. -/
def queued (s : State) (fd : ℕ) : List UInt8 := bytesOf (items s.world (s.ctx fd).recs)

/-- The bytes committed to `fd`, in commit order. -/
def committed (s : State) (fd : ℕ) : List UInt8 := bytesOf (s.payload fd)

/-- The runs of the byte stream: queued memory is left alone, and the answers are benign. -/
def Streaming (n m : ℕ) (mc : Memcpy) (s : State) (act : Action) : Prop :=
  Regular m mc s act ∧ Unchanged id n s act ∧ BenignAnswers m mc s act

instance (s : State) (act : Action) : Decidable (Streaming n m mc s act) :=
  inferInstanceAs (Decidable (_ ∧ _))

/-- With benign answers no stream ends. -/
theorem step_unbroken (h : DataInv φ n s) (hr : Regular m mc s act) (hb : BenignAnswers m mc s act)
    (hint : Intact mc s act) (hno : ∀ fd, s.broken fd = false)
    (hs : stepOut n m mc s act = some s') (fd : ℕ) : s'.broken fd = false := by
  cases stepOut_cases hs with
  | @entered e he _ _ _ =>
    have hfat := (enter_sends h hr hint he).fatal fun c hc => (hb e he c hc).not_fatal
    by_cases hf : fd = e.fd
    · subst hf
      simp [State.entered, hno, hfat]
    · simp [State.entered, Function.update_of_ne hf, hno]
  | @goOn fd' s' _ hs' =>
    have hsame : s'.broken = s.broken := by
      simp only [State.goOn] at hs'
      cases hcase : s.cs fd' with
      | idle => simp [hcase] at hs'
      | addFd | incr | reactivate | remove | clear | decr =>
        rw [hcase] at hs'
        obtain rfl := Option.some.inj hs'
        rfl
    rw [hsame]
    exact hno fd
  | pollWait | pollPush | next | push | migrate | clearXfer | rewrite => exact hno fd

/-- What the kernel has accepted followed by what is queued is what was committed, in every run in
which no compaction of a partly sent vector copies between overlapping ranges, or `memcpy` copes. -/
theorem stream_intact {fd : ℕ} (hfd : fd < n)
    (h : (outSystem n m mc).Reachable (fun s act => Streaming n m mc s act ∧ Intact mc s act) s) :
    accepted s fd ++ queued s fd = committed s fd := by
  have hinv : DataInv id n s ∧ ∀ fd, s.broken fd = false := by
    apply h.invariant
    · rintro s ⟨world, rfl⟩
      exact ⟨.start world, fun _ => rfl⟩
    · rintro s act s' - ⟨hd, hno⟩ ⟨⟨hr, hu, hb⟩, hint⟩ hs
      exact ⟨hd.step hr hu hint hs, step_unbroken hd hr hb hint hno hs⟩
  have hstream := hinv.1.stream fd hfd (hinv.2 fd)
  simp only [List.map_id] at hstream
  rw [accepted, queued, committed, ← bytesOf_append, hstream]

/-- Memory in which every byte is its address. -/
def addressWorld : World := ⟨fun a => a.toUInt8, fun _ a => a.toUInt8⟩

/-- A `writev` of two entries, of which the kernel takes three bytes. -/
def splitWritev : List Action :=
  [.submit 0 (.writev [⟨16, 2⟩, ⟨32, 3⟩] 0 0) (fun _ => 0) [.count 3] (some fun _ => 0)]

theorem stream_intact_splitWritev :
    ∃ s, (outSystem 1 0 .descending).Reachable
        (fun s act => Streaming 1 0 .descending s act ∧ Intact .descending s act) s ∧
      accepted s 0 = [16, 17, 32] ∧ queued s 0 = [33, 34] ∧
      accepted s 0 ++ queued s 0 = committed s 0 := by
  obtain ⟨s, hs, hq⟩ := System.exists_reachable_of_exec (S := outSystem 1 0 .descending)
    (P := fun s act => Streaming 1 0 .descending s act ∧ overlaps s act = false)
    (s := .start addressWorld) splitWritev
    (fun s => decide (accepted s 0 = [16, 17, 32] ∧ queued s 0 = [33, 34])) ⟨_, rfl⟩
    (by decide +kernel)
  obtain ⟨h1, h2⟩ := of_decide_eq_true hq
  have hs' := hs.mono (Q := fun s act => Streaming 1 0 .descending s act ∧ Intact .descending s act)
    fun _ _ _ h => ⟨h.1, .inr h.2⟩
  exact ⟨s, hs', h1, h2, stream_intact (by decide) hs'⟩

/-- A `writev` of three entries that stops inside the second: the two entries left and their place at
the head overlap. -/
def overlappingWritev : List Action :=
  [.submit 0 (.writev [⟨16, 1⟩, ⟨32, 2⟩, ⟨48, 1⟩] 0 0) (fun _ => 0) [.count 2] (some fun _ => 0)]

/-- With a `memcpy` that copies the last byte first, the queue left denotes the third entry twice. -/
theorem stream_garbled :
    ∃ s, (outSystem 1 0 .descending).Reachable (Streaming 1 0 .descending) s ∧
      accepted s 0 = [16, 32] ∧ queued s 0 = [48, 48] ∧ committed s 0 = [16, 32, 33, 48] ∧
      accepted s 0 ++ queued s 0 ≠ committed s 0 := by
  obtain ⟨s, hs, hq⟩ := System.exists_reachable_of_exec (S := outSystem 1 0 .descending)
    (P := Streaming 1 0 .descending) (s := .start addressWorld) overlappingWritev
    (fun s => decide (accepted s 0 = [16, 32] ∧ queued s 0 = [48, 48] ∧
      committed s 0 = [16, 32, 33, 48])) ⟨_, rfl⟩ (by decide +kernel)
  obtain ⟨h1, h2, h3⟩ := of_decide_eq_true hq
  refine ⟨s, hs, h1, h2, h3, ?_⟩
  rw [h1, h2, h3]
  decide

end Mpio.Wavy
