import Mpio.Wavy.Record

/-!
# `mp::wavy::xfer`

The growing block in which records are queued. `m_head == NULL` is `block = none`; `m_tail` is kept as
its distance from `m_head`. The functions follow `mpsrc/wavy_out.cc` and the destructor in
`mp/wavy.hmpl`. `realloc` fails for any size from `2 ^ 63` on, and otherwise when the environment
says so.

`Holds x rs` says that the block is as long as `m_tail - m_head + m_free` and that the records `rs` are
queued in it. Each operation has one lemma that says what it does to the list of records.
-/

namespace Mpio.Wavy

open Lib

/-- The members of an `xfer`. -/
structure Xfer where
  block : Option (List UInt8)
  tail : ℕ
  free : ℕ
  deriving DecidableEq

namespace Xfer

/-- `xfer::xfer()`. -/
def new : Xfer := ⟨none, 0, 0⟩

def empty (x : Xfer) : Bool := x.tail == 0

/-- The allocated bytes; none while `m_head` is `NULL`. -/
def mem (x : Xfer) : List UInt8 := x.block.getD []

/-- The bytes in `[m_head, m_tail)`. -/
def bytes (x : Xfer) : List UInt8 := x.mem.take x.tail

/-- The records queued. -/
def recs (x : Xfer) : List Rec := decode x.mem x.tail x.tail 0

/-- The bytes `realloc` finds behind the old block, or `none` when it fails. -/
abbrev Junk := Option (ℕ → UInt8)

def reserve (x : Xfer) (reqsz : ℕ) (junk : Junk) : Xfer × Outcome :=
  let used := x.tail
  match doubleUntil (wrap (reqsz + used)) 64 (wrap ((used + x.free) * 2 + 72)) with
  | none => (x, .diverges)
  | some nsize =>
    match junk with
    | none => (x, .badAlloc)
    | some junk =>
      if nsize < 2 ^ 63 then
        (⟨some (resize x.mem nsize junk), used, wsub nsize used⟩, .ok)
      else (x, .badAlloc)

/-- `if(m_free < sz) { reserve(sz); }`, then `sz` bytes written from `m_tail` on. -/
def push (x : Xfer) (sz : ℕ) (fill : List UInt8 → ℕ → List UInt8) (junk : Junk) : Xfer × Outcome :=
  let r := if x.free < sz then x.reserve sz junk else (x, .ok)
  match r.2 with
  | .ok => (⟨r.1.block.map (fill · r.1.tail), r.1.tail + sz, r.1.free - sz⟩, .ok)
  | o => (r.1, o)

def pushWrite (x : Xfer) (buf size : UInt64) (junk : Junk) : Xfer × Outcome :=
  x.push sizeofMem (fillMem · · buf size) junk

def pushWritev (x : Xfer) (vec : List IoVec) (junk : Junk) : Xfer × Outcome :=
  x.push (sizeofIovec vec.length) (fillIovec (fromArray vec) · · vec.length) junk

def pushSendfile (x : Xfer) (infd : UInt32) (off len : UInt64) (junk : Junk) : Xfer × Outcome :=
  x.push sizeofSendfile (fillSendfile · · infd off len) junk

def pushFinalize (x : Xfer) (fin user : UInt64) (junk : Junk) : Xfer × Outcome :=
  x.push sizeofFinalize (fillFinalize · · fin user) junk

/-- `push_xfraw`, from a buffer outside the block. -/
def pushXfraw (x : Xfer) (buf : List UInt8) (size : ℕ) (junk : Junk) : Xfer × Outcome :=
  x.push size (patch · · (buf.take size)) junk

/-- `migrate`: the source and the target afterwards. -/
def migrate (x dst : Xfer) (junk : Junk) : Xfer × Xfer × Outcome :=
  match dst.block with
  | none => (new, x, .ok)
  | some _ =>
    let r := dst.pushXfraw x.mem x.tail junk
    match r.2 with
    | .ok => (⟨x.block, 0, x.free + x.tail⟩, r.1, .ok)
    | o => (x, r.1, o)

/-- The loop of `clear`: the finalizers it calls, each with its argument. -/
def clearLoop (blk : List UInt8) (tail : ℕ) : ℕ → ℕ → List (UInt64 × UInt64)
  | 0, _ => []
  | fuel + 1, p =>
    if p < tail then
      match readRec blk p with
      | .sendfile .. => clearLoop blk tail fuel (p + sizeofSendfile)
      | .finalize fin user =>
        (if fin = 0 then [] else [(fin, user)]) ++ clearLoop blk tail fuel (p + sizeofFinalize)
      | .iovec vec => clearLoop blk tail fuel (p + sizeofIovec vec.length)
    else []

/-- `clear`, with the finalizers it calls. -/
def clear (x : Xfer) : Xfer × List (UInt64 × UInt64) :=
  (⟨x.block, 0, x.free + x.tail⟩, clearLoop x.mem x.tail x.tail 0)

end Xfer

/-! ## The queue as a list of records -/

/-- The finalizers among the records, in order. A `NULL` function is not called. -/
def finalizers : List Rec → List (UInt64 × UInt64)
  | [] => []
  | .finalize fin user :: rs => (if fin = 0 then [] else [(fin, user)]) ++ finalizers rs
  | .iovec _ :: rs | .sendfile .. :: rs => finalizers rs

theorem finalizers_append (rs rs' : List Rec) :
    finalizers (rs ++ rs') = finalizers rs ++ finalizers rs' := by
  induction rs with
  | nil => rfl
  | cons r rs ih => cases r <;> simp [finalizers, ih]

namespace Xfer

variable {x y : Xfer} {rs rs' : List Rec}

/-- The block is exactly as long as its members say, and `rs` are queued in it. -/
structure Holds (x : Xfer) (rs : List Rec) : Prop where
  length : x.mem.length = x.tail + x.free
  small : x.tail + x.free < 2 ^ 63
  encodes : Encodes x.bytes rs

theorem holds_new : Holds new [] := ⟨rfl, by decide, .nil⟩

theorem Holds.recs_eq (h : Holds x rs) : x.recs = rs :=
  decode_eq h.encodes (by rw [h.length]; omega)

theorem Holds.self (h : Holds x rs) : Holds x x.recs := by rwa [h.recs_eq]

theorem Holds.length_bytes (h : Holds x rs) : x.bytes.length = x.tail := by
  rw [bytes, List.length_take, h.length]
  omega

theorem Holds.empty_iff (h : Holds x rs) : x.tail = 0 ↔ rs = [] := by
  rw [← h.encodes.nil_iff, ← List.length_eq_zero_iff, h.length_bytes]

theorem Holds.reserve (h : Holds x rs) {sz : ℕ} {junk : Junk} (hsz : sz < 2 ^ 63)
    (hok : x.reserve sz junk = (y, .ok)) :
    Holds y rs ∧ y.tail = x.tail ∧ sz ≤ y.free ∧ y.block.isSome := by
  have hsmall := h.small
  have hlen := h.length
  unfold Xfer.reserve at hok
  rcases hd : doubleUntil (wrap (sz + x.tail)) 64 (wrap ((x.tail + x.free) * 2 + 72)) with _ | nsize
  · simp [hd] at hok
  · rcases junk with _ | junk
    · simp [hd] at hok
    · simp only [hd] at hok
      have hlt : nsize < 2 ^ 63 := by
        by_contra hnot
        rw [if_neg hnot] at hok
        simp at hok
      rw [if_pos hlt] at hok
      obtain ⟨rfl, -⟩ := Prod.mk.inj hok
      have hge := doubleUntil_ge hd
      rw [wrap_of_lt (by omega)] at hge
      have hfree : wsub nsize x.tail = nsize - x.tail := wsub_of_le (by omega) (by omega)
      -- the block may also have become smaller than it was: what counts is the queue in it
      have hbytes : (resize x.mem nsize junk).take x.tail = x.mem.take x.tail := by
        rw [resize, List.take_append_of_le_length (by simp; omega), List.take_take]
        congr 1
        omega
      refine ⟨⟨?_, ?_, ?_⟩, rfl, ?_, rfl⟩
      · simp only [mem, Option.getD_some, resize, List.length_append, List.length_take,
          List.length_map, List.length_range, hfree] at hlen ⊢
        omega
      · simp only [hfree]
        omega
      · have := h.encodes
        simp only [bytes, mem, Option.getD_some] at this hbytes ⊢
        rwa [hbytes]
      · simp only [hfree]
        omega

/-- What one push achieves: `fill` writes its `sz` bytes behind the queue. -/
theorem Holds.push (h : Holds x rs) {sz : ℕ} {fill : List UInt8 → ℕ → List UInt8} {junk : Junk}
    (hsz : sz < 2 ^ 63)
    (hfill : ∀ blk pos, pos + sz ≤ blk.length → (fill blk pos).length = blk.length ∧
      ∃ b, Encodes b rs' ∧ (fill blk pos).take (pos + sz) = blk.take pos ++ b)
    (hok : x.push sz fill junk = (y, .ok)) : Holds y (rs ++ rs') := by
  obtain ⟨x', hx', hroom, hy⟩ : ∃ x', Holds x' rs ∧ sz ≤ x'.free ∧
      y = ⟨x'.block.map (fill · x'.tail), x'.tail + sz, x'.free - sz⟩ := by
    unfold Xfer.push at hok
    by_cases hlt : x.free < sz
    · rw [if_pos hlt] at hok
      rcases hr : x.reserve sz junk with ⟨x', o⟩
      rw [hr] at hok
      cases o with
      | ok =>
        obtain ⟨hx', -, hroom, -⟩ := h.reserve hsz hr
        exact ⟨x', hx', hroom, (Prod.mk.inj hok).1.symm⟩
      | badAlloc => simp at hok
      | diverges => simp at hok
    · rw [if_neg hlt] at hok
      exact ⟨x, h, by omega, (Prod.mk.inj hok).1.symm⟩
  have hlen := hx'.length
  have hsmall := hx'.small
  obtain ⟨hl, b, hb, htake⟩ := hfill x'.mem x'.tail (by omega)
  subst hy
  rcases hblk : x'.block with _ | blk
  · -- nothing is allocated, so `sz` is 0
    have hmem : x'.mem = [] := by simp [mem, hblk]
    have ht : x'.tail = 0 := by simp [hmem] at hlen; omega
    have hf : x'.free = 0 := by simp [hmem] at hlen; omega
    have hsz0 : sz = 0 := by omega
    have hb0 : b = [] := by
      rw [hmem] at hl htake
      simpa [List.length_eq_zero_iff.mp (by simpa using hl)] using htake.symm
    have hrs' : rs' = [] := hb.nil_iff.mp hb0
    have hrs : rs = [] := hx'.empty_iff.mp ht
    subst hsz0 hrs hrs'
    simp only [ht, hf, Option.map_none, Nat.add_zero, List.append_nil]
    exact holds_new
  · have hmem : x'.mem = blk := by simp [mem, hblk]
    rw [hmem] at hl htake hlen
    refine ⟨?_, ?_, ?_⟩
    · simp only [mem, Option.map_some, Option.getD_some, hl]
      omega
    · simp only
      omega
    · have henc := hx'.encodes
      rw [bytes, hmem] at henc
      simp only [bytes, mem, Option.map_some, Option.getD_some, htake]
      exact henc.append hb

theorem Holds.pushRec (h : Holds x rs) {r : Rec} {fill : List UInt8 → ℕ → List UInt8} {junk : Junk}
    (hsz : r.size < 2 ^ 63)
    (hfill : ∀ blk pos, pos + r.size ≤ blk.length → Fills blk (fill blk pos) pos r)
    (hok : x.push r.size fill junk = (y, .ok)) : Holds y (rs ++ [r]) := by
  apply h.push hsz _ hok
  intro blk pos hroom
  obtain ⟨hlen, b, hb, htake⟩ := hfill blk pos hroom
  exact ⟨hlen, b, .singleton hb, htake⟩

theorem Holds.pushWrite (h : Holds x rs) {buf size : UInt64} {junk : Junk}
    (hok : x.pushWrite buf size junk = (y, .ok)) : Holds y (rs ++ [.iovec [⟨buf, size⟩]]) :=
  h.pushRec (r := .iovec [⟨buf, size⟩])
    (by simp [Rec.size, sizeofIovec, sizeofXferType, sizeofStructIovec])
    (fun _ _ => fillMem_fills buf size) hok

theorem Holds.pushWritev (h : Holds x rs) {vec : List IoVec} {junk : Junk} (hv : vec.length < 2 ^ 31)
    (hok : x.pushWritev vec junk = (y, .ok)) : Holds y (rs ++ [.iovec vec]) := by
  refine h.pushRec (r := .iovec vec) ?_ (fun _ _ => fillIovec_fills hv) hok
  simp only [Rec.size, sizeofIovec, sizeofXferType, sizeofStructIovec]
  omega

theorem Holds.pushSendfile (h : Holds x rs) {infd : UInt32} {off len : UInt64} {junk : Junk}
    (hok : x.pushSendfile infd off len junk = (y, .ok)) :
    Holds y (rs ++ [.sendfile infd off len]) :=
  h.pushRec (r := .sendfile infd off len) (by simp [Rec.size, sizeofSendfile, sizeofXferType])
    (fun _ _ => fillSendfile_fills infd off len) hok

theorem Holds.pushFinalize (h : Holds x rs) {fin user : UInt64} {junk : Junk}
    (hok : x.pushFinalize fin user junk = (y, .ok)) : Holds y (rs ++ [.finalize fin user]) :=
  h.pushRec (r := .finalize fin user) (by simp [Rec.size, sizeofFinalize, sizeofXferType])
    (fun _ _ => fillFinalize_fills fin user) hok

theorem Holds.pushXfraw (h : Holds x rs) {buf : List UInt8} {size : ℕ} {junk : Junk}
    (hb : Encodes (buf.take size) rs') (hle : size ≤ buf.length) (hsz : size < 2 ^ 63)
    (hok : x.pushXfraw buf size junk = (y, .ok)) : Holds y (rs ++ rs') := by
  have hlen : (buf.take size).length = size := List.length_take_of_le hle
  apply h.push hsz _ hok
  intro blk pos hroom
  have htake := @take_patch _ blk (buf.take size) pos (by omega)
  rw [hlen] at htake
  exact ⟨length_patch (by omega), buf.take size, hb, htake⟩

theorem Holds.emptied (h : Holds x rs) : Holds ⟨x.block, 0, x.free + x.tail⟩ [] := by
  refine ⟨?_, ?_, ?_⟩
  · have := h.length
    simp only [mem] at this ⊢
    omega
  · have := h.small
    simp only
    omega
  · simpa [bytes] using Encodes.nil

theorem Holds.migrate {x' y' : Xfer} {junk : Junk} (hx : Holds x rs) (hy : Holds y rs')
    (hok : x.migrate y junk = (x', y', .ok)) : Holds x' [] ∧ Holds y' (rs' ++ rs) := by
  unfold Xfer.migrate at hok
  rcases hblk : y.block with _ | blk
  · rw [hblk] at hok
    obtain ⟨rfl, h2⟩ := Prod.mk.inj hok
    obtain ⟨rfl, -⟩ := Prod.mk.inj h2
    have hmem : y.mem = [] := by simp [mem, hblk]
    have hlen := hy.length
    have : rs' = [] := hy.empty_iff.mp (by simp [hmem] at hlen; omega)
    subst this
    exact ⟨holds_new, by simpa using hx⟩
  · rw [hblk] at hok
    rcases hr : y.pushXfraw x.mem x.tail junk with ⟨z, o⟩
    simp only [hr] at hok
    cases o with
    | ok =>
      obtain ⟨rfl, h2⟩ := Prod.mk.inj hok
      obtain ⟨rfl, -⟩ := Prod.mk.inj h2
      have hsmall := hx.small
      have hlen := hx.length
      exact ⟨hx.emptied, hy.pushXfraw hx.encodes (by omega) (by omega) hr⟩
    | badAlloc => simp at hok
    | diverges => simp at hok

theorem clearLoop_middle {a b c : List UInt8} (h : Encodes b rs) (fuel : ℕ)
    (hfuel : b.length ≤ fuel) :
    clearLoop (a ++ (b ++ c)) (a.length + b.length) fuel a.length = finalizers rs := by
  induction h generalizing a fuel with
  | nil =>
    cases fuel with
    | zero => rfl
    | succ fuel => simp [clearLoop, finalizers]
  | @cons r b bytes rs hr _ ih =>
    have hlen := hr.length
    have hpos := r.size_pos
    rw [List.length_append] at hfuel
    obtain ⟨fuel, rfl⟩ : ∃ k, fuel = k + 1 := ⟨fuel - 1, by omega⟩
    have hread : readRec (a ++ (b ++ bytes ++ c)) a.length = r := by
      rw [List.append_assoc]
      exact readRec_middle hr
    have hnext := @ih (a ++ b) fuel (by omega)
    simp only [List.length_append, hlen, List.append_assoc] at hnext hread ⊢
    rw [clearLoop, if_pos (by omega), hread, ← Nat.add_assoc]
    cases r with
    | iovec vec => simpa [finalizers, Rec.size] using hnext
    | sendfile infd off len => simpa [finalizers, Rec.size] using hnext
    | finalize fin user =>
      simp only [finalizers]
      congr 1

/-- `clear` runs the queued finalizers in order and empties the queue. -/
theorem Holds.clear (h : Holds x rs) : Holds x.clear.1 [] ∧ x.clear.2 = finalizers rs := by
  refine ⟨h.emptied, ?_⟩
  have hlen := h.length_bytes
  have := clearLoop_middle (a := []) (c := x.mem.drop x.tail) h.encodes x.tail (by omega)
  rw [hlen] at this
  simpa [Xfer.clear, bytes] using this

/-! ## Operations that throw -/

/-- `reserve` changes the members only when it returns. -/
theorem reserve_throws (sz : ℕ) (junk : Junk) (h : (x.reserve sz junk).2 ≠ .ok) :
    (x.reserve sz junk).1 = x := by
  unfold Xfer.reserve at h ⊢
  rcases hd : doubleUntil (wrap (sz + x.tail)) 64 (wrap ((x.tail + x.free) * 2 + 72)) with _ | nsize
  · simp only [hd]
  · rcases junk with _ | junk
    · simp only [hd]
    · simp only [hd] at h ⊢
      split_ifs at h ⊢ with hlt
      · exact absurd rfl h
      · rfl

theorem push_throws (sz : ℕ) (fill : List UInt8 → ℕ → List UInt8) (junk : Junk)
    (h : (x.push sz fill junk).2 ≠ .ok) : (x.push sz fill junk).1 = x := by
  unfold Xfer.push at h ⊢
  by_cases hlt : x.free < sz
  · simp only [if_pos hlt] at h ⊢
    have hthrows := reserve_throws (x := x) sz junk
    rcases hr : (x.reserve sz junk).2 with _ | _ | _ <;> rw [hr] at h hthrows
    · exact absurd rfl h
    · exact hthrows (by decide)
    · exact hthrows (by decide)
  · simp only [if_neg hlt] at h
    exact absurd rfl h

theorem migrate_throws {dst : Xfer} (junk : Junk) (h : (x.migrate dst junk).2.2 ≠ .ok) :
    (x.migrate dst junk).1 = x ∧ (x.migrate dst junk).2.1 = dst := by
  unfold Xfer.migrate at h ⊢
  rcases hblk : dst.block with _ | blk
  · rw [hblk] at h
    exact absurd rfl h
  · simp only [hblk] at h ⊢
    have hthrows : (dst.pushXfraw x.mem x.tail junk).2 ≠ .ok →
        (dst.pushXfraw x.mem x.tail junk).1 = dst := push_throws _ _ junk
    rcases hr : (dst.pushXfraw x.mem x.tail junk).2 with _ | _ | _ <;> rw [hr] at h hthrows
    · exact absurd rfl h
    · exact ⟨rfl, hthrows (by decide)⟩
    · exact ⟨rfl, hthrows (by decide)⟩

theorem reserve_returns {sz : ℕ} (junk : Junk) (hfree : x.free < sz) (hsz : x.tail + sz < 2 ^ 62) :
    (x.reserve sz junk).2 ≠ .diverges := by
  obtain ⟨m, hm⟩ : ∃ m, doubleUntil (wrap (sz + x.tail)) 64 (wrap ((x.tail + x.free) * 2 + 72)) =
      some m := by
    rw [wrap_of_lt (by omega), wrap_of_lt (by omega)]
    by_cases hstart : (x.tail + x.free) * 2 + 72 < 2 ^ 63
    · obtain ⟨m, hm, -⟩ := doubleUntil_spec (sz + x.tail) ((x.tail + x.free) * 2 + 72) 64 (by omega)
        (by omega) hstart (by omega)
      exact ⟨m, hm⟩
    · exact ⟨_, by rw [doubleUntil, if_neg (by omega)]⟩
  simp only [Xfer.reserve, hm]
  rcases junk with _ | junk
  · simp
  · simp only
    split_ifs <;> simp

theorem push_returns {sz : ℕ} (fill : List UInt8 → ℕ → List UInt8) (junk : Junk)
    (hsz : x.tail + sz < 2 ^ 62) : (x.push sz fill junk).2 ≠ .diverges := by
  unfold Xfer.push
  by_cases hlt : x.free < sz
  · simp only [if_pos hlt]
    have hreturns := reserve_returns junk hlt hsz
    rcases hr : (x.reserve sz junk).2 with _ | _ | _ <;> rw [hr] at hreturns
    · simp
    · simp
    · exact absurd rfl hreturns
  · simp [if_neg hlt]

theorem migrate_returns {dst : Xfer} (junk : Junk) (hsz : dst.tail + x.tail < 2 ^ 62) :
    (x.migrate dst junk).2.2 ≠ .diverges := by
  unfold Xfer.migrate
  rcases hblk : dst.block with _ | blk
  · simp
  · simp only
    have hreturns : (dst.pushXfraw x.mem x.tail junk).2 ≠ .diverges := push_returns _ junk hsz
    rcases hr : (dst.pushXfraw x.mem x.tail junk).2 with _ | _ | _ <;> rw [hr] at hreturns
    · simp
    · simp
    · exact absurd rfl hreturns

end Xfer

end Mpio.Wavy
