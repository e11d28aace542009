import Mpio.Lib.Memory

/-!
# The records of an `xfer`

A queue is a run of records in one block of bytes, each an `xfer_type` tag and its fields
(`mpsrc/wavy_out.cc`, on x86-64: 4-byte tags, 16-byte `struct iovec`, `xfer_sendfile` with 4 bytes of
padding after `infd`). Records are written by the `fill_*` functions and read back where they lie.

`Encodes bytes rs` says that the bytes are the records `rs` one after the other; the padding of a
`sendfile` record is whatever the memory held. `decode` walks a block the way `clear` and `execute`
do, and finds `rs` (`decode_eq`). Each `fill_*` function appends one record (`Fills`).
-/

namespace Mpio.Wavy

open Lib

/-- `struct iovec`. -/
structure IoVec where
  iovBase : UInt64
  iovLen : UInt64
  deriving DecidableEq

/-- A record. The fields of a finalizer are a function pointer and its argument. -/
inductive Rec
  | iovec (vec : List IoVec)
  | sendfile (infd : UInt32) (off len : UInt64)
  | finalize (fin user : UInt64)
  deriving DecidableEq

/-! ## Layout -/

def XF_SENDFILE : ℕ := 1
def XF_FINALIZE : ℕ := 3

def sizeofXferType : ℕ := 4
def sizeofStructIovec : ℕ := 16

def sizeofMem : ℕ := sizeofXferType + sizeofStructIovec * 1
def sizeofIovec (veclen : ℕ) : ℕ := sizeofXferType + sizeofStructIovec * veclen
def sizeofSendfile : ℕ := sizeofXferType + 24
def sizeofFinalize : ℕ := sizeofXferType + 16

/-- How far `execute` and `clear` step over a record. -/
def Rec.size : Rec → ℕ
  | .iovec vec => sizeofIovec vec.length
  | .sendfile .. => sizeofSendfile
  | .finalize .. => sizeofFinalize

theorem Rec.size_pos (r : Rec) : 0 < r.size := by
  cases r <;> simp [Rec.size, sizeofIovec, sizeofSendfile, sizeofFinalize, sizeofXferType]

def iovBytes (v : IoVec) : List UInt8 := leBytes 8 v.iovBase.toNat ++ leBytes 8 v.iovLen.toNat

def vecBytes (vec : List IoVec) : List UInt8 := vec.flatMap iovBytes

@[simp] theorem length_iovBytes (v : IoVec) : (iovBytes v).length = 16 := by simp [iovBytes]

@[simp] theorem length_vecBytes (vec : List IoVec) : (vecBytes vec).length = 16 * vec.length := by
  induction vec with
  | nil => rfl
  | cons v vec ih =>
    simp only [vecBytes, List.flatMap_cons, List.length_append, length_iovBytes] at ih ⊢
    rw [ih, List.length_cons]
    ring

theorem vecBytes_append (a b : List IoVec) : vecBytes (a ++ b) = vecBytes a ++ vecBytes b := by
  simp [vecBytes]

theorem vecBytes_cons (v : IoVec) (vec : List IoVec) : vecBytes (v :: vec) = iovBytes v ++ vecBytes vec := by
  simp [vecBytes]

/-! ## Writing -/

def fillMem (blk : List UInt8) (pos : ℕ) (buf size : UInt64) : List UInt8 :=
  patch (patch blk pos (leBytes 4 (1 <<< 1))) (pos + 4) (iovBytes ⟨buf, size⟩)

/-- The entries come from the caller's array or, in `execute`, from further down the same block; the
`memcpy` is the argument. -/
def fillIovec (memcpy : List UInt8 → ℕ → List UInt8) (blk : List UInt8) (pos veclen : ℕ) : List UInt8 :=
  memcpy (patch blk pos (leBytes 4 (veclen <<< 1))) (pos + 4)

/-- `memcpy` from an array outside the block. -/
def fromArray (vec : List IoVec) (blk : List UInt8) (dst : ℕ) : List UInt8 :=
  patch blk dst (vecBytes vec)

def fillSendfile (blk : List UInt8) (pos : ℕ) (infd : UInt32) (off len : UInt64) : List UInt8 :=
  patch (patch (patch (patch blk pos (leBytes 4 XF_SENDFILE)) (pos + 4) (leBytes 4 infd.toNat))
    (pos + 12) (leBytes 8 off.toNat)) (pos + 20) (leBytes 8 len.toNat)

def fillFinalize (blk : List UInt8) (pos : ℕ) (fin user : UInt64) : List UInt8 :=
  patch (patch (patch blk pos (leBytes 4 XF_FINALIZE)) (pos + 4) (leBytes 8 fin.toNat))
    (pos + 12) (leBytes 8 user.toNat)

/-! ## Reading -/

def readWord (blk : List UInt8) (pos w : ℕ) : ℕ := ofLeBytes (slice blk pos w)

def readIov (blk : List UInt8) (pos : ℕ) : IoVec :=
  ⟨UInt64.ofNat (readWord blk pos 8), UInt64.ofNat (readWord blk (pos + 8) 8)⟩

def readVec (blk : List UInt8) : ℕ → ℕ → List IoVec
  | _, 0 => []
  | pos, n + 1 => readIov blk pos :: readVec blk (pos + 16) n

/-- `switch(*(xfer_type*)p)`, with the fields of the record at `p`. -/
def readRec (blk : List UInt8) (p : ℕ) : Rec :=
  let tag := readWord blk p 4
  if tag = XF_SENDFILE then
    .sendfile (UInt32.ofNat (readWord blk (p + 4) 4)) (UInt64.ofNat (readWord blk (p + 12) 8))
      (UInt64.ofNat (readWord blk (p + 20) 8))
  else if tag = XF_FINALIZE then
    .finalize (UInt64.ofNat (readWord blk (p + 4) 8)) (UInt64.ofNat (readWord blk (p + 12) 8))
  else .iovec (readVec blk (p + 4) (tag >>> 1))

/-- The records from `p` up to `endp`. Each step takes at least a tag, so `endp` bounds their number. -/
def decode (blk : List UInt8) (endp : ℕ) : ℕ → ℕ → List Rec
  | 0, _ => []
  | fuel + 1, p =>
    if p < endp then readRec blk p :: decode blk endp fuel (p + (readRec blk p).size) else []

/-! ## Encoded records -/

/-- The bytes of one record. -/
inductive Rec.Bytes : Rec → List UInt8 → Prop
  | iovec {vec : List IoVec} (h : vec.length < 2 ^ 31) :
      Rec.Bytes (.iovec vec) (leBytes 4 (vec.length <<< 1) ++ vecBytes vec)
  | sendfile {infd : UInt32} {off len : UInt64} {pad : List UInt8} (h : pad.length = 4) :
      Rec.Bytes (.sendfile infd off len)
        (leBytes 4 XF_SENDFILE ++ (leBytes 4 infd.toNat ++ (pad ++
          (leBytes 8 off.toNat ++ leBytes 8 len.toNat))))
  | finalize {fin user : UInt64} :
      Rec.Bytes (.finalize fin user)
        (leBytes 4 XF_FINALIZE ++ (leBytes 8 fin.toNat ++ leBytes 8 user.toNat))

/-- The bytes are the records one after the other. -/
inductive Encodes : List UInt8 → List Rec → Prop
  | nil : Encodes [] []
  | cons {r : Rec} {b bytes : List UInt8} {rs : List Rec} :
      r.Bytes b → Encodes bytes rs → Encodes (b ++ bytes) (r :: rs)

theorem Rec.Bytes.length {r : Rec} {b : List UInt8} (h : r.Bytes b) : b.length = r.size := by
  cases h <;>
    simp [*, Rec.size, sizeofIovec, sizeofSendfile, sizeofFinalize, sizeofXferType, sizeofStructIovec]

theorem Encodes.append {b b' : List UInt8} {rs rs' : List Rec} (h : Encodes b rs)
    (h' : Encodes b' rs') : Encodes (b ++ b') (rs ++ rs') := by
  induction h with
  | nil => exact h'
  | cons hr _ ih =>
    rw [List.append_assoc]
    exact .cons hr ih

theorem Encodes.singleton {r : Rec} {b : List UInt8} (h : r.Bytes b) : Encodes b [r] := by
  simpa using Encodes.cons h .nil

theorem Encodes.nil_iff {b : List UInt8} {rs : List Rec} (h : Encodes b rs) : b = [] ↔ rs = [] := by
  cases h with
  | nil => simp
  | @cons r b bytes rs hr _ =>
    have hpos : 0 < b.length := hr.length ▸ r.size_pos
    have : b ≠ [] := List.ne_nil_of_length_pos hpos
    simp [this]

/-! ## Reading an encoded record -/

theorem readWord_middle {a c : List UInt8} {w n pos : ℕ} (hpos : a.length = pos) (h : n < 256 ^ w) :
    readWord (a ++ (leBytes w n ++ c)) pos w = n := by
  have hs := slice_middle a (leBytes w n) c
  rw [length_leBytes, hpos] at hs
  rw [readWord, hs, ofLeBytes_leBytes h]

theorem readWord_64 {a c : List UInt8} {x : UInt64} {pos : ℕ} (hpos : a.length = pos) :
    UInt64.ofNat (readWord (a ++ (leBytes 8 x.toNat ++ c)) pos 8) = x := by
  rw [readWord_middle hpos (by simpa using x.toNat_lt), UInt64.ofNat_toNat]

theorem readWord_32 {a c : List UInt8} {x : UInt32} {pos : ℕ} (hpos : a.length = pos) :
    UInt32.ofNat (readWord (a ++ (leBytes 4 x.toNat ++ c)) pos 4) = x := by
  rw [readWord_middle hpos (by simpa using x.toNat_lt), UInt32.ofNat_toNat]

theorem readIov_middle {a c : List UInt8} {v : IoVec} {pos : ℕ} (hpos : a.length = pos) :
    readIov (a ++ (iovBytes v ++ c)) pos = v := by
  have hlen : a ++ (iovBytes v ++ c) =
      (a ++ leBytes 8 v.iovBase.toNat) ++ (leBytes 8 v.iovLen.toNat ++ c) := by simp [iovBytes]
  have hbase : a ++ (iovBytes v ++ c) =
      a ++ (leBytes 8 v.iovBase.toNat ++ (leBytes 8 v.iovLen.toNat ++ c)) := by simp [iovBytes]
  unfold readIov
  congr 1
  · rw [hbase, readWord_64 hpos]
  · rw [hlen, readWord_64 (by simp [hpos])]

theorem readVec_middle {a c : List UInt8} {vec : List IoVec} {pos : ℕ} (hpos : a.length = pos) :
    readVec (a ++ (vecBytes vec ++ c)) pos vec.length = vec := by
  induction vec generalizing a pos with
  | nil => rfl
  | cons v vec ih =>
    have hsplit : a ++ (vecBytes (v :: vec) ++ c) = (a ++ iovBytes v) ++ (vecBytes vec ++ c) := by
      simp [vecBytes_cons]
    rw [List.length_cons, readVec]
    congr 1
    · rw [hsplit, List.append_assoc, readIov_middle hpos]
    · rw [hsplit, ih (by simp [hpos])]

theorem readRec_middle {a b c : List UInt8} {r : Rec} (h : r.Bytes b) :
    readRec (a ++ (b ++ c)) a.length = r := by
  cases h with
  | @iovec vec hlen =>
    have htag : readWord (a ++ (leBytes 4 (vec.length <<< 1) ++ vecBytes vec ++ c)) a.length 4 =
        vec.length <<< 1 := by
      rw [List.append_assoc]
      exact readWord_middle rfl (by simp only [Nat.shiftLeft_eq]; omega)
    have hvec : readVec (a ++ (leBytes 4 (vec.length <<< 1) ++ vecBytes vec ++ c)) (a.length + 4)
        vec.length = vec := by
      rw [List.append_assoc, ← List.append_assoc a]
      exact readVec_middle (by simp)
    have hshift : vec.length <<< 1 >>> 1 = vec.length := by
      simp [Nat.shiftLeft_eq, Nat.shiftRight_eq_div_pow]
    have h1 : vec.length <<< 1 ≠ XF_SENDFILE := by
      simp only [Nat.shiftLeft_eq, XF_SENDFILE]; omega
    have h3 : vec.length <<< 1 ≠ XF_FINALIZE := by
      simp only [Nat.shiftLeft_eq, XF_FINALIZE]; omega
    simp only [readRec, htag, h1, h3, if_false, hshift, hvec]
  | @sendfile infd off len pad hpad =>
    simp only [List.append_assoc]
    have htag : readWord (a ++ (leBytes 4 XF_SENDFILE ++ (leBytes 4 infd.toNat ++ (pad ++
        (leBytes 8 off.toNat ++ (leBytes 8 len.toNat ++ c)))))) a.length 4 = XF_SENDFILE :=
      readWord_middle rfl (by decide)
    simp only [readRec, htag, if_true]
    congr 1
    · rw [← List.append_assoc a]
      exact readWord_32 (by simp)
    · rw [← List.append_assoc a, ← List.append_assoc _ _ (pad ++ _), ← List.append_assoc _ pad]
      exact readWord_64 (by simp [hpad])
    · rw [← List.append_assoc a, ← List.append_assoc _ _ (pad ++ _), ← List.append_assoc _ pad,
        ← List.append_assoc _ _ (leBytes 8 len.toNat ++ c)]
      exact readWord_64 (by simp [hpad])
  | @finalize fin user =>
    simp only [List.append_assoc]
    have htag : readWord (a ++ (leBytes 4 XF_FINALIZE ++ (leBytes 8 fin.toNat ++
        (leBytes 8 user.toNat ++ c)))) a.length 4 = XF_FINALIZE :=
      readWord_middle rfl (by decide)
    have hne : XF_FINALIZE ≠ XF_SENDFILE := by decide
    simp only [readRec, htag, hne, if_true, if_false]
    congr 1
    · rw [← List.append_assoc a]
      exact readWord_64 (by simp)
    · rw [← List.append_assoc a, ← List.append_assoc _ _ (leBytes 8 user.toNat ++ c)]
      exact readWord_64 (by simp)

/-- The walk over a run of records finds them. -/
theorem decode_middle {a bytes c : List UInt8} {rs : List Rec} (h : Encodes bytes rs) (fuel : ℕ)
    (hfuel : bytes.length ≤ fuel) :
    decode (a ++ (bytes ++ c)) (a.length + bytes.length) fuel a.length = rs := by
  induction h generalizing a fuel with
  | nil =>
    cases fuel with
    | zero => rfl
    | succ fuel => simp [decode]
  | @cons r b bytes rs hr _ ih =>
    have hlen := hr.length
    have hpos := r.size_pos
    rw [List.length_append] at hfuel
    obtain ⟨fuel, rfl⟩ : ∃ k, fuel = k + 1 := ⟨fuel - 1, by omega⟩
    have hread : readRec (a ++ (b ++ bytes ++ c)) a.length = r := by
      rw [List.append_assoc]
      exact readRec_middle hr
    have hnext := @ih (a ++ b) fuel (by omega)
    rw [decode, if_pos (by simp; omega), hread, ← hlen]
    congr 1
    simpa [Nat.add_assoc] using hnext

theorem decode_eq {blk : List UInt8} {tail : ℕ} {rs : List Rec} (h : Encodes (blk.take tail) rs)
    (ht : tail ≤ blk.length) : decode blk tail tail 0 = rs := by
  have hlen : (blk.take tail).length = tail := List.length_take_of_le ht
  have := decode_middle (a := []) (c := blk.drop tail) h tail (by omega)
  simpa [hlen] using this

/-! ## The `fill_*` functions append a record -/

/-- `blk'` is `blk` with the record `r` written from `pos` on. -/
structure Fills (blk blk' : List UInt8) (pos : ℕ) (r : Rec) : Prop where
  length : blk'.length = blk.length
  bytes : ∃ b, r.Bytes b ∧ blk'.take (pos + r.size) = blk.take pos ++ b

/-- Two adjacent writes, read together. -/
theorem take_patch_patch {l xs ys : List UInt8} {off : ℕ} (h : off + xs.length ≤ l.length) :
    (patch (patch l off xs) (off + xs.length) ys).take (off + xs.length + ys.length) =
      l.take off ++ (xs ++ ys) := by
  rw [take_patch (by rw [length_patch h]; omega), take_patch (by omega), List.append_assoc]

theorem fillMem_fills {blk : List UInt8} {pos : ℕ} (buf size : UInt64)
    (h : pos + sizeofMem ≤ blk.length) : Fills blk (fillMem blk pos buf size) pos (.iovec [⟨buf, size⟩]) := by
  simp only [sizeofMem, sizeofXferType, sizeofStructIovec] at h
  have hlen : (patch blk pos (leBytes 4 (1 <<< 1))).length = blk.length :=
    length_patch (by simp; omega)
  refine ⟨?_, leBytes 4 (1 <<< 1) ++ vecBytes [⟨buf, size⟩], Rec.Bytes.iovec (by simp), ?_⟩
  · rw [fillMem, length_patch (by simp only [hlen, length_iovBytes]; omega), hlen]
  · have := @take_patch_patch blk (leBytes 4 (1 <<< 1)) (iovBytes ⟨buf, size⟩) pos (by simp; omega)
    simpa [fillMem, vecBytes, Rec.size, sizeofIovec, sizeofXferType, sizeofStructIovec,
      Nat.add_assoc] using this

theorem fillIovec_fills {blk : List UInt8} {pos : ℕ} {vec : List IoVec} (hv : vec.length < 2 ^ 31)
    (h : pos + sizeofIovec vec.length ≤ blk.length) :
    Fills blk (fillIovec (fromArray vec) blk pos vec.length) pos (.iovec vec) := by
  simp only [sizeofIovec, sizeofXferType, sizeofStructIovec] at h
  have hlen : (patch blk pos (leBytes 4 (vec.length <<< 1))).length = blk.length :=
    length_patch (by simp; omega)
  refine ⟨?_, leBytes 4 (vec.length <<< 1) ++ vecBytes vec, .iovec hv, ?_⟩
  · rw [fillIovec, fromArray, length_patch (by simp only [hlen, length_vecBytes]; omega), hlen]
  · have := @take_patch_patch blk (leBytes 4 (vec.length <<< 1)) (vecBytes vec) pos (by simp; omega)
    simpa [fillIovec, fromArray, Rec.size, sizeofIovec, sizeofXferType, sizeofStructIovec,
      Nat.add_assoc] using this

theorem fillFinalize_fills {blk : List UInt8} {pos : ℕ} (fin user : UInt64)
    (h : pos + sizeofFinalize ≤ blk.length) :
    Fills blk (fillFinalize blk pos fin user) pos (.finalize fin user) := by
  simp only [sizeofFinalize, sizeofXferType] at h
  have hlen1 : (patch blk pos (leBytes 4 XF_FINALIZE)).length = blk.length :=
    length_patch (by simp; omega)
  have hlen2 : (patch (patch blk pos (leBytes 4 XF_FINALIZE)) (pos + 4)
      (leBytes 8 fin.toNat)).length = blk.length := by
    rw [length_patch (by rw [hlen1, length_leBytes]; omega), hlen1]
  refine ⟨?_, _, .finalize, ?_⟩
  · rw [fillFinalize, length_patch (by rw [hlen2, length_leBytes]; omega), hlen2]
  · have h2 := @take_patch_patch blk (leBytes 4 XF_FINALIZE) (leBytes 8 fin.toNat) pos
      (by simp; omega)
    have h3 := @take_patch _ (patch (patch blk pos (leBytes 4 XF_FINALIZE)) (pos + 4)
      (leBytes 8 fin.toNat)) (leBytes 8 user.toNat) (pos + 12) (by omega)
    simp only [length_leBytes, Nat.add_assoc] at h2 h3
    rw [Rec.size, sizeofFinalize, sizeofXferType, fillFinalize, h3, h2]
    simp

theorem fillSendfile_fills {blk : List UInt8} {pos : ℕ} (infd : UInt32) (off len : UInt64)
    (h : pos + sizeofSendfile ≤ blk.length) :
    Fills blk (fillSendfile blk pos infd off len) pos (.sendfile infd off len) := by
  simp only [sizeofSendfile, sizeofXferType] at h
  have hlen1 : (patch blk pos (leBytes 4 XF_SENDFILE)).length = blk.length :=
    length_patch (by simp; omega)
  obtain ⟨b2, hb2⟩ : ∃ b, patch (patch blk pos (leBytes 4 XF_SENDFILE)) (pos + 4)
    (leBytes 4 infd.toNat) = b := ⟨_, rfl⟩
  have hlen2 : b2.length = blk.length := by
    rw [← hb2, length_patch (by rw [hlen1, length_leBytes]; omega), hlen1]
  have hlen3 : (patch b2 (pos + 12) (leBytes 8 off.toNat)).length = blk.length := by
    rw [length_patch (by rw [hlen2, length_leBytes]; omega), hlen2]
  have hfill : fillSendfile blk pos infd off len =
      patch (patch b2 (pos + 12) (leBytes 8 off.toNat)) (pos + 20) (leBytes 8 len.toNat) := by
    rw [fillSendfile, hb2]
  -- the padding keeps what the block held there
  refine ⟨?_, _, .sendfile (@length_slice _ b2 (pos + 8) 4 (by omega)), ?_⟩
  · rw [hfill, length_patch (by rw [hlen3, length_leBytes]; omega), hlen3]
  · have h2 := @take_patch_patch blk (leBytes 4 XF_SENDFILE) (leBytes 4 infd.toNat) pos
      (by simp; omega)
    have h4 := @take_patch_patch b2 (leBytes 8 off.toNat) (leBytes 8 len.toNat) (pos + 12)
      (by simp; omega)
    have hpad : b2.take (pos + 12) = b2.take (pos + 8) ++ slice b2 (pos + 8) 4 := by
      rw [slice, ← List.take_add]
    simp only [length_leBytes, Nat.add_assoc] at h2 h4
    rw [Rec.size, sizeofSendfile, sizeofXferType, hfill, h4, hpad, ← hb2, h2]
    simp

end Mpio.Wavy
