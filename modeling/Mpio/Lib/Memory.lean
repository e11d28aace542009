import Mathlib.Data.List.Basic
import Mathlib.Data.Nat.Bits
import Mathlib.Order.Interval.Finset.Nat
import Mathlib.Tactic.Ring
import Mathlib.Tactic.Linarith

/-!
# Byte blocks, copies and `size_t`

* `slice`, `patch`: reading and overwriting a range of a block. Both are described by their value at
  each index (`getElem?_slice`, `getElem?_patch`); every other lemma follows from these two.
* `fresh`, `resize`, `Outcome`: what allocation leaves behind, and how an operation that allocates ends.
* `Memcpy`: an implementation of `memcpy`. It writes its destination range only, and copies the
  source there when the two ranges do not overlap; what it leaves there otherwise is not defined.
* `Prim`: a store or a copy inside one block, with the ranges (`Span`) it reads and writes.
* `leBytes`, `ofLeBytes`: little-endian words, and their round trips.
* `length_mul_lt_of_apart`: how many blocks an address space holds.
* `wrap`, `wsub`, `doubleUntil`: 64-bit `size_t` arithmetic and the loop `while(n < need) { n *= 2; }`.
  `reaches_iff` and `grows_iff` say when the loop does what it is for.
-/

namespace Mpio.Lib

section Block
variable {α : Type*}

/-- The `n` entries of `l` from `off` on. -/
def slice (l : List α) (off n : ℕ) : List α := (l.drop off).take n

/-- `l` with `xs` written over the entries from `off` on. -/
def patch (l : List α) (off : ℕ) (xs : List α) : List α :=
  l.take off ++ xs ++ l.drop (off + xs.length)

theorem getElem?_slice (l : List α) (off n i : ℕ) :
    (slice l off n)[i]? = if i < n then l[off + i]? else none := by
  simp only [slice, List.getElem?_take, List.getElem?_drop]

theorem getElem?_patch {l xs : List α} {off : ℕ} (h : off + xs.length ≤ l.length) (i : ℕ) :
    (patch l off xs)[i]? =
      if i < off then l[i]? else if i < off + xs.length then xs[i - off]? else l[i]? := by
  have hlen : (l.take off).length = off := by simp; omega
  simp only [patch, List.append_assoc]
  rcases Nat.lt_or_ge i off with h1 | h1
  · rw [List.getElem?_append_left (by omega), if_pos h1, List.getElem?_take_of_lt h1]
  · rw [List.getElem?_append_right (by omega), hlen, if_neg (by omega)]
    rcases Nat.lt_or_ge i (off + xs.length) with h2 | h2
    · rw [List.getElem?_append_left (by omega), if_pos h2]
    · rw [List.getElem?_append_right (by omega), if_neg (by omega), List.getElem?_drop]
      congr 1
      omega

@[simp] theorem length_slice {l : List α} {off n : ℕ} (h : off + n ≤ l.length) :
    (slice l off n).length = n := by
  simp [slice]
  omega

@[simp] theorem length_patch {l xs : List α} {off : ℕ} (h : off + xs.length ≤ l.length) :
    (patch l off xs).length = l.length := by
  simp [patch]
  omega

theorem slice_zero (l : List α) (off : ℕ) : slice l off 0 = [] := by simp [slice]

theorem slice_add (l : List α) (off m n : ℕ) :
    slice l off (m + n) = slice l off m ++ slice l (off + m) n := by
  simp only [slice]
  rw [List.take_add, List.drop_drop]

theorem slice_patch_self {l xs : List α} {off : ℕ} (h : off + xs.length ≤ l.length) :
    slice (patch l off xs) off xs.length = xs := by
  refine List.ext_getElem? fun i => ?_
  rw [getElem?_slice, getElem?_patch h]
  split_ifs <;> first | omega | skip
  · congr 1; omega
  · exact (List.getElem?_eq_none (by omega)).symm

theorem slice_patch_disjoint {l xs : List α} {off a n : ℕ} (h : off + xs.length ≤ l.length)
    (hd : a + n ≤ off ∨ off + xs.length ≤ a) : slice (patch l off xs) a n = slice l a n := by
  refine List.ext_getElem? fun i => ?_
  rw [getElem?_slice, getElem?_slice, getElem?_patch h]
  split_ifs <;> first | omega | rfl

theorem slice_append_left {l l' : List α} {off n : ℕ} (h : off + n ≤ l.length) :
    slice (l ++ l') off n = slice l off n := by
  refine List.ext_getElem? fun i => ?_
  simp only [getElem?_slice]
  split_ifs
  · rw [List.getElem?_append_left (by omega)]
  · rfl

theorem slice_middle (a x c : List α) : slice (a ++ (x ++ c)) a.length x.length = x := by
  simp [slice]

theorem patch_middle {a x y c : List α} (h : y.length = x.length) :
    patch (a ++ (x ++ c)) a.length y = a ++ (y ++ c) := by
  simp [patch, h]

theorem take_patch {l xs : List α} {off : ℕ} (h : off ≤ l.length) :
    (patch l off xs).take (off + xs.length) = l.take off ++ xs := by
  rw [patch, List.take_append_of_le_length (by simp; omega)]
  exact List.take_of_length_le (by simp)

theorem patch_patch_append {l xs ys : List α} {off : ℕ} (h : off + xs.length ≤ l.length) :
    patch (patch l (off + xs.length) ys) off xs = patch l off (xs ++ ys) := by
  have htake : (patch l (off + xs.length) ys).take off = l.take off := by
    rw [patch, List.append_assoc, List.take_append_of_le_length (by simp; omega), List.take_take]
    congr 1
    omega
  have hdrop : (patch l (off + xs.length) ys).drop (off + xs.length) =
      ys ++ l.drop (off + xs.length + ys.length) := by
    rw [patch, List.append_assoc, List.drop_append_of_le_length (by simp; omega),
      List.drop_eq_nil_of_le (by simp), List.nil_append]
  conv_lhs => rw [patch, htake, hdrop]
  simp [patch, Nat.add_assoc]

end Block

/-! ## Allocation -/

/-- How an operation ends. -/
inductive Outcome
  | ok
  | badAlloc
  | diverges
  deriving DecidableEq

/-- Fresh memory of the given size. -/
def fresh (size : ℕ) (junk : ℕ → UInt8) : List UInt8 := (List.range size).map junk

/-- What `realloc` leaves in the resized block. -/
def resize (old : List UInt8) (size : ℕ) (junk : ℕ → UInt8) : List UInt8 :=
  old.take size ++ (List.range (size - old.length)).map junk

@[simp] theorem length_fresh (n : ℕ) (junk : ℕ → UInt8) : (fresh n junk).length = n := by
  simp [fresh]

theorem length_resize {old : List UInt8} {n : ℕ} (h : old.length ≤ n) (junk : ℕ → UInt8) :
    (resize old n junk).length = n := by
  simp [resize]
  omega

theorem slice_resize {old : List UInt8} {n off m : ℕ} (h : old.length ≤ n) (hm : off + m ≤ old.length)
    (junk : ℕ → UInt8) : slice (resize old n junk) off m = slice old off m := by
  rw [resize, List.take_of_length_le h]
  exact slice_append_left hm

/-! ## `memcpy` -/

/-- An implementation of `memcpy` inside one block: `bytes l dst src n` is what it leaves in the `n`
destination bytes. Only for ranges that do not overlap is that the source. -/
structure Memcpy where
  bytes : List UInt8 → ℕ → ℕ → ℕ → List UInt8
  length_bytes : ∀ l dst src n, src + n ≤ l.length → dst + n ≤ l.length →
    (bytes l dst src n).length = n
  exact : ∀ l dst src n, src + n ≤ l.length → dst + n ≤ l.length →
    (dst + n ≤ src ∨ src + n ≤ dst) → bytes l dst src n = slice l src n

namespace Memcpy

/-- The block after the call. -/
def copy (mc : Memcpy) (l : List UInt8) (dst src n : ℕ) : List UInt8 :=
  patch l dst (mc.bytes l dst src n)

/-- An implementation that also copies downwards into an overlapping range. -/
def CopiesDown (mc : Memcpy) : Prop :=
  ∀ l dst src n, src + n ≤ l.length → dst ≤ src → mc.bytes l dst src n = slice l src n

/-- Copying the `n` bytes `src` from `pos` to `dst` leaves the bytes `got` there. -/
def Leaves (mc : Memcpy) (dst pos n : ℕ) (src got : List UInt8) : Prop :=
  ∀ l, pos + n ≤ l.length → dst + n ≤ l.length → slice l pos n = src → mc.bytes l dst pos n = got

theorem CopiesDown.leaves {mc : Memcpy} (h : mc.CopiesDown) {dst pos n : ℕ} {src : List UInt8}
    (hle : dst ≤ pos) : mc.Leaves dst pos n src src := by
  intro l hpos _ hsrc
  rw [h l dst pos n hpos hle, hsrc]

theorem leaves_of_disjoint {mc : Memcpy} {dst pos n : ℕ} {src : List UInt8}
    (h : dst + n ≤ pos ∨ pos + n ≤ dst) : mc.Leaves dst pos n src src := by
  intro l hpos hdst hsrc
  rw [mc.exact l dst pos n hpos hdst h, hsrc]

/-- The implementation that reads the whole source first. -/
def ascending : Memcpy where
  bytes l _ src n := slice l src n
  length_bytes _ _ _ _ h _ := length_slice h
  exact _ _ _ _ _ _ _ := rfl

/-- The implementation that clears a destination which overlaps the source. -/
def zeroing : Memcpy where
  bytes l dst src n := if dst + n ≤ src ∨ src + n ≤ dst then slice l src n else List.replicate n 0
  length_bytes l dst src n hs _ := by
    split_ifs
    · exact length_slice hs
    · exact List.length_replicate
  exact _ _ _ _ _ _ hdis := if_pos hdis

theorem zeroing_leaves {dst pos n : ℕ} {src : List UInt8} (h : ¬ (dst + n ≤ pos ∨ pos + n ≤ dst)) :
    zeroing.Leaves dst pos n src (List.replicate n 0) :=
  fun _ _ _ _ => if_neg h

/-- Byte by byte, the last byte first. -/
def descend (l : List UInt8) (dst src : ℕ) : ℕ → List UInt8
  | 0 => l
  | n + 1 => descend (patch l (dst + n) (slice l (src + n) 1)) dst src n

/-- Between ranges that do not overlap the order does not matter. -/
theorem descend_eq {dst src n : ℕ} (l : List UInt8) (hs : src + n ≤ l.length)
    (hd : dst + n ≤ l.length) (hdis : dst + n ≤ src ∨ src + n ≤ dst) :
    descend l dst src n = patch l dst (slice l src n) := by
  induction n generalizing l with
  | zero => simp [descend, patch, slice_zero]
  | succ n ih =>
    have hone : (slice l (src + n) 1).length = 1 := length_slice (by omega)
    have hlen : (patch l (dst + n) (slice l (src + n) 1)).length = l.length :=
      length_patch (by omega)
    have hsrc : (slice l src n).length = n := length_slice (by omega)
    have hread : slice (patch l (dst + n) (slice l (src + n) 1)) src n = slice l src n :=
      slice_patch_disjoint (by omega) (by omega)
    have hmerge : patch (patch l (dst + n) (slice l (src + n) 1)) dst (slice l src n) =
        patch l dst (slice l src n ++ slice l (src + n) 1) := by
      have := @patch_patch_append _ l (slice l src n) (slice l (src + n) 1) dst (by omega)
      rwa [hsrc] at this
    rw [descend, ih _ (by omega) (by omega) (by omega), hread, hmerge, slice_add]

theorem length_descend {dst src n : ℕ} (l : List UInt8) (hs : src + n ≤ l.length)
    (hd : dst + n ≤ l.length) : (descend l dst src n).length = l.length := by
  induction n generalizing l with
  | zero => rfl
  | succ n ih =>
    have hone : (slice l (src + n) 1).length = 1 := length_slice (by omega)
    have hlen : (patch l (dst + n) (slice l (src + n) 1)).length = l.length :=
      length_patch (by omega)
    rw [descend, ih _ (by omega) (by omega), hlen]

/-- The implementation that copies the last byte first. -/
def descending : Memcpy where
  bytes l dst src n := slice (descend l dst src n) dst n
  length_bytes l dst src n hs hd := length_slice (by rw [length_descend l hs hd]; exact hd)
  exact l dst src n hs hd hdis := by
    have hlen : (slice l src n).length = n := length_slice hs
    have hself := @slice_patch_self _ l (slice l src n) dst (by omega)
    rw [descend_eq l hs hd hdis]
    rwa [hlen] at hself

end Memcpy

/-! ## Stores and copies within one block -/

/-- The `len` bytes from `off` on. -/
structure Span where
  off : ℕ
  len : ℕ

def Span.stop (a : Span) : ℕ := a.off + a.len

/-- No byte in common. -/
def Span.Apart (a b : Span) : Prop := a.stop ≤ b.off ∨ b.stop ≤ a.off

/-- The ways to write a block. `memmove` copies between any two ranges. -/
inductive Prim
  | store (dst : ℕ) (bytes : List UInt8)
  | memcpy (dst src n : ℕ)
  | memmove (dst src n : ℕ)

namespace Prim

def run (mc : Memcpy) (blk : List UInt8) : Prim → List UInt8
  | store dst bytes => patch blk dst bytes
  | memcpy dst src n => mc.copy blk dst src n
  | memmove dst src n => patch blk dst (slice blk src n)

def writes : Prim → Span
  | store dst bytes => ⟨dst, bytes.length⟩
  | memcpy dst _ n | memmove dst _ n => ⟨dst, n⟩

def reads : Prim → Span
  | store dst _ => ⟨dst, 0⟩
  | memcpy _ src n | memmove _ src n => ⟨src, n⟩

end Prim

/-! ## Blocks of an address space -/

/-- Blocks of `n` bytes that lie apart from each other, off address `0` and below `limit`, are too
few to fill the address space. -/
theorem length_mul_lt_of_apart {n limit : ℕ} {l : List ℕ} (hlimit : 0 < limit)
    (hapart : l.Pairwise fun a b => a + n ≤ b ∨ b + n ≤ a)
    (hin : ∀ a ∈ l, 0 < a ∧ a + n ≤ limit) : l.length * n < limit := by
  have hnodup : (l.flatMap fun a => List.range' a n).Nodup := by
    refine List.nodup_flatMap.mpr ⟨fun a _ => List.nodup_range', hapart.imp ?_⟩
    intro a b hab x hxa hxb
    rw [List.mem_range'_1] at hxa hxb
    omega
  have hsub : (l.flatMap fun a => List.range' a n).toFinset ⊆ Finset.Ico 1 limit := by
    intro x hx
    obtain ⟨a, ha, hxa⟩ := List.mem_flatMap.mp (List.mem_toFinset.mp hx)
    have hla := hin a ha
    rw [List.mem_range'_1] at hxa
    exact Finset.mem_Ico.mpr ⟨by omega, by omega⟩
  have hcard := Finset.card_le_card hsub
  rw [List.toFinset_card_of_nodup hnodup, List.length_flatMap, Nat.card_Ico] at hcard
  simp only [List.length_range', List.map_const', List.sum_replicate, nsmul_eq_mul, Nat.cast_id] at hcard
  omega

/-! ## Little-endian words -/

/-- The `w` low bytes of `n`, least significant first. -/
def leBytes : ℕ → ℕ → List UInt8
  | 0, _ => []
  | w + 1, n => UInt8.ofNat n :: leBytes w (n / 256)

def ofLeBytes : List UInt8 → ℕ
  | [] => 0
  | b :: bs => b.toNat + 256 * ofLeBytes bs

@[simp] theorem length_leBytes (w n : ℕ) : (leBytes w n).length = w := by
  induction w generalizing n with
  | zero => rfl
  | succ w ih => simp [leBytes, ih]

theorem ofLeBytes_leBytes {w n : ℕ} (h : n < 256 ^ w) : ofLeBytes (leBytes w n) = n := by
  induction w generalizing n with
  | zero =>
    have : n = 0 := by simpa using h
    simp [leBytes, ofLeBytes, this]
  | succ w ih =>
    have hdiv : n / 256 < 256 ^ w := by
      rw [Nat.div_lt_iff_lt_mul (by omega), ← pow_succ]
      exact h
    rw [leBytes, ofLeBytes, ih hdiv, UInt8.toNat_ofNat']
    omega

/-! ## `size_t` -/

/-- The value of a `size_t` computation. -/
def wrap (n : ℕ) : ℕ := n % 2 ^ 64

theorem wrap_of_lt {n : ℕ} (h : n < 2 ^ 64) : wrap n = n := Nat.mod_eq_of_lt h

/-- `a - b` on `size_t`. -/
def wsub (a b : ℕ) : ℕ := wrap (a + (2 ^ 64 - b))

theorem wsub_of_le {a b : ℕ} (h : b ≤ a) (ha : a < 2 ^ 64) : wsub a b = a - b := by
  unfold wsub wrap
  omega

/-- `while(n < need) { n *= 2; }`. After 64 doublings a `size_t` is `0` and stays `0`, so a loop that
has not ended within 64 rounds never ends: `none`. -/
def doubleUntil (need : ℕ) : ℕ → ℕ → Option ℕ
  | 0, n => if n < need then none else some n
  | rounds + 1, n => if n < need then doubleUntil need rounds (wrap (n * 2)) else some n

theorem doubleUntil_ge {need rounds n m : ℕ} (h : doubleUntil need rounds n = some m) : need ≤ m := by
  induction rounds generalizing n with
  | zero =>
    simp only [doubleUntil] at h
    split_ifs at h with hlt
    obtain rfl := Option.some.inj h
    omega
  | succ rounds ih =>
    simp only [doubleUntil] at h
    split_ifs at h with hlt
    · exact ih h
    · obtain rfl := Option.some.inj h
      omega

/-- Below `2 ^ 62` the loop ends, with a size that is large enough and below twice the larger of its
start and the need. -/
theorem doubleUntil_spec (need n rounds : ℕ) (hn : 0 < n) (hneed : need < 2 ^ 62)
    (hlt : n < 2 ^ 63) (hr : need ≤ n * 2 ^ rounds) :
    ∃ m, doubleUntil need rounds n = some m ∧ need ≤ m ∧ n ≤ m ∧ (m = n ∨ m < 2 * need) := by
  induction rounds generalizing n with
  | zero =>
    have : ¬ n < need := by omega
    exact ⟨n, by simp [doubleUntil, this], by omega, le_refl n, .inl rfl⟩
  | succ rounds ih =>
    by_cases hlt' : n < need
    · have hwrap : wrap (n * 2) = n * 2 := wrap_of_lt (by omega)
      have hpow : n * 2 * 2 ^ rounds = n * 2 ^ (rounds + 1) := by rw [pow_succ]; ring
      obtain ⟨m, hm, hge, hle, hup⟩ := ih (n * 2) (by omega) (by omega) (by omega)
      refine ⟨m, by simp [doubleUntil, hlt', hwrap, hm], hge, by omega, .inr ?_⟩
      omega
    · exact ⟨n, by simp [doubleUntil, hlt'], by omega, le_refl n, .inl rfl⟩

/-- The sizes that `n *= 2` comes to in the loop, before they wrap around. -/
def doublings (need : ℕ) : ℕ → ℕ → List ℕ
  | 0, _ => []
  | rounds + 1, n => if n < need then n * 2 :: doublings need rounds (wrap (n * 2)) else []

/-- Some doubling of `n` reaches `need` before it wraps around. -/
def Reaches (n need : ℕ) : Prop := ∃ k, need ≤ n * 2 ^ k ∧ n * 2 ^ k < 2 ^ 64

theorem doubleUntil_of_reaches {need n rounds k : ℕ} (hk : k ≤ rounds) (hneed : need ≤ n * 2 ^ k)
    (hlt : n * 2 ^ k < 2 ^ 64) :
    ∃ m, doubleUntil need rounds n = some m ∧ n ≤ m ∧ m < 2 ^ 64 ∧
      ∀ v ∈ doublings need rounds n, v < 2 ^ 64 := by
  have hpow : 0 < 2 ^ k := Nat.two_pow_pos k
  have hn : n ≤ n * 2 ^ k := Nat.le_mul_of_pos_right n hpow
  induction rounds generalizing n k with
  | zero =>
    obtain rfl : k = 0 := by omega
    have hge : ¬ n < need := by omega
    exact ⟨n, by simp [doubleUntil, hge], le_refl n, by omega, by simp [doublings]⟩
  | succ rounds ih =>
    by_cases hstop : n < need
    · obtain ⟨j, rfl⟩ : ∃ j, k = j + 1 := ⟨k - 1, by
        have hk0 : k ≠ 0 := by
          rintro rfl
          omega
        omega⟩
      have hmul : n * 2 * 2 ^ j = n * 2 ^ (j + 1) := by rw [pow_succ]; ring
      have hj : 0 < 2 ^ j := Nat.two_pow_pos j
      have hle : n * 2 ≤ n * 2 * 2 ^ j := Nat.le_mul_of_pos_right _ hj
      have hwrap : wrap (n * 2) = n * 2 := wrap_of_lt (by omega)
      obtain ⟨m, hm, hge, hm64, hv⟩ := ih (by omega) (by omega) (by omega) hj hle
      refine ⟨m, by simp [doubleUntil, hstop, hwrap, hm], by omega, hm64, ?_⟩
      simp only [doublings, if_pos hstop, hwrap, List.forall_mem_cons]
      exact ⟨by omega, hv⟩
    · exact ⟨n, by simp [doubleUntil, hstop], le_refl n, by omega, by simp [doublings, hstop]⟩

theorem exists_doubling {need n rounds m : ℕ} (hm : doubleUntil need rounds n = some m)
    (hv : ∀ v ∈ doublings need rounds n, v < 2 ^ 64) (hn : n < 2 ^ 64) :
    ∃ k, m = n * 2 ^ k ∧ m < 2 ^ 64 := by
  induction rounds generalizing n with
  | zero =>
    simp only [doubleUntil] at hm
    split_ifs at hm with hlt
    exact ⟨0, by simpa using (Option.some.inj hm).symm, Option.some.inj hm ▸ hn⟩
  | succ rounds ih =>
    simp only [doubleUntil] at hm
    split_ifs at hm with hlt
    · simp only [doublings, if_pos hlt, List.forall_mem_cons] at hv
      obtain ⟨h2, hv⟩ := hv
      rw [wrap_of_lt h2] at hm hv
      obtain ⟨k, hk, hm64⟩ := ih hm hv h2
      exact ⟨k + 1, by rw [hk, pow_succ]; ring, hm64⟩
    · exact ⟨0, by simpa using (Option.some.inj hm).symm, Option.some.inj hm ▸ hn⟩

/-- The loop started at `seed` until `need` ends with no size wrapped around exactly when a doubling
of `seed` reaches `need`. -/
theorem reaches_iff {seed need : ℕ} (hseed : 0 < seed) :
    (seed < 2 ^ 64 ∧ need < 2 ^ 64 ∧ (∀ v ∈ doublings (wrap need) 64 (wrap seed), v < 2 ^ 64) ∧
      ∃ m, doubleUntil (wrap need) 64 (wrap seed) = some m) ↔ Reaches seed need := by
  constructor
  · rintro ⟨hs, hn, hv, m, hm⟩
    rw [wrap_of_lt hs, wrap_of_lt hn] at hv hm
    obtain ⟨k, rfl, hlt⟩ := exists_doubling hm hv hs
    exact ⟨k, doubleUntil_ge hm, hlt⟩
  · rintro ⟨k, hneed, hlt⟩
    have hpow : seed ≤ seed * 2 ^ k := Nat.le_mul_of_pos_right seed (Nat.two_pow_pos k)
    have hk : k ≤ 64 := by
      have h2 : 2 ^ k ≤ seed * 2 ^ k := Nat.le_mul_of_pos_left _ hseed
      exact (Nat.pow_lt_pow_iff_right (by omega)).mp (lt_of_le_of_lt h2 hlt) |>.le
    obtain ⟨m, hm, -, -, hv⟩ := doubleUntil_of_reaches hk hneed hlt
    rw [wrap_of_lt (n := seed) (by omega), wrap_of_lt (n := need) (by omega)]
    exact ⟨by omega, by omega, hv, m, hm⟩

/-- The same with all the sizes of a computation: the sums that lead to `seed` and `need`, and those
of the loop. -/
theorem grows_iff {seed need : ℕ} (sums : List ℕ) (hseed : 0 < seed)
    (hsums : ∀ v ∈ sums, v ≤ seed ∨ v ≤ need) (hs : seed < 2 ^ 64 ∨ seed ∈ sums) (hn : need ∈ sums) :
    ((∀ v ∈ sums ++ doublings (wrap need) 64 (wrap seed), v < 2 ^ 64) ∧
      ∃ m, doubleUntil (wrap need) 64 (wrap seed) = some m ∧ need ≤ m) ↔ Reaches seed need := by
  constructor
  · rintro ⟨hv, m, hm, -⟩
    have hs64 : seed < 2 ^ 64 := by
      rcases hs with hs | hs
      · exact hs
      · exact hv _ (List.mem_append_left _ hs)
    exact (reaches_iff hseed).mp ⟨hs64, hv _ (List.mem_append_left _ hn),
      fun v hmem => hv v (List.mem_append_right _ hmem), m, hm⟩
  · intro h
    obtain ⟨hs64, hn64, hv, m, hm⟩ := (reaches_iff hseed).mpr h
    have hge := doubleUntil_ge hm
    rw [wrap_of_lt hn64] at hge
    refine ⟨?_, m, hm, hge⟩
    intro v hmem
    rcases List.mem_append.mp hmem with hmem | hmem
    · rcases hsums v hmem with hle | hle <;> omega
    · exact hv v hmem

end Mpio.Lib
