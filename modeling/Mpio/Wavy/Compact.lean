import Mpio.Wavy.Execute

/-!
# How `execute` compacts a vector

A `writev` that stops inside entry `i ≥ 1` of a record shortens that entry in place, and then
`fill_iovec` and a `memmove` bring the rest of the queue to the head of the block. `Compaction.prims`
lists these four writes in order; `execute_compacts` says that they are what `execute` does.

Of the four, only the `memcpy` of `fill_iovec` asks for more than it is given: the entries left and
their new place overlap when more than `p + 16 * i` bytes of entries are left. The tag at the head lies
below every entry still to be copied, and the `memmove` reads above everything written before it.
-/

namespace Mpio.Wavy

open Lib

/-- The vector at offset `p`, of which `wl` bytes of entry `i` are gone. -/
structure Compaction where
  p : ℕ
  vec : List IoVec
  i : ℕ
  wl : ℕ
  deriving DecidableEq

namespace Compaction

variable (c : Compaction)

/-- `vec + i`. -/
def entry : ℕ := c.p + 4 + 16 * c.i

/-- `veclen - i`. -/
def entries : ℕ := c.vec.length - c.i

/-- `p += sizeof_iovec(veclen)`. -/
def next : ℕ := c.p + sizeofIovec c.vec.length

def filltail : ℕ := sizeofIovec c.entries

/-- `vec[i]` without the bytes that are gone. -/
def shorten (blk : List UInt8) : Prim := .store c.entry (iovBytes ((readIov blk c.entry).skip c.wl))

/-- The first store of `fill_iovec`. -/
def tag : Prim := .store 0 (leBytes 4 (c.entries <<< 1))

/-- The `memcpy` of `fill_iovec`. -/
def copy : Prim := .memcpy 4 c.entry (16 * c.entries)

def move (endp : ℕ) : Prim := .memmove c.filltail c.next (endp - c.next)

/-- The writes, in order. -/
def prims (blk : List UInt8) (endp : ℕ) : List Prim := [c.shorten blk, c.tag, c.copy, c.move endp]

/-- What the copy primitives ask for. -/
structure Respects (blk : List UInt8) (endp : ℕ) : Prop where
  memcpy : c.copy.reads.Apart c.copy.writes
  tag : c.tag.writes.Apart c.copy.reads
  memmove : ∀ q ∈ [c.shorten blk, c.tag, c.copy], q.writes.Apart (c.move endp).reads
  tail : (c.move endp).writes.stop ≤ endp

end Compaction

/-- The compaction that `execute` comes to from `p` on, if any. -/
def compaction (endp : ℕ) : ℕ → List UInt8 → ℕ → List Answer → Option Compaction
  | 0, _, _, _ => none
  | fuel + 1, blk, p, as =>
    if p < endp then
      match readRec blk p with
      | .sendfile _ _ len =>
        if (answer as).accepted = 0 then none
        else if (answer as).accepted < len.toNat then none
        else compaction endp fuel blk (p + sizeofSendfile) as.tail
      | .finalize _ _ => compaction endp fuel blk (p + sizeofFinalize) as
      | .iovec vec =>
        if (answer as).accepted = 0 then none
        else
          match stopAt vec (answer as).accepted with
          | some (i, wl) => if i = 0 then none else some ⟨p, vec, i, wl⟩
          | none => compaction endp fuel blk (p + sizeofIovec vec.length) as.tail
    else none

theorem consumedIovec_prims (mc : Memcpy) (blk : List UInt8) (endp : ℕ) {c : Compaction} (hi : c.i ≠ 0)
    (log : List Item) (calls : List (ℕ × Answer)) :
    (consumedIovec mc blk c.p endp c.vec c.i c.wl log calls).block =
        (c.prims blk endp).foldl (Prim.run mc) blk ∧
      (consumedIovec mc blk c.p endp c.vec c.i c.wl log calls).tail = (c.move endp).writes.stop := by
  unfold consumedIovec
  rw [if_neg hi]
  exact ⟨rfl, rfl⟩

theorem execute_compacts (w : World) (mc : Memcpy) (endp fuel : ℕ) (blk : List UInt8) (p : ℕ)
    (as : List Answer) {c : Compaction} (h : compaction endp fuel blk p as = some c) :
    (execute w mc endp fuel blk p as).block = (c.prims blk endp).foldl (Prim.run mc) blk ∧
      (execute w mc endp fuel blk p as).tail = (c.move endp).writes.stop := by
  fun_induction compaction endp fuel blk p as with
  | case1 | case2 | case3 | case6 | case7 | case10 => cases h
  | case4 fuel blk p as hlt infd off len hr h0 hge ih =>
    simp only [execute, if_pos hlt, hr, if_neg h0, if_neg hge]
    exact ih h
  | case5 fuel blk p as hlt fin user hr ih =>
    simp only [execute, if_pos hlt, hr]
    exact ih h
  | case8 fuel blk p as hlt vec hr h0 i wl hstop hi =>
    obtain rfl := Option.some.inj h
    simp only [execute, if_pos hlt, hr, if_neg h0, hstop]
    exact consumedIovec_prims mc blk endp (c := ⟨p, vec, i, wl⟩) hi _ _
  | case9 fuel blk p as hlt vec hr h0 hstop ih =>
    simp only [execute, if_pos hlt, hr, if_neg h0, hstop]
    exact ih h

theorem Compaction.respects_iff {c : Compaction} {blk : List UInt8} {endp : ℕ}
    (hlt : c.i < c.vec.length) (hnext : c.next ≤ endp) :
    c.Respects blk endp ↔ ¬ c.p + 16 * c.i < 16 * (c.vec.length - c.i) := by
  have hsize : c.next = c.p + 4 + 16 * c.vec.length := by
    simp only [next, sizeofIovec, sizeofXferType, sizeofStructIovec]
    omega
  have htail : c.filltail = 4 + 16 * (c.vec.length - c.i) := by
    simp only [filltail, entries, sizeofIovec, sizeofXferType, sizeofStructIovec]
  constructor
  · rintro ⟨hcopy, -, -, -⟩
    simp only [Span.Apart, Span.stop, copy, Prim.reads, Prim.writes, entry, entries] at hcopy
    omega
  · intro hfit
    refine ⟨?_, ?_, ?_, ?_⟩
    · simp only [Span.Apart, Span.stop, copy, Prim.reads, Prim.writes, entry, entries]
      omega
    · simp only [Span.Apart, Span.stop, tag, copy, Prim.reads, Prim.writes, entry, length_leBytes]
      omega
    · intro q hq
      simp only [List.mem_cons, List.not_mem_nil, or_false] at hq
      simp only [Span.Apart, Span.stop, move, Prim.reads]
      rcases hq with rfl | rfl | rfl
      · simp only [shorten, Prim.writes, entry, length_iovBytes]
        omega
      · simp only [tag, Prim.writes, length_leBytes]
        omega
      · simp only [copy, Prim.writes, entries]
        omega
    · simp only [Span.stop, move, Prim.writes]
      omega

theorem compaction_middle {a b c : List UInt8} {rs : List Rec} (henc : Encodes b rs) {endp fuel : ℕ}
    (hend : endp = a.length + b.length) (hfuel : b.length ≤ fuel) (as : List Answer) :
    (∀ k ∈ compaction endp fuel (a ++ (b ++ c)) a.length as, k.Respects (a ++ (b ++ c)) endp) ↔
      overlapAt a.length rs as = false := by
  induction henc generalizing a fuel as with
  | nil =>
    have hnone : compaction endp fuel (a ++ ([] ++ c)) a.length as = none := by
      cases fuel with
      | zero => rfl
      | succ fuel =>
        rw [compaction, if_neg]
        simp at hend
        omega
    rw [hnone]
    simp [overlapAt]
  | @cons r b bytes rs hr henc ih =>
    have hlen := hr.length
    have hpos := r.size_pos
    rw [List.length_append] at hend hfuel
    obtain ⟨fuel, rfl⟩ : ∃ k, fuel = k + 1 := ⟨fuel - 1, by omega⟩
    have hread : readRec (a ++ (b ++ bytes ++ c)) a.length = r := by
      rw [List.append_assoc]
      exact readRec_middle hr
    have hnext (as : List Answer) :
        (∀ k ∈ compaction endp fuel (a ++ (b ++ bytes ++ c)) (a.length + r.size) as,
          k.Respects (a ++ (b ++ bytes ++ c)) endp) ↔ overlapAt (a.length + r.size) rs as = false := by
      have := @ih (a ++ b) fuel (by rw [List.length_append]; omega) (by omega) as
      rwa [List.length_append, hlen, List.append_assoc, ← List.append_assoc b] at this
    rw [compaction, if_pos (by omega), hread]
    cases r with
    | finalize fin user => exact hnext as
    | sendfile infd off len =>
      by_cases h0 : (answer as).accepted = 0
      · simp [overlapAt, h0]
      · by_cases hlt : (answer as).accepted < len.toNat
        · simp [overlapAt, h0, hlt, Nat.not_le.mpr hlt]
        · have hge : len.toNat ≤ (answer as).accepted := by omega
          have htail := hnext as.tail
          simpa [overlapAt, h0, hlt, hge, Rec.size] using htail
    | iovec vec =>
      by_cases h0 : (answer as).accepted = 0
      · simp [overlapAt, h0]
      · rcases hstop : stopAt vec (answer as).accepted with _ | ⟨i, wl⟩
        · have htail := hnext as.tail
          simpa [overlapAt, h0, hstop, Rec.size] using htail
        · obtain ⟨v1, v, v2, hvec, rfl, -, -⟩ := stopAt_some hstop
          by_cases hi : v1.length = 0
          · simp [overlapAt, h0, hstop, hi]
          · have hiff := @Compaction.respects_iff ⟨a.length, vec, v1.length, wl⟩
              (a ++ (b ++ bytes ++ c)) endp (by simp [hvec])
              (by simp only [Compaction.next]; rw [hend, hlen, Rec.size]; omega)
            simp only [hstop, h0, hi, if_false, Option.mem_def, Option.some.injEq, forall_eq', hiff]
            simp [overlapAt, h0, hstop, hi]

/-- On a queue that holds `rs`, the compaction that the answers lead to respects its copy primitives
exactly when the entries left do not overlap their new place. -/
theorem compaction_respects_iff {blk : List UInt8} {tail : ℕ} {rs : List Rec}
    (henc : Encodes (blk.take tail) rs) (ht : tail ≤ blk.length) (as : List Answer) :
    (∀ c ∈ compaction tail tail blk 0 as, c.Respects blk tail) ↔ overlapAt 0 rs as = false := by
  have hlen : (blk.take tail).length = tail := List.length_take_of_le ht
  have h := @compaction_middle [] _ (blk.drop tail) _ henc tail tail (by simp [hlen]) (by omega) as
  simpa using h

theorem compaction_respects_iff_twoEntries :
    compaction 36 36 (leBytes 4 (2 <<< 1) ++ vecBytes [⟨16, 2⟩, ⟨32, 3⟩]) 0 [.count 3] =
        some ⟨0, [⟨16, 2⟩, ⟨32, 3⟩], 1, 1⟩ ∧
      ∀ c ∈ compaction 36 36 (leBytes 4 (2 <<< 1) ++ vecBytes [⟨16, 2⟩, ⟨32, 3⟩]) 0 [.count 3],
        c.Respects (leBytes 4 (2 <<< 1) ++ vecBytes [⟨16, 2⟩, ⟨32, 3⟩]) 36 := by
  refine ⟨by decide +kernel, ?_⟩
  have henc : Encodes ((leBytes 4 (2 <<< 1) ++ vecBytes [⟨16, 2⟩, ⟨32, 3⟩]).take 36)
      [.iovec [⟨16, 2⟩, ⟨32, 3⟩]] := by
    rw [List.take_of_length_le (by simp)]
    exact .singleton (.iovec (by decide))
  exact (compaction_respects_iff henc (by simp) [.count 3]).mpr (by decide)

/-- Three entries of which two bytes are taken: the two entries left overlap their new place. -/
theorem compaction_not_respected :
    ¬ ∀ (blk : List UInt8) (tail : ℕ) (rs : List Rec) (as : List Answer), Encodes (blk.take tail) rs →
      tail ≤ blk.length → ∀ c ∈ compaction tail tail blk 0 as, c.Respects blk tail := by
  intro hall
  have henc : Encodes ((leBytes 4 (3 <<< 1) ++ vecBytes [⟨16, 1⟩, ⟨32, 2⟩, ⟨48, 1⟩]).take 52)
      [.iovec [⟨16, 1⟩, ⟨32, 2⟩, ⟨48, 1⟩]] := by
    rw [List.take_of_length_le (by simp)]
    exact .singleton (.iovec (by decide))
  obtain ⟨hcopy, -, -, -⟩ := hall _ 52 _ [.count 2] henc (by simp)
    ⟨0, [⟨16, 1⟩, ⟨32, 2⟩, ⟨48, 1⟩], 1, 1⟩ (by decide +kernel)
  simp [Compaction.copy, Compaction.entry, Compaction.entries, Prim.reads, Prim.writes, Span.Apart,
    Span.stop] at hcopy

end Mpio.Wavy
