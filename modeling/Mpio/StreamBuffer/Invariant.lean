import Mpio.StreamBuffer.Model
import Mathlib.Tactic.Abel

/-!
# The invariant of a stream buffer and its references

`Inv` holds in every state of an admissible run (`reachable_inv`). Its parts need each other:

* `counts`: every counter is the number of owners, so a counter read as `1` really says that
  `m_buffer` is the only owner;
* `shape`: `m_off` and `m_used` lie in order inside the current chunk, which is `m_used + m_free`
  bytes long;
* `apart`: the current chunk is not among the abandoned ones in `m_ref`;
* `fifo`: consumed bytes followed by the pending ones are the filled ones;
* `kept`: what a reference was filled with is still there. Its entry for the current chunk ends at or
  below `m_used`, and no operation writes below `m_used` of a chunk that has another owner.
-/

namespace Mpio.StreamBuffer

open Lib Lib.Heap

/-- The members of the buffer against its current chunk. -/
structure Shape (h : Heap (List UInt8)) (b : Buf) : Prop where
  live : (h b.mBuffer).isSome
  off_ge : sizeofCount ≤ b.mOff
  off_le : b.mOff ≤ b.mUsed
  size : b.mUsed + b.mFree = (bytesAt h b.mBuffer).length
  lt : b.mUsed + b.mFree < 2 ^ 63

/-- What `r` was filled with is still in place. -/
def KeptOk (h : Heap (List UInt8)) (buf : Option Buf) (r : Ref) : Prop :=
  ∀ k ∈ r.kept, k.1 ∈ r.mArray ∧ slice (bytesAt h k.1) sizeofCount k.2.length = k.2 ∧
    ∀ b, buf = some b → k.1 = b.mBuffer → sizeofCount + k.2.length ≤ b.mUsed

structure Inv (s : State) : Prop where
  counts : Counts s.heap (owners s)
  shape : ∀ b, s.buf = some b → Shape s.heap b
  apart : ∀ b, s.buf = some b → b.mBuffer ∉ b.mRef
  fifo : ∀ b, s.buf = some b →
    s.consumed ++ slice (bytesAt s.heap b.mBuffer) b.mOff (b.mUsed - b.mOff) = s.filled
  reserve : ∀ p, s.inReserve = some p →
    ∃ b, s.buf = some b ∧ p.1 + p.2 + (b.mUsed + b.mFree) < 2 ^ 62
  kept : ∀ r ∈ s.refs, KeptOk s.heap s.buf r

/-! ## Owners -/

theorem mem_refOwners {refs : List Ref} {d : ℕ} : d ∈ refOwners refs ↔ ∃ r ∈ refs, d ∈ r.mArray := by
  simp only [refOwners, mem_sum_map, Multiset.mem_coe]

theorem refOwners_set {refs : List Ref} {i : ℕ} {r : Ref} (hi : refs[i]? = some r) :
    ∃ rest, refOwners refs = (r.mArray : Multiset ℕ) + rest ∧
      ∀ r', refOwners (refs.set i r') = (r'.mArray : Multiset ℕ) + rest :=
  sum_map_set (fun r : Ref => (r.mArray : Multiset ℕ)) hi

theorem owners_retainTo {s : State} {b : Buf} (hbuf : s.buf = some b) {i : ℕ} {r : Ref}
    (hi : s.refs[i]? = some r) (kept : List (ℕ × List UInt8)) :
    b.mBuffer ::ₘ owners s = (r.mArray : Multiset ℕ) + (bufOwners (some { b with mRef := [] }) +
      refOwners (s.refs.set i ⟨b.mRef ++ [b.mBuffer], kept⟩)) := by
  obtain ⟨rest, hrest, hset⟩ := refOwners_set hi
  rw [owners, hbuf, hrest, hset]
  simp only [bufOwners, ← Multiset.coe_add, Multiset.coe_singleton, Multiset.coe_nil,
    ← Multiset.singleton_add]
  abel

theorem owners_clearRef {s : State} {i : ℕ} {r : Ref} (hi : s.refs[i]? = some r) :
    owners s = (r.mArray : Multiset ℕ) + (bufOwners s.buf + refOwners (s.refs.set i ⟨[], []⟩)) := by
  obtain ⟨rest, hrest, hset⟩ := refOwners_set hi
  rw [owners, hrest, hset]
  simp only [Multiset.coe_nil]
  abel

/-! ## Contents of chunks -/

theorem KeptOk.frame {h h' : Heap (List UInt8)} {buf buf' : Option Buf} {r : Ref}
    (hk : KeptOk h buf r) (hbytes : ∀ d ∈ r.mArray, bytesAt h' d = bytesAt h d)
    (hbuf : ∀ b', buf' = some b' → b'.mBuffer ∈ r.mArray →
      ∃ b, buf = some b ∧ b.mBuffer = b'.mBuffer ∧ b.mUsed ≤ b'.mUsed) : KeptOk h' buf' r := by
  intro k hkr
  obtain ⟨hmem, hslice, hend⟩ := hk k hkr
  refine ⟨hmem, by rw [hbytes _ hmem]; exact hslice, ?_⟩
  intro b' hb' heq
  obtain ⟨b, hb, hsame, hle⟩ := hbuf b' hb' (heq ▸ hmem)
  exact (hend b hb (heq.trans hsame.symm)).trans hle

/-! ## Growing the buffer -/

/-- The two ways `expand_buffer` succeeds, with what each establishes. -/
inductive Expanded (h : Heap (List UInt8)) (b : Buf) (len : ℕ) : Heap (List UInt8) → Buf → Prop
  | resized {c : Cell (List UInt8)} {d nextSize : ℕ} {junk : ℕ → UInt8} :
      resizes h b = true → h b.mBuffer = some c → (d = b.mBuffer ∨ h d = none) →
      len + b.mUsed ≤ nextSize → b.mUsed + b.mFree ≤ nextSize → nextSize < 2 ^ 63 →
      Expanded h b len
        (Function.update (Function.update h b.mBuffer none) d
          (some ⟨resize c.data nextSize junk, c.count⟩))
        { b with mBuffer := d, mFree := nextSize - b.mUsed }
  | moved {d nextSize : ℕ} {junk : ℕ → UInt8} :
      h d = none → len + (b.mUsed - b.mOff) + sizeofCount ≤ nextSize → nextSize < 2 ^ 63 →
      Expanded h b len
        (Function.update h d (some ⟨patch (fresh nextSize junk) sizeofCount
          (slice (bytesAt h b.mBuffer) b.mOff (b.mUsed - b.mOff)), 1⟩))
        { mBuffer := d, mUsed := b.mUsed - b.mOff + sizeofCount
          mFree := nextSize - (b.mUsed - b.mOff + sizeofCount), mOff := sizeofCount
          mRef := b.mRef ++ [b.mBuffer] }

/-- Within the size limits `expand_buffer` always ends; a failure changes nothing. -/
theorem expandBuffer_cases {h h' : Heap (List UInt8)} {b b' : Buf} {len init : ℕ} {mem : Alloc}
    {vec : Bool} {o : Outcome} (hs : Shape h b) (hlt : len + init + (b.mUsed + b.mFree) < 2 ^ 62)
    (he : expandBuffer h b len init mem vec = some (h', b', o)) :
    (o = .badAlloc ∧ h' = h ∧ b' = b) ∨ (o = .ok ∧ Expanded h b len h' b') := by
  obtain ⟨-, hoff, hle, -, -⟩ := hs
  have h4 : sizeofCount = 4 := rfl
  have hneed : wrap (len + b.mUsed) = len + b.mUsed := wrap_of_lt (by omega)
  have hstart : wrap ((b.mUsed + b.mFree) * 2) = (b.mUsed + b.mFree) * 2 := wrap_of_lt (by omega)
  have hnot : wsub b.mUsed b.mOff = b.mUsed - b.mOff := wsub_of_le hle (by omega)
  have hmove : wrap (wrap (len + wsub b.mUsed b.mOff) + sizeofCount) =
      len + (b.mUsed - b.mOff) + sizeofCount := by
    rw [hnot, wrap_of_lt (n := len + _) (by omega), wrap_of_lt (by omega)]
  obtain ⟨n, hn, hge, hsize, hup⟩ := doubleUntil_spec (len + b.mUsed)
    ((b.mUsed + b.mFree) * 2) 64 (by omega) (by omega) (by omega) (by omega)
  obtain ⟨m, hm, hgem, hsizem, hupm⟩ := doubleUntil_spec
    (len + (b.mUsed - b.mOff) + sizeofCount) (max init sizeofCount) 64 (by omega)
    (by omega) (by omega) (by omega)
  cases expandBuffer_expands he with
  | resizeLoops hres hnone =>
    rw [hneed, hstart, hn] at hnone
    cases hnone
  | resizeFailed hres => exact .inl ⟨rfl, rfl, rfl⟩
  | resized hres hsome hc hd =>
    rw [hneed, hstart, hn] at hsome
    obtain rfl := Option.some.inj hsome
    rw [wsub_of_le (by omega) (by omega)]
    exact .inr ⟨rfl, .resized hres hc hd hge (by omega) (by omega)⟩
  | moveLoops hres hnone =>
    rw [hmove, hm] at hnone
    cases hnone
  | moveFailed hres => exact .inl ⟨rfl, rfl, rfl⟩
  | moved hres hsome hd =>
    rw [hmove, hm] at hsome
    obtain rfl := Option.some.inj hsome
    rw [hnot, wrap_of_lt (n := b.mUsed - b.mOff + sizeofCount) (by omega), wsub_of_le (by omega) (by omega)]
    exact .inr ⟨rfl, .moved hd hgem (by omega)⟩

theorem Expanded.room {h h' : Heap (List UInt8)} {b b' : Buf} {len : ℕ} (he : Expanded h b len h' b') :
    len ≤ b'.mFree := by
  cases he with
  | resized _ _ _ hlen => dsimp only; omega
  | moved _ hlen => dsimp only; omega

theorem Expanded.shape {h h' : Heap (List UInt8)} {b b' : Buf} {len : ℕ} (hs : Shape h b)
    (he : Expanded h b len h' b') : Shape h' b' := by
  have h4 : sizeofCount = 4 := rfl
  obtain ⟨-, hoff, hle, hsize, -⟩ := hs
  cases he with
  | @resized c d n junk _ hc hd hlen hn hlt =>
    rw [bytesAt_of_cell hc] at hsize
    refine ⟨by simp, hoff, hle, ?_, by dsimp only; omega⟩
    rw [bytesAt_update, if_pos rfl]
    dsimp only
    rw [length_resize (by omega)]
    omega
  | @moved d n junk hd hlen hlt =>
    have hsl : (slice (bytesAt h b.mBuffer) b.mOff (b.mUsed - b.mOff)).length = b.mUsed - b.mOff :=
      length_slice (by omega)
    refine ⟨by simp, by simp, by dsimp only; omega, ?_, by dsimp only; omega⟩
    rw [bytesAt_update, if_pos rfl]
    dsimp only
    rw [length_patch (by rw [hsl, length_fresh]; omega), length_fresh]
    omega

theorem Expanded.pending {h h' : Heap (List UInt8)} {b b' : Buf} {len : ℕ} (hs : Shape h b)
    (he : Expanded h b len h' b') :
    slice (bytesAt h' b'.mBuffer) b'.mOff (b'.mUsed - b'.mOff) =
      slice (bytesAt h b.mBuffer) b.mOff (b.mUsed - b.mOff) := by
  have h4 : sizeofCount = 4 := rfl
  obtain ⟨-, hoff, hle, hsize, -⟩ := hs
  cases he with
  | @resized c d n junk _ hc hd hlen hn hlt =>
    rw [bytesAt_of_cell hc] at hsize ⊢
    rw [bytesAt_update, if_pos rfl]
    dsimp only
    exact slice_resize (by omega) (by omega) junk
  | @moved d n junk hd hlen hlt =>
    have hsl : (slice (bytesAt h b.mBuffer) b.mOff (b.mUsed - b.mOff)).length = b.mUsed - b.mOff :=
      length_slice (by omega)
    rw [bytesAt_update, if_pos rfl]
    dsimp only
    have hroom : sizeofCount + (slice (bytesAt h b.mBuffer) b.mOff (b.mUsed - b.mOff)).length ≤
        (fresh n junk).length := by rw [hsl, length_fresh]; omega
    have hself := slice_patch_self hroom
    rwa [hsl] at hself

theorem bufOwners_move (b : Buf) (d : ℕ) {b' : Buf} {m : Multiset ℕ} (hd : b'.mBuffer = d)
    (hr : b'.mRef = b.mRef ++ [b.mBuffer]) :
    bufOwners (some b') + m = d ::ₘ (bufOwners (some b) + m) := by
  simp only [bufOwners, hd, hr, ← Multiset.coe_add, Multiset.coe_singleton,
    ← Multiset.singleton_add]
  abel

/-! ### Where a growth leaves the chunks

Whatever its sizes, a growth changes nothing, or resizes the current chunk, which has no other owner, or
moves on to a new chunk and keeps the old one in `m_ref`. -/

inductive Moves (h : Heap (List UInt8)) (b : Buf) : Heap (List UInt8) → Buf → Prop
  | same : Moves h b h b
  | resized {c : Cell (List UInt8)} {d : ℕ} {data : List UInt8} {b' : Buf} :
      resizes h b = true → h b.mBuffer = some c → (d = b.mBuffer ∨ h d = none) →
      b'.mBuffer = d → b'.mRef = b.mRef →
      Moves h b (Function.update (Function.update h b.mBuffer none) d (some ⟨data, c.count⟩)) b'
  | moved {d : ℕ} {data : List UInt8} {b' : Buf} :
      h d = none → b'.mBuffer = d → b'.mRef = b.mRef ++ [b.mBuffer] →
      Moves h b (Function.update h d (some ⟨data, 1⟩)) b'

theorem expandBuffer_moves {h h' : Heap (List UInt8)} {b b' : Buf} {len init : ℕ} {mem : Alloc}
    {vec : Bool} {o : Outcome} (he : expandBuffer h b len init mem vec = some (h', b', o)) :
    Moves h b h' b' := by
  cases expandBuffer_expands he with
  | resizeLoops hres hn => exact .same
  | resizeFailed hres => exact .same
  | resized hres hn hc hd => exact .resized hres hc hd rfl rfl
  | moveLoops hres hn => exact .same
  | moveFailed hres => exact .same
  | moved hres hn hd => exact .moved hd rfl rfl

theorem Expanded.moves {h h' : Heap (List UInt8)} {b b' : Buf} {len : ℕ} (he : Expanded h b len h' b') :
    Moves h b h' b' := by
  cases he with
  | resized hres hcell hd => exact .resized hres hcell hd rfl rfl
  | moved hd => exact .moved hd rfl rfl

/-- The chunk that a growth gives up goes to `m_ref`, or had no other owner. -/
theorem Moves.counts {h h' : Heap (List UInt8)} {b b' : Buf} {m : Multiset ℕ}
    (hc : Counts h (bufOwners (some b) + m)) (he : Moves h b h' b') :
    Counts h' (bufOwners (some b') + m) := by
  cases he with
  | same => exact hc
  | @resized c d data _ hres hcell hd hd' href =>
    simp only [resizes, Bool.and_eq_true, beq_iff_eq] at hres
    have hone : c.count = 1 := by simpa [getCount, hcell] using hres.2
    simp only [bufOwners, Multiset.cons_add, hd', href] at hc ⊢
    exact hc.realloc hcell hone hd _
  | @moved d data _ hd hd' href =>
    rw [bufOwners_move b d hd' href]
    exact hc.alloc hd _

/-- A live chunk that is not the current one, and one with another owner, are neither freed nor
written by a growth. -/
theorem Moves.other {h h' : Heap (List UInt8)} {b b' : Buf} (he : Moves h b h' b') {d : ℕ}
    (hlive : (h d).isSome) (hd : d ≠ b.mBuffer ∨ getCount h d ≠ 1) :
    h' d = h d ∧ (b' = b ∨ d ≠ b'.mBuffer) := by
  cases he with
  | same => exact ⟨rfl, .inl rfl⟩
  | @resized c d' data _ hres hcell hd' heq =>
    simp only [resizes, Bool.and_eq_true, beq_iff_eq] at hres
    have hne : d ≠ b.mBuffer := by
      rcases hd with hd | hd
      · exact hd
      · rintro rfl
        exact hd hres.2
    have hne' : d ≠ d' := by
      rcases hd' with rfl | hfree
      · exact hne
      · rintro rfl
        rw [hfree] at hlive
        cases hlive
    rw [Function.update_of_ne hne', Function.update_of_ne hne, heq]
    exact ⟨rfl, .inr hne'⟩
  | @moved d' data _ hd' heq =>
    have hne' : d ≠ d' := by
      rintro rfl
      rw [hd'] at hlive
      cases hlive
    rw [Function.update_of_ne hne', heq]
    exact ⟨rfl, .inr hne'⟩

theorem Expanded.outside {h h' : Heap (List UInt8)} {b b' : Buf} {len : ℕ} {m : Multiset ℕ}
    (hc : Counts h (bufOwners (some b) + m)) (he : Expanded h b len h' b') {d : ℕ} (hd : d ∈ m) :
    d ≠ b'.mBuffer ∧ bytesAt h' d = bytesAt h d := by
  have hlive : (h d).isSome := hc.live d (by simp [hd])
  cases he with
  | @resized c d' n junk hres hcell hd' =>
    simp only [resizes, Bool.and_eq_true, beq_iff_eq] at hres
    simp only [bufOwners, Multiset.cons_add] at hc
    have hne : d ≠ b.mBuffer := by
      intro heq
      exact hc.sole hres.2 (heq ▸ Multiset.mem_add.mpr (.inr hd))
    have hne' : d ≠ d' := by
      rcases hd' with rfl | hfree
      · exact hne
      · intro heq
        rw [heq, hfree] at hlive
        cases hlive
    refine ⟨hne', ?_⟩
    rw [bytesAt_update, if_neg hne']
    simp [bytesAt, dataAt, hne]
  | @moved d' n junk hd' =>
    have hne' : d ≠ d' := by
      intro heq
      rw [heq, hd'] at hlive
      cases hlive
    exact ⟨hne', by rw [bytesAt_update, if_neg hne']⟩

theorem Moves.apart {h h' : Heap (List UInt8)} {b b' : Buf} {m : Multiset ℕ}
    (hc : Counts h (bufOwners (some b) + m)) (hb : b.mBuffer ∉ b.mRef)
    (he : Moves h b h' b') : b'.mBuffer ∉ b'.mRef := by
  have hfresh : ∀ d, h d = none → d ∉ b.mBuffer :: b.mRef := by
    intro d hd hmem
    have hlive := hc.live d (Multiset.mem_add.mpr (.inl (by simpa [bufOwners] using hmem)))
    rw [hd] at hlive
    cases hlive
  cases he with
  | same => exact hb
  | @resized c d data _ _ _ hd hd' href =>
    rw [hd', href]
    rcases hd with rfl | hd
    · exact hb
    · exact fun hmem => hfresh d hd (List.mem_cons_of_mem _ hmem)
  | @moved d data _ hd hd' href =>
    rw [hd', href]
    intro hmem
    refine hfresh d hd ?_
    simpa [or_comm] using hmem

end Mpio.StreamBuffer
