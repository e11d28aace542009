import Mpio.SharedBuffer.Model
import Mathlib.Tactic.Abel

/-!
# Held ranges stay as they are

`Inv` holds in every state of an admissible run (`reachable_inv`):

* `counts`: every counter is the number of owners, so a counter read as `1` really says that
  `m_buffer` is the only owner, and no reference can appear before the call is over: there is none to
  copy;
* `shape`: the current chunk is `m_used + m_free` bytes long;
* `reserve`: what a `reserve_buffer` call under way has established; its new chunk has no reference;
* `kept`: the range of a live reference holds the bytes it held, it ends at or below `m_used` in the
  current chunk, and two of them do not overlap. `m_used` goes down only in the rewind, when the chunk
  has no reference.

The operations on references are one rule (`Inv.refsChange`), and so are those that only move `m_used`
(`Inv.bufChange`).
-/

namespace Mpio.SharedBuffer

open Lib Lib.Heap
open StreamBuffer (sizeofCount Alloc bytesAt bytesAt_update bytesAt_of_cell bytesAt_incrCount
  bytesAt_decrCount)

variable {s s' : State} {h h' : Heap (List UInt8)} {b b' : Buf} {buf buf' : Option Buf}
  {refs refs' : List Ref} {holds : List Hold} {d i j : ℕ}

/-! ## Owners -/

theorem mem_refOwners : d ∈ refOwners refs ↔ ∃ r ∈ refs, r.m = some d := by
  simp [refOwners, mem_sum_map]

theorem refOwners_append_null (refs : List Ref) (k : ℕ) : refOwners (refs ++ [⟨none, k⟩]) = refOwners refs := by
  simp [refOwners]

theorem refOwners_append_live (refs : List Ref) (d k : ℕ) :
    refOwners (refs ++ [⟨some d, k⟩]) = d ::ₘ refOwners refs := by
  rw [← Multiset.singleton_add, add_comm]
  simp [refOwners]

theorem owners_clearRef {k : ℕ} (hi : s.refs[i]? = some ⟨some d, k⟩) :
    owners s = d ::ₘ (bufOwners s.buf s.inReserve + refOwners (s.refs.set i ⟨none, k⟩)) := by
  obtain ⟨rest, hrest, hset⟩ := sum_map_set (fun r : Ref => (r.m.toList : Multiset ℕ)) hi
  rw [owners, refOwners, hrest, refOwners, hset, ← Multiset.singleton_add]
  simp only [Option.toList_some, Option.toList_none, Multiset.coe_singleton, Multiset.coe_nil]
  abel

/-- Every live reference of `refs'` has one in `refs` that comes from the same call. -/
def Covers (refs refs' : List Ref) : Prop :=
  ∀ r' ∈ refs', ∀ d, r'.m = some d → ∃ r ∈ refs, r.m = some d ∧ r.hold = r'.hold

theorem Covers.of_subset (hsub : ∀ r ∈ refs', r ∈ refs) : Covers refs refs' :=
  fun r hr _ hd => ⟨r, hsub r hr, hd, rfl⟩

theorem Covers.owner (hc : Covers refs refs') (hd : d ∈ refOwners refs') : d ∈ refOwners refs := by
  obtain ⟨r', hr', hm'⟩ := mem_refOwners.mp hd
  obtain ⟨r, hr, hm, -⟩ := hc r' hr' d hm'
  exact mem_refOwners.mpr ⟨r, hr, hm⟩

/-! ## The invariant -/

/-- The ranges of two calls have no byte in common. -/
def Hold.Apart (k k' : Hold) : Prop :=
  k.off + k.bytes.length ≤ k'.off ∨ k'.off + k'.bytes.length ≤ k.off

structure Shape (h : Heap (List UInt8)) (b : Buf) : Prop where
  used_ge : sizeofCount ≤ b.mUsed
  size : b.mUsed + b.mFree = (bytesAt h b.mBuffer).length
  lt : b.mUsed + b.mFree < 2 ^ 64

def ReserveOk (h : Heap (List UInt8)) (refs : List Ref) : Option Buf → Option Reserve → Prop
  | _, none => True
  | none, some _ => False
  | some b, some (.counted len init) => len + init + (b.mUsed + b.mFree) < 2 ^ 62
  | some b, some (.allocated len d nextSize) =>
    d ≠ b.mBuffer ∧ d ∉ refOwners refs ∧ (bytesAt h d).length = nextSize ∧
      len + sizeofCount ≤ nextSize ∧ nextSize < 2 ^ 64

structure Kept (h : Heap (List UInt8)) (buf : Option Buf) (refs : List Ref) (holds : List Hold) :
    Prop where
  intact : ∀ r ∈ refs, ∀ d, r.m = some d → ∃ k, holds[r.hold]? = some k ∧ k.chunk = d ∧
    slice (bytesAt h d) k.off k.bytes.length = k.bytes ∧
    ∀ b, buf = some b → b.mBuffer = d → k.off + k.bytes.length ≤ b.mUsed
  apart : ∀ r ∈ refs, ∀ r' ∈ refs, r.hold ≠ r'.hold → ∀ d, r.m = some d → r'.m = some d →
    ∀ k k', holds[r.hold]? = some k → holds[r'.hold]? = some k' → k.Apart k'

structure Inv (s : State) : Prop where
  counts : Counts s.heap (owners s)
  shape : ∀ b, s.buf = some b → Shape s.heap b
  reserve : ReserveOk s.heap s.refs s.buf s.inReserve
  kept : Kept s.heap s.buf s.refs s.holds

theorem inv_start : Inv start where
  counts := ⟨by simp [start, owners, bufOwners, refOwners],
    by simp [start, owners, bufOwners, refOwners], by simp [start]⟩
  shape := by simp [start]
  reserve := trivial
  kept := ⟨by simp [start], by simp [start]⟩

theorem Inv.owner_of_ref (_ : Inv s) (hd : d ∈ refOwners s.refs) : d ∈ owners s :=
  Multiset.mem_add.mpr (.inr hd)

theorem mem_bufOwners (b : Buf) (r : Option Reserve) : b.mBuffer ∈ bufOwners (some b) r := by
  unfold bufOwners
  split <;> simp_all

theorem Kept.frame (hk : Kept h buf refs holds) (hcov : Covers refs refs')
    (hbytes : ∀ d ∈ refOwners refs', bytesAt h' d = bytesAt h d)
    (hbuf : ∀ b', buf' = some b' → b'.mBuffer ∈ refOwners refs' →
      ∃ b, buf = some b ∧ b.mBuffer = b'.mBuffer ∧ b.mUsed ≤ b'.mUsed) : Kept h' buf' refs' holds := by
  refine ⟨?_, ?_⟩
  · intro r' hr' d hd'
    obtain ⟨r, hr, hd, hsame⟩ := hcov r' hr' d hd'
    obtain ⟨k, hk, hchunk, hslice, hend⟩ := hk.intact r hr d hd
    have hown : d ∈ refOwners refs' := mem_refOwners.mpr ⟨r', hr', hd'⟩
    refine ⟨k, hsame ▸ hk, hchunk, by rw [hbytes d hown]; exact hslice, ?_⟩
    intro b' hb' heq
    obtain ⟨b, hb, heq', hle⟩ := hbuf b' hb' (heq ▸ hown)
    exact (hend b hb (heq'.trans heq)).trans hle
  · intro r₁ h₁ r₂ h₂ hne d hd₁ hd₂ k k' hk₁ hk₂
    obtain ⟨p₁, hp₁, hm₁, hs₁⟩ := hcov r₁ h₁ d hd₁
    obtain ⟨p₂, hp₂, hm₂, hs₂⟩ := hcov r₂ h₂ d hd₂
    rw [← hs₁] at hk₁ hne
    rw [← hs₂] at hk₂ hne
    exact hk.apart p₁ hp₁ p₂ hp₂ hne d hm₁ hm₂ k k' hk₁ hk₂

/-- The new chunk of a call under way keeps its bytes and gets no reference. -/
theorem ReserveOk.frame {p : Option Reserve} (hr : ReserveOk h refs buf p)
    (hsub : ∀ d ∈ refOwners refs', d ∈ refOwners refs)
    (hbytes : ∀ d ∈ bufOwners buf p, bytesAt h' d = bytesAt h d) : ReserveOk h' refs' buf p := by
  rcases p with _ | p
  · trivial
  · rcases buf with _ | b
    · exact hr
    · cases p with
      | counted len init => exact hr
      | allocated len d nextSize =>
        obtain ⟨hne, hno, hlen, hroom, hlt⟩ := hr
        refine ⟨hne, fun hd => hno (hsub d hd), ?_, hroom, hlt⟩
        rw [hbytes d (by simp [bufOwners]), hlen]

/-! ## The two rules -/

theorem Inv.refsChange (hinv : Inv s) (h' : Heap (List UInt8))
    (hc : Counts h' (bufOwners s.buf s.inReserve + refOwners refs'))
    (hcov : Covers s.refs refs')
    (hbytes : ∀ d ∈ bufOwners s.buf s.inReserve + refOwners refs', bytesAt h' d = bytesAt s.heap d) :
    Inv { s with heap := h', refs := refs' } := by
  refine ⟨hc, ?_, ?_, ?_⟩
  · intro b hb
    obtain ⟨hge, hsize, hlt⟩ := hinv.shape b hb
    refine ⟨hge, ?_, hlt⟩
    rw [hsize, hbytes]
    refine Multiset.mem_add.mpr (.inl ?_)
    rw [show s.buf = some b from hb]
    exact mem_bufOwners b _
  · refine hinv.reserve.frame (fun d hd => hcov.owner hd) fun d hd => ?_
    exact hbytes d (Multiset.mem_add.mpr (.inl hd))
  · refine hinv.kept.frame hcov (fun d hd => hbytes d (Multiset.mem_add.mpr (.inr hd))) ?_
    exact fun b hb _ => ⟨b, hb, rfl, le_rfl⟩

/-- `m_used` and `m_free` move inside the current chunk; `m_used` goes down only if nothing is held. -/
theorem Inv.bufChange (hinv : Inv s) (hbuf : s.buf = some b) {p : Option Reserve}
    (hsame : b'.mBuffer = b.mBuffer) (hown : bufOwners (some b') p = bufOwners (some b) s.inReserve)
    (hshape : Shape s.heap b') (hres : ReserveOk s.heap s.refs (some b') p)
    (hused : b.mBuffer ∈ refOwners s.refs → b.mUsed ≤ b'.mUsed) :
    Inv { s with buf := some b', inReserve := p } := by
  refine ⟨?_, ?_, hres, ?_⟩
  · have hc := hinv.counts
    rw [owners, hbuf, ← hown] at hc
    exact hc
  · intro x hx
    obtain rfl := Option.some.inj hx
    exact hshape
  · refine hinv.kept.frame (.of_subset fun _ hr => hr) (fun _ _ => rfl) ?_
    intro x hx hmem
    obtain rfl := Option.some.inj hx
    exact ⟨b, hbuf, hsame.symm, hused (hsame ▸ hmem)⟩

/-! ## Operations on references -/

theorem inv_newRef (hinv : Inv s) : Inv { s with refs := s.refs ++ [⟨none, 0⟩] } := by
  refine hinv.refsChange s.heap ?_ ?_ fun _ _ => rfl
  · rw [refOwners_append_null]
    exact hinv.counts
  · intro r' hr' d hd
    rcases List.mem_append.mp hr' with hr' | hr'
    · exact ⟨r', hr', hd, rfl⟩
    · obtain rfl := List.mem_singleton.mp hr'
      cases hd

theorem inv_copyRef (hinv : Inv s) {k : ℕ} (hi : s.refs[i]? = some ⟨some d, k⟩)
    (hlt : (owners s).count d + 1 < 2 ^ 32) :
    Inv { s with heap := incrCount s.heap d, refs := s.refs ++ [⟨some d, k⟩] } := by
  have hr : (⟨some d, k⟩ : Ref) ∈ s.refs := List.mem_of_getElem? hi
  have hown : d ∈ refOwners s.refs := mem_refOwners.mpr ⟨_, hr, rfl⟩
  refine hinv.refsChange _ ?_ ?_ fun x _ => bytesAt_incrCount s.heap d x
  · rw [refOwners_append_live, Multiset.add_cons]
    exact hinv.counts.incr (hinv.owner_of_ref hown) hlt
  · intro r' hr' x hx
    rcases List.mem_append.mp hr' with hr' | hr'
    · exact ⟨r', hr', hx, rfl⟩
    · obtain rfl := List.mem_singleton.mp hr'
      exact ⟨_, hr, hx, rfl⟩

theorem inv_swapRefs (hinv : Inv s) {ri rj : Ref} (hi : s.refs[i]? = some ri)
    (hj : s.refs[j]? = some rj) : Inv { s with refs := (s.refs.set i rj).set j ri } := by
  refine hinv.refsChange s.heap ?_ ?_ fun _ _ => rfl
  · rw [refOwners, sum_map_swap _ hi hj]
    exact hinv.counts
  · exact .of_subset fun r hr => mem_of_mem_swap hi hj hr

theorem inv_clearRef (hinv : Inv s) {k : ℕ} (hi : s.refs[i]? = some ⟨some d, k⟩) :
    Inv { s with heap := decrCount s.heap d, refs := s.refs.set i ⟨none, k⟩ } := by
  have hc := hinv.counts
  rw [owners_clearRef hi] at hc
  refine hinv.refsChange _ hc.decr ?_ fun x hx => bytesAt_decrCount (hc.decr.live x hx)
  intro r' hr' x hx
  rcases List.mem_or_eq_of_mem_set hr' with hold | rfl
  · exact ⟨r', hold, hx, rfl⟩
  · cases hx

/-! ## Operations on the buffer -/

theorem Inv.counts_of_buf (hinv : Inv s) (hbuf : s.buf = some b) (hres : s.inReserve = none) :
    Counts s.heap (b.mBuffer ::ₘ refOwners s.refs) := by
  have hc := hinv.counts
  rwa [owners, hbuf, hres, bufOwners, Multiset.singleton_add] at hc
  nofun

theorem Inv.not_owned (hinv : Inv s) (hd : s.heap d = none) : d ∉ owners s := by
  intro hmem
  have hlive := hinv.counts.live d hmem
  rw [hd] at hlive
  cases hlive

theorem inv_construct (hinv : Inv s) {init : ℕ} {junk : ℕ → UInt8} (hbuf : s.buf = none)
    (hd : s.heap d = none) (hinit : init < 2 ^ 64) :
    Inv { s with
      heap := Function.update s.heap d (some ⟨fresh (max init sizeofCount) junk, 1⟩)
      buf := some ⟨d, sizeofCount, wsub (max init sizeofCount) sizeofCount⟩ } := by
  have h4 : sizeofCount = 4 := rfl
  have hfree : wsub (max init sizeofCount) sizeofCount = max init sizeofCount - sizeofCount :=
    wsub_of_le (by omega) (by omega)
  have hres : s.inReserve = none := by
    have hreserve := hinv.reserve
    cases hp : s.inReserve with
    | none => rfl
    | some p =>
      rw [hbuf, hp] at hreserve
      exact hreserve.elim
  have hnot : d ∉ refOwners s.refs := fun hmem => hinv.not_owned hd (hinv.owner_of_ref hmem)
  refine ⟨?_, ?_, ?_, ?_⟩
  · have hc := hinv.counts.alloc hd (fresh (max init sizeofCount) junk)
    simpa [owners, bufOwners, hbuf, hres] using hc
  · intro x hx
    obtain rfl := Option.some.inj hx
    refine ⟨le_rfl, ?_, by dsimp only; omega⟩
    rw [bytesAt_update, if_pos rfl, hfree]
    simp only [length_fresh]
    omega
  · rw [show s.inReserve = none from hres]
    trivial
  · refine hinv.kept.frame (.of_subset fun _ hr => hr) ?_ ?_
    · intro x hx
      rw [bytesAt_update, if_neg]
      rintro rfl
      exact hnot hx
    · intro x hx hmem
      obtain rfl := Option.some.inj hx
      exact absurd hmem hnot

theorem inv_reserveBegin (hinv : Inv s) (hbuf : s.buf = some b) (hres : s.inReserve = none)
    {len init : ℕ} (hlt : len + init + (b.mUsed + b.mFree) < 2 ^ 62) :
    Inv { s with
      buf := some (if getCount s.heap b.mBuffer = 1 then b.rewind else b)
      inReserve := some (.counted len init) } := by
  have h4 : sizeofCount = 4 := rfl
  obtain ⟨hge, hsize, hmax⟩ := hinv.shape b hbuf
  by_cases hone : getCount s.heap b.mBuffer = 1
  · rw [if_pos hone]
    have hfree : b.rewind.mFree = b.mFree + (b.mUsed - sizeofCount) := by
      show wrap (b.mFree + wsub b.mUsed sizeofCount) = _
      rw [wsub_of_le hge (by omega), wrap_of_lt (by omega)]
    have hused : b.rewind.mUsed = sizeofCount := rfl
    refine hinv.bufChange hbuf rfl (by rw [hres]; rfl) ⟨le_rfl, ?_, ?_⟩ ?_ ?_
    · show b.rewind.mUsed + b.rewind.mFree = (bytesAt s.heap b.mBuffer).length
      omega
    · omega
    · show len + init + (b.rewind.mUsed + b.rewind.mFree) < 2 ^ 62
      omega
    · -- the counter says that no reference holds the chunk being rewound
      intro hmem
      exact absurd hmem ((hinv.counts_of_buf hbuf hres).sole hone)
  · rw [if_neg hone]
    exact hinv.bufChange hbuf rfl (by rw [hres]; rfl) ⟨hge, hsize, hmax⟩ hlt fun _ => le_rfl

theorem Shape.advance (hs : Shape h b) {n : ℕ} (hn : n ≤ b.mFree) :
    Shape h (b.advance n) ∧ (b.advance n).mUsed = b.mUsed + n := by
  obtain ⟨hge, hsize, hlt⟩ := hs
  have hused : (b.advance n).mUsed = b.mUsed + n := wrap_of_lt (by omega)
  have hfree : (b.advance n).mFree = b.mFree - n := wsub_of_le hn (by omega)
  refine ⟨⟨by omega, ?_, by omega⟩, hused⟩
  show (b.advance n).mUsed + (b.advance n).mFree = (bytesAt h b.mBuffer).length
  omega

theorem inv_skip (hinv : Inv s) (hbuf : s.buf = some b) (hres : s.inReserve = none) (len : ℕ) :
    Inv { s with buf := some (b.advance (b.clamp len)) } := by
  obtain ⟨hshape, hused⟩ := (hinv.shape b hbuf).advance (b.clamp_le len)
  exact hinv.bufChange hbuf rfl (by rw [hres]; rfl) hshape (by rw [hres]; trivial) fun _ => by omega

theorem inv_write (hinv : Inv s) (hbuf : s.buf = some b) (hres : s.inReserve = none)
    {c : Cell (List UInt8)} (hc : s.heap b.mBuffer = some c) {pos : ℕ} {bytes : List UInt8}
    (hpos : b.mUsed ≤ pos) (hend : pos + bytes.length ≤ b.mUsed + b.mFree) :
    Inv { s with heap := Function.update s.heap b.mBuffer
                   (some { c with data := patch c.data pos bytes }) } := by
  obtain ⟨hge, hsize, hmax⟩ := hinv.shape b hbuf
  rw [bytesAt_of_cell hc] at hsize
  have hfit : pos + bytes.length ≤ c.data.length := by omega
  refine ⟨hinv.counts.setData hc _, ?_, ?_, ⟨?_, hinv.kept.apart⟩⟩
  · intro x hx
    obtain rfl := Option.some.inj (hbuf.symm.trans hx)
    refine ⟨hge, ?_, hmax⟩
    rw [bytesAt_update, if_pos rfl]
    dsimp only
    rw [length_patch hfit, hsize]
  · rw [show s.inReserve = none from hres]
    trivial
  · intro r hr d hd
    obtain ⟨k, hk, hchunk, hslice, hbound⟩ := hinv.kept.intact r hr d hd
    refine ⟨k, hk, hchunk, ?_, hbound⟩
    rw [bytesAt_update]
    by_cases heq : d = b.mBuffer
    · -- what is held in the current chunk ends where the writable part begins
      have hle := hbound b hbuf heq.symm
      rw [if_pos heq]
      dsimp only
      rw [slice_patch_disjoint hfit (by omega), ← bytesAt_of_cell hc, ← heq]
      exact hslice
    · rw [if_neg heq]
      exact hslice

/-- A new range begins where `m_used` was, above all that is held in the chunk. -/
theorem Kept.held (hk : Kept h (some b) refs holds) (hs : Shape h b) {n : ℕ} (hn : n ≤ b.mFree) :
    Kept h (some (b.advance n)) (refs ++ [⟨some b.mBuffer, holds.length⟩])
      (holds ++ [⟨b.mBuffer, b.mUsed, slice (bytesAt h b.mBuffer) b.mUsed n⟩]) := by
  have hsize := hs.size
  obtain ⟨-, hused⟩ := hs.advance hn
  have hlen : (slice (bytesAt h b.mBuffer) b.mUsed n).length = n := length_slice (by omega)
  have hold {r : Ref} (hr : r ∈ refs) {d : ℕ} (hd : r.m = some d) (x : Hold) :
      (holds ++ [x])[r.hold]? = holds[r.hold]? := by
    obtain ⟨k, hk, -⟩ := hk.intact r hr d hd
    exact List.getElem?_append_left (List.getElem?_eq_some_iff.mp hk).1
  have hnew (x : Hold) : (holds ++ [x])[holds.length]? = some x := by simp
  have hbelow {r : Ref} (hr : r ∈ refs) (hd : r.m = some b.mBuffer) {k : Hold}
      (hk' : holds[r.hold]? = some k) : k.off + k.bytes.length ≤ b.mUsed := by
    obtain ⟨k', hk'', -, -, hend⟩ := hk.intact r hr _ hd
    obtain rfl := Option.some.inj (hk'.symm.trans hk'')
    exact hend b rfl rfl
  refine ⟨?_, ?_⟩
  · intro r hr d hd
    rcases List.mem_append.mp hr with hr | hr
    · obtain ⟨k, hk, hchunk, hslice, hend⟩ := hk.intact r hr d hd
      refine ⟨k, (hold hr hd _).trans hk, hchunk, hslice, ?_⟩
      intro x hx heq
      obtain rfl := Option.some.inj hx
      have hle := hend b rfl heq
      omega
    · obtain rfl := List.mem_singleton.mp hr
      obtain rfl := Option.some.inj hd
      refine ⟨_, hnew _, rfl, by rw [hlen], ?_⟩
      intro x hx _
      obtain rfl := Option.some.inj hx
      dsimp only
      rw [hlen, hused]
  · intro r hr r' hr' hne d hd hd' k k' hk₁ hk₂
    rcases List.mem_append.mp hr with hr | hr
    · rw [hold hr hd] at hk₁
      rcases List.mem_append.mp hr' with hr' | hr'
      · rw [hold hr' hd'] at hk₂
        exact hk.apart r hr r' hr' hne d hd hd' k k' hk₁ hk₂
      · obtain rfl := List.mem_singleton.mp hr'
        obtain rfl := Option.some.inj hd'
        obtain rfl := Option.some.inj ((hnew _).symm.trans hk₂)
        exact .inl (hbelow hr hd hk₁)
    · obtain rfl := List.mem_singleton.mp hr
      obtain rfl := Option.some.inj hd
      obtain rfl := Option.some.inj ((hnew _).symm.trans hk₁)
      rcases List.mem_append.mp hr' with hr' | hr'
      · rw [hold hr' hd'] at hk₂
        exact .inr (hbelow hr' hd' hk₂)
      · obtain rfl := List.mem_singleton.mp hr'
        exact absurd rfl hne

theorem inv_hold (hinv : Inv s) (hbuf : s.buf = some b) (hres : s.inReserve = none) {n : ℕ}
    (hn : n ≤ b.mFree) (hlt : (owners s).count b.mBuffer + 1 < 2 ^ 32) :
    Inv { s with
      heap := incrCount s.heap b.mBuffer
      buf := some (b.advance n)
      refs := s.refs ++ [⟨some b.mBuffer, s.holds.length⟩]
      holds := s.holds ++ [⟨b.mBuffer, b.mUsed, slice (bytesAt s.heap b.mBuffer) b.mUsed n⟩] } := by
  obtain ⟨hshape, -⟩ := (hinv.shape b hbuf).advance hn
  have hown : b.mBuffer ∈ owners s := by
    rw [owners, hbuf]
    exact Multiset.mem_add.mpr (.inl (mem_bufOwners b _))
  refine ⟨?_, ?_, ?_, ?_⟩
  · have hc := hinv.counts.incr hown hlt
    rw [owners, hbuf, hres] at hc
    rw [owners, refOwners_append_live, Multiset.add_cons, show s.inReserve = none from hres]
    exact hc
  · intro x hx
    obtain rfl := Option.some.inj hx
    refine ⟨hshape.used_ge, ?_, hshape.lt⟩
    rw [bytesAt_incrCount]
    exact hshape.size
  · rw [show s.inReserve = none from hres]
    trivial
  · have hkept := hinv.kept
    rw [hbuf] at hkept
    refine (hkept.held (hinv.shape b hbuf) hn).frame (.of_subset fun _ hr => hr) ?_ ?_
    · exact fun x _ => bytesAt_incrCount s.heap b.mBuffer x
    · exact fun x hx _ => ⟨x, hx, rfl, le_rfl⟩

theorem inv_destroy (hinv : Inv s) (hbuf : s.buf = some b) (hres : s.inReserve = none) :
    Inv { s with heap := decrCount s.heap b.mBuffer, buf := none } := by
  have hc := (hinv.counts_of_buf hbuf hres).decr
  refine ⟨by simpa [owners, bufOwners] using hc, by simp, ?_, ?_⟩
  · rw [show s.inReserve = none from hres]
    trivial
  · refine hinv.kept.frame (.of_subset fun _ hr => hr) ?_ (by simp)
    exact fun x hx => bytesAt_decrCount (hc.live x hx)

/-! ## `reserve_buffer` from its second counter read on -/

/-- How `expand_buffer` goes up to `decr_count`. -/
inductive Expanded (s : State) (b : Buf) (len : ℕ) : State → Outcome → Prop
  | throws : Expanded s b len { s with inReserve := none } .badAlloc
  | resized {c : Cell (List UInt8)} {d nextSize : ℕ} {junk : ℕ → UInt8} (hres : resizes s.heap b = true)
    (hc : s.heap b.mBuffer = some c) (hd : d = b.mBuffer ∨ s.heap d = none)
    (hlen : len + b.mUsed ≤ nextSize) (hsize : b.mUsed + b.mFree ≤ nextSize) (hlt : nextSize < 2 ^ 64) :
    Expanded s b len { s with
      heap := Function.update (Function.update s.heap b.mBuffer none) d
        (some ⟨resize c.data nextSize junk, c.count⟩)
      buf := some { b with mBuffer := d, mFree := nextSize - b.mUsed }
      inReserve := none } .ok
  | allocated {d nextSize : ℕ} {junk : ℕ → UInt8} (hd : s.heap d = none)
    (hlen : len + sizeofCount ≤ nextSize) (hlt : nextSize < 2 ^ 64) :
    Expanded s b len { s with
      heap := Function.update s.heap d (some ⟨fresh nextSize junk, 1⟩)
      inReserve := some (.allocated len d nextSize) } .ok

theorem expandBuffer_expanded {len init : ℕ} {mem : Alloc} {o : Outcome} (hs : Shape s.heap b)
    (hlt : len + init + (b.mUsed + b.mFree) < 2 ^ 62)
    (he : expandBuffer s b len init mem = some (s', o)) : Expanded s b len s' o := by
  obtain ⟨hge, -, -⟩ := hs
  have h4 : sizeofCount = 4 := rfl
  have hneed : wrap (len + b.mUsed) = len + b.mUsed := wrap_of_lt (by omega)
  have hstart : wrap ((b.mUsed + b.mFree) * 2) = (b.mUsed + b.mFree) * 2 := wrap_of_lt (by omega)
  have hfresh : wrap (len + sizeofCount) = len + sizeofCount := wrap_of_lt (by omega)
  obtain ⟨n, hn, hroom, hsize, hup⟩ := doubleUntil_spec (len + b.mUsed)
    ((b.mUsed + b.mFree) * 2) 64 (by omega) (by omega) (by omega) (by omega)
  obtain ⟨m, hm, hroomm, hsizem, hupm⟩ := doubleUntil_spec (len + sizeofCount) (max init sizeofCount) 64
    (by omega) (by omega) (by omega) (by omega)
  cases expandBuffer_expands he with
  | resizeLoops hres hnone =>
    rw [hneed, hstart, hn] at hnone
    cases hnone
  | resizeFailed hres => exact .throws
  | resized hres hsome hc hd =>
    rw [hneed, hstart, hn] at hsome
    obtain rfl := Option.some.inj hsome
    rw [wsub_of_le (by omega) (by omega)]
    exact .resized hres hc hd hroom (by omega) (by omega)
  | allocLoops hres hnone =>
    rw [hfresh, hm] at hnone
    cases hnone
  | allocFailed hres => exact .throws
  | allocated hres hsome hd =>
    rw [hfresh, hm] at hsome
    obtain rfl := Option.some.inj hsome
    exact .allocated hd hroomm (by omega)

/-- A `reserve_buffer` call under way, before it has allocated, does not matter to the owners. -/
theorem Inv.counted_counts (hinv : Inv s) (hbuf : s.buf = some b) {len init : ℕ}
    (hres : s.inReserve = some (.counted len init)) :
    Counts s.heap (b.mBuffer ::ₘ refOwners s.refs) := by
  have hc := hinv.counts
  rwa [owners, hbuf, hres, bufOwners, Multiset.singleton_add] at hc
  nofun

theorem inv_reserveDone (hinv : Inv s) (hbuf : s.buf = some b) {len init : ℕ}
    (hres : s.inReserve = some (.counted len init)) : Inv { s with inReserve := none } := by
  have hdone := hinv.bufChange (p := none) hbuf rfl (by rw [hres]; rfl) (hinv.shape b hbuf) trivial
    fun _ => le_rfl
  rwa [← hbuf] at hdone

theorem inv_expanded (hinv : Inv s) (hbuf : s.buf = some b) {len init : ℕ}
    (hres : s.inReserve = some (.counted len init)) {o : Outcome} (he : Expanded s b len s' o) : Inv s' := by
  have h4 : sizeofCount = 4 := rfl
  have hc := hinv.counted_counts hbuf hres
  obtain ⟨hge, hsize, hmax⟩ := hinv.shape b hbuf
  cases he with
  | throws => exact inv_reserveDone hinv hbuf hres
  | @resized c d n junk hresize hcell hd hlen hn hlt =>
    simp only [resizes, Bool.and_eq_true, beq_iff_eq] at hresize
    have hone : c.count = 1 := by simpa [getCount, hcell] using hresize.2
    -- no reference holds the chunk being resized, nor the address it moves to
    have hsole : b.mBuffer ∉ refOwners s.refs := hc.sole hresize.2
    have hfresh : d ∉ refOwners s.refs := by
      rcases hd with rfl | hd
      · exact hsole
      · exact fun hmem => hinv.not_owned hd (hinv.owner_of_ref hmem)
    rw [bytesAt_of_cell hcell] at hsize
    refine ⟨?_, ?_, trivial, ?_⟩
    · have hmoved := hc.realloc hcell hone hd (resize c.data n junk)
      simpa [owners, bufOwners] using hmoved
    · intro x hx
      obtain rfl := Option.some.inj hx
      refine ⟨hge, ?_, by dsimp only; omega⟩
      rw [bytesAt_update, if_pos rfl]
      dsimp only
      rw [length_resize (by omega)]
      omega
    · refine hinv.kept.frame (.of_subset fun _ hr => hr) ?_ ?_
      · intro x hx
        have hxd : x ≠ d := fun heq => hfresh (heq ▸ hx)
        have hxb : x ≠ b.mBuffer := fun heq => hsole (heq ▸ hx)
        rw [bytesAt_update, if_neg hxd]
        simp [bytesAt, dataAt, hxb]
      · intro x hx hmem
        obtain rfl := Option.some.inj hx
        exact absurd hmem hfresh
  | @allocated d n junk hd hlen hlt =>
    have hnot : d ∉ owners s := hinv.not_owned hd
    have hother : ∀ x ∈ owners s, bytesAt (Function.update s.heap d (some ⟨fresh n junk, 1⟩)) x =
        bytesAt s.heap x := by
      intro x hx
      rw [bytesAt_update, if_neg]
      rintro rfl
      exact hnot hx
    have hcur : b.mBuffer ∈ owners s := by
      rw [owners, hbuf]
      exact Multiset.mem_add.mpr (.inl (mem_bufOwners b _))
    refine ⟨?_, ?_, ?_, ?_⟩
    · have hnew := hc.alloc hd (fresh n junk)
      rw [owners, show s.buf = some b from hbuf, bufOwners, Multiset.insert_eq_cons, Multiset.cons_add,
        Multiset.singleton_add, Multiset.cons_swap]
      exact hnew
    · intro x hx
      obtain rfl := Option.some.inj (hbuf.symm.trans hx)
      exact ⟨hge, by rw [hother _ hcur]; exact hsize, hmax⟩
    · rw [show s.buf = some b from hbuf]
      refine ⟨fun heq => hnot (heq ▸ hcur), fun hmem => hnot (hinv.owner_of_ref hmem), ?_, hlen, hlt⟩
      rw [bytesAt_update, if_pos rfl]
      exact length_fresh n junk
    · refine hinv.kept.frame (.of_subset fun _ hr => hr) ?_ fun x hx _ => ⟨x, hx, rfl, le_rfl⟩
      exact fun x hx => hother x (hinv.owner_of_ref hx)

/-- The old chunk is given up, and the new one, which no reference holds, takes its place. -/
theorem inv_reserveEnd (hinv : Inv s) (hbuf : s.buf = some b) {len nextSize : ℕ}
    (hres : s.inReserve = some (.allocated len d nextSize)) :
    Inv { s with
      heap := decrCount s.heap b.mBuffer
      buf := some ⟨d, sizeofCount, wsub nextSize sizeofCount⟩
      inReserve := none } := by
  have hreserve := hinv.reserve
  rw [hbuf, hres] at hreserve
  obtain ⟨-, hno, hlen, hroom, hlt⟩ := hreserve
  have hc := hinv.counts
  rw [owners, hbuf, hres, bufOwners, Multiset.insert_eq_cons, Multiset.cons_add,
    Multiset.singleton_add] at hc
  have hfree : wsub nextSize sizeofCount = nextSize - sizeofCount := wsub_of_le (by omega) hlt
  refine ⟨by simpa [owners, bufOwners] using hc.decr, ?_, trivial, ?_⟩
  · intro x hx
    obtain rfl := Option.some.inj hx
    have hlive := hc.decr.live d (Multiset.mem_cons_self d _)
    refine ⟨le_rfl, ?_, by dsimp only; omega⟩
    dsimp only
    rw [bytesAt_decrCount hlive, hlen, hfree]
    omega
  · refine hinv.kept.frame (.of_subset fun _ hr => hr) ?_ ?_
    · intro x hx
      exact bytesAt_decrCount (hc.decr.live x (Multiset.mem_cons_of_mem hx))
    · intro x hx hmem
      obtain rfl := Option.some.inj hx
      exact absurd hmem hno

/-! ## Whole runs -/

theorem perform_inv (hinv : Inv s) {op : Op} {o : Outcome} (ha : Admissible s op)
    (hp : perform s op = some (s', o)) : Inv s' := by
  obtain ⟨hsize, hown⟩ := ha
  cases perform_cases hp with
  | constructFailed hbuf => exact hinv
  | construct hbuf hd => exact inv_construct hinv hbuf hd hsize
  | reserveBegin hbuf hres => exact inv_reserveBegin hinv hbuf hres (hsize _ hbuf)
  | reserveRoom hbuf hres hroom => exact inv_reserveDone hinv hbuf hres
  | reserveExpand hbuf hres hfree he =>
    have hlt := hinv.reserve
    rw [hbuf, hres] at hlt
    exact inv_expanded hinv hbuf hres (expandBuffer_expanded (hinv.shape _ hbuf) hlt he)
  | reserveEnd hbuf hres => exact inv_reserveEnd hinv hbuf hres
  | write hbuf hres hpos hc => exact inv_write hinv hbuf hres hc hpos.1 hpos.2
  | @hold len b hbuf hres => exact inv_hold hinv hbuf hres (b.clamp_le len) (hown b hbuf)
  | @skip len b hbuf hres => exact inv_skip hinv hbuf hres len
  | newRef => exact inv_newRef hinv
  | @copyRef i d k hi => exact inv_copyRef hinv hi (hown _ hi d rfl)
  | swapRefs hi hj => exact inv_swapRefs hinv hi hj
  | clearRef hi => exact inv_clearRef hinv hi
  | clearNull hi => exact hinv
  | destroy hbuf hres => exact inv_destroy hinv hbuf hres

theorem reachable_inv (h : system.Reachable Admissible s) : Inv s := by
  refine h.invariant (fun s hs => hs ▸ inv_start) ?_
  intro s op s' _ hinv ha hstep
  obtain ⟨⟨s₁, o⟩, hp, rfl⟩ := Option.map_eq_some_iff.mp hstep
  exact perform_inv hinv ha hp

theorem reserve_room (hinv : Inv s) {p : Reserve} {op : Op} (hres : s.inReserve = some p)
    (hp : perform s op = some (s', .ok)) (hdone : s'.inReserve = none) :
    ∃ b, s'.buf = some b ∧ p.len ≤ b.mFree := by
  have hreserve := hinv.reserve
  rw [hres] at hreserve
  -- the other operations are not called meanwhile, or leave the call as it is
  have hsame (h : s'.inReserve = s.inReserve) : ∃ b, s'.buf = some b ∧ p.len ≤ b.mFree := by
    rw [hdone, hres] at h
    cases h
  have hidle (h : s.inReserve = none) : ∃ b, s'.buf = some b ∧ p.len ≤ b.mFree := by
    rw [hres] at h
    cases h
  cases perform_cases hp with
  | construct hbuf hd =>
    rw [hbuf] at hreserve
    exact hreserve.elim
  | reserveBegin _ hnone => exact hidle hnone
  | write _ hnone _ _ => exact hidle hnone
  | hold _ hnone => exact hidle hnone
  | skip _ hnone => exact hidle hnone
  | destroy _ hnone => exact hidle hnone
  | newRef => exact hsame rfl
  | copyRef hi => exact hsame rfl
  | swapRefs hi hj => exact hsame rfl
  | clearRef hi => exact hsame rfl
  | clearNull hi => exact hsame rfl
  | reserveRoom hbuf hres' hroom =>
    obtain rfl := Option.some.inj (hres.symm.trans hres')
    exact ⟨_, hbuf, Nat.le_of_not_lt hroom⟩
  | @reserveExpand len init mem b _ _ hbuf hres' hfree he =>
    obtain rfl := Option.some.inj (hres.symm.trans hres')
    rw [hbuf] at hreserve
    cases expandBuffer_expanded (hinv.shape b hbuf) hreserve he with
    | resized hresize hc hd hlen hsize hlt =>
      refine ⟨_, rfl, ?_⟩
      show len ≤ _ - b.mUsed
      omega
    | allocated => cases hdone
  | @reserveEnd len d nextSize b hbuf hres' =>
    obtain rfl := Option.some.inj (hres.symm.trans hres')
    rw [hbuf] at hreserve
    obtain ⟨-, -, -, hroom, hlt⟩ := hreserve
    refine ⟨_, rfl, ?_⟩
    show len ≤ wsub nextSize sizeofCount
    rw [wsub_of_le (by omega) hlt]
    omega

/-! ## Hold safety -/

/-- The current chunk has the size that the members say; counters count owners; an owned chunk is live,
and one with a reference is not resized; the range of each live reference holds the bytes that were in
it when `hold` was called, and the ranges of different calls in one chunk have no byte in common; and
`reserve_buffer` leaves the room asked for. -/
structure HoldSafe (s : State) : Prop where
  size : ∀ b, s.buf = some b → b.mUsed + b.mFree = (bytesAt s.heap b.mBuffer).length
  counted : ∀ d c, s.heap d = some c → c.count = (owners s).count d
  live : ∀ d ∈ owners s, (s.heap d).isSome
  resized : ∀ b, s.buf = some b → resizes s.heap b = true → ∀ r ∈ s.refs, r.m ≠ some b.mBuffer
  intact : ∀ r ∈ s.refs, ∀ d, r.m = some d → ∃ k, s.holds[r.hold]? = some k ∧ k.chunk = d ∧
    slice (bytesAt s.heap d) k.off k.bytes.length = k.bytes
  apart : ∀ r ∈ s.refs, ∀ r' ∈ s.refs, r.hold ≠ r'.hold → ∀ d, r.m = some d → r'.m = some d →
    ∀ k k', s.holds[r.hold]? = some k → s.holds[r'.hold]? = some k' → k.Apart k'
  room : ∀ p op s', s.inReserve = some p → perform s op = some (s', .ok) → s'.inReserve = none →
    ∃ b, s'.buf = some b ∧ p.len ≤ b.mFree

theorem hold_safe (h : system.Reachable Admissible s) : HoldSafe s := by
  have hinv := reachable_inv h
  refine ⟨fun b hb => (hinv.shape b hb).size, fun d c hd => (hinv.counts.count d c hd).1,
    hinv.counts.live, ?_, ?_, hinv.kept.apart, fun p op s' => reserve_room hinv⟩
  · intro b hbuf hres r hr hm
    simp only [resizes, Bool.and_eq_true, beq_iff_eq] at hres
    -- a second owner, were it there, would count
    have hmem : b.mBuffer ∈ refOwners s.refs := mem_refOwners.mpr ⟨r, hr, hm⟩
    obtain ⟨rest, hrest⟩ := Multiset.exists_cons_of_mem (mem_bufOwners b s.inReserve)
    have hc := hinv.counts
    rw [owners, hbuf, hrest, Multiset.cons_add] at hc
    exact hc.sole hres.2 (Multiset.mem_add.mpr (.inr hmem))
  · intro r hr d hd
    obtain ⟨k, hk, hchunk, hslice, -⟩ := hinv.kept.intact r hr d hd
    exact ⟨k, hk, hchunk, hslice⟩

/-- Two ranges are held in one chunk; the chunk is given up while one of them is released in the middle of
`reserve_buffer`, and the buffer goes on elsewhere. -/
def heldRun : List Op :=
  [.construct 12 (some (0, fun _ => 0)), .write 4 [7, 8, 9], .hold 2, .hold 1, .copyRef 0,
    .reserveBegin 8 16, .clearRef 0, .reserveExpand (some (1, fun _ => 5)), .clearRef 1, .reserveEnd,
    .write 4 [1, 2], .skip 20]

theorem hold_safe_heldRun : ∃ s, system.Reachable Admissible s ∧
    s.refs.map (·.m) = [none, none, some 0] ∧ s.holds = [⟨0, 4, [7, 8]⟩, ⟨0, 6, [9]⟩] ∧
    s.buf = some ⟨1, 16, 0⟩ ∧ HoldSafe s := by
  obtain ⟨s, hs, hq⟩ := System.exists_reachable_of_exec (S := system) (P := Admissible) (s := start)
    heldRun (fun s => decide (s.refs.map (·.m) = [none, none, some 0] ∧
      s.holds = [⟨0, 4, [7, 8]⟩, ⟨0, 6, [9]⟩] ∧ s.buf = some ⟨1, 16, 0⟩)) rfl (by decide +kernel)
  obtain ⟨hrefs, hholds, hbuf⟩ := of_decide_eq_true hq
  exact ⟨s, hs, hrefs, hholds, hbuf, hold_safe hs⟩

end Mpio.SharedBuffer
