import Mpio.StreamBuffer.Invariant

/-!
# Zero-copy safety and losslessness of the stream buffer

Every operation keeps `Inv` (`perform_inv`), so it holds along every admissible run
(`reachable_inv`). Two results are read off it:

* `zeroCopy_safe`: counters count owners, owned chunks are live, a chunk resized in place has no
  owner but `m_buffer`, and what a reference was filled with stays as it was;
* `fifo_lossless`: the buffer is a byte queue, a normal return of `reserve_buffer` leaves the room
  asked for, and a throwing operation changes neither bytes nor counters nor references.
-/

namespace Mpio.StreamBuffer

open Lib Lib.Heap

variable {s s' : State}

/-! ## One operation -/

theorem inv_start : Inv start where
  counts := ⟨by simp [start, owners, bufOwners, refOwners],
    by simp [start, owners, bufOwners, refOwners], by simp [start]⟩
  shape := by simp [start]
  apart := by simp [start]
  fifo := by simp [start]
  reserve := by simp [start]
  kept := by simp [start]

theorem Inv.owner_of_ref (_ : Inv s) {r : Ref} (hr : r ∈ s.refs) {d : ℕ} (hd : d ∈ r.mArray) :
    d ∈ refOwners s.refs ∧ d ∈ owners s := by
  have h1 : d ∈ refOwners s.refs := mem_refOwners.mpr ⟨r, hr, hd⟩
  exact ⟨h1, Multiset.mem_add.mpr (.inr h1)⟩

theorem Inv.counts_of_buf (h : Inv s) {b : Buf} (hbuf : s.buf = some b) :
    Counts s.heap (b.mBuffer ::ₘ ((b.mRef : Multiset ℕ) + refOwners s.refs)) := by
  have hc := h.counts
  rwa [owners, hbuf, bufOwners, Multiset.cons_add] at hc

theorem inv_construct (h : Inv s) {init d : ℕ} {junk : ℕ → UInt8} (hbuf : s.buf = none)
    (hd : s.heap d = none) (hinit : init < 2 ^ 62) :
    Inv { s with
      heap := Function.update s.heap d (some ⟨fresh (max init sizeofCount) junk, 1⟩)
      buf := some ⟨d, sizeofCount, wsub (max init sizeofCount) sizeofCount, sizeofCount, []⟩
      filled := []
      consumed := [] } := by
  have h4 : sizeofCount = 4 := rfl
  have hfree : wsub (max init sizeofCount) sizeofCount = max init sizeofCount - sizeofCount :=
    wsub_of_le (by omega) (by omega)
  refine ⟨?_, ?_, by simp, ?_, ?_, ?_⟩
  · have hc := h.counts.alloc hd (fresh (max init sizeofCount) junk)
    simpa [owners, bufOwners, hbuf] using hc
  · intro b hb
    obtain rfl := Option.some.inj hb
    refine ⟨by simp, le_refl _, le_refl _, ?_, by dsimp only; omega⟩
    rw [bytesAt_update, if_pos rfl, hfree]
    simp only [length_fresh]
    omega
  · intro b hb
    obtain rfl := Option.some.inj hb
    simp [slice_zero]
  · intro p hp
    obtain ⟨b, hb, -⟩ := h.reserve p hp
    rw [hbuf] at hb
    cases hb
  · intro r hr
    have hne : ∀ x ∈ r.mArray, x ≠ d := by
      intro x hx he
      have := h.counts.live x (h.owner_of_ref hr hx).2
      rw [he, hd] at this
      cases this
    refine (h.kept r hr).frame (fun x hx => by rw [bytesAt_update, if_neg (hne x hx)]) ?_
    intro b hb hmem
    obtain rfl := Option.some.inj hb
    exact absurd rfl (hne _ hmem)

theorem inv_reserveBegin (h : Inv s) {b : Buf} (hbuf : s.buf = some b) {len init : ℕ}
    (hlt : len + init + (b.mUsed + b.mFree) < 2 ^ 62) :
    Inv { s with buf := some (if rewinds s.heap b then b.rewind else b),
                 inReserve := some (len, init) } := by
  have h4 : sizeofCount = 4 := rfl
  obtain ⟨hlive, hoff, hle, hsize, hmax⟩ := h.shape b hbuf
  by_cases hrew : rewinds s.heap b = true
  · rw [if_pos hrew]
    simp only [rewinds, Bool.and_eq_true, beq_iff_eq] at hrew
    obtain ⟨hempty, hone⟩ := hrew
    have hfree : wrap (b.mFree + wsub b.mUsed sizeofCount) = b.mFree + (b.mUsed - sizeofCount) := by
      rw [wsub_of_le (by omega) (by omega), wrap_of_lt (by omega)]
    refine ⟨?_, ?_, by simpa [Buf.rewind] using h.apart b hbuf, ?_, ?_, ?_⟩
    · simpa [owners, hbuf, bufOwners, Buf.rewind] using h.counts
    · intro b' hb'
      obtain rfl := Option.some.inj hb'
      refine ⟨hlive, le_refl _, le_refl _, ?_, ?_⟩
      · simp only [Buf.rewind, hfree]
        omega
      · simp only [Buf.rewind, hfree]
        omega
    · intro b' hb'
      obtain rfl := Option.some.inj hb'
      have := h.fifo b hbuf
      simpa [Buf.rewind, slice_zero, hempty] using this
    · intro p hp
      obtain rfl := Option.some.inj hp
      refine ⟨b.rewind, rfl, ?_⟩
      simp only [Buf.rewind, hfree]
      omega
    · intro r hr
      refine (h.kept r hr).frame (fun _ _ => rfl) ?_
      intro b' hb' hmem
      obtain rfl := Option.some.inj hb'
      -- the counter says that no reference holds the chunk being rewound
      have := (h.counts_of_buf hbuf).sole hone
      exact absurd (Multiset.mem_add.mpr (.inr (h.owner_of_ref hr hmem).1)) this
  · rw [if_neg hrew]
    refine ⟨?_, ?_, by simpa using h.apart b hbuf, ?_, ?_, ?_⟩
    · simpa [owners, hbuf] using h.counts
    · intro b' hb'
      obtain rfl := Option.some.inj hb'
      exact h.shape b hbuf
    · intro b' hb'
      obtain rfl := Option.some.inj hb'
      exact h.fifo b hbuf
    · intro p hp
      obtain rfl := Option.some.inj hp
      exact ⟨b, rfl, hlt⟩
    · intro r hr
      have := h.kept r hr
      rwa [hbuf] at this

theorem inv_expanded (h : Inv s) {b b' : Buf} {h' : Heap (List UInt8)} {len : ℕ}
    (hbuf : s.buf = some b) (he : Expanded s.heap b len h' b') :
    Inv { s with heap := h', buf := some b', inReserve := none } := by
  have hcounts : Counts s.heap (bufOwners (some b) + refOwners s.refs) := by
    simpa [owners, hbuf] using h.counts
  refine ⟨he.moves.counts hcounts, ?_, by simpa using he.moves.apart hcounts (h.apart b hbuf), ?_, by simp, ?_⟩
  · intro x hx
    obtain rfl := Option.some.inj hx
    exact he.shape (h.shape b hbuf)
  · intro x hx
    obtain rfl := Option.some.inj hx
    dsimp only
    rw [he.pending (h.shape b hbuf)]
    exact h.fifo b hbuf
  · intro r hr
    refine (h.kept r hr).frame (fun d hd => (he.outside hcounts (h.owner_of_ref hr hd).1).2) ?_
    intro x hx hmem
    obtain rfl := Option.some.inj hx
    exact absurd rfl (he.outside hcounts (h.owner_of_ref hr hmem).1).1

theorem inv_reserveDone (h : Inv s) : Inv { s with inReserve := none } :=
  ⟨h.counts, h.shape, h.apart, h.fifo, by simp, h.kept⟩

theorem inv_write (h : Inv s) {b : Buf} (hbuf : s.buf = some b) {c : Cell (List UInt8)}
    (hc : s.heap b.mBuffer = some c) {pos : ℕ} {bytes : List UInt8} (hpos : b.mUsed ≤ pos)
    (hend : pos + bytes.length ≤ b.mUsed + b.mFree) :
    Inv { s with heap := Function.update s.heap b.mBuffer
                   (some { c with data := patch c.data pos bytes }) } := by
  obtain ⟨hlive, hoff, hle, hsize, hmax⟩ := h.shape b hbuf
  rw [bytesAt_of_cell hc] at hsize
  have hfit : pos + bytes.length ≤ c.data.length := by omega
  refine ⟨h.counts.setData hc _, ?_, h.apart, ?_, h.reserve, ?_⟩
  · intro b' hb'
    obtain rfl := Option.some.inj (hbuf.symm.trans hb')
    refine ⟨by simp, hoff, hle, ?_, hmax⟩
    rw [bytesAt_update, if_pos rfl]
    dsimp only
    rw [length_patch hfit, hsize]
  · intro b' hb'
    obtain rfl := Option.some.inj (hbuf.symm.trans hb')
    rw [bytesAt_update, if_pos rfl]
    dsimp only
    rw [slice_patch_disjoint hfit (by omega), ← bytesAt_of_cell hc]
    exact h.fifo b hbuf
  · intro r hr k hk
    obtain ⟨hmem, hslice, hbound⟩ := h.kept r hr k hk
    refine ⟨hmem, ?_, hbound⟩
    rw [bytesAt_update]
    by_cases heq : k.1 = b.mBuffer
    · have := hbound b hbuf heq
      rw [if_pos heq]
      dsimp only
      rw [slice_patch_disjoint hfit (by omega), ← bytesAt_of_cell hc, ← heq]
      exact hslice
    · rw [if_neg heq]
      exact hslice

theorem inv_bufferFilled (h : Inv s) {b : Buf} (hbuf : s.buf = some b)
    (hres : s.inReserve = none) {len : ℕ} (hlen : len ≤ b.mFree) :
    Inv { s with
      buf := some { b with mUsed := wrap (b.mUsed + len), mFree := wsub b.mFree len }
      filled := s.filled ++ slice (bytesAt s.heap b.mBuffer) b.mUsed len } := by
  obtain ⟨hlive, hoff, hle, hsize, hmax⟩ := h.shape b hbuf
  rw [wrap_of_lt (n := b.mUsed + len) (by omega), wsub_of_le hlen (by omega)]
  refine ⟨?_, ?_, by simpa using h.apart b hbuf, ?_, ?_, ?_⟩
  · simpa [owners, hbuf, bufOwners] using h.counts
  · intro b' hb'
    obtain rfl := Option.some.inj hb'
    exact ⟨hlive, hoff, by dsimp only; omega, by dsimp only; omega, by dsimp only; omega⟩
  · intro b' hb'
    obtain rfl := Option.some.inj hb'
    dsimp only
    rw [show b.mUsed + len - b.mOff = b.mUsed - b.mOff + len by omega, slice_add,
      ← List.append_assoc, h.fifo b hbuf, show b.mOff + (b.mUsed - b.mOff) = b.mUsed by omega]
  · simp [hres]
  · intro r hr
    refine (h.kept r hr).frame (fun _ _ => rfl) ?_
    intro b' hb' _
    obtain rfl := Option.some.inj hb'
    exact ⟨b, hbuf, rfl, by dsimp only; omega⟩

theorem inv_dataConsumed (h : Inv s) {b : Buf} (hbuf : s.buf = some b) (hres : s.inReserve = none)
    {len : ℕ} (hlen : len ≤ b.dataSize) :
    Inv { s with
      buf := some { b with mOff := wrap (b.mOff + len) }
      consumed := s.consumed ++ slice (bytesAt s.heap b.mBuffer) b.mOff len } := by
  obtain ⟨hlive, hoff, hle, hsize, hmax⟩ := h.shape b hbuf
  rw [Buf.dataSize, wsub_of_le hle (by omega)] at hlen
  rw [wrap_of_lt (n := b.mOff + len) (by omega)]
  refine ⟨?_, ?_, by simpa using h.apart b hbuf, ?_, ?_, ?_⟩
  · simpa [owners, hbuf, bufOwners] using h.counts
  · intro b' hb'
    obtain rfl := Option.some.inj hb'
    exact ⟨hlive, by dsimp only; omega, by dsimp only; omega, hsize, hmax⟩
  · intro b' hb'
    obtain rfl := Option.some.inj hb'
    dsimp only
    rw [List.append_assoc, ← slice_add, show len + (b.mUsed - (b.mOff + len)) = b.mUsed - b.mOff by omega]
    exact h.fifo b hbuf
  · simp [hres]
  · intro r hr
    refine (h.kept r hr).frame (fun _ _ => rfl) ?_
    intro b' hb' _
    obtain rfl := Option.some.inj hb'
    exact ⟨b, hbuf, rfl, le_refl _⟩

theorem inv_retainTo (h : Inv s) {b : Buf} (hbuf : s.buf = some b) (hres : s.inReserve = none)
    {i : ℕ} {r : Ref} (hr : s.refs[i]? = some r) (hlt : (owners s).count b.mBuffer + 1 < 2 ^ 32) :
    Inv { s with
      heap := decrAll (incrCount s.heap b.mBuffer) r.mArray
      buf := some { b with mRef := [] }
      refs := s.refs.set i ⟨b.mRef ++ [b.mBuffer], keeps s.heap b⟩ } := by
  have h4 : sizeofCount = 4 := rfl
  obtain ⟨hlive, hoff, hle, hsize, hmax⟩ := h.shape b hbuf
  have howner : b.mBuffer ∈ owners s := by simp [owners, hbuf, bufOwners]
  have hinc := h.counts.incr howner hlt
  rw [owners_retainTo hbuf hr (keeps s.heap b)] at hinc
  have hbytes : ∀ d ∈ bufOwners (some { b with mRef := [] }) +
      refOwners (s.refs.set i ⟨b.mRef ++ [b.mBuffer], keeps s.heap b⟩),
      bytesAt (decrAll (incrCount s.heap b.mBuffer) r.mArray) d = bytesAt s.heap d := by
    intro d hd
    rw [bytesAt, hinc.dataAt_decrAll hd, dataAt_incrCount, bytesAt]
  have hcur := hbytes b.mBuffer (by simp [bufOwners])
  refine ⟨hinc.decrAll, ?_, by simp, ?_, by simp [hres], ?_⟩
  · intro b' hb'
    obtain rfl := Option.some.inj hb'
    refine ⟨hinc.decrAll.live _ (by simp [bufOwners]), hoff, hle, ?_, hmax⟩
    dsimp only
    rw [hcur, hsize]
  · intro b' hb'
    obtain rfl := Option.some.inj hb'
    dsimp only
    rw [hcur]
    exact h.fifo b hbuf
  · intro r' hr'
    have hmem' : ∀ d ∈ r'.mArray, bytesAt (decrAll (incrCount s.heap b.mBuffer) r.mArray) d =
        bytesAt s.heap d := fun d hd =>
      hbytes d (Multiset.mem_add.mpr (.inr (mem_refOwners.mpr ⟨r', hr', hd⟩)))
    rcases List.mem_or_eq_of_mem_set hr' with hold | rfl
    · refine (h.kept r' hold).frame hmem' ?_
      intro b' hb' _
      obtain rfl := Option.some.inj hb'
      exact ⟨b, hbuf, rfl, le_refl _⟩
    · intro k hk
      rcases List.mem_append.mp hk with hk | hk
      · -- an older chunk, kept whole
        obtain ⟨d, hd, rfl⟩ := List.mem_map.mp hk
        refine ⟨by simp [hd], ?_, ?_⟩
        · rw [hmem' d (by simp [hd])]
          simp [slice]
        · intro b' hb' heq
          obtain rfl := Option.some.inj hb'
          exact absurd (heq ▸ hd) (h.apart b hbuf)
      · -- the current chunk, kept up to `m_used`
        obtain rfl := List.mem_singleton.mp hk
        have hlen : (slice (bytesAt s.heap b.mBuffer) sizeofCount (b.mUsed - sizeofCount)).length =
            b.mUsed - sizeofCount := length_slice (by omega)
        refine ⟨by simp, ?_, ?_⟩
        · dsimp only
          rw [hcur, hlen]
        · intro b' hb' _
          obtain rfl := Option.some.inj hb'
          dsimp only
          rw [hlen]
          omega

theorem inv_newRef (h : Inv s) : Inv { s with refs := s.refs ++ [⟨[], []⟩] } := by
  refine ⟨?_, h.shape, h.apart, h.fifo, h.reserve, ?_⟩
  · simpa [owners, refOwners] using h.counts
  · intro r hr
    rcases List.mem_append.mp hr with hr | hr
    · exact h.kept r hr
    · obtain rfl := List.mem_singleton.mp hr
      intro k hk
      cases hk

theorem inv_swapRefs (h : Inv s) {i j : ℕ} {ri rj : Ref} (hi : s.refs[i]? = some ri)
    (hj : s.refs[j]? = some rj) : Inv { s with refs := (s.refs.set i rj).set j ri } := by
  refine ⟨?_, h.shape, h.apart, h.fifo, h.reserve, ?_⟩
  · rw [owners, refOwners, sum_map_swap _ hi hj]
    exact h.counts
  · intro r hr
    exact h.kept r (mem_of_mem_swap hi hj hr)

/-- Releasing a reference: whatever still has an owner keeps its contents. -/
theorem inv_clearRef (h : Inv s) {i : ℕ} {r : Ref} (hi : s.refs[i]? = some r) :
    Inv { s with heap := decrAll s.heap r.mArray, refs := s.refs.set i ⟨[], []⟩ } := by
  have hc := h.counts
  rw [owners_clearRef hi] at hc
  have hbytes : ∀ d ∈ bufOwners s.buf + refOwners (s.refs.set i ⟨[], []⟩),
      bytesAt (decrAll s.heap r.mArray) d = bytesAt s.heap d := by
    intro d hd
    rw [bytesAt, hc.dataAt_decrAll hd, bytesAt]
  have hcur : ∀ b, s.buf = some b → b.mBuffer ∈
      bufOwners s.buf + refOwners (s.refs.set i ⟨[], []⟩) := by
    intro b hb
    simp [hb, bufOwners]
  refine ⟨hc.decrAll, ?_, h.apart, ?_, h.reserve, ?_⟩
  · intro b hb
    obtain ⟨-, hoff, hle, hsize, hmax⟩ := h.shape b hb
    refine ⟨hc.decrAll.live _ (hcur b hb), hoff, hle, ?_, hmax⟩
    dsimp only
    rw [hbytes _ (hcur b hb), hsize]
  · intro b hb
    dsimp only
    rw [hbytes _ (hcur b hb)]
    exact h.fifo b hb
  · intro r' hr'
    rcases List.mem_or_eq_of_mem_set hr' with hold | rfl
    · refine (h.kept r' hold).frame (fun d hd => ?_) fun b hb _ => ⟨b, hb, rfl, le_refl _⟩
      exact hbytes d (Multiset.mem_add.mpr (.inr (mem_refOwners.mpr ⟨r', hr', hd⟩)))
    · intro k hk
      cases hk

theorem inv_destroy (h : Inv s) {b : Buf} (hbuf : s.buf = some b) (hres : s.inReserve = none) :
    Inv { s with heap := decrAll (decrCount s.heap b.mBuffer) b.mRef, buf := none } := by
  have hdecr := (h.counts_of_buf hbuf).decr
  refine ⟨by simpa [owners, bufOwners] using hdecr.decrAll, by simp, by simp, by simp, by simp [hres], ?_⟩
  intro r hr
  refine (h.kept r hr).frame (fun d hd => ?_) (by simp)
  have hmem := (h.owner_of_ref hr hd).1
  have hlive := hdecr.live d (Multiset.mem_add.mpr (.inr hmem))
  rw [bytesAt, hdecr.dataAt_decrAll hmem, dataAt_decrCount _ hlive, bytesAt]

/-! ## Whole runs -/

/-- `expand_buffer` throws with everything as it was, or makes room. -/
theorem Inv.expand_cases (h : Inv s) {b b' : Buf} {h' : Heap (List UInt8)} {mem : Alloc} {vec : Bool}
    {o : Outcome} {len init : ℕ} (hbuf : s.buf = some b) (hres : s.inReserve = some (len, init))
    (he : expandBuffer s.heap b len init mem vec = some (h', b', o)) :
    (o = .badAlloc ∧ h' = s.heap ∧ b' = b) ∨ (o = .ok ∧ Expanded s.heap b len h' b') := by
  obtain ⟨b₁, hbuf₁, hlt⟩ := h.reserve _ hres
  obtain rfl := Option.some.inj (hbuf.symm.trans hbuf₁)
  exact expandBuffer_cases (h.shape b hbuf) hlt he

theorem perform_inv (h : Inv s) {op : Op} {o : Outcome} (ha : Admissible s op)
    (hp : perform s op = some (s', o)) : Inv s' := by
  obtain ⟨hsize, hown⟩ := ha
  cases perform_cases hp with
  | constructFailed hbuf => exact h
  | construct hbuf hd => exact inv_construct h hbuf hd hsize
  | reserveBegin hbuf hres => exact inv_reserveBegin h hbuf (hsize _ hbuf)
  | reserveRoom hbuf hres hroom => exact inv_reserveDone h
  | reserveExpand hbuf hres hlt he =>
    rcases h.expand_cases hbuf hres he with ⟨-, rfl, rfl⟩ | ⟨-, hexp⟩
    · rw [← hbuf]
      exact inv_reserveDone h
    · exact inv_expanded h hbuf hexp
  | write hbuf hres hpos hc => exact inv_write h hbuf hc hpos.1 hpos.2
  | bufferFilled hbuf hres hlen => exact inv_bufferFilled h hbuf hres hlen
  | dataConsumed hbuf hres hlen => exact inv_dataConsumed h hbuf hres hlen
  | retainFailed hbuf hres hr => exact h
  | retainTo hbuf hres hr => exact inv_retainTo h hbuf hres hr (hown _ hbuf)
  | newRef => exact inv_newRef h
  | swapRefs hi hj => exact inv_swapRefs h hi hj
  | clearRef hi => exact inv_clearRef h hi
  | destroy hbuf hres => exact inv_destroy h hbuf hres

theorem reachable_inv (h : system.Reachable Admissible s) : Inv s := by
  refine h.invariant (fun s hs => hs ▸ inv_start) ?_
  intro s op s' _ hinv ha hstep
  obtain ⟨⟨s₁, o⟩, hp, rfl⟩ := Option.map_eq_some_iff.mp hstep
  exact perform_inv hinv ha hp

/-! ## Zero-copy safety -/

/-- Counters count owners; an owned chunk is live; a chunk that may be resized in place has `m_buffer`
as its only owner; and each reference still finds the bytes it was filled with. -/
structure ZeroCopy (s : State) : Prop where
  counted : ∀ d c, s.heap d = some c → c.count = (owners s).count d
  live : ∀ d ∈ owners s, (s.heap d).isSome
  resized : ∀ b, s.buf = some b → resizes s.heap b = true → (owners s).count b.mBuffer = 1
  intact : ∀ r ∈ s.refs, ∀ k ∈ r.kept,
    k.1 ∈ r.mArray ∧ slice (bytesAt s.heap k.1) sizeofCount k.2.length = k.2

theorem zeroCopy_safe (h : system.Reachable Admissible s) : ZeroCopy s := by
  have hinv := reachable_inv h
  refine ⟨fun d c hd => (hinv.counts.count d c hd).1, hinv.counts.live, ?_, ?_⟩
  · intro b hbuf hres
    simp only [resizes, Bool.and_eq_true, beq_iff_eq] at hres
    have howner : b.mBuffer ∈ owners s := by simp [owners, hbuf, bufOwners]
    rw [← hinv.counts.getCount_eq howner]
    exact hres.2
  · intro r hr k hk
    obtain ⟨hmem, hslice, -⟩ := hinv.kept r hr k hk
    exact ⟨hmem, hslice⟩

/-- A run that fills a reference, abandons its chunk, and goes on filling. -/
def retainedRun : List Op :=
  [.construct 8 (some (0, fun _ => 0)), .write 4 [7, 8], .bufferFilled 2, .newRef, .retainTo 0 true,
    .reserveBegin 6 8, .reserveEnd (some (1, fun _ => 9)) true, .write 6 [1, 2, 3], .bufferFilled 3,
    .dataConsumed 4]

theorem zeroCopy_safe_retained : ∃ s, system.Reachable Admissible s ∧
    s.refs.map (·.kept) = [[(0, [7, 8])]] ∧ ZeroCopy s := by
  obtain ⟨s, hs, hq⟩ := System.exists_reachable_of_exec (S := system) (P := Admissible) (s := start)
    retainedRun (fun s => s.refs.map (·.kept) == [[(0, [7, 8])]]) rfl (by decide)
  exact ⟨s, hs, by simpa using hq, zeroCopy_safe hs⟩

/-! ## The byte queue -/

/-- The `data_size()` bytes at `data()`. -/
def pendingBytes (s : State) : List UInt8 :=
  match s.buf with
  | none => []
  | some b => slice (bytesAt s.heap b.mBuffer) b.mOff b.dataSize

/-- `s'` has the pending bytes, the chunks with their counters, and the references of `s`. -/
structure Untouched (s s' : State) : Prop where
  pending : pendingBytes s' = pendingBytes s
  heap : s'.heap = s.heap
  refs : s'.refs = s.refs
  mRef : s'.buf.map (·.mRef) = s.buf.map (·.mRef)

/-- The buffer is a byte queue. A `reserve_buffer` call is its `reserveBegin` and `reserveEnd` steps. -/
structure Lossless (s : State) : Prop where
  order : ∀ b, s.buf = some b → sizeofCount ≤ b.mOff ∧ b.mOff ≤ b.mUsed
  size : ∀ b, s.buf = some b → b.mUsed + b.mFree = (bytesAt s.heap b.mBuffer).length
  bytes : s.buf.isSome → s.consumed ++ pendingBytes s = s.filled
  room : ∀ len init mem vec s', s.inReserve = some (len, init) →
    perform s (.reserveEnd mem vec) = some (s', .ok) → ∃ b, s'.buf = some b ∧ len ≤ b.mFree
  begins : ∀ len init s' o, perform s (.reserveBegin len init) = some (s', o) → Untouched s s'
  throws : ∀ op s', perform s op = some (s', .badAlloc) → Untouched s s'

theorem Inv.dataSize_eq (h : Inv s) {b : Buf} (hbuf : s.buf = some b) :
    b.dataSize = b.mUsed - b.mOff := by
  obtain ⟨-, -, hle, -, hmax⟩ := h.shape b hbuf
  exact wsub_of_le hle (by omega)

theorem Untouched.of_eq {s s' : State} (hheap : s'.heap = s.heap) (hbuf : s'.buf = s.buf)
    (hrefs : s'.refs = s.refs) : Untouched s s' :=
  ⟨by simp only [pendingBytes, hheap, hbuf], hheap, hrefs, by rw [hbuf]⟩

theorem reserveBegin_untouched (h : Inv s) {len init : ℕ} {o : Outcome}
    (hp : perform s (.reserveBegin len init) = some (s', o)) : Untouched s s' := by
  cases perform_cases hp with
  | @reserveBegin _ _ b hbuf hres =>
    by_cases hrew : rewinds s.heap b = true
    · refine ⟨?_, rfl, rfl, by simp [hrew, hbuf, Buf.rewind]⟩
      simp only [rewinds, Bool.and_eq_true, beq_iff_eq] at hrew
      have hzero : b.dataSize = 0 := by rw [h.dataSize_eq hbuf]; omega
      have hzero' : b.rewind.dataSize = 0 := by simp [Buf.dataSize, Buf.rewind, wsub, wrap, sizeofCount]
      have hbuf' : rewinds s.heap b = true := by simp [rewinds, hrew]
      simp only [pendingBytes, hbuf, hbuf', if_pos, hzero, hzero', slice_zero]
    · exact .of_eq rfl (by simp [hrew, hbuf]) rfl

theorem badAlloc_untouched (h : Inv s) {op : Op} (hp : perform s op = some (s', .badAlloc)) :
    Untouched s s' := by
  cases perform_cases hp with
  | constructFailed hbuf => exact .of_eq rfl rfl rfl
  | retainFailed hbuf hres hr => exact .of_eq rfl rfl rfl
  | reserveExpand hbuf hres hlt he =>
    rcases h.expand_cases hbuf hres he with ⟨-, rfl, rfl⟩ | ⟨h0, -⟩
    · exact .of_eq rfl hbuf.symm rfl
    · cases h0

theorem fifo_lossless (h : system.Reachable Admissible s) : Lossless s := by
  have hinv := reachable_inv h
  refine ⟨?_, ?_, ?_, ?_, fun _ _ _ _ hp => reserveBegin_untouched hinv hp,
    fun _ _ hp => badAlloc_untouched hinv hp⟩
  · intro b hbuf
    obtain ⟨-, hoff, hle, -, -⟩ := hinv.shape b hbuf
    exact ⟨hoff, hle⟩
  · intro b hbuf
    exact (hinv.shape b hbuf).size
  · intro hsome
    obtain ⟨b, hbuf⟩ := Option.isSome_iff_exists.mp hsome
    have := hinv.fifo b hbuf
    simpa only [pendingBytes, hbuf, hinv.dataSize_eq hbuf] using this
  · intro len init mem vec s' hres hp
    cases perform_cases hp with
    | reserveRoom hbuf hres₁ hroom =>
      obtain ⟨rfl, rfl⟩ := Prod.mk.inj (Option.some.inj (hres.symm.trans hres₁))
      exact ⟨_, hbuf, not_lt.mp hroom⟩
    | reserveExpand hbuf hres₁ hlt he =>
      obtain ⟨rfl, rfl⟩ := Prod.mk.inj (Option.some.inj (hres.symm.trans hres₁))
      rcases hinv.expand_cases hbuf hres he with ⟨h0, -, -⟩ | ⟨-, hexp⟩
      · cases h0
      · exact ⟨_, rfl, hexp.room⟩

theorem fifo_lossless_retained : ∃ s, system.Reachable Admissible s ∧
    s.filled = [7, 8, 1, 2, 3] ∧ pendingBytes s = [3] ∧ Lossless s := by
  obtain ⟨s, hs, hq⟩ := System.exists_reachable_of_exec (S := system) (P := Admissible) (s := start)
    retainedRun (fun s => s.filled == [7, 8, 1, 2, 3] && pendingBytes s == [3]) rfl (by decide)
  simp only [Bool.and_eq_true, beq_iff_eq] at hq
  exact ⟨s, hs, hq.1, hq.2, fifo_lossless hs⟩

/-! ### A counter that wraps

`2 ^ 32` references to one chunk take its counter back to `1`; releasing one of them frees the chunk
under the buffer. -/

/-- The buffer and `n` references, all on one chunk of eight bytes. -/
def heldState (n : ℕ) : State where
  heap := Function.update (fun _ => none) 0 (some ⟨fresh 8 fun _ => 0, (n + 1) % 2 ^ 32⟩)
  buf := some ⟨0, 4, 4, 4, []⟩
  refs := List.replicate n ⟨[0], [(0, [])]⟩
  inReserve := none
  filled := []
  consumed := []

theorem heldState_zero :
    perform start (.construct 8 (some (0, fun _ => 0))) = some (heldState 0, .ok) := by
  simp [perform, start, heldState, sizeofCount, wsub, wrap]

theorem heldState_succ (n : ℕ) :
    perform { heldState n with refs := (heldState n).refs ++ [⟨[], []⟩] } (.retainTo n true) =
      some (heldState (n + 1), .ok) := by
  have hget : (List.replicate n (⟨[0], [(0, [])]⟩ : Ref) ++ [⟨[], []⟩])[n]? = some ⟨[], []⟩ := by
    simp
  simp only [perform, heldState, hget, if_true]
  simp [keeps, sizeofCount, slice_zero, incrCount, decrAll, List.replicate_succ']

theorem heldState_reachable (n : ℕ) : system.Reachable SizesOk (heldState n) := by
  induction n with
  | zero =>
    refine .step (.init rfl) (a := .construct 8 (some (0, fun _ => 0))) (by simp [SizesOk]) ?_
    simp [system, heldState_zero]
  | succ n ih =>
    have hnew := System.Reachable.step ih (a := Op.newRef) trivial rfl
    refine .step hnew (a := .retainTo n true) trivial ?_
    simp [system, heldState_succ]

theorem heldState_release {n : ℕ} (hpos : 0 < n) (hn : (n + 1) % 2 ^ 32 = 1) :
    ∃ s, system.Reachable SizesOk s ∧ s.buf = some ⟨0, 4, 4, 4, []⟩ ∧ s.heap 0 = none := by
  have hget : (List.replicate n (⟨[0], [(0, [])]⟩ : Ref))[0]? = some ⟨[0], [(0, [])]⟩ := by
    simp [hpos]
  have hrun : system.step (heldState n) (.clearRef 0) = some { heldState n with
      heap := decrAll (heldState n).heap [0]
      refs := (heldState n).refs.set 0 ⟨[], []⟩ } := by
    simp only [system, perform, heldState, hget, Option.map_some]
  refine ⟨_, .step (heldState_reachable n) (by simp [SizesOk]) hrun, rfl, ?_⟩
  simp only [decrAll, List.foldl_cons, List.foldl_nil, decrCount, heldState, Function.update_self, hn]
  simp

theorem fifo_lossless_needs_owner_bound : ¬ ∀ s, system.Reachable SizesOk s → Lossless s := by
  intro hall
  obtain ⟨s, hs, hbuf, hfreed⟩ := heldState_release (n := 2 ^ 32) (by norm_num) (by norm_num)
  have hsize := (hall s hs).size _ hbuf
  simp [bytesAt, dataAt, hfreed] at hsize

end Mpio.StreamBuffer
