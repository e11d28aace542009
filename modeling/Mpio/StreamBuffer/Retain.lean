import Mpio.Growth
import Mpio.StreamBuffer.Safety

/-!
# `retain()` and `retain_to()`

`retain_to` counts the reference it fills as an owner of the current chunk, `retain` hands out the
abandoned chunks only. The two differ when `reserve_buffer` reads the counter of the current chunk
later: a counter of `1` lets it rewind or resize the chunk.

`RefOp` adds the operations that return a reference by value. The `return r` of `retain` builds the
result in place, without a copy.

* `perform_counts`, `reachable_counts`: counters count owners, whatever the sizes.
* `Tidy`: the current chunk is not an abandoned one, and it is `m_used + m_free` bytes long.
* `Safe`: an entry of a reference is in place, and if it is in the current chunk then the counter is
  not `1` and the entry ends at or below `m_used`. No later call breaks this (`Safe.later`).
* `retain_protects_iff`: so `retain` protects what `retain_to` does exactly when the current chunk has
  another owner already, or no byte below `m_used`.
-/

namespace Mpio.StreamBuffer

open Lib Lib.Heap

variable {s s' s₁ : State} {b : Buf} {o : Outcome}

/-- The operations with those that make a reference from nothing but the buffer or another one. The
copy constructor initialises `m_array` with itself: the copy holds what `own` stands for, the bytes
that were in its memory. -/
inductive RefOp
  | base (op : Op)
  | retain
  | copyRef (i : ℕ) (own : List ℕ)

/-- One operation; `none` when it may not be called here. -/
def performRef (s : State) : RefOp → Option (State × Outcome)
  | .base op => perform s op
  | .retain =>
    match s.buf, s.inReserve with
    | some b, none =>
      -- ref r; r.swap(m_ref); return r;
      some ({ s with
        buf := some { b with mRef := [] }
        refs := s.refs ++ [⟨b.mRef, b.mRef.map fun d => (d, (bytesAt s.heap d).drop sizeofCount)⟩] }, .ok)
    | _, _ => none
  | .copyRef i own =>
    match s.refs[i]? with
    | some _ => some ({ s with heap := own.foldl incrCount s.heap, refs := s.refs ++ [⟨own, []⟩] }, .ok)
    | none => none

def refSystem : System State RefOp where
  init s := s = start
  step s op := (performRef s op).map (·.1)

/-- No `ref` is copied and no chunk gets `2 ^ 32` owners. -/
def Counted (s : State) : RefOp → Prop
  | .base op => OwnersOk s op
  | .retain => True
  | .copyRef _ _ => False

/-- Also, every growth finds a doubling that reaches its need. -/
def Regular (s : State) : RefOp → Prop
  | .base op => Enough s op ∧ OwnersOk s op
  | .retain => True
  | .copyRef _ _ => False

theorem Regular.counted {op : RefOp} (h : Regular s op) : Counted s op := by
  cases op with
  | base op => exact h.2
  | retain => trivial
  | copyRef i own => exact h

/-! ## Counters count owners -/

theorem perform_counts {op : Op} (h : Counts s.heap (owners s)) (hop : OwnersOk s op)
    (hp : perform s op = some (s', o)) : Counts s'.heap (owners s') := by
  cases perform_cases hp with
  | constructFailed hbuf => exact h
  | @construct init d junk hbuf hd =>
    have hc := h.alloc hd (fresh (max init sizeofCount) junk)
    simpa [owners, bufOwners, hbuf] using hc
  | @reserveBegin len init b hbuf hres =>
    rw [owners, hbuf] at h
    by_cases hrew : rewinds s.heap b = true
    · simp only [owners, hrew, if_true]
      exact h
    · simp only [owners, hrew, Bool.false_eq_true, if_false]
      exact h
  | reserveRoom hbuf hres hroom => exact h
  | reserveExpand hbuf hres hlt he =>
    rw [owners, hbuf] at h
    exact (expandBuffer_moves he).counts h
  | write hbuf hres hpos hc => exact h.setData hc _
  | bufferFilled hbuf hres hlen =>
    rw [owners, hbuf] at h
    exact h
  | dataConsumed hbuf hres hlen =>
    rw [owners, hbuf] at h
    exact h
  | retainFailed hbuf hres hr => exact h
  | @retainTo i b r hbuf hres hr =>
    have howner : b.mBuffer ∈ owners s := by simp [owners, hbuf, bufOwners]
    have hinc := h.incr howner (hop b hbuf)
    rw [owners_retainTo hbuf hr (keeps s.heap b)] at hinc
    exact hinc.decrAll
  | newRef => simpa [owners, refOwners] using h
  | swapRefs hi hj =>
    rw [owners, refOwners, sum_map_swap _ hi hj]
    exact h
  | clearRef hi =>
    rw [owners_clearRef hi] at h
    exact h.decrAll
  | destroy hbuf hres =>
    rw [owners, hbuf, bufOwners, Multiset.cons_add] at h
    simpa [owners, bufOwners] using h.decr.decrAll

theorem owners_retain (hbuf : s.buf = some b) (kept : List (ℕ × List UInt8)) :
    bufOwners (some { b with mRef := [] }) + refOwners (s.refs ++ [⟨b.mRef, kept⟩]) = owners s := by
  rw [owners, hbuf]
  simp only [bufOwners, refOwners, List.map_append, List.sum_append, List.map_cons, List.map_nil,
    List.sum_cons, List.sum_nil, Multiset.coe_nil, ← Multiset.singleton_add]
  abel

theorem performRef_counts {op : RefOp} (h : Counts s.heap (owners s)) (hop : Counted s op)
    (hp : performRef s op = some (s', o)) : Counts s'.heap (owners s') := by
  cases op with
  | base op => exact perform_counts h hop hp
  | retain =>
    simp only [performRef] at hp
    split at hp
    · rename_i b hbuf hres
      obtain ⟨rfl, -⟩ := Prod.mk.inj (Option.some.inj hp)
      rw [owners, owners_retain hbuf]
      exact h
    · cases hp
  | copyRef i own => exact hop.elim

theorem reachable_counts (h : refSystem.Reachable Counted s) : Counts s.heap (owners s) := by
  refine h.invariant (I := fun s => Counts s.heap (owners s)) ?_ ?_
  · rintro s rfl
    exact inv_start.counts
  · intro s op s' _ hi hop hstep
    obtain ⟨⟨s₁, o⟩, hp, rfl⟩ := Option.map_eq_some_iff.mp hstep
    exact performRef_counts hi hop hp

/-! ## The current chunk -/

/-- The members of the buffer against its current chunk. -/
def Laid (h : Heap (List UInt8)) (b : Buf) : Prop :=
  b.mBuffer ∉ b.mRef ∧ b.mUsed + b.mFree = (bytesAt h b.mBuffer).length

structure Tidy (s : State) : Prop where
  counts : Counts s.heap (owners s)
  sized : Sized s
  laid : ∀ b, s.buf = some b → Laid s.heap b

theorem Tidy.counts_of_buf (h : Tidy s) (hbuf : s.buf = some b) :
    Counts s.heap (bufOwners (some b) + refOwners s.refs) := by
  have hc := h.counts
  rwa [owners, hbuf] at hc

theorem Tidy.cell (h : Tidy s) (hbuf : s.buf = some b) : ∃ c, s.heap b.mBuffer = some c :=
  Option.isSome_iff_exists.mp ((h.counts_of_buf hbuf).live _ (by simp [bufOwners]))

theorem bytesAt_retainTo (h : Counts s.heap (owners s)) (hbuf : s.buf = some b) {i : ℕ} {r : Ref}
    (hi : s.refs[i]? = some r) (hlt : (owners s).count b.mBuffer + 1 < 2 ^ 32) {d : ℕ}
    (hd : d ∈ b.mBuffer :: b.mRef) :
    bytesAt (decrAll (incrCount s.heap b.mBuffer) r.mArray) d = bytesAt s.heap d := by
  have hinc := h.incr (by simp [owners, hbuf, bufOwners] : b.mBuffer ∈ owners s) hlt
  rw [owners_retainTo hbuf hi []] at hinc
  have hmem : d ∈ bufOwners (some { b with mRef := [] }) +
      refOwners (s.refs.set i ⟨b.mRef ++ [b.mBuffer], []⟩) := by
    refine Multiset.mem_add.mpr (.inr (mem_refOwners.mpr ⟨⟨b.mRef ++ [b.mBuffer], []⟩, ?_, ?_⟩))
    · exact List.mem_set (List.getElem?_eq_some_iff.mp hi).1 _
    · simpa [or_comm] using hd
  rw [bytesAt, hinc.dataAt_decrAll hmem, dataAt_incrCount, bytesAt]

theorem perform_laid {op : Op} (h : Tidy s) (hop : Enough s op) (hown : OwnersOk s op)
    (hp : perform s op = some (s', o)) (b' : Buf) (hb' : s'.buf = some b') : Laid s'.heap b' := by
  have h4 : sizeofCount = 4 := rfl
  cases perform_cases hp with
  | constructFailed hbuf => exact h.laid b' hb'
  | @construct init d junk hbuf hd =>
    obtain rfl := Option.some.inj hb'
    have hinit : init < 2 ^ 64 := hop
    refine ⟨by simp, ?_⟩
    rw [bytesAt_update, if_pos rfl, wsub_of_le (by omega) (by omega)]
    simp only [length_fresh]
    omega
  | @reserveBegin len init b hbuf hres =>
    obtain rfl := Option.some.inj hb'
    obtain ⟨hapart, hlen⟩ := h.laid b hbuf
    have hrewind := (rewind_sized h.sized hbuf).1
    split_ifs
    · exact ⟨hapart, hrewind.trans hlen⟩
    · exact ⟨hapart, hlen⟩
  | reserveRoom hbuf hres hroom => exact h.laid b' hb'
  | @reserveExpand len init mem vec b b₁ h' o hbuf hres hlt he =>
    obtain rfl := Option.some.inj hb'
    obtain ⟨hapart, hlen⟩ := h.laid b hbuf
    refine ⟨(expandBuffer_moves he).apart (h.counts_of_buf hbuf) hapart, ?_⟩
    rcases expanded_sized h.sized hbuf (h.sized.reserve len init hres).2
      (hop b len init hbuf hres hlt) he with ⟨-, rfl, rfl⟩ | ⟨-, -, -, hgrown⟩
    · exact hlen
    · exact hgrown hlen
  | @write pos bytes b c hbuf hres hpos hc =>
    obtain rfl := Option.some.inj (hbuf.symm.trans hb')
    obtain ⟨hapart, hlen⟩ := h.laid b hbuf
    rw [bytesAt_of_cell hc] at hlen
    refine ⟨hapart, ?_⟩
    rw [bytesAt_update, if_pos rfl]
    dsimp only
    rw [length_patch (by omega), hlen]
  | @bufferFilled len b hbuf hres hle =>
    obtain rfl := Option.some.inj hb'
    obtain ⟨hapart, hlen⟩ := h.laid b hbuf
    obtain ⟨-, -, hlt⟩ := h.sized.buf b hbuf
    refine ⟨hapart, ?_⟩
    dsimp only
    rw [wrap_of_lt (by omega), wsub_of_le hle (by omega)]
    omega
  | @dataConsumed len b hbuf hres hle =>
    obtain rfl := Option.some.inj hb'
    exact h.laid b hbuf
  | retainFailed hbuf hres hr => exact h.laid b' hb'
  | @retainTo i b r hbuf hres hr =>
    obtain rfl := Option.some.inj hb'
    refine ⟨by simp, ?_⟩
    dsimp only
    rw [bytesAt_retainTo h.counts hbuf hr (hown b hbuf) (by simp)]
    exact (h.laid b hbuf).2
  | newRef => exact h.laid b' hb'
  | swapRefs hi hj => exact h.laid b' hb'
  | clearRef hi =>
    obtain ⟨hapart, hlen⟩ := h.laid b' hb'
    have hc := h.counts
    rw [owners_clearRef hi, show s.buf = some b' from hb'] at hc
    refine ⟨hapart, ?_⟩
    dsimp only
    rw [bytesAt, hc.dataAt_decrAll (by simp [bufOwners])]
    exact hlen
  | destroy hbuf hres => cases hb'

theorem performRef_tidy {op : RefOp} (h : Tidy s) (hop : Regular s op)
    (hp : performRef s op = some (s', o)) : Tidy s' := by
  have hcounts := performRef_counts h.counts hop.counted hp
  cases op with
  | base op => exact ⟨hcounts, perform_sized h.sized hop.1 hp, perform_laid h hop.1 hop.2 hp⟩
  | retain =>
    simp only [performRef] at hp
    split at hp
    · rename_i b hbuf hres
      obtain ⟨rfl, -⟩ := Prod.mk.inj (Option.some.inj hp)
      refine ⟨hcounts, ⟨?_, h.sized.reserve⟩, ?_⟩
      · rintro b' hb'
        obtain rfl := Option.some.inj hb'
        exact h.sized.buf b hbuf
      · rintro b' hb'
        obtain rfl := Option.some.inj hb'
        exact ⟨by simp, (h.laid b hbuf).2⟩
    · cases hp
  | copyRef i own => exact hop.elim

theorem reachable_tidy (h : refSystem.Reachable Regular s) : Tidy s := by
  refine h.invariant ?_ ?_
  · rintro s rfl
    exact ⟨inv_start.counts, ⟨by simp [start], by simp [start]⟩, by simp [start]⟩
  · intro s op s' _ hi hop hstep
    obtain ⟨⟨s₁, o⟩, hp, rfl⟩ := Option.map_eq_some_iff.mp hstep
    exact performRef_tidy hi hop hp

/-! ## What later calls leave in place -/

/-- `reserve_buffer`, filling, `buffer_filled` and `data_consumed`. -/
def RefOp.Later : RefOp → Prop
  | .base (.reserveBegin _ _) | .base (.reserveEnd _ _) | .base (.write _ _) | .base (.bufferFilled _)
  | .base (.dataConsumed _) => True
  | _ => False

/-- The bytes of the entries are neither overwritten nor freed by later calls. -/
def Protects (s : State) (entries : List (ℕ × List UInt8)) : Prop :=
  ∀ s', (refSystem.startingAt s).Reachable (fun s op => op.Later ∧ Regular s op) s' →
    ∀ k ∈ entries, k.2 ≠ [] →
      (s'.heap k.1).isSome ∧ slice (bytesAt s'.heap k.1) sizeofCount k.2.length = k.2

/-- The entry is in place, and `reserve_buffer` will neither rewind nor resize its chunk. -/
structure Safe (s : State) (k : ℕ × List UInt8) : Prop where
  live : (s.heap k.1).isSome
  intact : slice (bytesAt s.heap k.1) sizeofCount k.2.length = k.2
  current : ∀ b, s.buf = some b → b.mBuffer = k.1 → getCount s.heap k.1 ≠ 1 ∧
    sizeofCount + k.2.length ≤ b.mUsed

theorem Safe.frame {k : ℕ × List UInt8} (h : Safe s k) (hheap : s'.heap k.1 = s.heap k.1)
    (hbuf : ∀ b', s'.buf = some b' → b'.mBuffer = k.1 →
      ∃ b, s.buf = some b ∧ b.mBuffer = k.1 ∧ b.mUsed ≤ b'.mUsed) : Safe s' k := by
  obtain ⟨hlive, hintact, hcur⟩ := h
  refine ⟨by rw [hheap]; exact hlive, ?_, ?_⟩
  · simpa only [bytesAt, dataAt, hheap] using hintact
  · intro b' hb' heq
    obtain ⟨b, hb, hsame, hle⟩ := hbuf b' hb' heq
    obtain ⟨hcount, hend⟩ := hcur b hb hsame
    exact ⟨by simpa only [getCount, hheap] using hcount, hend.trans hle⟩

theorem Safe.later {k : ℕ × List UInt8} {op : RefOp} (h : Safe s k) (ht : Tidy s) (hop : op.Later)
    (hp : performRef s op = some (s', o)) : Safe s' k := by
  cases op with
  | retain => exact hop.elim
  | copyRef i own => exact hop.elim
  | base op =>
    cases perform_cases hp with
    | @reserveBegin len init b hbuf hres =>
      refine h.frame rfl ?_
      rintro b' hb' heq
      obtain rfl := Option.some.inj hb'
      refine ⟨b, hbuf, ?_⟩
      by_cases hrew : rewinds s.heap b = true
      · -- the counter would be `1`
        rw [if_pos hrew] at heq
        simp only [rewinds, Bool.and_eq_true, beq_iff_eq] at hrew
        have heq : b.mBuffer = k.1 := heq
        rw [heq] at hrew
        exact absurd hrew.2 (h.current b hbuf heq).1
      · rw [if_neg hrew] at heq ⊢
        exact ⟨heq, le_rfl⟩
    | reserveRoom hbuf hres hroom =>
      refine h.frame rfl ?_
      intro b' hb' heq
      exact ⟨b', hb', heq, le_rfl⟩
    | @reserveExpand len init mem vec b b' h' o hbuf hres hlt he =>
      have hnot : k.1 ≠ b.mBuffer ∨ getCount s.heap k.1 ≠ 1 := by
        by_cases hcur : b.mBuffer = k.1
        · exact .inr (h.current b hbuf hcur).1
        · exact .inl (Ne.symm hcur)
      obtain ⟨hsame, hbuf'⟩ := (expandBuffer_moves he).other h.live hnot
      refine h.frame hsame ?_
      rintro b₁ hb₁ hcur
      obtain rfl := Option.some.inj hb₁
      rcases hbuf' with rfl | hne
      · exact ⟨b', hbuf, hcur, le_rfl⟩
      · exact absurd hcur.symm hne
    | @write pos bytes b c hbuf hres hpos hc =>
      by_cases hcur : b.mBuffer = k.1
      · -- the write begins at or above `m_used`, where the entry has ended
        obtain ⟨hcount, hend⟩ := h.current b hbuf hcur
        have hlen := (ht.laid b hbuf).2
        have hintact := h.intact
        rw [hcur] at hc hlen ⊢
        rw [bytesAt_of_cell hc] at hlen hintact
        refine ⟨by simp, ?_, ?_⟩
        · rw [bytesAt_update, if_pos rfl]
          dsimp only
          rw [slice_patch_disjoint (by omega) (by omega)]
          exact hintact
        · intro b' hb' _
          obtain rfl := Option.some.inj (hbuf.symm.trans hb')
          refine ⟨?_, hend⟩
          simpa [getCount, hc] using hcount
      · refine h.frame (Function.update_of_ne (Ne.symm hcur) _ _) ?_
        intro b' hb' heq
        exact ⟨b', hb', heq, le_rfl⟩
    | @bufferFilled len b hbuf hres hle =>
      refine h.frame rfl ?_
      rintro b' hb' heq
      obtain rfl := Option.some.inj hb'
      have hlt := (ht.sized.buf b hbuf).2.2
      refine ⟨b, hbuf, heq, ?_⟩
      dsimp only
      rw [wrap_of_lt (by omega)]
      omega
    | @dataConsumed len b hbuf hres hle =>
      refine h.frame rfl ?_
      rintro b' hb' heq
      obtain rfl := Option.some.inj hb'
      exact ⟨b, hbuf, heq, le_rfl⟩
    | _ => exact hop.elim

theorem protects_of_safe {entries : List (ℕ × List UInt8)} (ht : Tidy s)
    (h : ∀ k ∈ entries, k.2 ≠ [] → Safe s k) : Protects s entries := by
  intro s' hs' k hk hne
  have hsafe : Tidy s' ∧ Safe s' k := by
    refine hs'.invariant (I := fun s => Tidy s ∧ Safe s k) ?_ ?_
    · rintro s₁ rfl
      exact ⟨ht, h k hk hne⟩
    · rintro s₁ op s₂ - ⟨ht₁, hi⟩ ⟨hlater, hop⟩ hstep
      obtain ⟨⟨s₃, o⟩, hp, rfl⟩ := Option.map_eq_some_iff.mp hstep
      exact ⟨performRef_tidy ht₁ hop hp, hi.later ht₁ hlater hp⟩
  exact ⟨hsafe.2.live, hsafe.2.intact⟩

/-- In a state that still has the chunks of `keeps s.heap b`, with `m_ref` empty, the entries are safe if
`reserve_buffer` finds another owner or the current chunk has no byte to lose. -/
theorem safe_of_keeps (ht : Tidy s) (hbuf : s.buf = some b) (hc : Counts s₁.heap (owners s₁))
    (hbuf₁ : s₁.buf = some { b with mRef := [] }) (hown : ∀ d ∈ b.mBuffer :: b.mRef, d ∈ owners s₁)
    (hbytes : ∀ d ∈ b.mBuffer :: b.mRef, bytesAt s₁.heap d = bytesAt s.heap d)
    (hcond : b.mUsed = sizeofCount ∨ getCount s₁.heap b.mBuffer ≠ 1) :
    ∀ k ∈ keeps s.heap b, k.2 ≠ [] → Safe s₁ k := by
  intro k hk hne
  obtain ⟨hapart, hlen⟩ := ht.laid b hbuf
  obtain ⟨hoff, hle, -⟩ := ht.sized.buf b hbuf
  rcases List.mem_append.mp hk with hk | hk
  · obtain ⟨d, hd, rfl⟩ := List.mem_map.mp hk
    have hmem : d ∈ b.mBuffer :: b.mRef := List.mem_cons_of_mem _ hd
    refine ⟨hc.live d (hown d hmem), ?_, ?_⟩
    · rw [hbytes d hmem]
      simp [slice]
    · intro b' hb' heq
      obtain rfl := Option.some.inj (hbuf₁.symm.trans hb')
      have heq : b.mBuffer = d := heq
      exact absurd (heq ▸ hd) hapart
  · obtain rfl := List.mem_singleton.mp hk
    have hslice : (slice (bytesAt s.heap b.mBuffer) sizeofCount (b.mUsed - sizeofCount)).length =
        b.mUsed - sizeofCount := length_slice (by omega)
    refine ⟨hc.live _ (hown _ (by simp)), ?_, ?_⟩
    · rw [hbytes _ (by simp), hslice]
    · intro b' hb' _
      obtain rfl := Option.some.inj (hbuf₁.symm.trans hb')
      refine ⟨hcond.resolve_left ?_, ?_⟩
      · intro hempty
        rw [hempty, Nat.sub_self] at hne
        exact hne (slice_zero (bytesAt s.heap b.mBuffer) sizeofCount)
      · rw [hslice]
        dsimp only
        omega

/-! ## Overwriting the current chunk -/

/-- A byte other than the given one. -/
def otherByte (x : UInt8) : UInt8 := if x = 0 then 1 else 0

theorem otherByte_ne (x : UInt8) : otherByte x ≠ x := by
  unfold otherByte
  split_ifs with hx
  · rw [hx]
    decide
  · exact Ne.symm hx

theorem later_step {op : Op} (h : (refSystem.startingAt s₁).Reachable (fun s op => op.Later ∧ Regular s op) s)
    (hp : perform s op = some (s', o)) (hlater : RefOp.Later (.base op)) (hop : Regular s (.base op)) :
    (refSystem.startingAt s₁).Reachable (fun s op => op.Later ∧ Regular s op) s' := by
  refine h.step (a := RefOp.base op) ⟨hlater, hop⟩ ?_
  show (perform s op).map (·.1) = some s'
  rw [hp]
  rfl

/-- All data consumed. -/
def drained (s : State) (b : Buf) : State :=
  { s with
    buf := some { b with mOff := b.mUsed }
    consumed := s.consumed ++ slice (bytesAt s.heap b.mBuffer) b.mOff (b.mUsed - b.mOff) }

/-- Then the chunk rewound. -/
def rewound (s : State) (b : Buf) : State :=
  { drained s b with
    buf := some { b with
      mFree := b.mFree + (b.mUsed - sizeofCount), mUsed := sizeofCount, mOff := sizeofCount } }

/-- When the counter is `1` and there is a byte below `m_used`: consume all, let `reserve_buffer`
rewind, and write one byte. -/
theorem overwritten (ht : Tidy s) (hbuf : s.buf = some b) (hres : s.inReserve = none)
    (hused : b.mUsed ≠ sizeofCount) (hone : getCount s.heap b.mBuffer = 1) :
    ∃ s', (refSystem.startingAt s).Reachable (fun s op => op.Later ∧ Regular s op) s' ∧
      slice (bytesAt s'.heap b.mBuffer) sizeofCount (b.mUsed - sizeofCount) ≠
        slice (bytesAt s.heap b.mBuffer) sizeofCount (b.mUsed - sizeofCount) := by
  have h4 : sizeofCount = 4 := rfl
  obtain ⟨hoff, hle, hlt⟩ := ht.sized.buf b hbuf
  obtain ⟨-, hlen⟩ := ht.laid b hbuf
  obtain ⟨c, hc⟩ := ht.cell hbuf
  rw [bytesAt_of_cell hc] at hlen ⊢
  have hfirst : sizeofCount < c.data.length := by omega
  have hconsume : perform s (.dataConsumed (b.mUsed - b.mOff)) = some (drained s b, .ok) := by
    have hsize : b.dataSize = b.mUsed - b.mOff := wsub_of_le hle (by omega)
    have hend : wrap (b.mOff + (b.mUsed - b.mOff)) = b.mUsed := by
      rw [wrap_of_lt (by omega)]
      omega
    simp [perform, drained, hbuf, hres, hsize, hend]
  have hbegin : perform (drained s b) (.reserveBegin 0 0) =
      some ({ rewound s b with inReserve := some (0, 0) }, .ok) := by
    have hfree : wrap (b.mFree + wsub b.mUsed sizeofCount) = b.mFree + (b.mUsed - sizeofCount) := by
      rw [wsub_of_le (by omega) (by omega), wrap_of_lt (by omega)]
    simp [perform, drained, rewound, rewinds, Buf.rewind, hone, hres, hfree]
  have hend : perform { rewound s b with inReserve := some (0, 0) } (.reserveEnd none false) =
      some (rewound s b, .ok) := by
    simp [perform, drained, rewound, hres]
  have hwrite : perform (rewound s b) (.write sizeofCount [otherByte (c.data.get ⟨sizeofCount, hfirst⟩)]) =
      some ({ rewound s b with
        heap := Function.update s.heap b.mBuffer (some { c with
          data := patch c.data sizeofCount [otherByte (c.data.get ⟨sizeofCount, hfirst⟩)] }) }, .ok) := by
    have hroom : sizeofCount + 1 ≤ sizeofCount + (b.mFree + (b.mUsed - sizeofCount)) := by omega
    simp [perform, drained, rewound, hres, hc, hroom]
  have h₁ := later_step (.init rfl) hconsume trivial ⟨trivial, trivial⟩
  have h₂ := later_step h₁ hbegin trivial ⟨⟨by decide, by decide⟩, trivial⟩
  have hroom : Regular { rewound s b with inReserve := some (0, 0) } (.base (.reserveEnd none false)) := by
    refine ⟨?_, trivial⟩
    intro b' len init _ heq hlt
    obtain ⟨rfl, rfl⟩ := Prod.mk.inj (Option.some.inj heq)
    omega
  have h₃ := later_step h₂ hend trivial hroom
  refine ⟨_, later_step h₃ hwrite trivial ⟨trivial, trivial⟩, ?_⟩
  intro heq
  have hzero := congrArg (fun l : List UInt8 => l[0]?) heq
  simp only [bytesAt_update, if_pos, getElem?_slice] at hzero
  have hpos : 0 < b.mUsed - sizeofCount := by omega
  rw [if_pos hpos, if_pos hpos, getElem?_patch (by simp; omega)] at hzero
  simp only [List.length_singleton, Nat.add_zero, Nat.lt_irrefl, if_false, Nat.lt_succ_self, if_true,
    Nat.sub_self, List.getElem?_cons_zero] at hzero
  rw [List.getElem?_eq_getElem hfirst] at hzero
  exact otherByte_ne _ (Option.some.inj hzero)

/-! ## The two ways to retain -/

theorem retain_cases (hp : performRef s .retain = some (s₁, o)) (hbuf : s.buf = some b) :
    s₁.heap = s.heap ∧ s₁.buf = some { b with mRef := [] } ∧ s₁.inReserve = none := by
  simp only [performRef, hbuf] at hp
  split at hp
  · rename_i b' heq hres
    obtain rfl := Option.some.inj heq
    obtain ⟨rfl, -⟩ := Prod.mk.inj (Option.some.inj hp)
    exact ⟨rfl, rfl, hres⟩
  · cases hp

theorem retainTo_protects (ht : Tidy s) (hbuf : s.buf = some b) {i : ℕ}
    (hown : OwnersOk s (.retainTo i true)) (hp : perform s (.retainTo i true) = some (s₁, o)) :
    Protects s₁ (keeps s.heap b) := by
  have ht₁ : Tidy s₁ := performRef_tidy ht (show Regular s (.base (.retainTo i true)) from ⟨trivial, hown⟩) hp
  refine protects_of_safe ht₁ ?_
  cases perform_cases hp with
  | @retainTo _ b' r hbuf' hres hi =>
    obtain rfl := Option.some.inj (hbuf'.symm.trans hbuf)
    have hfilled : (b'.mRef ++ [b'.mBuffer] : List ℕ) ∈
        (s.refs.set i ⟨b'.mRef ++ [b'.mBuffer], keeps s.heap b'⟩).map (·.mArray) :=
      List.mem_map.mpr ⟨_, List.mem_set (List.getElem?_eq_some_iff.mp hi).1 _, rfl⟩
    have hheld : ∀ d ∈ b'.mBuffer :: b'.mRef,
        d ∈ refOwners (s.refs.set i ⟨b'.mRef ++ [b'.mBuffer], keeps s.heap b'⟩) := by
      intro d hd
      obtain ⟨r', hr', heq'⟩ := List.mem_map.mp hfilled
      refine mem_refOwners.mpr ⟨r', hr', ?_⟩
      rw [heq']
      simpa [or_comm] using hd
    refine safe_of_keeps ht hbuf ht₁.counts rfl ?_ ?_ (.inr ?_)
    · intro d hd
      exact Multiset.mem_add.mpr (.inr (hheld d hd))
    · intro d hd
      exact bytesAt_retainTo ht.counts hbuf hi (hown b' hbuf) hd
    · -- `m_buffer` is one owner, the reference another
      have hcount := ht₁.counts.getCount_eq (d := b'.mBuffer) (Multiset.mem_add.mpr (.inr (hheld _ (by simp))))
      have htwo := Multiset.count_pos.mpr (hheld b'.mBuffer (by simp))
      rw [owners, Multiset.count_add] at hcount
      simp only [bufOwners, Multiset.coe_nil, Multiset.cons_zero, Multiset.count_singleton_self] at hcount
      dsimp only
      omega

/-- Unlike one filled by `retain_to`, the reference returned by `retain` protects the current chunk only
through the owners that were there before. -/
theorem retained_protects_iff (ht : Tidy s) (hbuf : s.buf = some b)
    (hp : performRef s .retain = some (s₁, o)) :
    Protects s₁ (keeps s.heap b) ↔ b.mUsed = sizeofCount ∨ getCount s.heap b.mBuffer ≠ 1 := by
  have ht₁ : Tidy s₁ := performRef_tidy ht (show Regular s .retain from trivial) hp
  obtain ⟨hheap, hbuf₁, hres₁⟩ := retain_cases hp hbuf
  constructor
  · intro hprot
    by_contra hcond
    rw [not_or, not_not] at hcond
    obtain ⟨s', hs', hchanged⟩ := overwritten ht₁ hbuf₁ hres₁ hcond.1 (by rw [hheap]; exact hcond.2)
    have hlen : (slice (bytesAt s.heap b.mBuffer) sizeofCount (b.mUsed - sizeofCount)).length =
        b.mUsed - sizeofCount := by
      have hsize := (ht.laid b hbuf).2
      have hord := ht.sized.buf b hbuf
      exact length_slice (by omega)
    obtain ⟨-, hintact⟩ := hprot s' hs' (b.mBuffer, _) (List.mem_append.mpr (.inr (List.mem_singleton.mpr rfl)))
      (by
        intro hnil
        have hord := ht.sized.buf b hbuf
        have hzero := congrArg List.length hnil
        dsimp only at hzero
        rw [hlen, List.length_nil] at hzero
        omega)
    rw [hlen] at hintact
    rw [hheap] at hchanged
    exact hchanged hintact
  · intro hcond
    refine protects_of_safe ht₁ (safe_of_keeps ht hbuf ht₁.counts hbuf₁ ?_ ?_ (by rwa [hheap]))
    · intro d hd
      have howners : owners s₁ = owners s := by
        simp only [performRef, hbuf] at hp
        split at hp
        · rename_i b' heq hres
          obtain rfl := Option.some.inj heq
          obtain ⟨rfl, -⟩ := Prod.mk.inj (Option.some.inj hp)
          exact owners_retain hbuf _
        · cases hp
      rw [howners, owners, hbuf]
      exact Multiset.mem_add.mpr (.inl (by simpa [bufOwners] using hd))
    · intro d _
      rw [hheap]

/-- In the same state, `retain_to` protects the abandoned chunks and the bytes of the current one;
`retain` does so exactly when the current chunk has another owner already, or no bytes. -/
theorem retain_protects_iff (h : refSystem.Reachable Regular s) (hbuf : s.buf = some b)
    (hp : performRef s .retain = some (s₁, .ok)) :
    (∀ i s₂, OwnersOk s (.retainTo i true) → perform s (.retainTo i true) = some (s₂, .ok) →
      Protects s₂ (keeps s.heap b)) ∧
    (Protects s₁ (keeps s.heap b) ↔ b.mUsed = sizeofCount ∨ getCount s.heap b.mBuffer ≠ 1) := by
  have ht := reachable_tidy h
  refine ⟨?_, retained_protects_iff ht hbuf hp⟩
  intro i s₂ hown hp₂
  exact retainTo_protects ht hbuf hown hp₂

theorem exists_retain (hbuf : s.buf = some b) (hres : s.inReserve = none) :
    ∃ s₁, performRef s .retain = some (s₁, .ok) := by
  simp only [performRef, hbuf, hres]
  exact ⟨_, rfl⟩

theorem exists_held : ∃ s, refSystem.Reachable Regular s ∧ s.buf = some ⟨0, 5, 11, 4, []⟩ ∧
    s.inReserve = none ∧ getCount s.heap 0 = 2 := by
  refine ⟨_, (((((System.Reachable.init rfl).step
    (a := RefOp.base (.construct 16 (some (0, fun _ => 0)))) ⟨?_, trivial⟩ rfl).step
    (a := RefOp.base (.write 4 [7])) ⟨trivial, trivial⟩ rfl).step
    (a := RefOp.base (.bufferFilled 1)) ⟨trivial, trivial⟩ rfl).step
    (a := RefOp.base .newRef) ⟨trivial, trivial⟩ rfl).step
    (a := RefOp.base (.retainTo 0 true)) ⟨trivial, ?_⟩ rfl, rfl, rfl, rfl⟩
  · decide
  · show 16 < 2 ^ 64
    decide

theorem retain_protects_iff_held : ∃ s b s₁, refSystem.Reachable Regular s ∧ s.buf = some b ∧
    b.mUsed = 5 ∧ performRef s .retain = some (s₁, .ok) ∧ Protects s₁ (keeps s.heap b) := by
  obtain ⟨s, hs, hbuf, hres, hcount⟩ := exists_held
  obtain ⟨s₁, hp⟩ := exists_retain hbuf hres
  refine ⟨s, _, s₁, hs, hbuf, rfl, hp, (retain_protects_iff hs hbuf hp).2.mpr (.inr ?_)⟩
  rw [hcount]
  decide

/-- One byte that nothing else holds: it is overwritten under the reference. -/
theorem retain_not_protects : ∃ s b s₁, refSystem.Reachable Regular s ∧ s.buf = some b ∧
    b.mUsed = 5 ∧ performRef s .retain = some (s₁, .ok) ∧ ¬ Protects s₁ (keeps s.heap b) := by
  have hrun : ∃ s, refSystem.Reachable Regular s ∧ s.buf = some ⟨0, 5, 11, 4, []⟩ ∧
      s.inReserve = none ∧ getCount s.heap 0 = 1 := by
    refine ⟨_, ((System.Reachable.init rfl).step
      (a := RefOp.base (.construct 16 (some (0, fun _ => 0)))) ⟨?_, trivial⟩ rfl).step
      (a := RefOp.base (.bufferFilled 1)) ⟨trivial, trivial⟩ rfl, rfl, rfl, rfl⟩
    show 16 < 2 ^ 64
    decide
  obtain ⟨s, hs, hbuf, hres, hcount⟩ := hrun
  obtain ⟨s₁, hp⟩ := exists_retain hbuf hres
  refine ⟨s, _, s₁, hs, hbuf, rfl, hp, ?_⟩
  rw [retained_protects_iff (reachable_tidy hs) hbuf hp, hcount]
  decide

end Mpio.StreamBuffer
