import Mpio.SharedBuffer.Model
import Mpio.Wavy.Xfer

/-!
# Growth for every request

`stream_buffer::reserve_buffer`, `shared_buffer::reserve_buffer` and `xfer::reserve` take any `size_t`.
Each computes a needed size and a first guess, and doubles the guess until it is large enough; all of
it wraps around at `2 ^ 64`. For each function the exact needed size (`need`), the exact first guess
(`seed`), the list of all sizes it computes before they wrap around (`sizes`) and the size it asks
the allocator for (`request`) are spelled out here.

A call is right (`ReserveRight`) when no size wraps around, the loop ends, the request covers the
bytes in use and `len` more, and the call throws or leaves `len` free bytes. It is right exactly when
some doubling of the guess reaches the need below `2 ^ 64`: `Lib.reaches_iff`. What remains is that
the members stay ordered and below `2 ^ 64` (`Sized`) over the runs all of whose calls meet this.
-/

namespace Mpio

open Lib Lib.Heap

namespace StreamBuffer

variable {s s' : State} {b : Buf} {len init : ℕ}

/-! ## `stream_buffer` -/

/-- The bytes that stay in use: all of the chunk where it is resized, the pending ones else. -/
def inUse (h : Heap (List UInt8)) (b : Buf) : ℕ :=
  if resizes h b then b.mUsed else b.mUsed - b.mOff + sizeofCount

/-- What `next_size` has to reach. -/
def need (h : Heap (List UInt8)) (b : Buf) (len : ℕ) : ℕ := inUse h b + len

/-- What `next_size` starts from. -/
def seed (h : Heap (List UInt8)) (b : Buf) (init : ℕ) : ℕ :=
  if resizes h b then (b.mUsed + b.mFree) * 2 else max init sizeofCount

/-- The size that `expand_buffer` asks for, unless its loop runs on. -/
def request (h : Heap (List UInt8)) (b : Buf) (len init : ℕ) : Option ℕ :=
  if resizes h b then doubleUntil (wrap (len + b.mUsed)) 64 (wrap ((b.mUsed + b.mFree) * 2))
  else doubleUntil (wrap (wrap (len + wsub b.mUsed b.mOff) + sizeofCount)) 64 (max init sizeofCount)

/-- The sums that `expand_buffer` computes, before they wrap around. -/
def sums (h : Heap (List UInt8)) (b : Buf) (len : ℕ) : List ℕ :=
  if resizes h b then [b.mUsed + b.mFree, (b.mUsed + b.mFree) * 2, len + b.mUsed]
  else [len + (b.mUsed - b.mOff), len + (b.mUsed - b.mOff) + sizeofCount]

/-- All the sizes that `expand_buffer` computes, before they wrap around. -/
def sizes (h : Heap (List UInt8)) (b : Buf) (len init : ℕ) : List ℕ :=
  sums h b len ++ doublings (wrap (need h b len)) 64 (wrap (seed h b init))

/-- The call of `reserve_buffer(len, init)` that is under way is right, whatever the allocator
answers. -/
structure ReserveRight (s : State) (b : Buf) (len init : ℕ) : Prop where
  exact : b.mFree < len → ∀ v ∈ sizes s.heap b len init, v < 2 ^ 64
  request : b.mFree < len → ∃ n, request s.heap b len init = some n ∧ inUse s.heap b + len ≤ n
  result : ∀ mem vec s' o, perform s (.reserveEnd mem vec) = some (s', o) →
    o = .badAlloc ∨ o = .ok ∧ ∃ b', s'.buf = some b' ∧ len ≤ b'.mFree

/-- The arguments are `size_t`, and every growth finds a doubling that reaches its need. -/
def Enough (s : State) : Op → Prop
  | .construct init _ => init < 2 ^ 64
  | .reserveBegin len init => len < 2 ^ 64 ∧ init < 2 ^ 64
  | .reserveEnd _ _ => ∀ b len init, s.buf = some b → s.inReserve = some (len, init) →
      b.mFree < len → Reaches (seed s.heap b init) (need s.heap b len)
  | _ => True

/-- The members of the buffer are in order, and together they are a `size_t`. -/
structure Sized (s : State) : Prop where
  buf : ∀ b, s.buf = some b →
    sizeofCount ≤ b.mOff ∧ b.mOff ≤ b.mUsed ∧ b.mUsed + b.mFree < 2 ^ 64
  reserve : ∀ len init, s.inReserve = some (len, init) → len < 2 ^ 64 ∧ init < 2 ^ 64

theorem expandBuffer_result {h h' : Heap (List UInt8)} {b' : Buf} {mem : Alloc} {vec : Bool}
    {o : Outcome} {n : ℕ} (hn : request h b len init = some n)
    (he : expandBuffer h b len init mem vec = some (h', b', o)) :
    (o = .badAlloc ∧ h' = h ∧ b' = b) ∨ (o = .ok ∧
      ((resizes h b = true ∧ b'.mUsed = b.mUsed ∧ b'.mOff = b.mOff ∧ b'.mFree = wsub n b.mUsed ∧
          ∃ junk, bytesAt h' b'.mBuffer = resize (bytesAt h b.mBuffer) n junk) ∨
        (resizes h b = false ∧ b'.mUsed = wrap (wsub b.mUsed b.mOff + sizeofCount) ∧
          b'.mOff = sizeofCount ∧ b'.mFree = wsub n b'.mUsed ∧
          ∃ junk, bytesAt h' b'.mBuffer = patch (fresh n junk) sizeofCount
            (slice (bytesAt h b.mBuffer) b.mOff (wsub b.mUsed b.mOff))))) := by
  cases expandBuffer_expands he with
  | resizeLoops hres hnone =>
    rw [request, if_pos hres, hnone] at hn
    cases hn
  | resizeFailed hres => exact .inl ⟨rfl, rfl, rfl⟩
  | @resized _ d junk c hres hsome hc hd =>
    rw [request, if_pos hres, hsome] at hn
    obtain rfl := Option.some.inj hn
    refine .inr ⟨rfl, .inl ⟨hres, rfl, rfl, rfl, junk, ?_⟩⟩
    rw [bytesAt_update, if_pos rfl, bytesAt_of_cell hc]
  | moveLoops hres hnone =>
    rw [request, if_neg hres, hnone] at hn
    cases hn
  | moveFailed hres => exact .inl ⟨rfl, rfl, rfl⟩
  | @moved _ d junk hres hsome hd =>
    rw [request, if_neg hres, hsome] at hn
    obtain rfl := Option.some.inj hn
    refine .inr ⟨rfl, .inr ⟨by simpa using hres, rfl, rfl, rfl, junk, ?_⟩⟩
    rw [bytesAt_update, if_pos rfl]

theorem seed_pos (h : Sized s) (hb : s.buf = some b) : 0 < seed s.heap b init := by
  obtain ⟨hoff, hle, -⟩ := h.buf b hb
  have h4 : sizeofCount = 4 := rfl
  unfold seed
  split_ifs <;> omega

theorem request_eq (h : Sized s) (hb : s.buf = some b) (hinit : init < 2 ^ 64) :
    request s.heap b len init = doubleUntil (wrap (need s.heap b len)) 64 (wrap (seed s.heap b init)) := by
  obtain ⟨-, hle, hlt⟩ := h.buf b hb
  have h4 : sizeofCount = 4 := rfl
  unfold request need inUse seed
  split_ifs with hres
  · rw [Nat.add_comm]
  · rw [wsub_of_le hle (by omega), wrap_of_lt (n := max init sizeofCount) (by omega)]
    congr 1
    simp only [wrap]
    omega

theorem expanded_sized (h : Sized s) (hb : s.buf = some b) (hinit : init < 2 ^ 64)
    (hr : Reaches (seed s.heap b init) (need s.heap b len)) {mem : Alloc} {vec : Bool}
    {h' : Heap (List UInt8)} {b' : Buf} {o : Outcome}
    (he : expandBuffer s.heap b len init mem vec = some (h', b', o)) :
    (o = .badAlloc ∧ h' = s.heap ∧ b' = b) ∨ (o = .ok ∧ len ≤ b'.mFree ∧
      (sizeofCount ≤ b'.mOff ∧ b'.mOff ≤ b'.mUsed ∧ b'.mUsed + b'.mFree < 2 ^ 64) ∧
      (b.mUsed + b.mFree = (bytesAt s.heap b.mBuffer).length →
        b'.mUsed + b'.mFree = (bytesAt h' b'.mBuffer).length)) := by
  obtain ⟨hs64, hn64, hv, m, hm⟩ := (reaches_iff (seed_pos h hb)).mpr hr
  obtain ⟨k, hk, hlt⟩ := exists_doubling hm hv (by rw [wrap_of_lt hs64]; exact hs64)
  have hfrom : seed s.heap b init ≤ m := by
    rw [wrap_of_lt hs64] at hk
    rw [hk]
    exact Nat.le_mul_of_pos_right _ (Nat.two_pow_pos k)
  have hge := doubleUntil_ge hm
  rw [wrap_of_lt hn64] at hge
  rw [← request_eq h hb hinit] at hm
  obtain ⟨hoff, hle, htotal⟩ := h.buf b hb
  have h4 : sizeofCount = 4 := rfl
  rcases expandBuffer_result hm he with hbad | ⟨ho, hcase⟩
  · exact .inl hbad
  · rcases hcase with ⟨hres, hu, ho', hf, junk, hbytes⟩ | ⟨hres, hu, ho', hf, junk, hbytes⟩
    · simp only [need, inUse, hres, if_true] at hge
      simp only [seed, hres, if_true] at hfrom
      rw [wsub_of_le (by omega) (by omega)] at hf
      refine .inr ⟨ho, by omega, by omega, ?_⟩
      intro hlen
      rw [hbytes, length_resize (by omega)]
      omega
    · simp only [need, inUse, hres, Bool.false_eq_true, if_false] at hge
      rw [wsub_of_le hle (by omega), wrap_of_lt (by omega)] at hu
      rw [wsub_of_le (by omega) (by omega)] at hf
      refine .inr ⟨ho, by omega, by omega, ?_⟩
      intro hlen
      have hslice : (slice (bytesAt s.heap b.mBuffer) b.mOff (b.mUsed - b.mOff)).length =
          b.mUsed - b.mOff := length_slice (by omega)
      rw [hbytes, wsub_of_le hle (by omega), length_patch (by rw [hslice, length_fresh]; omega),
        length_fresh]
      omega

theorem rewind_sized (h : Sized s) (hb : s.buf = some b) :
    b.rewind.mUsed + b.rewind.mFree = b.mUsed + b.mFree ∧ b.rewind.mOff = sizeofCount ∧
      b.rewind.mUsed = sizeofCount := by
  obtain ⟨hoff, hle, hlt⟩ := h.buf b hb
  have h4 : sizeofCount = 4 := rfl
  refine ⟨?_, rfl, rfl⟩
  simp only [Buf.rewind]
  rw [wsub_of_le (by omega) (by omega), wrap_of_lt (by omega)]
  omega

theorem perform_sized {op : Op} {o : Outcome} (h : Sized s) (hop : Enough s op)
    (hp : perform s op = some (s', o)) : Sized s' := by
  have h4 : sizeofCount = 4 := rfl
  have hkeep := h
  obtain ⟨hbuf, hreserve⟩ := h
  cases perform_cases hp with
  | constructFailed hb => exact hkeep
  | @construct init d junk hb hd =>
    have hinit : init < 2 ^ 64 := hop
    refine ⟨?_, hreserve⟩
    rintro b hb
    obtain rfl := Option.some.inj hb
    dsimp only
    rw [wsub_of_le (by omega) (by omega)]
    omega
  | @reserveBegin len init b hb hr =>
    refine ⟨?_, ?_⟩
    · rintro b' hb'
      obtain rfl := Option.some.inj hb'
      have hrewind := rewind_sized hkeep hb
      have hsize := hbuf b hb
      split_ifs
      · omega
      · exact hsize
    · rintro len' init' heq
      obtain ⟨rfl, rfl⟩ := Prod.mk.inj (Option.some.inj heq)
      exact hop
  | reserveRoom hb hr hroom => exact ⟨hbuf, by simp⟩
  | @reserveExpand len init mem vec b b' h' o hb hr hlt he =>
    refine ⟨?_, by simp⟩
    rintro b₂ hb₂
    obtain rfl := Option.some.inj hb₂
    rcases expanded_sized hkeep hb (hreserve len init hr).2 (hop b len init hb hr hlt) he with
      ⟨-, -, rfl⟩ | ⟨-, -, hsize, -⟩
    · exact hbuf b' hb
    · exact hsize
  | write hb hr hpos hc => exact ⟨hbuf, hreserve⟩
  | @bufferFilled len b hb hr hle =>
    refine ⟨?_, hreserve⟩
    rintro b' hb'
    obtain rfl := Option.some.inj hb'
    have hsize := hbuf b hb
    dsimp only
    rw [wrap_of_lt (by omega), wsub_of_le hle (by omega)]
    omega
  | @dataConsumed len b hb hr hle =>
    refine ⟨?_, hreserve⟩
    rintro b' hb'
    obtain rfl := Option.some.inj hb'
    have hsize := hbuf b hb
    rw [Buf.dataSize, wsub_of_le (by omega) (by omega)] at hle
    dsimp only
    rw [wrap_of_lt (by omega)]
    omega
  | retainFailed hb hr hi => exact hkeep
  | @retainTo i b r hb hr hi =>
    refine ⟨?_, hreserve⟩
    rintro b' hb'
    obtain rfl := Option.some.inj hb'
    exact hbuf b hb
  | newRef => exact ⟨hbuf, hreserve⟩
  | swapRefs hi hj => exact ⟨hbuf, hreserve⟩
  | clearRef hi => exact ⟨hbuf, hreserve⟩
  | destroy hb hr => exact ⟨by simp, hreserve⟩

theorem reachable_sized (h : system.Reachable Enough s) : Sized s := by
  refine h.invariant ?_ ?_
  · rintro s rfl
    exact ⟨by simp [start], by simp [start]⟩
  · intro s op s' _ hi hop hstep
    obtain ⟨⟨s₁, o⟩, hp, rfl⟩ := Option.map_eq_some_iff.mp hstep
    exact perform_sized hi hop hp

/-- The sizes are right, the loop ends and the request is large enough, or none of it matters. -/
theorem grows_of_shape (h : Sized s) (hb : s.buf = some b) (hinit : init < 2 ^ 64) :
    ((∀ v ∈ sizes s.heap b len init, v < 2 ^ 64) ∧
      ∃ n, request s.heap b len init = some n ∧ inUse s.heap b + len ≤ n) ↔
      Reaches (seed s.heap b init) (need s.heap b len) := by
  have h4 : sizeofCount = 4 := rfl
  rw [request_eq h hb hinit]
  refine grows_iff (sums s.heap b len) (seed_pos h hb) ?_ ?_ ?_
  · unfold sums seed need inUse
    split_ifs <;> simp only [List.mem_cons, List.not_mem_nil, or_false] <;> omega
  · unfold sums seed
    split_ifs
    · simp
    · exact .inl (by omega)
  · unfold sums need inUse
    split_ifs <;> simp only [List.mem_cons, List.not_mem_nil, or_false] <;> omega

theorem reserveRight_iff (h : Sized s) (hb : s.buf = some b) (hres : s.inReserve = some (len, init)) :
    ReserveRight s b len init ↔
      (b.mFree < len → Reaches (seed s.heap b init) (need s.heap b len)) := by
  have hinit := (h.reserve len init hres).2
  constructor
  · rintro ⟨hexact, hrequest, -⟩ hlt
    exact (grows_of_shape h hb hinit).mp ⟨hexact hlt, hrequest hlt⟩
  · intro hreach
    refine ⟨fun hlt => ((grows_of_shape h hb hinit).mpr (hreach hlt)).1,
      fun hlt => ((grows_of_shape h hb hinit).mpr (hreach hlt)).2, ?_⟩
    intro mem vec s' o hp
    cases perform_cases hp with
    | reserveRoom hb₁ hres₁ hroom =>
      obtain rfl := Option.some.inj (hb.symm.trans hb₁)
      obtain ⟨rfl, rfl⟩ := Prod.mk.inj (Option.some.inj (hres.symm.trans hres₁))
      exact .inr ⟨rfl, b, hb, not_lt.mp hroom⟩
    | @reserveExpand _ _ _ _ _ b' _ _ hb₁ hres₁ hlt he =>
      obtain rfl := Option.some.inj (hb.symm.trans hb₁)
      obtain ⟨rfl, rfl⟩ := Prod.mk.inj (Option.some.inj (hres.symm.trans hres₁))
      rcases expanded_sized h hb hinit (hreach hlt) he with ⟨rfl, -⟩ | ⟨rfl, hroom, -⟩
      · exact .inl rfl
      · exact .inr ⟨rfl, b', rfl, hroom⟩

end StreamBuffer

namespace SharedBuffer

open StreamBuffer (sizeofCount Alloc)

variable {s s' : State} {b : Buf} {len init : ℕ}

/-! ## `shared_buffer` -/

/-- What `next_size` has to reach: only the counter is in use, in either branch. -/
def need (len : ℕ) : ℕ := sizeofCount + len

/-- What `next_size` starts from. -/
def seed (h : Heap (List UInt8)) (b : Buf) (init : ℕ) : ℕ :=
  if resizes h b then (b.mUsed + b.mFree) * 2 else max init sizeofCount

/-- The size that `expand_buffer` asks for, unless its loop runs on. -/
def request (h : Heap (List UInt8)) (b : Buf) (len init : ℕ) : Option ℕ :=
  if resizes h b then doubleUntil (wrap (len + b.mUsed)) 64 (wrap ((b.mUsed + b.mFree) * 2))
  else doubleUntil (wrap (len + sizeofCount)) 64 (max init sizeofCount)

/-- The sums that `expand_buffer` computes, before they wrap around. -/
def sums (h : Heap (List UInt8)) (b : Buf) (len : ℕ) : List ℕ :=
  if resizes h b then [b.mUsed + b.mFree, (b.mUsed + b.mFree) * 2, len + b.mUsed]
  else [len + sizeofCount]

/-- All the sizes that `expand_buffer` computes, before they wrap around. -/
def sizes (h : Heap (List UInt8)) (b : Buf) (len init : ℕ) : List ℕ :=
  sums h b len ++ doublings (wrap (need len)) 64 (wrap (seed h b init))

/-- The call of `reserve_buffer(len, init)` that is under way is right, whatever the allocator
answers. A new chunk becomes the current one with all of it free but the counter. -/
structure ReserveRight (s : State) (b : Buf) (len init : ℕ) : Prop where
  exact : b.mFree < len → ∀ v ∈ sizes s.heap b len init, v < 2 ^ 64
  request : b.mFree < len → ∃ n, request s.heap b len init = some n ∧ sizeofCount + len ≤ n
  result : ∀ mem s' o, perform s (.reserveExpand mem) = some (s', o) →
    o = .badAlloc ∨ o = .ok ∧
      ((s'.inReserve = none ∧ ∃ b', s'.buf = some b' ∧ len ≤ b'.mFree) ∨
        ∃ d n, s'.inReserve = some (.allocated len d n) ∧ len ≤ wsub n sizeofCount)

/-- The arguments are `size_t`, and every growth finds a doubling that reaches its need. -/
def Enough (s : State) : Op → Prop
  | .construct init _ => init < 2 ^ 64
  | .reserveBegin len init => len < 2 ^ 64 ∧ init < 2 ^ 64
  | .reserveExpand _ => ∀ b len init, s.buf = some b → s.inReserve = some (.counted len init) →
      b.mFree < len → Reaches (seed s.heap b init) (need len)
  | _ => True

/-- The members of the buffer are in order, and together they are a `size_t`. -/
structure Sized (s : State) : Prop where
  buf : ∀ b, s.buf = some b → sizeofCount ≤ b.mUsed ∧ b.mUsed + b.mFree < 2 ^ 64
  counted : ∀ len init, s.inReserve = some (.counted len init) → len < 2 ^ 64 ∧ init < 2 ^ 64
  allocated : ∀ len d n, s.inReserve = some (.allocated len d n) → sizeofCount + len ≤ n ∧ n < 2 ^ 64

theorem seed_pos (h : Sized s) (hb : s.buf = some b) : 0 < seed s.heap b init := by
  have hused := h.buf b hb
  have h4 : sizeofCount = 4 := rfl
  unfold seed
  split_ifs <;> omega

theorem used_of_resizes {h : Heap (List UInt8)} (hres : resizes h b = true) : b.mUsed = sizeofCount := by
  simp only [resizes, Bool.and_eq_true, beq_iff_eq] at hres
  exact hres.1

theorem request_eq (h : Sized s) (hb : s.buf = some b) (hinit : init < 2 ^ 64) :
    request s.heap b len init = doubleUntil (wrap (need len)) 64 (wrap (seed s.heap b init)) := by
  have hused := h.buf b hb
  have h4 : sizeofCount = 4 := rfl
  unfold request need seed
  split_ifs with hres
  · rw [used_of_resizes hres, Nat.add_comm]
  · rw [wrap_of_lt (n := max init sizeofCount) (by omega), Nat.add_comm]

theorem expanded_sized (h : Sized s) (hb : s.buf = some b) (hinit : init < 2 ^ 64)
    (hr : Reaches (seed s.heap b init) (need len)) {mem : Alloc} {o : Outcome}
    (he : expandBuffer s b len init mem = some (s', o)) :
    (o = .badAlloc ∧ s' = { s with inReserve := none }) ∨ (o = .ok ∧
      ((s'.inReserve = none ∧ ∃ b', s'.buf = some b' ∧ len ≤ b'.mFree ∧ sizeofCount ≤ b'.mUsed ∧
          b'.mUsed + b'.mFree < 2 ^ 64) ∨
        (s'.buf = some b ∧ ∃ d n, s'.inReserve = some (.allocated len d n) ∧
          sizeofCount + len ≤ n ∧ n < 2 ^ 64))) := by
  obtain ⟨hs64, hn64, hv, n, hn⟩ := (reaches_iff (seed_pos h hb)).mpr hr
  obtain ⟨k, -, hlt⟩ := exists_doubling hn hv (by rw [wrap_of_lt hs64]; exact hs64)
  have hge := doubleUntil_ge hn
  rw [wrap_of_lt hn64, need] at hge
  rw [← request_eq h hb hinit] at hn
  obtain ⟨hused, htotal⟩ := h.buf b hb
  cases expandBuffer_expands he with
  | resizeLoops hres hnone =>
    rw [request, if_pos hres, hnone] at hn
    cases hn
  | resizeFailed hres => exact .inl ⟨rfl, rfl⟩
  | resized hres hsome hc hd =>
    rw [request, if_pos hres, hsome] at hn
    obtain rfl := Option.some.inj hn
    have hu := used_of_resizes hres
    refine .inr ⟨rfl, .inl ⟨rfl, _, rfl, ?_⟩⟩
    dsimp only
    rw [wsub_of_le (by omega) (by omega)]
    omega
  | allocLoops hres hnone =>
    rw [request, if_neg hres, hnone] at hn
    cases hn
  | allocFailed hres => exact .inl ⟨rfl, rfl⟩
  | allocated hres hsome hd =>
    rw [request, if_neg hres, hsome] at hn
    obtain rfl := Option.some.inj hn
    exact .inr ⟨rfl, .inr ⟨hb, _, _, rfl, by omega, hlt⟩⟩

theorem perform_sized {op : Op} {o : Outcome} (h : Sized s) (hop : Enough s op)
    (hp : perform s op = some (s', o)) : Sized s' := by
  have h4 : sizeofCount = 4 := rfl
  have hkeep := h
  obtain ⟨hbuf, hcounted, hallocated⟩ := h
  cases perform_cases hp with
  | constructFailed hb => exact hkeep
  | @construct init d junk hb hd =>
    have hinit : init < 2 ^ 64 := hop
    refine ⟨?_, hcounted, hallocated⟩
    rintro b hb
    obtain rfl := Option.some.inj hb
    dsimp only
    rw [wsub_of_le (by omega) (by omega)]
    omega
  | @reserveBegin len init b hb hr =>
    refine ⟨?_, ?_, by simp⟩
    · rintro b' hb'
      obtain rfl := Option.some.inj hb'
      have hsize := hbuf b hb
      split_ifs
      · simp only [Buf.rewind]
        rw [wsub_of_le (by omega) (by omega), wrap_of_lt (by omega)]
        omega
      · exact hsize
    · rintro len' init' heq
      obtain ⟨rfl, rfl⟩ := Reserve.counted.inj (Option.some.inj heq)
      exact hop
  | reserveRoom hb hr hroom => exact ⟨hbuf, by simp, by simp⟩
  | @reserveExpand len init mem b _ _ hb hr hlt he =>
    rcases expanded_sized hkeep hb (hcounted len init hr).2 (hop b len init hb hr hlt) he with
      ⟨-, rfl⟩ | ⟨-, ⟨hnone, b', hb', -, hsize⟩ | ⟨hb', d, n, halloc, hn⟩⟩
    · exact ⟨hbuf, by simp, by simp⟩
    · refine ⟨?_, by simp [hnone], by simp [hnone]⟩
      rintro b₂ hb₂
      obtain rfl := Option.some.inj (hb'.symm.trans hb₂)
      exact hsize
    · refine ⟨?_, by simp [halloc], ?_⟩
      · rintro b₂ hb₂
        obtain rfl := Option.some.inj (hb'.symm.trans hb₂)
        exact hbuf b hb
      · rintro len' d' n' heq
        obtain ⟨rfl, rfl, rfl⟩ := Reserve.allocated.inj (Option.some.inj (halloc.symm.trans heq))
        exact hn
  | @reserveEnd len d n b hb hr =>
    have hn := hallocated len d n hr
    refine ⟨?_, by simp, by simp⟩
    rintro b' hb'
    obtain rfl := Option.some.inj hb'
    dsimp only
    rw [wsub_of_le (by omega) (by omega)]
    omega
  | write hb hr hpos hc => exact ⟨hbuf, hcounted, hallocated⟩
  | @hold len b hb hr | @skip len b hb hr =>
    refine ⟨?_, hcounted, hallocated⟩
    rintro b' hb'
    obtain rfl := Option.some.inj hb'
    have hsize := hbuf b hb
    have hclamp := b.clamp_le len
    simp only [Buf.advance]
    rw [wrap_of_lt (by omega), wsub_of_le hclamp (by omega)]
    omega
  | newRef => exact ⟨hbuf, hcounted, hallocated⟩
  | copyRef hi => exact ⟨hbuf, hcounted, hallocated⟩
  | swapRefs hi hj => exact ⟨hbuf, hcounted, hallocated⟩
  | clearRef hi => exact ⟨hbuf, hcounted, hallocated⟩
  | clearNull hi => exact hkeep
  | destroy hb hr => exact ⟨by simp, hcounted, hallocated⟩

theorem reachable_sized (h : system.Reachable Enough s) : Sized s := by
  refine h.invariant ?_ ?_
  · rintro s rfl
    exact ⟨by simp [start], by simp [start], by simp [start]⟩
  · intro s op s' _ hi hop hstep
    obtain ⟨⟨s₁, o⟩, hp, rfl⟩ := Option.map_eq_some_iff.mp hstep
    exact perform_sized hi hop hp

theorem grows_of_shape (h : Sized s) (hb : s.buf = some b) (hinit : init < 2 ^ 64) :
    ((∀ v ∈ sizes s.heap b len init, v < 2 ^ 64) ∧
      ∃ n, request s.heap b len init = some n ∧ sizeofCount + len ≤ n) ↔
      Reaches (seed s.heap b init) (need len) := by
  have h4 : sizeofCount = 4 := rfl
  rw [request_eq h hb hinit]
  refine grows_iff (sums s.heap b len) (seed_pos h hb) ?_ ?_ ?_
  · unfold sums seed need
    split_ifs with hres <;> simp only [List.mem_cons, List.not_mem_nil, or_false]
    · have := used_of_resizes hres
      omega
    · omega
  · unfold sums seed
    split_ifs
    · simp
    · exact .inl (by omega)
  · unfold sums need
    split_ifs with hres <;> simp only [List.mem_cons, List.not_mem_nil, or_false]
    · have := used_of_resizes hres
      omega
    · omega

theorem reserveRight_iff (h : Sized s) (hb : s.buf = some b)
    (hres : s.inReserve = some (.counted len init)) :
    ReserveRight s b len init ↔ (b.mFree < len → Reaches (seed s.heap b init) (need len)) := by
  have hinit := (h.counted len init hres).2
  constructor
  · rintro ⟨hexact, hrequest, -⟩ hlt
    exact (grows_of_shape h hb hinit).mp ⟨hexact hlt, hrequest hlt⟩
  · intro hreach
    refine ⟨fun hlt => ((grows_of_shape h hb hinit).mpr (hreach hlt)).1,
      fun hlt => ((grows_of_shape h hb hinit).mpr (hreach hlt)).2, ?_⟩
    intro mem s' o hp
    cases perform_cases hp with
    | reserveRoom hb₁ hres₁ hroom =>
      obtain rfl := Option.some.inj (hb.symm.trans hb₁)
      obtain ⟨rfl, rfl⟩ := Reserve.counted.inj (Option.some.inj (hres.symm.trans hres₁))
      exact .inr ⟨rfl, .inl ⟨rfl, b, hb, not_lt.mp hroom⟩⟩
    | reserveExpand hb₁ hres₁ hlt he =>
      obtain rfl := Option.some.inj (hb.symm.trans hb₁)
      obtain ⟨rfl, rfl⟩ := Reserve.counted.inj (Option.some.inj (hres.symm.trans hres₁))
      rcases expanded_sized h hb hinit (hreach hlt) he with
        ⟨rfl, -⟩ | ⟨rfl, ⟨hnone, b', hb', hroom, -⟩ | ⟨-, d, n, halloc, hn, hn64⟩⟩
      · exact .inl rfl
      · exact .inr ⟨rfl, .inl ⟨hnone, b', hb', hroom⟩⟩
      · refine .inr ⟨rfl, .inr ⟨d, n, halloc, ?_⟩⟩
        rw [wsub_of_le (by omega) (by omega)]
        omega

end SharedBuffer

namespace Wavy.Xfer

variable {x : Xfer} {reqsz : ℕ}

/-! ## `xfer` -/

/-- What `nsize` starts from. -/
def seed (x : Xfer) : ℕ := (x.tail + x.free) * 2 + 72

/-- The size that `reserve` asks for, unless its loop runs on. -/
def request (x : Xfer) (reqsz : ℕ) : Option ℕ :=
  doubleUntil (wrap (reqsz + x.tail)) 64 (wrap ((x.tail + x.free) * 2 + 72))

/-- The sums that `reserve` computes, before they wrap around. -/
def sums (x : Xfer) (reqsz : ℕ) : List ℕ :=
  [reqsz + x.tail, x.tail + x.free, (x.tail + x.free) * 2, (x.tail + x.free) * 2 + 72]

/-- All the sizes that `reserve` computes, before they wrap around. -/
def sizes (x : Xfer) (reqsz : ℕ) : List ℕ :=
  x.sums reqsz ++ doublings (wrap (reqsz + x.tail)) 64 (wrap x.seed)

/-- A call of `reserve(reqsz)` is right, whatever `realloc` answers. -/
structure ReserveRight (x : Xfer) (reqsz : ℕ) : Prop where
  exact : ∀ v ∈ x.sizes reqsz, v < 2 ^ 64
  request : ∃ n, x.request reqsz = some n ∧ x.tail + reqsz ≤ n
  result : ∀ junk, (x.reserve reqsz junk).2 = .badAlloc ∨
    (x.reserve reqsz junk).2 = .ok ∧ reqsz ≤ (x.reserve reqsz junk).1.free

/-- A call is right exactly when the doubling reaches what it needs. No property of the state is
needed here. -/
theorem reserveRight_iff (x : Xfer) (reqsz : ℕ) :
    ReserveRight x reqsz ↔ Reaches x.seed (reqsz + x.tail) := by
  have hgrows : ((∀ v ∈ x.sizes reqsz, v < 2 ^ 64) ∧
      ∃ n, x.request reqsz = some n ∧ reqsz + x.tail ≤ n) ↔ Reaches x.seed (reqsz + x.tail) := by
    refine grows_iff (x.sums reqsz) (by unfold seed; omega) ?_ (by simp [seed, sums]) (by simp [sums])
    simp only [List.mem_cons, List.not_mem_nil, or_false, seed, sums]
    omega
  constructor
  · rintro ⟨hexact, ⟨n, hn, hge⟩, -⟩
    exact hgrows.mp ⟨hexact, n, hn, by omega⟩
  · intro hreach
    obtain ⟨hexact, n, hn, hge⟩ := hgrows.mpr hreach
    refine ⟨hexact, ⟨n, hn, by omega⟩, ?_⟩
    intro junk
    unfold request at hn
    simp only [reserve, hn]
    cases junk with
    | none => exact .inl rfl
    | some junk =>
      dsimp only
      split_ifs with hlt
      · refine .inr ⟨rfl, ?_⟩
        dsimp only
        rw [wsub_of_le (by omega) (by omega)]
        omega
      · exact .inl rfl

end Wavy.Xfer

/-- In every run whose growths all found a doubling that reaches their need, whatever is asked for
next: a call of any of the three functions is right exactly when it finds one, too. -/
theorem growth_right_iff (len : ℕ) :
    (∀ (s : StreamBuffer.State) (b : StreamBuffer.Buf) (init : ℕ),
      StreamBuffer.system.Reachable StreamBuffer.Enough s → s.buf = some b →
      s.inReserve = some (len, init) →
      (StreamBuffer.ReserveRight s b len init ↔ (b.mFree < len →
        Reaches (StreamBuffer.seed s.heap b init) (StreamBuffer.need s.heap b len)))) ∧
    (∀ (s : SharedBuffer.State) (b : SharedBuffer.Buf) (init : ℕ),
      SharedBuffer.system.Reachable SharedBuffer.Enough s → s.buf = some b →
      s.inReserve = some (.counted len init) →
      (SharedBuffer.ReserveRight s b len init ↔ (b.mFree < len →
        Reaches (SharedBuffer.seed s.heap b init) (SharedBuffer.need len)))) ∧
    ∀ x : Wavy.Xfer, x.ReserveRight len ↔ Reaches x.seed (len + x.tail) :=
  ⟨fun _ _ _ h hb hres => StreamBuffer.reserveRight_iff (StreamBuffer.reachable_sized h) hb hres,
    fun _ _ _ h hb hres => SharedBuffer.reserveRight_iff (SharedBuffer.reachable_sized h) hb hres,
    fun x => Wavy.Xfer.reserveRight_iff x len⟩

theorem StreamBuffer.exists_asked (len : ℕ) (hlen : len < 2 ^ 64) :
    ∃ s, system.Reachable Enough s ∧ s.buf = some ⟨8, 4, 28, 4, []⟩ ∧
      s.inReserve = some (len, 32) ∧ resizes s.heap ⟨8, 4, 28, 4, []⟩ = true :=
  ⟨_, .step (.step (.init rfl) (show Enough _ (.construct 32 (some (8, fun _ => 0))) from
    (by decide : 32 < 2 ^ 64)) rfl)
    (show Enough _ (.reserveBegin len 32) from ⟨hlen, by decide⟩) rfl, rfl, rfl, rfl⟩

theorem growth_right_iff_thousand : ∃ s,
    StreamBuffer.system.Reachable StreamBuffer.Enough s ∧
      StreamBuffer.ReserveRight s ⟨8, 4, 28, 4, []⟩ 1000 32 := by
  obtain ⟨s, h, hb, hres, hin⟩ := StreamBuffer.exists_asked 1000 (by decide)
  refine ⟨s, h, ((growth_right_iff 1000).1 s _ _ h hb hres).mpr fun _ => ⟨4, ?_, ?_⟩⟩
  · simp [StreamBuffer.seed, StreamBuffer.need, StreamBuffer.inUse, hin]
  · simp [StreamBuffer.seed, hin]

/-- Asked for `2 ^ 63` bytes the doubling goes on for ever; asked for `2 ^ 64 - 1` the need wraps
around to 3 bytes, and the call returns with 60 of them free. -/
theorem growth_not_right :
    (∃ s, StreamBuffer.system.Reachable StreamBuffer.Enough s ∧
      StreamBuffer.request s.heap ⟨8, 4, 28, 4, []⟩ (2 ^ 63) 32 = none ∧
      ¬ StreamBuffer.ReserveRight s ⟨8, 4, 28, 4, []⟩ (2 ^ 63) 32) ∧
    ∃ s, StreamBuffer.system.Reachable StreamBuffer.Enough s ∧
      StreamBuffer.request s.heap ⟨8, 4, 28, 4, []⟩ (2 ^ 64 - 1) 32 = some 64 ∧
      ¬ StreamBuffer.ReserveRight s ⟨8, 4, 28, 4, []⟩ (2 ^ 64 - 1) 32 := by
  constructor
  · obtain ⟨s, h, -, -, hin⟩ := StreamBuffer.exists_asked (2 ^ 63) (by decide)
    have hnone : StreamBuffer.request s.heap ⟨8, 4, 28, 4, []⟩ (2 ^ 63) 32 = none := by
      rw [StreamBuffer.request, if_pos hin]
      decide
    refine ⟨s, h, hnone, fun hright => ?_⟩
    obtain ⟨n, hn, -⟩ := hright.request (by decide)
    rw [hnone] at hn
    cases hn
  · obtain ⟨s, h, -, -, hin⟩ := StreamBuffer.exists_asked (2 ^ 64 - 1) (by decide)
    have hsome : StreamBuffer.request s.heap ⟨8, 4, 28, 4, []⟩ (2 ^ 64 - 1) 32 = some 64 := by
      rw [StreamBuffer.request, if_pos hin]
      decide
    refine ⟨s, h, hsome, fun hright => ?_⟩
    obtain ⟨n, hn, hle⟩ := hright.request (by decide)
    obtain rfl := Option.some.inj (hsome.symm.trans hn)
    omega

end Mpio
