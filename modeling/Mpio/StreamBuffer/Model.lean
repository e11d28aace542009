import Mpio.Lib.Memory
import Mpio.Lib.RefCount
import Mpio.Lib.Run

/-!
# `mp::stream_buffer`

The buffer of `mp/stream_buffer.h` with the references taken from it. A chunk is one `malloc` block;
its first `sizeof(count_t)` bytes hold the counter, kept here beside the contents. Addresses, the
bytes found in fresh memory and the failure of any allocation are the environment's choice.

`reserve_buffer` is two steps: its own `get_count` read with the rewind, and the rest with the
`get_count` read of `expand_buffer`. Between them the references held elsewhere may be swapped and
released by other threads; the buffer's own operations wait.

The fields `kept`, `filled` and `consumed` are not part of the program: they record which bytes a
reference was filled with, and which bytes went in and out.
-/

namespace Mpio.StreamBuffer

open Lib Lib.Heap

/-- `sizeof(count_t)`. -/
def sizeofCount : ℕ := 4

/-- The answer of `malloc` or `realloc`: `NULL`, or an address and the bytes found there. -/
abbrev Alloc := Option (ℕ × (ℕ → UInt8))

/-- A `stream_buffer::ref` outside the buffer. `kept` lists what the last `retain_to` put into it:
each chunk with its bytes from offset `sizeof(count_t)` on. -/
structure Ref where
  mArray : List ℕ
  kept : List (ℕ × List UInt8)

/-- The members of a `stream_buffer`. -/
structure Buf where
  mBuffer : ℕ
  mUsed : ℕ
  mFree : ℕ
  mOff : ℕ
  mRef : List ℕ

/-- The heap, the buffer while it exists, and the references taken from it. `inReserve` is the
argument pair of a `reserve_buffer` call between its two counter reads. -/
structure State where
  heap : Heap (List UInt8)
  buf : Option Buf
  refs : List Ref
  inReserve : Option (ℕ × ℕ)
  filled : List UInt8
  consumed : List UInt8

/-- The bytes of a chunk; none when it is not live. -/
def bytesAt (h : Heap (List UInt8)) (d : ℕ) : List UInt8 := (dataAt h d).getD []

theorem bytesAt_update (h : Heap (List UInt8)) (d x : ℕ) (c : Cell (List UInt8)) :
    bytesAt (Function.update h d (some c)) x = if x = d then c.data else bytesAt h x := by
  by_cases hx : x = d
  · subst hx; simp [bytesAt, dataAt]
  · simp [bytesAt, dataAt, hx]

theorem bytesAt_of_cell {h : Heap (List UInt8)} {d : ℕ} {c : Cell (List UInt8)} (hc : h d = some c) :
    bytesAt h d = c.data := by
  simp [bytesAt, dataAt, hc]

theorem bytesAt_incrCount (h : Heap (List UInt8)) (d x : ℕ) :
    bytesAt (incrCount h d) x = bytesAt h x := by
  rw [bytesAt, dataAt_incrCount, bytesAt]

theorem bytesAt_decrCount {h : Heap (List UInt8)} {d x : ℕ} (hx : (decrCount h d x).isSome) :
    bytesAt (decrCount h d) x = bytesAt h x := by
  rw [bytesAt, dataAt_decrCount h hx, bytesAt]

/-- `data_size()`. -/
def Buf.dataSize (b : Buf) : ℕ := wsub b.mUsed b.mOff

/-- The guard of the rewind in `reserve_buffer`. -/
def rewinds (h : Heap (List UInt8)) (b : Buf) : Bool :=
  b.mUsed == b.mOff && getCount h b.mBuffer == 1

/-- The rewind. -/
def Buf.rewind (b : Buf) : Buf :=
  { b with mFree := wrap (b.mFree + wsub b.mUsed sizeofCount), mUsed := sizeofCount, mOff := sizeofCount }

/-- The guard of the branch of `expand_buffer` that resizes the current chunk in place. -/
def resizes (h : Heap (List UInt8)) (b : Buf) : Bool :=
  b.mOff == sizeofCount && getCount h b.mBuffer == 1

/-- `expand_buffer`. The last two arguments are the answer of its allocation and whether the
`push_back` of `m_ref.move` finds memory. -/
def expandBuffer (h : Heap (List UInt8)) (b : Buf) (len init : ℕ) (mem : Alloc) (vec : Bool) :
    Option (Heap (List UInt8) × Buf × Outcome) :=
  if resizes h b then
    match doubleUntil (wrap (len + b.mUsed)) 64 (wrap ((b.mUsed + b.mFree) * 2)) with
    | none => some (h, b, .diverges)
    | some nextSize =>
      match mem, h b.mBuffer with
      | none, _ => some (h, b, .badAlloc)
      | some _, none => none
      | some (d, junk), some c =>
        if d = b.mBuffer ∨ h d = none then
          some (Function.update (Function.update h b.mBuffer none) d
              (some ⟨resize c.data nextSize junk, c.count⟩),
            { b with mBuffer := d, mFree := wsub nextSize b.mUsed }, .ok)
        else none
  else
    let initsz := max init sizeofCount
    let notUsed := wsub b.mUsed b.mOff
    match doubleUntil (wrap (wrap (len + notUsed) + sizeofCount)) 64 initsz with
    | none => some (h, b, .diverges)
    | some nextSize =>
      match mem with
      | none => some (h, b, .badAlloc)
      | some (d, junk) =>
        if h d = none then
          if vec then
            let used := wrap (notUsed + sizeofCount)
            some (Function.update h d (some ⟨patch (fresh nextSize junk) sizeofCount
                (slice (bytesAt h b.mBuffer) b.mOff notUsed), 1⟩),
              { mBuffer := d, mUsed := used, mFree := wsub nextSize used, mOff := sizeofCount,
                mRef := b.mRef ++ [b.mBuffer] }, .ok)
          else some (h, b, .badAlloc)
        else none

/-- What `expand_buffer` can do, each outcome with the guards it passed. -/
inductive Expands (h : Heap (List UInt8)) (b : Buf) (len init : ℕ) :
    Heap (List UInt8) → Buf → Outcome → Prop
  | resizeLoops (hres : resizes h b = true)
      (hn : doubleUntil (wrap (len + b.mUsed)) 64 (wrap ((b.mUsed + b.mFree) * 2)) = none) :
    Expands h b len init h b .diverges
  | resizeFailed (hres : resizes h b = true) : Expands h b len init h b .badAlloc
  | resized {nextSize d : ℕ} {junk : ℕ → UInt8} {c : Cell (List UInt8)} (hres : resizes h b = true)
      (hn : doubleUntil (wrap (len + b.mUsed)) 64 (wrap ((b.mUsed + b.mFree) * 2)) = some nextSize)
      (hc : h b.mBuffer = some c) (hd : d = b.mBuffer ∨ h d = none) :
    Expands h b len init
      (Function.update (Function.update h b.mBuffer none) d (some ⟨resize c.data nextSize junk, c.count⟩))
      { b with mBuffer := d, mFree := wsub nextSize b.mUsed } .ok
  | moveLoops (hres : ¬ resizes h b = true)
      (hn : doubleUntil (wrap (wrap (len + wsub b.mUsed b.mOff) + sizeofCount)) 64 (max init sizeofCount) =
        none) :
    Expands h b len init h b .diverges
  | moveFailed (hres : ¬ resizes h b = true) : Expands h b len init h b .badAlloc
  | moved {nextSize d : ℕ} {junk : ℕ → UInt8} (hres : ¬ resizes h b = true)
      (hn : doubleUntil (wrap (wrap (len + wsub b.mUsed b.mOff) + sizeofCount)) 64 (max init sizeofCount) =
        some nextSize) (hd : h d = none) :
    Expands h b len init
      (Function.update h d (some ⟨patch (fresh nextSize junk) sizeofCount
        (slice (bytesAt h b.mBuffer) b.mOff (wsub b.mUsed b.mOff)), 1⟩))
      { mBuffer := d, mUsed := wrap (wsub b.mUsed b.mOff + sizeofCount)
        mFree := wsub nextSize (wrap (wsub b.mUsed b.mOff + sizeofCount)), mOff := sizeofCount
        mRef := b.mRef ++ [b.mBuffer] } .ok

theorem expandBuffer_expands {h h' : Heap (List UInt8)} {b b' : Buf} {len init : ℕ} {mem : Alloc}
    {vec : Bool} {o : Outcome} (he : expandBuffer h b len init mem vec = some (h', b', o)) :
    Expands h b len init h' b' o := by
  unfold expandBuffer at he
  by_cases hres : resizes h b = true
  · rw [if_pos hres] at he
    split at he
    · rename_i hn
      simp only [Option.some.injEq, Prod.mk.injEq] at he
      obtain ⟨rfl, rfl, rfl⟩ := he
      exact .resizeLoops hres hn
    · rename_i hn
      split at he
      · simp only [Option.some.injEq, Prod.mk.injEq] at he
        obtain ⟨rfl, rfl, rfl⟩ := he
        exact .resizeFailed hres
      · cases he
      · rename_i hc
        split_ifs at he with hd
        simp only [Option.some.injEq, Prod.mk.injEq] at he
        obtain ⟨rfl, rfl, rfl⟩ := he
        exact .resized hres hn hc hd
  · rw [if_neg hres] at he
    dsimp only at he
    split at he
    · rename_i hn
      simp only [Option.some.injEq, Prod.mk.injEq] at he
      obtain ⟨rfl, rfl, rfl⟩ := he
      exact .moveLoops hres hn
    · rename_i hn
      split at he
      · simp only [Option.some.injEq, Prod.mk.injEq] at he
        obtain ⟨rfl, rfl, rfl⟩ := he
        exact .moveFailed hres
      · split_ifs at he with hd
        · simp only [Option.some.injEq, Prod.mk.injEq] at he
          obtain ⟨rfl, rfl, rfl⟩ := he
          exact .moved hres hn hd
        · simp only [Option.some.injEq, Prod.mk.injEq] at he
          obtain ⟨rfl, rfl, rfl⟩ := he
          exact .moveFailed hres

/-- What a reference filled by `retain_to` is promised: the older chunks whole, the current one up to
`m_used`. -/
def keeps (h : Heap (List UInt8)) (b : Buf) : List (ℕ × List UInt8) :=
  b.mRef.map (fun d => (d, (bytesAt h d).drop sizeofCount)) ++
    [(b.mBuffer, slice (bytesAt h b.mBuffer) sizeofCount (b.mUsed - sizeofCount))]

/-- The operations. Allocation answers are arguments. -/
inductive Op
  | construct (init : ℕ) (mem : Alloc)
  | reserveBegin (len init : ℕ)
  | reserveEnd (mem : Alloc) (vec : Bool)
  | write (pos : ℕ) (bytes : List UInt8)
  | bufferFilled (len : ℕ)
  | dataConsumed (len : ℕ)
  | retainTo (i : ℕ) (vec : Bool)
  | newRef
  | swapRefs (i j : ℕ)
  | clearRef (i : ℕ)
  | destroy

/-- One operation; `none` when it may not be called here. -/
def perform (s : State) : Op → Option (State × Outcome)
  | .construct init mem =>
    match s.buf, mem with
    | some _, _ => none
    | none, none => some (s, .badAlloc)
    | none, some (d, junk) =>
      if s.heap d = none then
        let initsz := max init sizeofCount
        some ({ s with
          heap := Function.update s.heap d (some ⟨fresh initsz junk, 1⟩)
          buf := some { mBuffer := d, mUsed := sizeofCount, mFree := wsub initsz sizeofCount,
                        mOff := sizeofCount, mRef := [] }
          filled := []
          consumed := [] }, .ok)
      else none
  | .reserveBegin len init =>
    match s.buf, s.inReserve with
    | some b, none =>
      let b' := if rewinds s.heap b then b.rewind else b
      some ({ s with buf := some b', inReserve := some (len, init) }, .ok)
    | _, _ => none
  | .reserveEnd mem vec =>
    match s.buf, s.inReserve with
    | some b, some (len, init) =>
      if b.mFree < len then
        (expandBuffer s.heap b len init mem vec).map fun r =>
          ({ s with heap := r.1, buf := some r.2.1, inReserve := none }, r.2.2)
      else some ({ s with inReserve := none }, .ok)
    | _, _ => none
  | .write pos bytes =>
    match s.buf, s.inReserve with
    | some b, none =>
      if b.mUsed ≤ pos ∧ pos + bytes.length ≤ b.mUsed + b.mFree then
        (s.heap b.mBuffer).map fun c =>
          ({ s with heap := Function.update s.heap b.mBuffer
                      (some { c with data := patch c.data pos bytes }) }, .ok)
      else none
    | _, _ => none
  | .bufferFilled len =>
    match s.buf, s.inReserve with
    | some b, none =>
      if len ≤ b.mFree then
        some ({ s with
          buf := some { b with mUsed := wrap (b.mUsed + len), mFree := wsub b.mFree len }
          filled := s.filled ++ slice (bytesAt s.heap b.mBuffer) b.mUsed len }, .ok)
      else none
    | _, _ => none
  | .dataConsumed len =>
    match s.buf, s.inReserve with
    | some b, none =>
      if len ≤ b.dataSize then
        some ({ s with
          buf := some { b with mOff := wrap (b.mOff + len) }
          consumed := s.consumed ++ slice (bytesAt s.heap b.mBuffer) b.mOff len }, .ok)
      else none
    | _, _ => none
  | .retainTo i vec =>
    match s.buf, s.inReserve, s.refs[i]? with
    | some b, none, some r =>
      if vec then
        -- m_ref.push(m_buffer); to->swap(m_ref); m_ref.clear();
        some ({ s with
          heap := decrAll (incrCount s.heap b.mBuffer) r.mArray
          buf := some { b with mRef := [] }
          refs := s.refs.set i ⟨b.mRef ++ [b.mBuffer], keeps s.heap b⟩ }, .ok)
      else some (s, .badAlloc)
    | _, _, _ => none
  | .newRef => some ({ s with refs := s.refs ++ [⟨[], []⟩] }, .ok)
  | .swapRefs i j =>
    match s.refs[i]?, s.refs[j]? with
    | some ri, some rj => some ({ s with refs := (s.refs.set i rj).set j ri }, .ok)
    | _, _ => none
  | .clearRef i =>
    match s.refs[i]? with
    | some r => some ({ s with heap := decrAll s.heap r.mArray, refs := s.refs.set i ⟨[], []⟩ }, .ok)
    | none => none
  | .destroy =>
    match s.buf, s.inReserve with
    | some b, none =>
      some ({ s with heap := decrAll (decrCount s.heap b.mBuffer) b.mRef, buf := none }, .ok)
    | _, _ => none

/-- What an operation can do, each outcome with the guards it passed. -/
inductive Performed (s : State) : Op → State → Outcome → Prop
  | constructFailed {init : ℕ} (hbuf : s.buf = none) : Performed s (.construct init none) s .badAlloc
  | construct {init d : ℕ} {junk : ℕ → UInt8} (hbuf : s.buf = none) (hd : s.heap d = none) :
    Performed s (.construct init (some (d, junk)))
      { s with
        heap := Function.update s.heap d (some ⟨fresh (max init sizeofCount) junk, 1⟩)
        buf := some { mBuffer := d, mUsed := sizeofCount, mFree := wsub (max init sizeofCount) sizeofCount,
                      mOff := sizeofCount, mRef := [] }
        filled := []
        consumed := [] } .ok
  | reserveBegin {len init : ℕ} {b : Buf} (hbuf : s.buf = some b) (hres : s.inReserve = none) :
    Performed s (.reserveBegin len init)
      { s with buf := some (if rewinds s.heap b then b.rewind else b), inReserve := some (len, init) } .ok
  | reserveRoom {len init : ℕ} {mem : Alloc} {vec : Bool} {b : Buf} (hbuf : s.buf = some b)
      (hres : s.inReserve = some (len, init)) (hroom : ¬ b.mFree < len) :
    Performed s (.reserveEnd mem vec) { s with inReserve := none } .ok
  | reserveExpand {len init : ℕ} {mem : Alloc} {vec : Bool} {b b' : Buf} {h' : Heap (List UInt8)}
      {o : Outcome} (hbuf : s.buf = some b) (hres : s.inReserve = some (len, init)) (hlt : b.mFree < len)
      (he : expandBuffer s.heap b len init mem vec = some (h', b', o)) :
    Performed s (.reserveEnd mem vec) { s with heap := h', buf := some b', inReserve := none } o
  | write {pos : ℕ} {bytes : List UInt8} {b : Buf} {c : Cell (List UInt8)} (hbuf : s.buf = some b)
      (hres : s.inReserve = none) (hpos : b.mUsed ≤ pos ∧ pos + bytes.length ≤ b.mUsed + b.mFree)
      (hc : s.heap b.mBuffer = some c) :
    Performed s (.write pos bytes)
      { s with heap := Function.update s.heap b.mBuffer (some { c with data := patch c.data pos bytes }) } .ok
  | bufferFilled {len : ℕ} {b : Buf} (hbuf : s.buf = some b) (hres : s.inReserve = none)
      (hlen : len ≤ b.mFree) :
    Performed s (.bufferFilled len)
      { s with
        buf := some { b with mUsed := wrap (b.mUsed + len), mFree := wsub b.mFree len }
        filled := s.filled ++ slice (bytesAt s.heap b.mBuffer) b.mUsed len } .ok
  | dataConsumed {len : ℕ} {b : Buf} (hbuf : s.buf = some b) (hres : s.inReserve = none)
      (hlen : len ≤ b.dataSize) :
    Performed s (.dataConsumed len)
      { s with
        buf := some { b with mOff := wrap (b.mOff + len) }
        consumed := s.consumed ++ slice (bytesAt s.heap b.mBuffer) b.mOff len } .ok
  | retainFailed {i : ℕ} {b : Buf} {r : Ref} (hbuf : s.buf = some b) (hres : s.inReserve = none)
      (hr : s.refs[i]? = some r) : Performed s (.retainTo i false) s .badAlloc
  | retainTo {i : ℕ} {b : Buf} {r : Ref} (hbuf : s.buf = some b) (hres : s.inReserve = none)
      (hr : s.refs[i]? = some r) :
    Performed s (.retainTo i true)
      { s with
        heap := decrAll (incrCount s.heap b.mBuffer) r.mArray
        buf := some { b with mRef := [] }
        refs := s.refs.set i ⟨b.mRef ++ [b.mBuffer], keeps s.heap b⟩ } .ok
  | newRef : Performed s .newRef { s with refs := s.refs ++ [⟨[], []⟩] } .ok
  | swapRefs {i j : ℕ} {ri rj : Ref} (hi : s.refs[i]? = some ri) (hj : s.refs[j]? = some rj) :
    Performed s (.swapRefs i j) { s with refs := (s.refs.set i rj).set j ri } .ok
  | clearRef {i : ℕ} {r : Ref} (hi : s.refs[i]? = some r) :
    Performed s (.clearRef i) { s with heap := decrAll s.heap r.mArray, refs := s.refs.set i ⟨[], []⟩ } .ok
  | destroy {b : Buf} (hbuf : s.buf = some b) (hres : s.inReserve = none) :
    Performed s .destroy { s with heap := decrAll (decrCount s.heap b.mBuffer) b.mRef, buf := none } .ok

theorem perform_cases {s s' : State} {op : Op} {o : Outcome} (hp : perform s op = some (s', o)) :
    Performed s op s' o := by
  cases op with
  | construct init mem =>
    simp only [perform] at hp
    split at hp
    · cases hp
    · rename_i hbuf
      obtain ⟨rfl, rfl⟩ := Prod.mk.inj (Option.some.inj hp)
      exact .constructFailed hbuf
    · rename_i hbuf
      split_ifs at hp with hd
      obtain ⟨rfl, rfl⟩ := Prod.mk.inj (Option.some.inj hp)
      exact .construct hbuf hd
  | reserveBegin len init =>
    simp only [perform] at hp
    split at hp
    · rename_i hbuf hres
      obtain ⟨rfl, rfl⟩ := Prod.mk.inj (Option.some.inj hp)
      exact .reserveBegin hbuf hres
    · cases hp
  | reserveEnd mem vec =>
    simp only [perform] at hp
    split at hp
    · rename_i hbuf hres
      split_ifs at hp with hlt
      · obtain ⟨⟨h', b', o'⟩, he, heq⟩ := Option.map_eq_some_iff.mp hp
        obtain ⟨rfl, rfl⟩ := Prod.mk.inj heq
        exact .reserveExpand hbuf hres hlt he
      · obtain ⟨rfl, rfl⟩ := Prod.mk.inj (Option.some.inj hp)
        exact .reserveRoom hbuf hres hlt
    · cases hp
  | write pos bytes =>
    simp only [perform] at hp
    split at hp
    · rename_i hbuf hres
      split_ifs at hp with hpos
      obtain ⟨c, hc, heq⟩ := Option.map_eq_some_iff.mp hp
      obtain ⟨rfl, rfl⟩ := Prod.mk.inj heq
      exact .write hbuf hres hpos hc
    · cases hp
  | bufferFilled len =>
    simp only [perform] at hp
    split at hp
    · rename_i hbuf hres
      split_ifs at hp with hlen
      obtain ⟨rfl, rfl⟩ := Prod.mk.inj (Option.some.inj hp)
      exact .bufferFilled hbuf hres hlen
    · cases hp
  | dataConsumed len =>
    simp only [perform] at hp
    split at hp
    · rename_i hbuf hres
      split_ifs at hp with hlen
      obtain ⟨rfl, rfl⟩ := Prod.mk.inj (Option.some.inj hp)
      exact .dataConsumed hbuf hres hlen
    · cases hp
  | retainTo i vec =>
    simp only [perform] at hp
    split at hp
    · rename_i hbuf hres hr
      cases vec with
      | false =>
        obtain ⟨rfl, rfl⟩ := Prod.mk.inj (Option.some.inj hp)
        exact .retainFailed hbuf hres hr
      | true =>
        obtain ⟨rfl, rfl⟩ := Prod.mk.inj (Option.some.inj hp)
        exact .retainTo hbuf hres hr
    · cases hp
  | newRef =>
    obtain ⟨rfl, rfl⟩ := Prod.mk.inj (Option.some.inj hp)
    exact .newRef
  | swapRefs i j =>
    simp only [perform] at hp
    split at hp
    · rename_i hi hj
      obtain ⟨rfl, rfl⟩ := Prod.mk.inj (Option.some.inj hp)
      exact .swapRefs hi hj
    · cases hp
  | clearRef i =>
    simp only [perform] at hp
    split at hp
    · rename_i hi
      obtain ⟨rfl, rfl⟩ := Prod.mk.inj (Option.some.inj hp)
      exact .clearRef hi
    · cases hp
  | destroy =>
    simp only [perform] at hp
    split at hp
    · rename_i hbuf hres
      obtain ⟨rfl, rfl⟩ := Prod.mk.inj (Option.some.inj hp)
      exact .destroy hbuf hres
    · cases hp

/-- The owners inside the buffer: `m_buffer` and the entries of `m_ref`. -/
def bufOwners : Option Buf → Multiset ℕ
  | none => 0
  | some b => b.mBuffer ::ₘ (b.mRef : Multiset ℕ)

def refOwners (refs : List Ref) : Multiset ℕ := (refs.map fun r => (r.mArray : Multiset ℕ)).sum

/-- Every pointer that counts as an owner of a chunk. -/
def owners (s : State) : Multiset ℕ := bufOwners s.buf + refOwners s.refs

/-- Nothing is allocated and no buffer exists. -/
def start : State := ⟨fun _ => none, none, [], none, [], []⟩

def system : System State Op where
  init s := s = start
  step s op := (perform s op).map (·.1)

/-- A request and the current chunk together are below `2 ^ 62` bytes. -/
def SizesOk (s : State) : Op → Prop
  | .construct init _ => init < 2 ^ 62
  | .reserveBegin len init => ∀ b ∈ s.buf, len + init + (b.mUsed + b.mFree) < 2 ^ 62
  | _ => True

/-- No chunk gets `2 ^ 32` owners. -/
def OwnersOk (s : State) : Op → Prop
  | .retainTo _ _ => ∀ b ∈ s.buf, (owners s).count b.mBuffer + 1 < 2 ^ 32
  | _ => True

/-- The runs that stay within the sizes and the owner counts. -/
def Admissible (s : State) (op : Op) : Prop := SizesOk s op ∧ OwnersOk s op

instance (s : State) (op : Op) : Decidable (SizesOk s op) :=
  match op with
  | .construct init _ => inferInstanceAs (Decidable (init < 2 ^ 62))
  | .reserveBegin len init =>
    inferInstanceAs (Decidable (∀ b ∈ s.buf, len + init + (b.mUsed + b.mFree) < 2 ^ 62))
  | .reserveEnd .. | .write .. | .bufferFilled .. | .dataConsumed .. | .retainTo .. | .newRef
  | .swapRefs .. | .clearRef .. | .destroy => inferInstanceAs (Decidable True)

instance (s : State) (op : Op) : Decidable (OwnersOk s op) :=
  match op with
  | .retainTo _ _ =>
    inferInstanceAs (Decidable (∀ b ∈ s.buf, (owners s).count b.mBuffer + 1 < 2 ^ 32))
  | .construct .. | .reserveBegin .. | .reserveEnd .. | .write .. | .bufferFilled ..
  | .dataConsumed .. | .newRef | .swapRefs .. | .clearRef .. | .destroy =>
    inferInstanceAs (Decidable True)

instance (s : State) (op : Op) : Decidable (Admissible s op) :=
  inferInstanceAs (Decidable (_ ∧ _))

end Mpio.StreamBuffer
