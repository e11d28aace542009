import Mpio.StreamBuffer.Model

/-!
# `mp::shared_buffer`

The buffer of `mp/shared_buffer.h` with the references that `hold` returns. Chunks, addresses and the
answers of the allocator are as for `stream_buffer`, whose `count_t` this header repeats.

A `reserve_buffer` call is up to three steps, one for each access to the counter of the current chunk:
the `get_count` read with the rewind, the `get_count` read of `expand_buffer` with the allocation, and
`decr_count` on the chunk that is given up. Between them the references held elsewhere may be copied,
swapped and released by other threads; the buffer's own operations wait.

Not part of the program: `holds` lists the calls of `hold` so far with the bytes that were in the range
at that moment, and the field `hold` of a reference says which of them it comes from.
-/

namespace Mpio.SharedBuffer

open Lib Lib.Heap
open StreamBuffer (sizeofCount Alloc bytesAt)

/-- A call of `hold`. -/
structure Hold where
  chunk : ℕ
  off : ℕ
  bytes : List UInt8
  deriving DecidableEq

/-- A `shared_buffer::ref`; `NULL` is `none`. -/
structure Ref where
  m : Option ℕ
  hold : ℕ

/-- The members of a `shared_buffer`. -/
structure Buf where
  mBuffer : ℕ
  mUsed : ℕ
  mFree : ℕ
  deriving DecidableEq

/-- A `reserve_buffer` call under way: after its own `get_count` read, or in `expand_buffer` with the
new chunk `tmp` of `nextSize` bytes. -/
inductive Reserve
  | counted (len init : ℕ)
  | allocated (len tmp nextSize : ℕ)

/-- The argument of the call. -/
def Reserve.len : Reserve → ℕ
  | .counted len _ => len
  | .allocated len _ _ => len

structure State where
  heap : Heap (List UInt8)
  buf : Option Buf
  refs : List Ref
  inReserve : Option Reserve
  holds : List Hold

/-- The rewind of `reserve_buffer`. -/
def Buf.rewind (b : Buf) : Buf :=
  { b with mFree := wrap (b.mFree + wsub b.mUsed sizeofCount), mUsed := sizeofCount }

/-- `if(m_free < len) { len = m_free; }`. -/
def Buf.clamp (b : Buf) (len : ℕ) : ℕ := if b.mFree < len then b.mFree else len

theorem Buf.clamp_le (b : Buf) (len : ℕ) : b.clamp len ≤ b.mFree := by
  unfold Buf.clamp
  split_ifs <;> omega

/-- `m_used += len; m_free -= len;`. -/
def Buf.advance (b : Buf) (len : ℕ) : Buf :=
  { b with mUsed := wrap (b.mUsed + len), mFree := wsub b.mFree len }

/-- The guard of the branch of `expand_buffer` that resizes the current chunk in place. -/
def resizes (h : Heap (List UInt8)) (b : Buf) : Bool :=
  b.mUsed == sizeofCount && getCount h b.mBuffer == 1

/-- `expand_buffer`, up to `decr_count`; `mem` is the answer of its allocation. -/
def expandBuffer (s : State) (b : Buf) (len init : ℕ) (mem : Alloc) : Option (State × Outcome) :=
  if resizes s.heap b then
    match doubleUntil (wrap (len + b.mUsed)) 64 (wrap ((b.mUsed + b.mFree) * 2)) with
    | none => some (s, .diverges)
    | some nextSize =>
      match mem, s.heap b.mBuffer with
      | none, _ => some ({ s with inReserve := none }, .badAlloc)
      | some _, none => none
      | some (d, junk), some c =>
        if d = b.mBuffer ∨ s.heap d = none then
          some ({ s with
            heap := Function.update (Function.update s.heap b.mBuffer none) d
              (some ⟨resize c.data nextSize junk, c.count⟩)
            buf := some { b with mBuffer := d, mFree := wsub nextSize b.mUsed }
            inReserve := none }, .ok)
        else none
  else
    match doubleUntil (wrap (len + sizeofCount)) 64 (max init sizeofCount) with
    | none => some (s, .diverges)
    | some nextSize =>
      match mem with
      | none => some ({ s with inReserve := none }, .badAlloc)
      | some (d, junk) =>
        if s.heap d = none then
          some ({ s with
            heap := Function.update s.heap d (some ⟨fresh nextSize junk, 1⟩)
            inReserve := some (.allocated len d nextSize) }, .ok)
        else none

/-- What `expand_buffer` can do, each outcome with the guards it passed. -/
inductive Expands (s : State) (b : Buf) (len init : ℕ) : State → Outcome → Prop
  | resizeLoops (hres : resizes s.heap b = true)
      (hn : doubleUntil (wrap (len + b.mUsed)) 64 (wrap ((b.mUsed + b.mFree) * 2)) = none) :
    Expands s b len init s .diverges
  | resizeFailed (hres : resizes s.heap b = true) :
    Expands s b len init { s with inReserve := none } .badAlloc
  | resized {nextSize d : ℕ} {junk : ℕ → UInt8} {c : Cell (List UInt8)} (hres : resizes s.heap b = true)
      (hn : doubleUntil (wrap (len + b.mUsed)) 64 (wrap ((b.mUsed + b.mFree) * 2)) = some nextSize)
      (hc : s.heap b.mBuffer = some c) (hd : d = b.mBuffer ∨ s.heap d = none) :
    Expands s b len init
      { s with
        heap := Function.update (Function.update s.heap b.mBuffer none) d
          (some ⟨resize c.data nextSize junk, c.count⟩)
        buf := some { b with mBuffer := d, mFree := wsub nextSize b.mUsed }
        inReserve := none } .ok
  | allocLoops (hres : ¬ resizes s.heap b = true)
      (hn : doubleUntil (wrap (len + sizeofCount)) 64 (max init sizeofCount) = none) :
    Expands s b len init s .diverges
  | allocFailed (hres : ¬ resizes s.heap b = true) :
    Expands s b len init { s with inReserve := none } .badAlloc
  | allocated {nextSize d : ℕ} {junk : ℕ → UInt8} (hres : ¬ resizes s.heap b = true)
      (hn : doubleUntil (wrap (len + sizeofCount)) 64 (max init sizeofCount) = some nextSize)
      (hd : s.heap d = none) :
    Expands s b len init
      { s with
        heap := Function.update s.heap d (some ⟨fresh nextSize junk, 1⟩)
        inReserve := some (.allocated len d nextSize) } .ok

theorem expandBuffer_expands {s s' : State} {b : Buf} {len init : ℕ} {mem : Alloc} {o : Outcome}
    (he : expandBuffer s b len init mem = some (s', o)) : Expands s b len init s' o := by
  unfold expandBuffer at he
  by_cases hres : resizes s.heap b = true
  · rw [if_pos hres] at he
    split at he
    · rename_i hn
      obtain ⟨rfl, rfl⟩ := Prod.mk.inj (Option.some.inj he)
      exact .resizeLoops hres hn
    · rename_i hn
      split at he
      · obtain ⟨rfl, rfl⟩ := Prod.mk.inj (Option.some.inj he)
        exact .resizeFailed hres
      · cases he
      · rename_i hc
        split_ifs at he with hd
        obtain ⟨rfl, rfl⟩ := Prod.mk.inj (Option.some.inj he)
        exact .resized hres hn hc hd
  · rw [if_neg hres] at he
    split at he
    · rename_i hn
      obtain ⟨rfl, rfl⟩ := Prod.mk.inj (Option.some.inj he)
      exact .allocLoops hres hn
    · rename_i hn
      split at he
      · obtain ⟨rfl, rfl⟩ := Prod.mk.inj (Option.some.inj he)
        exact .allocFailed hres
      · split_ifs at he with hd
        obtain ⟨rfl, rfl⟩ := Prod.mk.inj (Option.some.inj he)
        exact .allocated hres hn hd

/-- The operations. Allocation answers are arguments. A reference that is destroyed is cleared and not
used again. -/
inductive Op
  | construct (init : ℕ) (mem : Alloc)
  | reserveBegin (len init : ℕ)
  | reserveExpand (mem : Alloc)
  | reserveEnd
  | write (pos : ℕ) (bytes : List UInt8)
  | hold (len : ℕ)
  | skip (len : ℕ)
  | newRef
  | copyRef (i : ℕ)
  | swapRefs (i j : ℕ)
  | clearRef (i : ℕ)
  | destroy

/-- One operation; `none` when it may not be called here. -/
def perform (s : State) : Op → Option (State × Outcome)
  | .construct init mem =>
    match s.buf, mem with
    | some _, _ => none
    | none, none => some (s, .badAlloc)
    | none, some (d, junk) =>
      if s.heap d = none then
        let initsz := max init sizeofCount
        some ({ s with
          heap := Function.update s.heap d (some ⟨fresh initsz junk, 1⟩)
          buf := some ⟨d, sizeofCount, wsub initsz sizeofCount⟩ }, .ok)
      else none
  | .reserveBegin len init =>
    match s.buf, s.inReserve with
    | some b, none =>
      let b' := if getCount s.heap b.mBuffer = 1 then b.rewind else b
      some ({ s with buf := some b', inReserve := some (.counted len init) }, .ok)
    | _, _ => none
  | .reserveExpand mem =>
    match s.buf, s.inReserve with
    | some b, some (.counted len init) =>
      if b.mFree < len then expandBuffer s b len init mem
      else some ({ s with inReserve := none }, .ok)
    | _, _ => none
  | .reserveEnd =>
    match s.buf, s.inReserve with
    | some b, some (.allocated _ d nextSize) =>
      some ({ s with
        heap := decrCount s.heap b.mBuffer
        buf := some ⟨d, sizeofCount, wsub nextSize sizeofCount⟩
        inReserve := none }, .ok)
    | _, _ => none
  | .write pos bytes =>
    match s.buf, s.inReserve with
    | some b, none =>
      if b.mUsed ≤ pos ∧ pos + bytes.length ≤ b.mUsed + b.mFree then
        (s.heap b.mBuffer).map fun c =>
          ({ s with heap := Function.update s.heap b.mBuffer
                      (some { c with data := patch c.data pos bytes }) }, .ok)
      else none
    | _, _ => none
  | .hold len =>
    match s.buf, s.inReserve with
    | some b, none =>
      let len := b.clamp len
      some ({ s with
        heap := incrCount s.heap b.mBuffer
        buf := some (b.advance len)
        refs := s.refs ++ [⟨some b.mBuffer, s.holds.length⟩]
        holds := s.holds ++ [⟨b.mBuffer, b.mUsed, slice (bytesAt s.heap b.mBuffer) b.mUsed len⟩] }, .ok)
    | _, _ => none
  | .skip len =>
    match s.buf, s.inReserve with
    | some b, none => some ({ s with buf := some (b.advance (b.clamp len)) }, .ok)
    | _, _ => none
  | .newRef => some ({ s with refs := s.refs ++ [⟨none, 0⟩] }, .ok)
  | .copyRef i =>
    match s.refs[i]? with
    | some ⟨some d, k⟩ =>
      some ({ s with heap := incrCount s.heap d, refs := s.refs ++ [⟨some d, k⟩] }, .ok)
    | _ => none
  | .swapRefs i j =>
    match s.refs[i]?, s.refs[j]? with
    | some ri, some rj => some ({ s with refs := (s.refs.set i rj).set j ri }, .ok)
    | _, _ => none
  | .clearRef i =>
    match s.refs[i]? with
    | some ⟨some d, k⟩ =>
      some ({ s with heap := decrCount s.heap d, refs := s.refs.set i ⟨none, k⟩ }, .ok)
    | some ⟨none, _⟩ => some (s, .ok)
    | none => none
  | .destroy =>
    match s.buf, s.inReserve with
    | some b, none => some ({ s with heap := decrCount s.heap b.mBuffer, buf := none }, .ok)
    | _, _ => none

/-- What an operation can do, each outcome with the guards it passed. -/
inductive Performed (s : State) : Op → State → Outcome → Prop
  | constructFailed {init : ℕ} (hbuf : s.buf = none) : Performed s (.construct init none) s .badAlloc
  | construct {init d : ℕ} {junk : ℕ → UInt8} (hbuf : s.buf = none) (hd : s.heap d = none) :
    Performed s (.construct init (some (d, junk)))
      { s with
        heap := Function.update s.heap d (some ⟨fresh (max init sizeofCount) junk, 1⟩)
        buf := some ⟨d, sizeofCount, wsub (max init sizeofCount) sizeofCount⟩ } .ok
  | reserveBegin {len init : ℕ} {b : Buf} (hbuf : s.buf = some b) (hres : s.inReserve = none) :
    Performed s (.reserveBegin len init)
      { s with
        buf := some (if getCount s.heap b.mBuffer = 1 then b.rewind else b)
        inReserve := some (.counted len init) } .ok
  | reserveRoom {len init : ℕ} {mem : Alloc} {b : Buf} (hbuf : s.buf = some b)
      (hres : s.inReserve = some (.counted len init)) (hroom : ¬ b.mFree < len) :
    Performed s (.reserveExpand mem) { s with inReserve := none } .ok
  | reserveExpand {len init : ℕ} {mem : Alloc} {b : Buf} {s' : State} {o : Outcome}
      (hbuf : s.buf = some b) (hres : s.inReserve = some (.counted len init)) (hlt : b.mFree < len)
      (he : expandBuffer s b len init mem = some (s', o)) : Performed s (.reserveExpand mem) s' o
  | reserveEnd {len d nextSize : ℕ} {b : Buf} (hbuf : s.buf = some b)
      (hres : s.inReserve = some (.allocated len d nextSize)) :
    Performed s .reserveEnd
      { s with
        heap := decrCount s.heap b.mBuffer
        buf := some ⟨d, sizeofCount, wsub nextSize sizeofCount⟩
        inReserve := none } .ok
  | write {pos : ℕ} {bytes : List UInt8} {b : Buf} {c : Cell (List UInt8)} (hbuf : s.buf = some b)
      (hres : s.inReserve = none) (hpos : b.mUsed ≤ pos ∧ pos + bytes.length ≤ b.mUsed + b.mFree)
      (hc : s.heap b.mBuffer = some c) :
    Performed s (.write pos bytes)
      { s with heap := Function.update s.heap b.mBuffer (some { c with data := patch c.data pos bytes }) } .ok
  | hold {len : ℕ} {b : Buf} (hbuf : s.buf = some b) (hres : s.inReserve = none) :
    Performed s (.hold len)
      { s with
        heap := incrCount s.heap b.mBuffer
        buf := some (b.advance (b.clamp len))
        refs := s.refs ++ [⟨some b.mBuffer, s.holds.length⟩]
        holds := s.holds ++
          [⟨b.mBuffer, b.mUsed, slice (bytesAt s.heap b.mBuffer) b.mUsed (b.clamp len)⟩] } .ok
  | skip {len : ℕ} {b : Buf} (hbuf : s.buf = some b) (hres : s.inReserve = none) :
    Performed s (.skip len) { s with buf := some (b.advance (b.clamp len)) } .ok
  | newRef : Performed s .newRef { s with refs := s.refs ++ [⟨none, 0⟩] } .ok
  | copyRef {i d k : ℕ} (hi : s.refs[i]? = some ⟨some d, k⟩) :
    Performed s (.copyRef i) { s with heap := incrCount s.heap d, refs := s.refs ++ [⟨some d, k⟩] } .ok
  | swapRefs {i j : ℕ} {ri rj : Ref} (hi : s.refs[i]? = some ri) (hj : s.refs[j]? = some rj) :
    Performed s (.swapRefs i j) { s with refs := (s.refs.set i rj).set j ri } .ok
  | clearRef {i d k : ℕ} (hi : s.refs[i]? = some ⟨some d, k⟩) :
    Performed s (.clearRef i) { s with heap := decrCount s.heap d, refs := s.refs.set i ⟨none, k⟩ } .ok
  | clearNull {i k : ℕ} (hi : s.refs[i]? = some ⟨none, k⟩) : Performed s (.clearRef i) s .ok
  | destroy {b : Buf} (hbuf : s.buf = some b) (hres : s.inReserve = none) :
    Performed s .destroy { s with heap := decrCount s.heap b.mBuffer, buf := none } .ok

theorem perform_cases {s s' : State} {op : Op} {o : Outcome} (hp : perform s op = some (s', o)) :
    Performed s op s' o := by
  cases op with
  | construct init mem =>
    simp only [perform] at hp
    split at hp
    · cases hp
    · rename_i hbuf
      obtain ⟨rfl, rfl⟩ := Prod.mk.inj (Option.some.inj hp)
      exact .constructFailed hbuf
    · rename_i hbuf
      split_ifs at hp with hd
      obtain ⟨rfl, rfl⟩ := Prod.mk.inj (Option.some.inj hp)
      exact .construct hbuf hd
  | reserveBegin len init =>
    simp only [perform] at hp
    split at hp
    · rename_i hbuf hres
      obtain ⟨rfl, rfl⟩ := Prod.mk.inj (Option.some.inj hp)
      exact .reserveBegin hbuf hres
    · cases hp
  | reserveExpand mem =>
    simp only [perform] at hp
    split at hp
    · rename_i hbuf hres
      split_ifs at hp with hlt
      · exact .reserveExpand hbuf hres hlt hp
      · obtain ⟨rfl, rfl⟩ := Prod.mk.inj (Option.some.inj hp)
        exact .reserveRoom hbuf hres hlt
    · cases hp
  | reserveEnd =>
    simp only [perform] at hp
    split at hp
    · rename_i hbuf hres
      obtain ⟨rfl, rfl⟩ := Prod.mk.inj (Option.some.inj hp)
      exact .reserveEnd hbuf hres
    · cases hp
  | write pos bytes =>
    simp only [perform] at hp
    split at hp
    · rename_i hbuf hres
      split_ifs at hp with hpos
      obtain ⟨c, hc, heq⟩ := Option.map_eq_some_iff.mp hp
      obtain ⟨rfl, rfl⟩ := Prod.mk.inj heq
      exact .write hbuf hres hpos hc
    · cases hp
  | hold len =>
    simp only [perform] at hp
    split at hp
    · rename_i hbuf hres
      obtain ⟨rfl, rfl⟩ := Prod.mk.inj (Option.some.inj hp)
      exact .hold hbuf hres
    · cases hp
  | skip len =>
    simp only [perform] at hp
    split at hp
    · rename_i hbuf hres
      obtain ⟨rfl, rfl⟩ := Prod.mk.inj (Option.some.inj hp)
      exact .skip hbuf hres
    · cases hp
  | newRef =>
    obtain ⟨rfl, rfl⟩ := Prod.mk.inj (Option.some.inj hp)
    exact .newRef
  | copyRef i =>
    simp only [perform] at hp
    split at hp
    · rename_i hi
      obtain ⟨rfl, rfl⟩ := Prod.mk.inj (Option.some.inj hp)
      exact .copyRef hi
    · cases hp
  | swapRefs i j =>
    simp only [perform] at hp
    split at hp
    · rename_i hi hj
      obtain ⟨rfl, rfl⟩ := Prod.mk.inj (Option.some.inj hp)
      exact .swapRefs hi hj
    · cases hp
  | clearRef i =>
    simp only [perform] at hp
    split at hp
    · rename_i hi
      obtain ⟨rfl, rfl⟩ := Prod.mk.inj (Option.some.inj hp)
      exact .clearRef hi
    · rename_i hi
      obtain ⟨rfl, rfl⟩ := Prod.mk.inj (Option.some.inj hp)
      exact .clearNull hi
    · cases hp
  | destroy =>
    simp only [perform] at hp
    split at hp
    · rename_i hbuf hres
      obtain ⟨rfl, rfl⟩ := Prod.mk.inj (Option.some.inj hp)
      exact .destroy hbuf hres
    · cases hp

/-- The owners inside the buffer: `m_buffer`, and `tmp` while a `reserve_buffer` call has it. -/
def bufOwners : Option Buf → Option Reserve → Multiset ℕ
  | some b, some (.allocated _ d _) => {b.mBuffer, d}
  | some b, _ => {b.mBuffer}
  | none, _ => 0

def refOwners (refs : List Ref) : Multiset ℕ := (refs.map fun r => (r.m.toList : Multiset ℕ)).sum

/-- Every pointer that counts as an owner of a chunk. -/
def owners (s : State) : Multiset ℕ := bufOwners s.buf s.inReserve + refOwners s.refs

/-- Nothing is allocated and no buffer exists. -/
def start : State := ⟨fun _ => none, none, [], none, []⟩

def system : System State Op where
  init s := s = start
  step s op := (perform s op).map (·.1)

/-- `init_size` of the constructor is a `size_t`; a request and the current chunk together are below
`2 ^ 62` bytes. -/
def SizesOk (s : State) : Op → Prop
  | .construct init _ => init < 2 ^ 64
  | .reserveBegin len init => ∀ b ∈ s.buf, len + init + (b.mUsed + b.mFree) < 2 ^ 62
  | _ => True

/-- No chunk gets `2 ^ 32` owners. -/
def OwnersOk (s : State) : Op → Prop
  | .hold _ => ∀ b ∈ s.buf, (owners s).count b.mBuffer + 1 < 2 ^ 32
  | .copyRef i => ∀ r ∈ s.refs[i]?, ∀ d ∈ r.m, (owners s).count d + 1 < 2 ^ 32
  | _ => True

/-- The runs that stay within the sizes and the owner counts. -/
def Admissible (s : State) (op : Op) : Prop := SizesOk s op ∧ OwnersOk s op

instance (s : State) (op : Op) : Decidable (SizesOk s op) :=
  match op with
  | .construct init _ => inferInstanceAs (Decidable (init < 2 ^ 64))
  | .reserveBegin len init =>
    inferInstanceAs (Decidable (∀ b ∈ s.buf, len + init + (b.mUsed + b.mFree) < 2 ^ 62))
  | .reserveExpand .. | .reserveEnd | .write .. | .hold .. | .skip .. | .newRef | .copyRef ..
  | .swapRefs .. | .clearRef .. | .destroy => inferInstanceAs (Decidable True)

instance (s : State) (op : Op) : Decidable (OwnersOk s op) :=
  match op with
  | .hold _ => inferInstanceAs (Decidable (∀ b ∈ s.buf, (owners s).count b.mBuffer + 1 < 2 ^ 32))
  | .copyRef i =>
    inferInstanceAs (Decidable (∀ r ∈ s.refs[i]?, ∀ d ∈ r.m, (owners s).count d + 1 < 2 ^ 32))
  | .construct .. | .reserveBegin .. | .reserveExpand .. | .reserveEnd | .write .. | .skip ..
  | .newRef | .swapRefs .. | .clearRef .. | .destroy => inferInstanceAs (Decidable True)

instance (s : State) (op : Op) : Decidable (Admissible s op) :=
  inferInstanceAs (Decidable (_ ∧ _))

end Mpio.SharedBuffer
