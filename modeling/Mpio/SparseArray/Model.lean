import Mpio.Lib.Memory
import Mathlib.Logic.Function.Basic

/-!
# `mp::sparse_array`

The array of `mp/sparse_array.hmpl`: a vector of chunks of `EXTEND_ARRAY_SIZE` items, each an
`enable` flag before the raw bytes of an element. Chunks come from `calloc` and stay where they are;
only the vector of their addresses grows. Addresses, failures of `calloc` and of the vector's growth,
and what an element's constructor does are the environment's choice; a call whose answers do not fit
(a block over another one, too few answers) is not a call that happens, and has no result.

Raw bytes are modelled by the object living in them. Objects are numbered in the order of their
construction, and `destroyed` lists the numbers of those whose destructor ran; both are records of
the model. Two accesses are undefined in the program and end a call with an outcome of their own:
`item_of` past the chunks that exist, and a destructor run where no object lives.
-/

namespace Mpio.SparseArray

open Lib

/-- `EXTEND_ARRAY_SIZE`. -/
def extendArraySize : ℕ := 64

/-- An `item_t`: its flag, and the object in the bytes of `data`, if one lives there. -/
structure Item (T : Type*) where
  enable : Bool
  data : Option (ℕ × T)

/-- What `calloc` leaves in every item of a chunk. -/
def Item.zero {T : Type*} : Item T := ⟨false, none⟩

/-- An item's place: the address of its chunk and its position there. -/
abbrev Place := ℕ × ℕ

/-- The vector of chunks, the blocks that `calloc` gave and nobody freed, and their items. -/
structure State (T : Type*) where
  baseArray : List ℕ
  live : List ℕ
  mem : ℕ → ℕ → Item T
  built : ℕ
  destroyed : List ℕ

/-- The answers of one `extend_array`: of `calloc`, and whether `push_back` finds memory. -/
structure Growth where
  calloc : Option ℕ
  pushBack : Bool
  deriving DecidableEq

/-- How a call ends: with a pointer or reference, with a flag, with an exception, in an `item_of`
past the chunks that exist, or in a destructor run where no object lives. -/
inductive Outcome
  | returns (p : Option Place)
  | answers (b : Bool)
  | throws
  | outOfRange
  | noObject
  deriving DecidableEq

/-- The call stayed within the language. -/
def Outcome.isDefined : Outcome → Bool
  | .outOfRange | .noObject => false
  | _ => true

variable {T : Type*}

namespace State

def item (s : State T) (p : Place) : Item T := s.mem p.1 p.2

def setItem (s : State T) (p : Place) (x : Item T) : State T :=
  { s with mem := Function.update s.mem p.1 (Function.update (s.mem p.1) p.2 x) }

/-- `item.enable = e`. -/
def setEnable (s : State T) (p : Place) (e : Bool) : State T := s.setItem p { s.item p with enable := e }

/-- `reinterpret_cast<T*>(item.data)->~T()`. -/
def destroyAt (s : State T) (p : Place) : Option (State T) :=
  (s.item p).data.map fun x =>
    { s.setItem p { s.item p with data := none } with destroyed := s.destroyed ++ [x.1] }

/-- `new (item.data) T(...)` whose constructor returns: the bytes now hold the new object. -/
def construct (s : State T) (p : Place) (v : T) : State T :=
  { s.setItem p { s.item p with data := some (s.built, v) } with built := s.built + 1 }

end State

/-! ## The private members -/

/-- The bytes of one chunk, for elements of `size` bytes. -/
def chunkBytes (size : ℕ) : ℕ := extendArraySize * (1 + size)

/-- Where `calloc` may put a chunk: not at `NULL`, within the address space, over no live block. -/
def Fits (size : ℕ) (live : List ℕ) (a : ℕ) : Prop :=
  0 < a ∧ a + chunkBytes size ≤ 2 ^ 64 ∧
    ∀ b ∈ live, a + chunkBytes size ≤ b ∨ b + chunkBytes size ≤ a

instance (size : ℕ) (live : List ℕ) (a : ℕ) : Decidable (Fits size live a) :=
  inferInstanceAs (Decidable (_ ∧ _ ∧ _))

/-- `extend_array`; the flag says whether it returned. A block whose `push_back` throws stays live. -/
def extendArray (size : ℕ) (s : State T) (g : Growth) : Option (State T × Bool) :=
  match g.calloc with
  | none => some (s, false)
  | some a =>
    if Fits size s.live a then
      let s := { s with live := a :: s.live, mem := Function.update s.mem a fun _ => Item.zero }
      if g.pushBack then some ({ s with baseArray := s.baseArray ++ [a] }, true) else some (s, false)
    else none

/-- `item_of`: the place of an index, when its chunk exists. -/
def itemOf (s : State T) (index : ℕ) : Option Place :=
  s.baseArray[index / extendArraySize]?.map (·, index % extendArraySize)

/-- The loop of `set_impl`, each round with its own answers; the flag says whether it came to its
end. -/
def extendTo (size : ℕ) (index : ℕ) : State T → List Growth → Option (State T × Bool)
  | s, [] => if s.baseArray.length ≤ index / extendArraySize then none else some (s, true)
  | s, g :: gs =>
    if s.baseArray.length ≤ index / extendArraySize then
      match extendArray size s g with
      | none => none
      | some (s', false) => some (s', false)
      | some (s', true) => extendTo size index s' gs
    else some (s, true)

/-- `set_impl`. -/
def setImpl (size : ℕ) (s : State T) (index : ℕ) (gs : List Growth) : Option (State T × Outcome) :=
  match extendTo size index s gs with
  | none => none
  | some (s, false) => some (s, .throws)
  | some (s, true) =>
    match itemOf s index with
    | none => some (s, .outOfRange)
    | some p =>
      if (s.item p).enable then
        match s.destroyAt p with
        | none => some (s, .noObject)
        | some s' => some (s', .returns (some p))
      else some (s.setEnable p true, .returns (some p))

/-- `revert`, and the exception goes on. -/
def revert (s : State T) (index : ℕ) : State T × Outcome :=
  match itemOf s index with
  | none => (s, .outOfRange)
  | some p => (s.setEnable p false, .throws)

/-! ## The public members -/

/-- `capacity()`, in `size_t`. -/
def capacity (s : State T) : ℕ := wrap (s.baseArray.length * extendArraySize)

/-- `sparse_array()`. -/
def construct (size : ℕ) (g : Growth) : Option (State T × Bool) :=
  extendArray size ⟨[], [], fun _ _ => Item.zero, 0, []⟩ g

/-- `set(index, ...)`: `ctor` is the value the element's constructor builds, or that it throws. The
`catch` block serves both `set_impl` and the constructor. -/
def set (size : ℕ) (s : State T) (index : ℕ) (gs : List Growth) (ctor : Option T) :
    Option (State T × Outcome) :=
  match setImpl size s index gs with
  | none => none
  | some (s, .returns (some p)) =>
    match ctor with
    | some v => some (s.construct p v, .returns (some p))
    | none => some (revert s index)
  | some (s, .throws) => some (revert s index)
  | some (s, o) => some (s, o)

/-- `reset(index)`. -/
def reset (s : State T) (index : ℕ) : State T × Outcome :=
  match itemOf s index with
  | none => (s, .outOfRange)
  | some p =>
    match (s.setEnable p false).destroyAt p with
    | none => (s, .noObject)
    | some s' => (s', .returns none)

/-- `data(index)`. -/
def data (s : State T) (index : ℕ) : Option Place := itemOf s index

/-- `get(index)`. -/
def get (s : State T) (index : ℕ) : Option Place :=
  if index < capacity s then (itemOf s index).filter fun p => (s.item p).enable else none

/-- `test(index)`. -/
def test (s : State T) (index : ℕ) : Bool :=
  decide (index < capacity s) && (itemOf s index).any fun p => (s.item p).enable

/-- One chunk in the destructor: its enabled elements are destroyed in order. -/
def destroyChunk (s : State T) (a : ℕ) : Option (State T) :=
  (List.range extendArraySize).foldlM
    (fun s k => if (s.mem a k).enable then s.destroyAt (a, k) else some s) s

/-- `~sparse_array()`. -/
def destruct (s : State T) : Option (State T) :=
  s.baseArray.foldlM
    (fun s a => (destroyChunk s a).map fun s => { s with live := s.live.erase a }) s

/-! ## Sequences of calls -/

inductive Op (T : Type*)
  | set (index : ℕ) (gs : List Growth) (ctor : Option T)
  | reset (index : ℕ)
  | get (index : ℕ)
  | test (index : ℕ)
  | data (index : ℕ)

def perform (size : ℕ) (s : State T) : Op T → Option (State T × Outcome)
  | .set index gs ctor => set size s index gs ctor
  | .reset index => some (reset s index)
  | .get index => some (s, .returns (get s index))
  | .test index => some (s, .answers (test s index))
  | .data index => some (s, (data s index).elim .outOfRange fun p => .returns (some p))

/-- What the caller owes: `reset` only where `test` is true, `data` only where a chunk is. -/
def Legal (s : State T) : Op T → Prop
  | .reset index => test s index = true
  | .data index => (itemOf s index).isSome
  | _ => True

/-- No allocation of the call fails. -/
def Op.AllocOk : Op T → Prop
  | .set _ gs _ => ∀ g ∈ gs, g.calloc.isSome ∧ g.pushBack = true
  | _ => True

/-- Calls from `s` to `s'`, each meeting `P` and what the caller owes, none of them undefined. -/
inductive Steps (size : ℕ) (P : Op T → Prop) (s : State T) : List (Op T) → State T → Prop
  | nil : Steps size P s [] s
  | snoc {ops : List (Op T)} {t t' : State T} {o : Outcome} (op : Op T) : Steps size P s ops t →
      Legal t op → P op → perform size t op = some (t', o) → o.isDefined = true →
      Steps size P s (ops ++ [op]) t'

/-- Calls on an array from its constructor on. -/
def Run (size : ℕ) (P : Op T → Prop) (ops : List (Op T)) (s : State T) : Prop :=
  ∃ g s₀, construct size g = some (s₀, true) ∧ Steps size P s₀ ops s

/-! ## The map the array stands for -/

/-- The call changes what `index` refers to. -/
def Op.touches (index : ℕ) : Op T → Bool
  | .set i _ _ => i == index
  | .reset i => i == index
  | _ => false

/-- What the call leaves at the index it touches. -/
def Op.value : Op T → Option T
  | .set _ _ ctor => ctor
  | _ => none

/-- The value of the most recent `set` or `reset` of `index`: what a `set` built, nothing after a
`reset` or a throwing constructor. -/
def lastValue (ops : List (Op T)) (index : ℕ) : Option T :=
  (ops.reverse.find? (Op.touches index)).bind Op.value

/-- The object `index` refers to, with its number. -/
def look (s : State T) (index : ℕ) : Option (ℕ × T) := (get s index).bind fun p => (s.item p).data

end Mpio.SparseArray
