import Mathlib.Data.Multiset.Count
import Mathlib.Algebra.BigOperators.Group.Multiset.Basic

/-!
# Heaps of reference-counted cells

A heap maps addresses to live cells, each with a 32-bit counter. `Counts h m` ties it to the multiset
`m` of its owners, one entry for each pointer that counts: the live cells are exactly the owned ones,
and every counter is the number of its owners. Each counter operation has one rule:

* `Counts.incr`, `Counts.decr`, `Counts.decrAll`: an owner is added or released; a cell dies with its
  last owner;
* `Counts.alloc`, `Counts.realloc`: a new cell with one owner, and a cell with one owner that moves;
* `Counts.setData`: the contents of a cell change.

`dataAt_decrAll` is the frame rule of releases: what still has an owner keeps its contents.

`Access` lists the counter operations that a piece of code makes; they are `Sound` when each one finds
a live cell. Reading, taking and releasing the pointers that are counted is sound.
-/

namespace Mpio.Lib

/-- A live cell: contents and counter. -/
structure Cell (δ : Type*) where
  data : δ
  count : ℕ

/-- The live cells. -/
abbrev Heap (δ : Type*) := ℕ → Option (Cell δ)

namespace Heap

variable {δ : Type*}

/-- `*(count_t*)d`. -/
def getCount (h : Heap δ) (d : ℕ) : ℕ := ((h d).map (·.count)).getD 0

/-- `__sync_add_and_fetch(d, 1)`. -/
def incrCount (h : Heap δ) (d : ℕ) : Heap δ :=
  match h d with
  | none => h
  | some c => Function.update h d (some { c with count := (c.count + 1) % 2 ^ 32 })

/-- `if(__sync_sub_and_fetch(d, 1) == 0) { free(d); }`. -/
def decrCount (h : Heap δ) (d : ℕ) : Heap δ :=
  match h d with
  | none => h
  | some c =>
    let n := (c.count + 2 ^ 32 - 1) % 2 ^ 32
    if n = 0 then Function.update h d none
    else Function.update h d (some { c with count := n })

/-- `decrCount` on every pointer of an array. -/
def decrAll (h : Heap δ) (ds : List ℕ) : Heap δ := ds.foldl decrCount h

/-- The contents of a live cell. -/
def dataAt (h : Heap δ) (d : ℕ) : Option δ := (h d).map (·.data)

/-- `m` is the multiset of owners of the cells of `h`. -/
structure Counts (h : Heap δ) (m : Multiset ℕ) : Prop where
  bound : ∀ d, m.count d < 2 ^ 32
  live : ∀ d ∈ m, (h d).isSome
  count : ∀ d c, h d = some c → c.count = m.count d ∧ d ∈ m

variable {h : Heap δ} {m : Multiset ℕ} {d : ℕ}

theorem Counts.getCount_eq (hc : Counts h m) (hd : d ∈ m) : getCount h d = m.count d := by
  obtain ⟨c, hcell⟩ := Option.isSome_iff_exists.mp (hc.live d hd)
  simp [getCount, hcell, (hc.count d c hcell).1]

theorem Counts.isSome_iff (hc : Counts h m) (d : ℕ) : (h d).isSome ↔ d ∈ m := by
  constructor
  · intro hlive
    obtain ⟨c, hcell⟩ := Option.isSome_iff_exists.mp hlive
    exact (hc.count d c hcell).2
  · exact hc.live d

theorem Counts.incr (hc : Counts h m) (hd : d ∈ m) (hlt : m.count d + 1 < 2 ^ 32) :
    Counts (incrCount h d) (d ::ₘ m) := by
  obtain ⟨c, hcell⟩ := Option.isSome_iff_exists.mp (hc.live d hd)
  have hn := (hc.count d c hcell).1
  simp only [incrCount, hcell]
  refine ⟨fun x => ?_, fun x hx => ?_, fun x c' hx => ?_⟩
  · rcases eq_or_ne x d with rfl | hne
    · simpa using hlt
    · simpa [Multiset.count_cons_of_ne hne] using hc.bound x
  · rcases eq_or_ne x d with rfl | hne
    · simp
    · simpa [hne] using hc.live x (by simpa [hne] using hx)
  · rcases eq_or_ne x d with rfl | hne
    · simp only [Function.update_self, Option.some.injEq] at hx
      subst hx
      exact ⟨by simp only [Multiset.count_cons_self]; rw [Nat.mod_eq_of_lt (by omega)]; omega, by simp⟩
    · rw [Function.update_of_ne hne] at hx
      have := hc.count x c' hx
      exact ⟨by rw [Multiset.count_cons_of_ne hne]; exact this.1, by simp [this.2]⟩

theorem Counts.decr (hc : Counts h (d ::ₘ m)) : Counts (decrCount h d) m := by
  obtain ⟨c, hcell⟩ := Option.isSome_iff_exists.mp (hc.live d (by simp))
  have hn := (hc.count d c hcell).1
  have hb := hc.bound d
  rw [Multiset.count_cons_self] at hn hb
  have hval : (c.count + 2 ^ 32 - 1) % 2 ^ 32 = m.count d := by omega
  have hne_bound : ∀ x, x ≠ d → m.count x < 2 ^ 32 := fun x hx => by
    simpa [Multiset.count_cons_of_ne hx] using hc.bound x
  have hother : ∀ x c', x ≠ d → h x = some c' → c'.count = m.count x ∧ x ∈ m := fun x c' hx he => by
    have := hc.count x c' he
    rw [Multiset.count_cons_of_ne hx] at this
    exact ⟨this.1, by simpa [hx] using this.2⟩
  simp only [decrCount, hcell, hval]
  by_cases h0 : m.count d = 0
  · rw [if_pos h0]
    have hnot : d ∉ m := Multiset.count_eq_zero.mp h0
    refine ⟨fun x => ?_, fun x hx => ?_, fun x c' hx => ?_⟩
    · rcases eq_or_ne x d with rfl | hne
      · omega
      · exact hne_bound x hne
    · have hne : x ≠ d := fun he => hnot (he ▸ hx)
      simpa [hne] using hc.live x (by simp [hx])
    · rcases eq_or_ne x d with rfl | hne
      · simp at hx
      · rw [Function.update_of_ne hne] at hx
        exact hother x c' hne hx
  · rw [if_neg h0]
    have hmem : d ∈ m := Multiset.count_pos.mp (by omega)
    refine ⟨fun x => ?_, fun x hx => ?_, fun x c' hx => ?_⟩
    · rcases eq_or_ne x d with rfl | hne
      · omega
      · exact hne_bound x hne
    · rcases eq_or_ne x d with rfl | hne
      · simp
      · simpa [hne] using hc.live x (by simp [hx])
    · rcases eq_or_ne x d with rfl | hne
      · simp only [Function.update_self, Option.some.injEq] at hx
        subst hx
        exact ⟨rfl, hmem⟩
      · rw [Function.update_of_ne hne] at hx
        exact hother x c' hne hx

theorem Counts.decrAll {ds : List ℕ} (hc : Counts h ((ds : Multiset ℕ) + m)) :
    Counts (decrAll h ds) m := by
  induction ds generalizing h with
  | nil => simpa [Heap.decrAll] using hc
  | cons d ds ih =>
    refine ih (h := decrCount h d) (Counts.decr (d := d) ?_)
    rwa [← Multiset.cons_coe, Multiset.cons_add] at hc

theorem Counts.alloc (hc : Counts h m) (hfree : h d = none) (x : δ) :
    Counts (Function.update h d (some ⟨x, 1⟩)) (d ::ₘ m) := by
  have hnot : d ∉ m := fun hm => by simpa [hfree] using hc.live d hm
  have h0 : m.count d = 0 := Multiset.count_eq_zero.mpr hnot
  refine ⟨fun y => ?_, fun y hy => ?_, fun y c hy => ?_⟩
  · rcases eq_or_ne y d with rfl | hne
    · rw [Multiset.count_cons_self]; omega
    · simpa [Multiset.count_cons_of_ne hne] using hc.bound y
  · rcases eq_or_ne y d with rfl | hne
    · simp
    · simpa [hne] using hc.live y (by simpa [hne] using hy)
  · rcases eq_or_ne y d with rfl | hne
    · simp only [Function.update_self, Option.some.injEq] at hy
      subst hy
      exact ⟨by simp [h0], by simp⟩
    · rw [Function.update_of_ne hne] at hy
      have := hc.count y c hy
      exact ⟨by rw [Multiset.count_cons_of_ne hne]; exact this.1, by simp [this.2]⟩

/-- The last owner of a cell gives it up and gets a cell at a free address, or at the same one. -/
theorem Counts.realloc {d' : ℕ} {c : Cell δ} (hc : Counts h (d ::ₘ m)) (hcell : h d = some c)
    (hone : c.count = 1) (hfree : d' = d ∨ h d' = none) (x : δ) :
    Counts (Function.update (Function.update h d none) d' (some ⟨x, c.count⟩)) (d' ::ₘ m) := by
  have hdead : decrCount h d = Function.update h d none := by
    simp [decrCount, hcell, hone]
  have hrel : Counts (Function.update h d none) m := hdead ▸ hc.decr
  rw [hone]
  refine hrel.alloc ?_ x
  rcases hfree with rfl | hfree
  · simp
  · rcases eq_or_ne d' d with rfl | hne
    · simp
    · rwa [Function.update_of_ne hne]

/-- A counter of one says that there is no other owner. -/
theorem Counts.sole (hc : Counts h (d ::ₘ m)) (hone : getCount h d = 1) : d ∉ m := by
  rw [hc.getCount_eq (by simp), Multiset.count_cons_self] at hone
  exact Multiset.count_eq_zero.mp (by omega)

theorem Counts.setData {c : Cell δ} (hc : Counts h m) (hcell : h d = some c) (x : δ) :
    Counts (Function.update h d (some { c with data := x })) m := by
  refine ⟨hc.bound, fun y hy => ?_, fun y c' hy => ?_⟩
  · rcases eq_or_ne y d with rfl | hne
    · simp
    · simpa [hne] using hc.live y hy
  · rcases eq_or_ne y d with rfl | hne
    · simp only [Function.update_self, Option.some.injEq] at hy
      subst hy
      exact hc.count y c hcell
    · rw [Function.update_of_ne hne] at hy
      exact hc.count y c' hy

/-! ## Contents -/

@[simp] theorem dataAt_incrCount (h : Heap δ) (d x : ℕ) : dataAt (incrCount h d) x = dataAt h x := by
  unfold incrCount
  split
  · rfl
  · rename_i c hcell
    rcases eq_or_ne x d with rfl | hne
    · simp [dataAt, hcell]
    · simp [dataAt, hne]

theorem dataAt_decrCount (h : Heap δ) {d x : ℕ} (hx : (decrCount h d x).isSome) :
    dataAt (decrCount h d) x = dataAt h x := by
  cases hcell : h d with
  | none => simp only [decrCount, hcell]
  | some c =>
    simp only [decrCount, hcell] at hx ⊢
    generalize (c.count + 2 ^ 32 - 1) % 2 ^ 32 = n at hx ⊢
    rcases eq_or_ne x d with rfl | hne
    · split_ifs at hx ⊢
      · simp at hx
      · simp [dataAt, hcell]
    · split_ifs <;> simp [dataAt, hne]

/-- What still has an owner after the releases keeps its contents. -/
theorem Counts.dataAt_decrAll {ds : List ℕ} (hc : Counts h ((ds : Multiset ℕ) + m)) {x : ℕ}
    (hx : x ∈ m) : dataAt (Heap.decrAll h ds) x = dataAt h x := by
  induction ds generalizing h with
  | nil => rfl
  | cons d ds ih =>
    rw [← Multiset.cons_coe, Multiset.cons_add] at hc
    have hd := hc.decr
    rw [← dataAt_decrCount h (hd.live x (by simp [hx]))]
    exact ih hd

/-! ## Accesses to counters -/

/-- A counter operation on a pointer; `NULL` is `none`. -/
inductive Access
  | get (p : Option ℕ)
  | incr (p : Option ℕ)
  | decr (p : Option ℕ)
  deriving DecidableEq

def Access.target : Access → Option ℕ
  | .get p | .incr p | .decr p => p

/-- What the operation does to the heap when it finds a cell. -/
def Access.apply (h : Heap δ) : Access → Heap δ
  | .incr (some d) => incrCount h d
  | .decr (some d) => decrCount h d
  | _ => h

/-- Each access finds a live cell in the heap that those before it leave. -/
def Sound (h : Heap δ) : List Access → Prop
  | [] => True
  | a :: as => (∃ d, a.target = some d ∧ (h d).isSome) ∧ Sound (a.apply h) as

/-- `decrCount` on every pointer of an array. -/
def decrs (ds : List ℕ) : List Access := ds.map fun d => .decr (some d)

theorem foldl_decrs (ds : List ℕ) (h : Heap δ) : (decrs ds).foldl Access.apply h = decrAll h ds := by
  rw [decrs, List.foldl_map]
  rfl

theorem Counts.sound_get (hc : Counts h m) (hd : d ∈ m) : Sound h [.get (some d)] :=
  ⟨⟨d, rfl, hc.live d hd⟩, trivial⟩

theorem Counts.sound_decrs {ds : List ℕ} (hc : Counts h ((ds : Multiset ℕ) + m)) :
    Sound h (decrs ds) := by
  induction ds generalizing h with
  | nil => trivial
  | cons d ds ih =>
    rw [← Multiset.cons_coe, Multiset.cons_add] at hc
    exact ⟨⟨d, rfl, hc.live d (by simp)⟩, ih hc.decr⟩

end Heap

/-! ## The owners held by a list of objects -/

section Held
variable {β : Type*} {f : β → Multiset ℕ} {l : List β} {i j d : ℕ} {a b x : β}

theorem mem_sum_map : d ∈ (l.map f).sum ↔ ∃ x ∈ l, d ∈ f x := by
  induction l with
  | nil => simp
  | cons a l ih => simp [ih]

theorem sum_map_set (f : β → Multiset ℕ) (hi : l[i]? = some a) :
    ∃ rest, (l.map f).sum = f a + rest ∧ ∀ x, ((l.set i x).map f).sum = f x + rest := by
  induction l generalizing i with
  | nil => simp at hi
  | cons c l ih =>
    cases i with
    | zero =>
      obtain rfl : c = a := by simpa using hi
      exact ⟨(l.map f).sum, by simp, by simp⟩
    | succ i =>
      obtain ⟨rest, hrest, hset⟩ := ih (i := i) (by simpa using hi)
      refine ⟨f c + rest, ?_, fun x => ?_⟩
      · simp only [List.map_cons, List.sum_cons, hrest]
        rw [add_left_comm]
      · simp only [List.set_cons_succ, List.map_cons, List.sum_cons, hset]
        rw [add_left_comm]

theorem sum_map_swap (f : β → Multiset ℕ) (hi : l[i]? = some a) (hj : l[j]? = some b) :
    (((l.set i b).set j a).map f).sum = (l.map f).sum := by
  obtain ⟨rest, h1, h2⟩ := sum_map_set f hi
  have hj' : (l.set i b)[j]? = some b := by
    by_cases hij : i = j
    · subst hij
      simp [(List.getElem?_eq_some_iff.mp hi).1]
    · rw [List.getElem?_set_ne hij, hj]
  obtain ⟨rest', h3, h4⟩ := sum_map_set f hj'
  have hsame : rest = rest' := by
    rw [h2] at h3
    exact add_left_cancel h3
  rw [h4, h1, hsame]

theorem mem_of_mem_swap (hi : l[i]? = some a) (hj : l[j]? = some b) (hx : x ∈ (l.set i b).set j a) :
    x ∈ l := by
  rcases List.mem_or_eq_of_mem_set hx with hx | rfl
  · rcases List.mem_or_eq_of_mem_set hx with hx | rfl
    · exact hx
    · exact List.mem_of_getElem? hj
  · exact List.mem_of_getElem? hi

end Held

end Mpio.Lib
