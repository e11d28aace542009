import Mpio.SparseArray.Model
import Mpio.Lib.Run
import Mathlib.Algebra.BigOperators.Group.List.Basic

/-!
# `sparse_array` is a finite map, and its elements die once

`Inv` says that the chunks lie apart, that an item's flag says whether an object lives in it, and
that every object constructed so far is either in one item or on the list of the destroyed
(`ledger`, a count for each object number). A call does three things at most: it adds empty chunks
(`Grown`), it empties the item of its index (`clearAt`), and it constructs a new object there.

* `look_grown`, `look_clearAt`, `look_construct`: what each of them does to every index.
* `Inv.grown`, `Inv.clearAt`, `Inv.construct`: each keeps the invariant, objects moving between the
  items and the list of the destroyed.
* `run_refines_map`: over every sequence of calls the lookups are those of the map `lastValue`, what
  is stored at an index stays in its place, and the destructor leaves every object destroyed once.
* `set_confined_iff`: a failing `set` is confined to its index exactly when it is not the growth of
  the array that fails. The `catch` block of `set` reverts the item of an index whose chunk the
  failed growth did not add.
-/

namespace Mpio.SparseArray

open Lib

variable {T : Type*} {size : ℕ} {s s' : State T} {p q : Place}

/-! ## Items and places -/

theorem item_setItem (s : State T) (p q : Place) (x : Item T) :
    (s.setItem p x).item q = if q = p then x else s.item q := by
  obtain ⟨a, k⟩ := p
  obtain ⟨b, m⟩ := q
  simp only [State.item, State.setItem, Prod.mk.injEq]
  by_cases hab : b = a
  · subst hab
    by_cases hmk : m = k
    · subst hmk; simp
    · simp [hmk]
  · simp [hab]

theorem itemOf_eq_some {index : ℕ} :
    itemOf s index = some p ↔
      s.baseArray[index / extendArraySize]? = some p.1 ∧ p.2 = index % extendArraySize := by
  obtain ⟨a, k⟩ := p
  simp only [itemOf, Option.map_eq_some_iff, Prod.mk.injEq]
  constructor
  · rintro ⟨b, hb, rfl, rfl⟩
    exact ⟨hb, rfl⟩
  · rintro ⟨hb, rfl⟩
    exact ⟨a, hb, rfl, rfl⟩

theorem itemOf_eq_none {index : ℕ} :
    itemOf s index = none ↔ s.baseArray.length ≤ index / extendArraySize := by
  rw [itemOf, Option.map_eq_none_iff, List.getElem?_eq_none_iff]

theorem place_lt {index : ℕ} (h : itemOf s index = some p) : p.2 < extendArraySize := by
  rw [(itemOf_eq_some.mp h).2]
  exact Nat.mod_lt _ (by decide)

theorem place_mem {index : ℕ} (h : itemOf s index = some p) : p.1 ∈ s.baseArray :=
  List.mem_of_getElem? (itemOf_eq_some.mp h).1

theorem itemOf_inj {i j : ℕ} (hn : s.baseArray.Nodup) (hi : itemOf s i = some p)
    (hj : itemOf s j = some p) : i = j := by
  obtain ⟨hi, hik⟩ := itemOf_eq_some.mp hi
  obtain ⟨hj, hjk⟩ := itemOf_eq_some.mp hj
  have hlt := (List.getElem?_eq_some_iff.mp hi).1
  have hdiv : i / extendArraySize = j / extendArraySize :=
    (List.getElem?_inj hlt hn).mp (hi.trans hj.symm)
  rw [← Nat.div_add_mod i extendArraySize, ← Nat.div_add_mod j extendArraySize, hdiv, ← hik, ← hjk]

/-! ## Objects, counted -/

/-- Whether object `x` lives in the item. -/
def Item.holds (it : Item T) (x : ℕ) : ℕ := if it.data.map Prod.fst = some x then 1 else 0

/-- In how many items of a chunk object `x` lives. -/
def chunkHolds (s : State T) (x a : ℕ) : ℕ := ∑ k ∈ Finset.range extendArraySize, (s.mem a k).holds x

/-- In how many items of the array object `x` lives. -/
def held (s : State T) (x : ℕ) : ℕ := (s.baseArray.map (chunkHolds s x)).sum

theorem held_setItem {s : State T} (hn : s.baseArray.Nodup) (ha : p.1 ∈ s.baseArray)
    (hk : p.2 < extendArraySize) (it : Item T) (x : ℕ) :
    held (s.setItem p it) x + (s.item p).holds x = held s x + it.holds x := by
  have hchunk : chunkHolds (s.setItem p it) x p.1 + (s.item p).holds x
      = chunkHolds s x p.1 + it.holds x := by
    have hmem : ∀ k, (s.setItem p it).mem p.1 k = Function.update (s.mem p.1) p.2 it k := by
      intro k
      simp [State.setItem]
    simp only [chunkHolds, hmem]
    exact sum_update hk (fun y : Item T => y.holds x) (s.mem p.1) it
  have hrest : ∀ b, b ≠ p.1 → chunkHolds (s.setItem p it) x b = chunkHolds s x b := by
    intro b hb
    simp [chunkHolds, State.setItem, hb]
  have hsum := sum_map_move hn ha hrest
  show (s.baseArray.map (chunkHolds (s.setItem p it) x)).sum + _ = _
  simp only [held]
  omega

/-! ## The invariant -/

/-- The blocks lie in the address space, apart from each other. -/
def Apart (size : ℕ) (live : List ℕ) : Prop :=
  (live.Pairwise fun a b => a + chunkBytes size ≤ b ∨ b + chunkBytes size ≤ a) ∧
    ∀ a ∈ live, 0 < a ∧ a + chunkBytes size ≤ 2 ^ 64

structure Inv (size : ℕ) (s : State T) : Prop where
  apart : Apart size s.live
  nodup : s.baseArray.Nodup
  isLive : ∀ a ∈ s.baseArray, a ∈ s.live
  flags : ∀ a ∈ s.baseArray, ∀ k < extendArraySize, (s.mem a k).enable = (s.mem a k).data.isSome
  ledger : ∀ x, s.destroyed.count x + held s x = if x < s.built then 1 else 0

theorem chunkBytes_ge (size : ℕ) : extendArraySize ≤ chunkBytes size := by
  unfold chunkBytes
  exact Nat.le_mul_of_pos_right _ (by omega)

/-- The address space is too small for `capacity()` to wrap around. -/
theorem Inv.capacity_eq (h : Inv size s) : capacity s = s.baseArray.length * extendArraySize := by
  have hlen : s.baseArray.length ≤ s.live.length := (h.nodup.subperm h.isLive).length_le
  have hlt := length_mul_lt_of_apart (by decide) h.apart.1 h.apart.2
  refine wrap_of_lt (lt_of_le_of_lt ?_ hlt)
  exact Nat.mul_le_mul hlen (chunkBytes_ge size)

/-- The range check of `get` and `test` says that the chunk exists. -/
theorem Inv.lt_capacity_iff (h : Inv size s) (index : ℕ) :
    index < capacity s ↔ (itemOf s index).isSome := by
  rw [h.capacity_eq, ← Nat.div_lt_iff_lt_mul (by decide), itemOf, Option.isSome_map,
    Option.isSome_iff_ne_none, Ne, List.getElem?_eq_none_iff, Nat.not_le]

theorem Inv.flag (h : Inv size s) {index : ℕ} (hp : itemOf s index = some p) :
    (s.item p).enable = (s.item p).data.isSome :=
  h.flags _ (place_mem hp) _ (place_lt hp)

theorem Inv.get_eq (h : Inv size s) {index : ℕ} (hp : itemOf s index = some p) :
    get s index = if (s.item p).data.isSome then some p else none := by
  have hcap : index < capacity s := (h.lt_capacity_iff index).mpr (by rw [hp]; rfl)
  rw [get, if_pos hcap, hp, Option.filter_some, h.flag hp]

theorem Inv.get_eq_none (h : Inv size s) {index : ℕ} (hp : itemOf s index = none) :
    get s index = none := by
  rw [get, if_neg]
  rw [h.lt_capacity_iff, hp]
  simp

theorem Inv.look_eq (h : Inv size s) {index : ℕ} (hp : itemOf s index = some p) :
    look s index = (s.item p).data := by
  rw [look, h.get_eq hp]
  cases hd : (s.item p).data with
  | none => rfl
  | some x => exact hd

theorem Inv.look_eq_none (h : Inv size s) {index : ℕ} (hp : itemOf s index = none) :
    look s index = none := by
  rw [look, h.get_eq_none hp]
  rfl

theorem test_eq (s : State T) (index : ℕ) : test s index = (get s index).isSome := by
  by_cases hcap : index < capacity s
  · rw [test, get, if_pos hcap, decide_eq_true hcap, Bool.true_and]
    cases itemOf s index with
    | none => rfl
    | some p => simp only [Option.any_some, Option.filter_some]; split_ifs with he <;> simp [he]
  · rw [test, get, if_neg hcap, decide_eq_false hcap]
    rfl

theorem Inv.isSome_look (h : Inv size s) (index : ℕ) : (look s index).isSome = test s index := by
  rw [test_eq]
  cases hp : itemOf s index with
  | none => rw [h.look_eq_none hp, h.get_eq_none hp]; rfl
  | some p =>
    rw [h.look_eq hp, h.get_eq hp]
    cases (s.item p).data <;> rfl

/-! ## Growth -/

/-- Empty chunks were added behind those that were there, and nothing else changed. -/
structure Grown (s s' : State T) : Prop where
  more : ∃ as, s'.baseArray = s.baseArray ++ as ∧ ∀ a ∈ as, ∀ k, s'.mem a k = Item.zero
  mem : ∀ a ∈ s.baseArray, s'.mem a = s.mem a
  built : s'.built = s.built
  destroyed : s'.destroyed = s.destroyed

theorem Grown.refl (s : State T) : Grown s s :=
  ⟨⟨[], by simp, by simp⟩, fun _ _ => rfl, rfl, rfl⟩

theorem Grown.trans {s'' : State T} (h : Grown s s') (h' : Grown s' s'') : Grown s s'' := by
  obtain ⟨as, has, hzero⟩ := h.more
  obtain ⟨bs, hbs, hzero'⟩ := h'.more
  refine ⟨⟨as ++ bs, by rw [hbs, has, List.append_assoc], ?_⟩, ?_, h'.built.trans h.built,
    h'.destroyed.trans h.destroyed⟩
  · intro a ha k
    rcases List.mem_append.mp ha with ha | ha
    · rw [h'.mem a (has ▸ List.mem_append_right _ ha)]
      exact hzero a ha k
    · exact hzero' a ha k
  · intro a ha
    rw [h'.mem a (has ▸ List.mem_append_left _ ha), h.mem a ha]

theorem Grown.itemOf_eq (h : Grown s s') {index : ℕ} (hp : itemOf s index = some p) :
    itemOf s' index = some p := by
  obtain ⟨as, has, -⟩ := h.more
  obtain ⟨hget, hk⟩ := itemOf_eq_some.mp hp
  refine itemOf_eq_some.mpr ⟨?_, hk⟩
  rw [has, List.getElem?_append_left (List.getElem?_eq_some_iff.mp hget).1]
  exact hget

theorem Grown.item_eq (h : Grown s s') {index : ℕ} (hp : itemOf s index = some p) :
    s'.item p = s.item p := by
  simp only [State.item, h.mem _ (place_mem hp)]

theorem Grown.item_new (h : Grown s s') {index : ℕ} (hp : itemOf s index = none)
    (hp' : itemOf s' index = some p) : s'.item p = Item.zero := by
  obtain ⟨as, has, hzero⟩ := h.more
  obtain ⟨hget, -⟩ := itemOf_eq_some.mp hp'
  rw [has, List.getElem?_append_right (itemOf_eq_none.mp hp)] at hget
  exact hzero _ (List.mem_of_getElem? hget) _

theorem look_grown (hs : Inv size s) (hs' : Inv size s') (h : Grown s s') (index : ℕ) :
    look s' index = look s index ∧ get s' index = get s index := by
  cases hp : itemOf s index with
  | some p =>
    rw [hs.look_eq hp, hs'.look_eq (h.itemOf_eq hp), hs.get_eq hp, hs'.get_eq (h.itemOf_eq hp),
      h.item_eq hp]
    exact ⟨rfl, rfl⟩
  | none =>
    rw [hs.look_eq_none hp, hs.get_eq_none hp]
    cases hp' : itemOf s' index with
    | none => exact ⟨hs'.look_eq_none hp', hs'.get_eq_none hp'⟩
    | some p =>
      rw [hs'.look_eq hp', hs'.get_eq hp', h.item_new hp hp']
      exact ⟨rfl, rfl⟩

theorem Fits.not_mem {live : List ℕ} {a : ℕ} (h : Fits size live a) : a ∉ live := by
  intro ha
  have hpos := chunkBytes_ge size
  have := h.2.2 a ha
  simp only [extendArraySize] at hpos
  omega

theorem Apart.cons {live : List ℕ} {a : ℕ} (h : Apart size live) (ha : Fits size live a) :
    Apart size (a :: live) := by
  refine ⟨List.pairwise_cons.mpr ⟨ha.2.2, h.1⟩, ?_⟩
  intro b hb
  rcases List.mem_cons.mp hb with rfl | hb
  · exact ⟨ha.1, ha.2.1⟩
  · exact h.2 b hb

theorem holds_zero (x : ℕ) : (Item.zero : Item T).holds x = 0 := by
  simp [Item.zero, Item.holds]

/-- A block from `calloc` that the vector may or may not come to hold. -/
theorem Inv.calloc (h : Inv size s) {a : ℕ} (ha : Fits size s.live a) (as : List ℕ)
    (has : as = [] ∨ as = [a])
    (hs' : s' = { s with baseArray := s.baseArray ++ as, live := a :: s.live,
                         mem := Function.update s.mem a fun _ => Item.zero }) :
    Inv size s' ∧ Grown s s' := by
  subst hs'
  have hmem : ∀ b ∈ s.baseArray, Function.update s.mem a (fun _ => Item.zero) b = s.mem b := by
    intro b hb
    have hne : b ≠ a := fun heq => ha.not_mem (heq ▸ h.isLive b hb)
    exact Function.update_of_ne hne _ _
  have hsub : ∀ b ∈ as, b = a := by rcases has with rfl | rfl <;> simp
  refine ⟨⟨h.apart.cons ha, ?_, ?_, ?_, ?_⟩, ⟨⟨as, rfl, ?_⟩, hmem, rfl, rfl⟩⟩
  · have hnew : a ∉ s.baseArray := fun hb => ha.not_mem (h.isLive a hb)
    rcases has with rfl | rfl
    · simpa using h.nodup
    · exact List.nodup_append.mpr ⟨h.nodup, by simp, by
        intro x hx y hy; rw [hsub y hy]; exact fun heq => hnew (heq ▸ hx)⟩
  · intro b hb
    rcases List.mem_append.mp hb with hb | hb
    · exact List.mem_cons_of_mem _ (h.isLive b hb)
    · exact hsub b hb ▸ List.mem_cons_self
  · intro b hb k hk
    rcases List.mem_append.mp hb with hb | hb
    · show (Function.update s.mem a _ b k).enable = (Function.update s.mem a _ b k).data.isSome
      rw [hmem b hb]
      exact h.flags b hb k hk
    · rw [hsub b hb]
      simp [Item.zero]
  · intro x
    rw [← h.ledger x]
    -- the chunks that were there hold what they held, the new one holds nothing
    have hold : s.baseArray.map (chunkHolds { s with mem := Function.update s.mem a fun _ => Item.zero } x)
        = s.baseArray.map (chunkHolds s x) :=
      List.map_congr_left fun b hb => by simp only [chunkHolds, hmem b hb]
    have hnew : (as.map (chunkHolds { s with mem := Function.update s.mem a fun _ => Item.zero } x)).sum
        = 0 := by
      rcases has with rfl | rfl <;> simp [chunkHolds, holds_zero]
    show _ + ((s.baseArray ++ as).map (chunkHolds { s with mem := Function.update s.mem a fun _ => Item.zero } x)).sum = _
    rw [List.map_append, List.sum_append, hold, hnew]
    rfl
  · intro b hb k
    rw [hsub b hb]
    simp

/-- Both answers of the growth are good. -/
def Growth.Succeeds (g : Growth) : Prop := g.calloc.isSome ∧ g.pushBack = true

instance (g : Growth) : Decidable g.Succeeds := inferInstanceAs (Decidable (_ ∧ _))

theorem extendArray_spec (h : Inv size s) {g : Growth} {b : Bool}
    (he : extendArray size s g = some (s', b)) :
    Inv size s' ∧ Grown s s' ∧ (b = true ↔ g.Succeeds) ∧
      s'.baseArray.length = s.baseArray.length + b.toNat := by
  unfold extendArray at he
  cases hc : g.calloc with
  | none =>
    simp only [hc, Option.some.injEq, Prod.mk.injEq] at he
    obtain ⟨rfl, rfl⟩ := he
    exact ⟨h, .refl s, by simp [Growth.Succeeds, hc], rfl⟩
  | some a =>
    simp only [hc] at he
    split_ifs at he with hfit hpush
    · simp only [Option.some.injEq, Prod.mk.injEq] at he
      obtain ⟨rfl, rfl⟩ := he
      obtain ⟨hi, hg⟩ := h.calloc hfit [a] (.inr rfl) rfl
      exact ⟨hi, hg, by simp [Growth.Succeeds, hc, hpush], by simp⟩
    · simp only [Option.some.injEq, Prod.mk.injEq] at he
      obtain ⟨rfl, rfl⟩ := he
      obtain ⟨hi, hg⟩ := h.calloc hfit [] (.inl rfl) (by rw [List.append_nil])
      exact ⟨hi, hg, by simp [Growth.Succeeds, hpush], by simp⟩

/-- The answers that the loop of `set_impl` gets to. -/
def needed (s : State T) (index : ℕ) (gs : List Growth) : List Growth :=
  gs.take (index / extendArraySize + 1 - s.baseArray.length)

/-- The loop ends with the chunk of `index` there, exactly when all its allocations succeed. -/
theorem extendTo_spec {index : ℕ} {gs : List Growth} {b : Bool} (h : Inv size s)
    (he : extendTo size index s gs = some (s', b)) :
    Inv size s' ∧ Grown s s' ∧ (b = true ↔ ∀ g ∈ needed s index gs, g.Succeeds) ∧
      (b = true ↔ index / extendArraySize < s'.baseArray.length) := by
  induction gs generalizing s with
  | nil =>
    unfold extendTo at he
    split_ifs at he with hlen
    simp only [Option.some.injEq, Prod.mk.injEq] at he
    obtain ⟨rfl, rfl⟩ := he
    exact ⟨h, .refl s, by simp [needed], by simpa using hlen⟩
  | cons g gs ih =>
    unfold extendTo at he
    split_ifs at he with hlen
    · have hneed : index / extendArraySize + 1 - s.baseArray.length
          = (index / extendArraySize - s.baseArray.length) + 1 := by omega
      cases hx : extendArray size s g with
      | none => simp [hx] at he
      | some r =>
        obtain ⟨t, c⟩ := r
        obtain ⟨hi, hg, hc, hl⟩ := extendArray_spec h hx
        cases c with
        | false =>
          simp only [hx, Option.some.injEq, Prod.mk.injEq] at he
          obtain ⟨rfl, rfl⟩ := he
          refine ⟨hi, hg, ?_, ?_⟩
          · rw [needed, hneed, List.take_succ_cons]
            simpa using fun hs => absurd (hc.mpr hs) (by simp)
          · simp only [Bool.false_eq_true, false_iff, Nat.not_lt, hl]
            simpa using hlen
        | true =>
          simp only [hx] at he
          obtain ⟨hi', hg', hb, hb'⟩ := ih hi he
          refine ⟨hi', hg.trans hg', ?_, hb'⟩
          have hrest : index / extendArraySize + 1 - t.baseArray.length
              = index / extendArraySize - s.baseArray.length := by
            simp only [Bool.toNat_true] at hl
            omega
          rw [hb, needed, needed, hneed, hrest, List.take_succ_cons, List.forall_mem_cons]
          exact ⟨fun hall => ⟨hc.mp rfl, hall⟩, fun hall => hall.2⟩
    · simp only [Option.some.injEq, Prod.mk.injEq] at he
      obtain ⟨rfl, rfl⟩ := he
      have hzero : index / extendArraySize + 1 - s.baseArray.length = 0 := by omega
      exact ⟨h, .refl s, by simp [needed, hzero], by simpa using hlen⟩

/-! ## One item replaced -/

/-- The numbers of the object living at `p`, if any. -/
def State.idAt (s : State T) (p : Place) : List ℕ := ((s.item p).data.map Prod.fst).toList

/-- The object at `p` is destroyed and the item left unset. -/
def State.emptied (s : State T) (p : Place) : State T :=
  { s.setItem p Item.zero with destroyed := s.destroyed ++ s.idAt p }

/-- The object at `p` is destroyed and a new one put in its place. -/
def State.filled (s : State T) (p : Place) (v : T) : State T :=
  { s.setItem p ⟨true, some (s.built, v)⟩ with
    built := s.built + 1, destroyed := s.destroyed ++ s.idAt p }

theorem count_idAt (s : State T) (p : Place) (x : ℕ) :
    (s.idAt p).count x = (s.item p).holds x := by
  unfold State.idAt Item.holds
  cases (s.item p).data with
  | none => simp
  | some y => simp [List.count_singleton]

theorem Inv.replace (h : Inv size s) {index : ℕ} (hp : itemOf s index = some p) {it : Item T}
    {built : ℕ} {destroyed : List ℕ} (hflag : it.enable = it.data.isSome)
    (hcount : ∀ x, destroyed.count x + it.holds x + (if x < s.built then 1 else 0)
      = s.destroyed.count x + (s.item p).holds x + if x < built then 1 else 0) :
    Inv size { s.setItem p it with built := built, destroyed := destroyed } := by
  refine ⟨h.apart, h.nodup, h.isLive, ?_, ?_⟩
  · intro a ha k hk
    show ((s.setItem p it).item (a, k)).enable = ((s.setItem p it).item (a, k)).data.isSome
    rw [item_setItem]
    split_ifs
    · exact hflag
    · exact h.flags a ha k hk
  · intro x
    show destroyed.count x + held (s.setItem p it) x = if x < built then 1 else 0
    have hheld := held_setItem h.nodup (place_mem hp) (place_lt hp) it x
    have hled := h.ledger x
    have := hcount x
    omega

theorem look_replace (h : Inv size s) {index : ℕ} (hp : itemOf s index = some p) {it : Item T}
    (hmem : s'.mem = (s.setItem p it).mem) (hbase : s'.baseArray = s.baseArray)
    (h' : Inv size s') (j : ℕ) :
    look s' j = (if j = index then it.data else look s j) ∧ (j ≠ index → get s' j = get s j) := by
  have hplace : ∀ i, itemOf s' i = itemOf s i := fun i => by rw [itemOf, itemOf, hbase]
  have hitem : ∀ q, s'.item q = if q = p then it else s.item q := by
    intro q
    rw [← item_setItem, State.item, State.item, hmem]
  cases hq : itemOf s j with
  | none =>
    have hne : j ≠ index := fun heq => by rw [heq, hp] at hq; cases hq
    rw [h'.look_eq_none ((hplace j).trans hq), h.look_eq_none hq, if_neg hne,
      h'.get_eq_none ((hplace j).trans hq), h.get_eq_none hq]
    exact ⟨rfl, fun _ => rfl⟩
  | some q =>
    rw [h'.look_eq ((hplace j).trans hq), h.look_eq hq, h'.get_eq ((hplace j).trans hq), h.get_eq hq,
      hitem q]
    by_cases hj : j = index
    · subst hj
      have hqp : q = p := Option.some.inj (hq.symm.trans hp)
      rw [if_pos hqp, if_pos rfl]
      exact ⟨rfl, fun hne => absurd rfl hne⟩
    · have hqp : q ≠ p := fun heq => hj (itemOf_inj h.nodup (heq ▸ hq) hp)
      rw [if_neg hqp, if_neg hj]
      exact ⟨rfl, fun _ => rfl⟩

theorem Inv.emptied (h : Inv size s) {index : ℕ} (hp : itemOf s index = some p) :
    Inv size (s.emptied p) := by
  refine h.replace hp rfl fun x => ?_
  rw [List.count_append, count_idAt, holds_zero]
  show _ = _ + _ + if x < s.built then 1 else 0
  omega

theorem Inv.filled (h : Inv size s) {index : ℕ} (hp : itemOf s index = some p) (v : T) :
    Inv size (s.filled p v) := by
  refine h.replace hp rfl fun x => ?_
  have hnew : (⟨true, some (s.built, v)⟩ : Item T).holds x = if s.built = x then 1 else 0 := by
    simp [Item.holds]
  rw [List.count_append, count_idAt, hnew]
  split_ifs <;> omega

/-! ## What each call does -/

theorem destroyAt_eq {x : ℕ × T} (hd : (s.item p).data = some x) :
    s.destroyAt p = some { s.setItem p ⟨(s.item p).enable, none⟩ with destroyed := s.destroyed ++ s.idAt p } := by
  simp [State.destroyAt, State.idAt, hd]

theorem setImpl_eq {s₁ : State T} {index : ℕ} {gs : List Growth}
    (he : extendTo size index s gs = some (s₁, true)) (h : Inv size s₁)
    (hp : itemOf s₁ index = some p) :
    setImpl size s index gs = some
      ({ s₁.setItem p ⟨true, none⟩ with destroyed := s₁.destroyed ++ s₁.idAt p }, .returns (some p)) := by
  have hflag := h.flag hp
  simp only [setImpl, he, hp]
  cases hd : (s₁.item p).data with
  | none =>
    rw [hd] at hflag
    simp [hflag, State.setEnable, State.idAt, hd, State.setItem]
  | some x =>
    rw [hd, Option.isSome_some] at hflag
    rw [if_pos hflag, destroyAt_eq hd, hflag]

/-- The result of `set`: growth that fails ends out of range, and otherwise the item of the index is
filled with what the constructor built, or left empty when the constructor throws. -/
theorem set_spec (h : Inv size s) {index : ℕ} {gs : List Growth} {ctor : Option T} {o : Outcome}
    (hset : set size s index gs ctor = some (s', o)) :
    (o = .outOfRange ∧ ¬ ∀ g ∈ needed s index gs, g.Succeeds) ∨
    (∀ g ∈ needed s index gs, g.Succeeds) ∧ ∃ s₁ p, Inv size s₁ ∧ Grown s s₁ ∧
      itemOf s₁ index = some p ∧
      ((∃ v, ctor = some v ∧ s' = s₁.filled p v ∧ o = .returns (some p)) ∨
        ctor = none ∧ s' = s₁.emptied p ∧ o = .throws) := by
  cases he : extendTo size index s gs with
  | none => simp [set, setImpl, he] at hset
  | some r =>
    obtain ⟨s₁, b⟩ := r
    obtain ⟨hi, hg, hb, hlen⟩ := extendTo_spec h he
    cases b with
    | false =>
      -- the chunk of `index` is not there, and the catch block asks for its item
      have hnone : itemOf s₁ index = none := by
        rw [itemOf_eq_none]
        simpa using hlen
      simp only [set, setImpl, he, revert, hnone, Option.some.injEq, Prod.mk.injEq] at hset
      exact .inl ⟨hset.2.symm, fun hall => by simpa using hb.mpr hall⟩
    | true =>
      obtain ⟨p, hp⟩ : ∃ p, itemOf s₁ index = some p := by
        cases hp : itemOf s₁ index with
        | none => exact absurd (hlen.mp rfl) (Nat.not_lt.mpr (itemOf_eq_none.mp hp))
        | some p => exact ⟨p, rfl⟩
      refine .inr ⟨hb.mp rfl, s₁, p, hi, hg, hp, ?_⟩
      rw [set, setImpl_eq he hi hp] at hset
      cases ctor with
      | some v =>
        simp only [Option.some.injEq, Prod.mk.injEq] at hset
        refine .inl ⟨v, rfl, ?_, hset.2.symm⟩
        rw [← hset.1]
        simp [State.construct, State.filled, State.setItem, State.item]
      | none =>
        have hp' : itemOf { s₁.setItem p ⟨true, none⟩ with destroyed := s₁.destroyed ++ s₁.idAt p } index
            = some p := hp
        simp only [revert, hp', Option.some.injEq, Prod.mk.injEq] at hset
        refine .inr ⟨rfl, ?_, hset.2.symm⟩
        rw [← hset.1]
        simp [State.setEnable, State.emptied, State.setItem, State.item, Item.zero]

theorem reset_spec (h : Inv size s) {index : ℕ} (ht : test s index = true) :
    ∃ p, itemOf s index = some p ∧ reset s index = (s.emptied p, .returns none) := by
  rw [← h.isSome_look] at ht
  cases hp : itemOf s index with
  | none => rw [h.look_eq_none hp] at ht; cases ht
  | some p =>
    refine ⟨p, rfl, ?_⟩
    rw [h.look_eq hp] at ht
    obtain ⟨x, hx⟩ := Option.isSome_iff_exists.mp ht
    simp [reset, hp, State.destroyAt, State.setEnable, State.item, State.setItem, State.emptied,
      State.idAt, Item.zero, show (s.mem p.1 p.2).data = some x from hx]

theorem perform_isDefined (h : Inv size s) {op : Op T} {o : Outcome} (hl : Legal s op)
    (ha : op.AllocOk) (hp : perform size s op = some (s', o)) : o.isDefined = true := by
  cases op with
  | set index gs ctor =>
    rcases set_spec h hp with ⟨-, hbad⟩ | ⟨-, s₁, p, -, -, -, ⟨v, -, -, rfl⟩ | ⟨-, -, rfl⟩⟩
    · exact absurd (fun g hg => ha g (List.mem_of_mem_take hg)) hbad
    · rfl
    · rfl
  | reset index =>
    obtain ⟨p, -, hr⟩ := reset_spec h hl
    simp only [perform, hr, Option.some.injEq, Prod.mk.injEq] at hp
    rw [← hp.2]
    rfl
  | get index | test index =>
    simp only [perform, Option.some.injEq, Prod.mk.injEq] at hp
    rw [← hp.2]
    rfl
  | data index =>
    obtain ⟨p, hq⟩ := Option.isSome_iff_exists.mp hl
    simp only [perform, data, hq, Option.some.injEq, Prod.mk.injEq] at hp
    rw [← hp.2]
    rfl

/-- What one call does to every index, and to the index it touches. -/
structure Effect (op : Op T) (s s' : State T) : Prop where
  stays : ∀ i p, itemOf s i = some p → itemOf s' i = some p
  value : ∀ j, op.touches j = true → (look s' j).map Prod.snd = op.value
  frame : ∀ j, op.touches j = false → look s' j = look s j ∧ get s' j = get s j
  room : ∀ i gs ctor, op = .set i gs ctor → (itemOf s' i).isSome

theorem Effect.same {op : Op T} (hop : ∀ j, op.touches j = false) (s : State T) : Effect op s s := by
  refine ⟨fun _ _ h => h, ?_, fun _ _ => ⟨rfl, rfl⟩, ?_⟩
  · intro j hj
    rw [hop j] at hj
    cases hj
  · rintro i gs ctor rfl
    have := hop i
    simp [Op.touches] at this

theorem Effect.replaced {op : Op T} {index : ℕ} {s₁ : State T} {it : Item T} (hs : Inv size s)
    (h₁ : Inv size s₁) (hg : Grown s s₁) (hp : itemOf s₁ index = some p) (h' : Inv size s')
    (hmem : s'.mem = (s₁.setItem p it).mem) (hbase : s'.baseArray = s₁.baseArray)
    (hop : ∀ j, op.touches j = decide (index = j)) (hval : it.data.map Prod.snd = op.value) :
    Effect op s s' := by
  have hplace : ∀ i, itemOf s' i = itemOf s₁ i := fun i => by rw [itemOf, itemOf, hbase]
  have hlook := look_replace h₁ hp hmem hbase h'
  refine ⟨?_, ?_, ?_, ?_⟩
  · intro i q hq
    rw [hplace]
    exact hg.itemOf_eq hq
  · intro j hj
    rw [hop, decide_eq_true_eq] at hj
    rw [(hlook j).1, if_pos hj.symm]
    exact hval
  · intro j hj
    rw [hop, decide_eq_false_iff_not] at hj
    have hne : j ≠ index := fun heq => hj heq.symm
    obtain ⟨hl, hget⟩ := look_grown hs h₁ hg j
    rw [(hlook j).1, if_neg hne, (hlook j).2 hne]
    exact ⟨hl, hget⟩
  · rintro i gs ctor rfl
    have hi : index = i := by
      have := hop i
      simp only [Op.touches, BEq.rfl] at this
      exact decide_eq_true_eq.mp this.symm
    rw [hplace, ← hi, hp]
    rfl

theorem perform_spec (h : Inv size s) {op : Op T} {o : Outcome} (hl : Legal s op)
    (hp : perform size s op = some (s', o)) (hd : o.isDefined = true) :
    Inv size s' ∧ Effect op s s' := by
  cases op with
  | set index gs ctor =>
    rcases set_spec h hp with ⟨rfl, -⟩ | ⟨-, s₁, p, h₁, hg, hq, ⟨v, rfl, rfl, rfl⟩ | ⟨rfl, rfl, rfl⟩⟩
    · cases hd
    · exact ⟨h₁.filled hq v, .replaced h h₁ hg hq (h₁.filled hq v) rfl rfl (fun _ => rfl) rfl⟩
    · exact ⟨h₁.emptied hq, .replaced h h₁ hg hq (h₁.emptied hq) rfl rfl (fun _ => rfl) rfl⟩
  | reset index =>
    obtain ⟨p, hq, hr⟩ := reset_spec h hl
    simp only [perform, hr, Option.some.injEq, Prod.mk.injEq] at hp
    obtain ⟨rfl, -⟩ := hp
    exact ⟨h.emptied hq, .replaced h h (.refl s) hq (h.emptied hq) rfl rfl (fun _ => rfl) rfl⟩
  | get index | test index | data index =>
    simp only [perform, Option.some.injEq, Prod.mk.injEq] at hp
    obtain ⟨rfl, -⟩ := hp
    exact ⟨h, .same (fun _ => rfl) s⟩

/-! ## Whole sequences of calls -/

theorem Inv.start : Inv size (⟨[], [], fun _ _ => Item.zero, 0, []⟩ : State T) := by
  refine ⟨⟨.nil, ?_⟩, .nil, ?_, ?_, ?_⟩ <;> simp [held]

theorem construct_inv {g : Growth} (h : construct size g = some (s, true)) :
    Inv size s ∧ ∀ i, look s i = none := by
  obtain ⟨hi, hg, -⟩ := extendArray_spec Inv.start h
  refine ⟨hi, fun i => ?_⟩
  rw [(look_grown Inv.start hi hg i).1]
  exact (Inv.start : Inv size _).look_eq_none rfl

theorem Steps.inv {P : Op T → Prop} {ops : List (Op T)} (h : Inv size s) (hr : Steps size P s ops s') :
    Inv size s' := by
  induction hr with
  | nil => exact h
  | snoc op _ hl _ hp hd ih => exact (perform_spec ih hl hp hd).1

theorem Steps.stays {P : Op T → Prop} {ops : List (Op T)} (h : Inv size s)
    (hr : Steps size P s ops s') : ∀ i p, itemOf s i = some p → itemOf s' i = some p := by
  induction hr with
  | nil => exact fun _ _ hp => hp
  | snoc op hr hl _ hp hd ih =>
    intro i p hi
    exact (perform_spec (hr.inv h) hl hp hd).2.stays i p (ih i p hi)

theorem Steps.frame {P : Op T → Prop} {ops : List (Op T)} (h : Inv size s)
    (hr : Steps size P s ops s') {j : ℕ} (hj : ∀ op ∈ ops, op.touches j = false) :
    get s' j = get s j ∧ look s' j = look s j := by
  induction hr with
  | nil => exact ⟨rfl, rfl⟩
  | snoc op hr hl _ hp hd ih =>
    obtain ⟨hget, hlook⟩ := ih fun op' hop => hj op' (List.mem_append_left _ hop)
    obtain ⟨hlook', hget'⟩ := (perform_spec (hr.inv h) hl hp hd).2.frame j (hj _ (by simp))
    exact ⟨hget'.trans hget, hlook'.trans hlook⟩

theorem lastValue_append (ops : List (Op T)) (op : Op T) (i : ℕ) :
    lastValue (ops ++ [op]) i = if op.touches i then op.value else lastValue ops i := by
  rw [lastValue, List.reverse_append, List.reverse_singleton, List.singleton_append, List.find?_cons]
  cases op.touches i <;> rfl

theorem Steps.look_eq {P : Op T → Prop} {ops : List (Op T)} (h : Inv size s)
    (hnone : ∀ i, look s i = none) (hr : Steps size P s ops s') (i : ℕ) :
    (look s' i).map Prod.snd = lastValue ops i := by
  induction hr with
  | nil => rw [hnone]; rfl
  | snoc op hr hl _ hp hd ih =>
    have heff := (perform_spec (hr.inv h) hl hp hd).2
    rw [lastValue_append]
    split_ifs with ht
    · exact heff.value i ht
    · rw [(heff.frame i (Bool.not_eq_true _ ▸ ht)).1]
      exact ih

theorem Steps.room {P : Op T → Prop} {ops : List (Op T)} (h : Inv size s)
    (hr : Steps size P s ops s') {i : ℕ} {gs : List Growth} {ctor : Option T}
    (hmem : Op.set i gs ctor ∈ ops) : (itemOf s' i).isSome := by
  induction hr with
  | nil => cases hmem
  | snoc op hr hl _ hp hd ih =>
    have heff := (perform_spec (hr.inv h) hl hp hd).2
    rcases List.mem_append.mp hmem with hmem | hmem
    · obtain ⟨p, hq⟩ := Option.isSome_iff_exists.mp (ih hmem)
      rw [heff.stays i p hq]
      rfl
    · exact heff.room i gs ctor (List.mem_singleton.mp hmem).symm

/-! ## The destructor -/

theorem destroyItems {a : ℕ} {ks : List ℕ} (hn : ks.Nodup)
    (hflags : ∀ k ∈ ks, (s.mem a k).enable = (s.mem a k).data.isSome) :
    ∃ s', ks.foldlM (fun s k => if (s.mem a k).enable then s.destroyAt (a, k) else some s) s
        = some s' ∧ s'.live = s.live ∧ s'.built = s.built ∧ (∀ b, b ≠ a → s'.mem b = s.mem b) ∧
      ∀ x, s'.destroyed.count x
        = s.destroyed.count x + (ks.map fun k => (s.mem a k).holds x).sum := by
  induction ks generalizing s with
  | nil => exact ⟨s, rfl, rfl, rfl, fun _ _ => rfl, fun x => by simp⟩
  | cons k ks ih =>
    obtain ⟨hk, hn⟩ := List.nodup_cons.mp hn
    rw [List.foldlM_cons]
    have hflag := hflags k List.mem_cons_self
    cases hd : (s.mem a k).data with
    | none =>
      rw [hd] at hflag
      obtain ⟨s', hs', hlive, hbuilt, hother, hcount⟩ :=
        ih hn fun m hm => hflags m (List.mem_cons_of_mem _ hm)
      refine ⟨s', by simpa [hflag] using hs', hlive, hbuilt, hother, fun x => ?_⟩
      rw [hcount, List.map_cons, List.sum_cons]
      simp [Item.holds, hd]
    | some y =>
      rw [hd, Option.isSome_some] at hflag
      -- the items still to come are those of the state before, the one just destroyed is behind
      have hrest : ∀ m ∈ ks, (Function.update (s.mem a) k ⟨true, none⟩) m = s.mem a m := by
        intro m hm
        have hne : m ≠ k := fun heq => hk (heq ▸ hm)
        exact Function.update_of_ne hne _ _
      obtain ⟨s', hs', hlive, hbuilt, hother, hcount⟩ := ih
        (s := { s.setItem (a, k) ⟨true, none⟩ with destroyed := s.destroyed ++ s.idAt (a, k) }) hn (by
          intro m hm
          simp only [State.setItem, Function.update_self, hrest m hm]
          exact hflags m (List.mem_cons_of_mem _ hm))
      have hd' : (s.item (a, k)).data = some y := hd
      refine ⟨s', ?_, hlive, hbuilt, ?_, fun x => ?_⟩
      · rw [if_pos hflag, destroyAt_eq hd', show (s.item (a, k)).enable = true from hflag]
        exact hs'
      · intro b hb
        rw [hother b hb]
        exact Function.update_of_ne hb _ _
      · have hsame : (ks.map fun m => ((s.setItem (a, k) ⟨true, none⟩).mem a m).holds x)
            = ks.map fun m => (s.mem a m).holds x := by
          refine List.map_congr_left fun m hm => ?_
          simp only [State.setItem, Function.update_self, hrest m hm]
        rw [hcount, List.map_cons, List.sum_cons, ← hsame]
        show (s.destroyed ++ s.idAt (a, k)).count x + _ = _
        rw [List.count_append, count_idAt]
        exact Nat.add_assoc _ _ _

theorem destroyChunk_spec {a : ℕ}
    (hflags : ∀ k < extendArraySize, (s.mem a k).enable = (s.mem a k).data.isSome) :
    ∃ s', destroyChunk s a = some s' ∧ s'.live = s.live ∧ s'.built = s.built ∧
      (∀ b, b ≠ a → s'.mem b = s.mem b) ∧
      ∀ x, s'.destroyed.count x = s.destroyed.count x + chunkHolds s x a :=
  destroyItems List.nodup_range fun k hk => hflags k (List.mem_range.mp hk)

theorem destroyChunks {as : List ℕ} (hn : as.Nodup)
    (hflags : ∀ a ∈ as, ∀ k < extendArraySize, (s.mem a k).enable = (s.mem a k).data.isSome) :
    ∃ s', as.foldlM (fun s a => (destroyChunk s a).map fun s => { s with live := s.live.erase a }) s
        = some s' ∧ s'.built = s.built ∧ s'.live = s.live.diff as ∧
      ∀ x, s'.destroyed.count x = s.destroyed.count x + (as.map (chunkHolds s x)).sum := by
  induction as generalizing s with
  | nil => exact ⟨s, rfl, rfl, rfl, fun x => by simp⟩
  | cons a as ih =>
    obtain ⟨ha, hn⟩ := List.nodup_cons.mp hn
    obtain ⟨t, ht, hlive, hbuilt, hother, hcount⟩ := destroyChunk_spec (hflags a List.mem_cons_self)
    have hrest : ∀ b ∈ as, t.mem b = s.mem b := fun b hb => hother b fun heq => ha (heq ▸ hb)
    obtain ⟨s', hs', hbuilt', hlive', hcount'⟩ := ih (s := { t with live := t.live.erase a }) hn (by
      intro b hb k hk
      simp only [hrest b hb]
      exact hflags b (List.mem_cons_of_mem _ hb) k hk)
    refine ⟨s', ?_, hbuilt'.trans hbuilt, ?_, fun x => ?_⟩
    · rw [List.foldlM_cons, ht]
      exact hs'
    · rw [hlive', List.diff_cons, hlive]
    · have hsame : as.map (chunkHolds { t with live := t.live.erase a } x)
          = as.map (chunkHolds s x) :=
        List.map_congr_left fun b hb => by simp only [chunkHolds, hrest b hb]
      rw [hcount', hsame, List.map_cons, List.sum_cons]
      show t.destroyed.count x + _ = _
      rw [hcount x]
      omega

/-- The destructor destroys what still lives, so that every object has been destroyed once. -/
theorem destruct_spec (h : Inv size s) :
    ∃ s', destruct s = some s' ∧ s'.built = s.built ∧
      ∀ x, s'.destroyed.count x = if x < s.built then 1 else 0 := by
  obtain ⟨s', hs', hbuilt, -, hcount⟩ := destroyChunks h.nodup h.flags
  exact ⟨s', hs', hbuilt, fun x => (hcount x).trans (h.ledger x)⟩

/-! ## The array is the map of its last values -/

/-- In every state that a sequence of calls reaches: lookups answer the last value of an index and
nothing else; what is stored never moves and other indexes' calls leave it alone; the capacity is a
multiple of the chunk size above every index set; no call is undefined; and the destructor leaves
every object destroyed once. -/
theorem run_refines_map {ops : List (Op T)} (h : Run size Op.AllocOk ops s) :
    (∀ i, test s i = (get s i).isSome ∧ (get s i).isSome = (lastValue ops i).isSome ∧
      ∀ p, get s i = some p →
        data s i = some p ∧ (s.item p).data.map Prod.snd = lastValue ops i) ∧
    (∀ more s', Steps size Op.AllocOk s more s' →
      (∀ i p, itemOf s i = some p → itemOf s' i = some p) ∧
      ∀ j, (∀ op ∈ more, op.touches j = false) → get s' j = get s j ∧ look s' j = look s j) ∧
    (extendArraySize ∣ capacity s ∧ ∀ i gs ctor, Op.set i gs ctor ∈ ops → i < capacity s) ∧
    (∀ op s' o, Legal s op → op.AllocOk → perform size s op = some (s', o) → o.isDefined = true) ∧
    ∃ s', destruct s = some s' ∧ s'.built = s.built ∧
      ∀ x, s'.destroyed.count x = if x < s.built then 1 else 0 := by
  obtain ⟨g, s₀, hg, hr⟩ := h
  obtain ⟨h₀, hnone⟩ := construct_inv hg
  have hi : Inv size s := hr.inv h₀
  have hlook := hr.look_eq h₀ hnone
  refine ⟨fun i => ⟨test_eq s i, ?_, ?_⟩, ?_, ⟨?_, ?_⟩, ?_, destruct_spec hi⟩
  · rw [← hlook i, Option.isSome_map, hi.isSome_look, test_eq]
  · intro p hp
    have hitem : itemOf s i = some p := by
      cases hq : itemOf s i with
      | none => rw [hi.get_eq_none hq] at hp; cases hp
      | some q =>
        rw [hi.get_eq hq] at hp
        split_ifs at hp
        exact hp
    refine ⟨hitem, ?_⟩
    rw [← hlook i, hi.look_eq hitem]
  · intro more s' hmore
    exact ⟨hmore.stays hi, fun j hj => hmore.frame hi hj⟩
  · exact ⟨s.baseArray.length, by rw [hi.capacity_eq, Nat.mul_comm]⟩
  · intro i gs ctor hmem
    exact (hi.lt_capacity_iff i).mpr (hr.room h₀ hmem)
  · intro op s' o hl ha hp
    exact perform_isDefined hi hl ha hp

/-- A run over two chunks: two indexes set, one of them set again with a constructor that throws,
the other one reset and set once more. -/
theorem exists_run_two_chunks : ∃ s : State ℕ, Run 1 Op.AllocOk
    [.set 3 [] (some 7), .set 70 [⟨some 1000, true⟩] (some 8), .set 3 [] none, .reset 70,
      .set 70 [] (some 9)] s :=
  ⟨_, ⟨some 64, true⟩, _, rfl,
    (((((Steps.nil.snoc (.set 3 [] (some 7)) trivial (by simp [Op.AllocOk]) rfl rfl).snoc
      (.set 70 [⟨some 1000, true⟩] (some 8)) trivial (by simp [Op.AllocOk]) rfl rfl).snoc
      (.set 3 [] none) trivial (by simp [Op.AllocOk]) rfl rfl).snoc
      (.reset 70) (by show test _ 70 = true; rfl) trivial rfl rfl).snoc
      (.set 70 [] (some 9)) trivial (by simp [Op.AllocOk]) rfl rfl)⟩

theorem run_refines_map_two_chunks : ∃ s : State ℕ,
    test s 3 = false ∧ test s 70 = true ∧ 70 < capacity s ∧ ∃ s', destruct s = some s' := by
  obtain ⟨s, h⟩ := exists_run_two_chunks
  obtain ⟨hlook, -, ⟨-, hcap⟩, -, s', hs', -⟩ := run_refines_map h
  refine ⟨s, ?_, ?_, hcap 70 [] (some 9) (by simp), s', hs'⟩
  · rw [(hlook 3).1, (hlook 3).2.1]
    rfl
  · rw [(hlook 70).1, (hlook 70).2.1]
    rfl

/-! ## A failing `set` -/

/-- The exception reaches the caller with every `item_of` in range, the other indexes are as they
were, and the index itself is as it was or unset. -/
def Confined (s : State T) (index : ℕ) (r : State T × Outcome) : Prop :=
  r.2 = .throws ∧
    (∀ j, j ≠ index → test r.1 j = test s j ∧ get r.1 j = get s j ∧ look r.1 j = look s j) ∧
    (test r.1 index = false ∨ get r.1 index = get s index ∧ look r.1 index = look s index)

/-- A `set` that fails is confined to its index exactly when all the growth it needs succeeds, so
that the failure is the constructor's. -/
theorem set_confined_iff {ops : List (Op T)} (h : Run size (fun _ => True) ops s) {index : ℕ}
    {gs : List Growth} {ctor : Option T} {r : State T × Outcome}
    (hset : set size s index gs ctor = some r)
    (hfail : ctor = none ∨ ∃ g ∈ needed s index gs, ¬ g.Succeeds) :
    Confined s index r ↔ ∀ g ∈ needed s index gs, g.Succeeds := by
  obtain ⟨g, s₀, hg, hr⟩ := h
  have hi : Inv size s := hr.inv (construct_inv hg).1
  obtain ⟨s', o⟩ := r
  constructor
  · rintro ⟨hthrows, -, -⟩
    rcases set_spec hi hset with ⟨rfl, -⟩ | ⟨hall, -⟩
    · cases hthrows
    · exact hall
  · intro hall
    have hctor : ctor = none := by
      rcases hfail with hc | ⟨g, hg, hbad⟩
      · exact hc
      · exact absurd (hall g hg) hbad
    have hdef : o.isDefined = true := by
      rcases set_spec hi hset with ⟨-, hbad⟩ | ⟨-, _, _, -, -, -, ⟨_, -, -, rfl⟩ | ⟨-, -, rfl⟩⟩
      · exact absurd hall hbad
      · rfl
      · rfl
    have hperform : perform size s (.set index gs ctor) = some (s', o) := hset
    obtain ⟨hi', heff⟩ := perform_spec hi (show Legal s (.set index gs ctor) from trivial) hperform hdef
    refine ⟨?_, ?_, .inl ?_⟩
    · rcases set_spec hi hset with ⟨-, hbad⟩ | ⟨-, _, _, -, -, -, ⟨_, hv, -, -⟩ | ⟨-, -, ho⟩⟩
      · exact absurd hall hbad
      · rw [hctor] at hv
        cases hv
      · exact ho
    · intro j hj
      obtain ⟨hlook, hget⟩ := heff.frame j (by simp [Op.touches, Ne.symm hj])
      exact ⟨by rw [test_eq, test_eq, hget], hget, hlook⟩
    · have hval := heff.value index (by simp [Op.touches])
      rw [← hi'.isSome_look, ← Option.isSome_map (f := Prod.snd), hval, hctor]
      rfl

/-- An index beyond the first chunk: the growth succeeds, the constructor throws. -/
theorem set_confined_second_chunk : ∃ (s : State ℕ) (r : State ℕ × Outcome),
    set 1 s 70 [⟨some 1000, true⟩] none = some r ∧ Confined s 70 r := by
  have hrun : ∃ s : State ℕ, construct 1 ⟨some 64, true⟩ = some (s, true) ∧
      ∃ r, set 1 s 70 [⟨some 1000, true⟩] none = some r := ⟨_, rfl, _, rfl⟩
  obtain ⟨s, hs, r, hr⟩ := hrun
  refine ⟨s, r, hr, (set_confined_iff ⟨_, s, hs, .nil⟩ hr (.inl rfl)).mpr ?_⟩
  intro g hg
  have hmem := List.mem_of_mem_take hg
  rw [List.mem_singleton] at hmem
  rw [hmem]
  decide

/-- The chunk of index 64 cannot be allocated, and `revert` reads past the vector. -/
theorem set_not_confined_no_memory : ∃ (s : State ℕ) (r : State ℕ × Outcome),
    Run 1 (fun _ => True) [] s ∧ set 1 s 64 [⟨none, true⟩] (some 5) = some r ∧
      r.2 = .outOfRange ∧ ¬ Confined s 64 r := by
  refine ⟨_, _, ⟨⟨some 64, true⟩, _, rfl, .nil⟩, rfl, rfl, ?_⟩
  rintro ⟨h, -, -⟩
  cases h

end Mpio.SparseArray
