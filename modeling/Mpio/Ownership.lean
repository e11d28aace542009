import Mpio.StreamBuffer.Retain
import Mpio.SharedBuffer.Safety

/-!
# Shared ownership of chunks

Both buffers count the owners of a chunk by hand, over references that are constructed, copied,
swapped, cleared and destroyed. `accesses` lists the counter operations of each call, in the order of
the source. Over the runs in which no chunk gets `2 ^ 32` owners and no reference is copied that the
copy constructor cannot copy, every counter is the number of owners, the live chunks are the owned
ones, and no counter operation meets a null or freed chunk (`Shares`). Sizes do not matter here.

The copy constructors restrict the runs:

* `stream_buffer::ref` initialises `m_array` with itself. What the copy holds does not depend on the
  source, so no copy is right whatever was in memory (`copyRef_not_right`).
* `shared_buffer::ref` increments the counter at `m` without the null test that `clear` makes. It is
  right for every reference but the empty one (`copyRef_sound_iff`).
-/

namespace Mpio

open Lib Lib.Heap

namespace StreamBuffer

variable {s s' : State} {b : Buf} {o : Outcome}

/-! ## `stream_buffer` -/

/-- The counter operations of a call. `init_count` is left out: it meets the block that `malloc` has
just returned. -/
def accesses (s : State) : RefOp → List Access
  | .base (.reserveBegin _ _) =>
    match s.buf with
    | some b => if b.mUsed = b.mOff then [.get (some b.mBuffer)] else []
    | none => []
  | .base (.reserveEnd _ _) =>
    match s.buf, s.inReserve with
    | some b, some (len, _) =>
      if b.mFree < len ∧ b.mOff = sizeofCount then [.get (some b.mBuffer)] else []
    | _, _ => []
  | .base (.retainTo i vec) =>
    match s.buf, s.refs[i]? with
    | some b, some r => if vec then .incr (some b.mBuffer) :: decrs r.mArray else []
    | _, _ => []
  | .base (.clearRef i) =>
    match s.refs[i]? with
    | some r => decrs r.mArray
    | none => []
  | .base .destroy =>
    match s.buf with
    | some b => .decr (some b.mBuffer) :: decrs b.mRef
    | none => []
  | .copyRef _ own => own.map fun d => .incr (some d)
  | _ => []

/-- The calls that neither allocate nor fill. -/
def RefOp.CountsOnly : RefOp → Prop
  | .base (.construct _ _) | .base (.reserveEnd _ _) | .base (.write _ _) => False
  | _ => True

theorem heap_eq_accesses {op : RefOp} (hop : op.CountsOnly) (hp : performRef s op = some (s', o)) :
    s'.heap = (accesses s op).foldl Access.apply s.heap := by
  cases op with
  | retain =>
    simp only [performRef] at hp
    split at hp
    · obtain ⟨rfl, -⟩ := Prod.mk.inj (Option.some.inj hp)
      rfl
    · cases hp
  | copyRef i own =>
    simp only [performRef] at hp
    split at hp
    · obtain ⟨rfl, -⟩ := Prod.mk.inj (Option.some.inj hp)
      rw [accesses, List.foldl_map]
      rfl
    · cases hp
  | base op =>
    cases perform_cases hp with
    | constructFailed _ | construct _ _ | reserveRoom _ _ _ | reserveExpand _ _ _ _ | write _ _ _ _ =>
      exact hop.elim
    | reserveBegin hbuf hres =>
      simp only [accesses, hbuf]
      split_ifs <;> rfl
    | bufferFilled hbuf hres hlen => rfl
    | dataConsumed hbuf hres hlen => rfl
    | retainFailed hbuf hres hr =>
      simp only [accesses, hbuf, hr]
      rfl
    | retainTo hbuf hres hr =>
      simp only [accesses, hbuf, hr]
      exact (foldl_decrs _ _).symm
    | newRef => rfl
    | swapRefs hi hj => rfl
    | clearRef hi =>
      simp only [accesses, hi]
      exact (foldl_decrs _ _).symm
    | destroy hbuf hres =>
      simp only [accesses, hbuf]
      exact (foldl_decrs _ _).symm

theorem accesses_sound {op : RefOp} (h : Counts s.heap (owners s)) (hop : Counted s op) :
    Sound s.heap (accesses s op) := by
  have hcur : ∀ b, s.buf = some b → b.mBuffer ∈ owners s := by
    intro b hbuf
    simp [owners, hbuf, bufOwners]
  cases op with
  | retain => trivial
  | copyRef i own => exact hop.elim
  | base op =>
    cases op with
    | reserveBegin len init =>
      simp only [accesses]
      split
      · rename_i b hbuf
        split_ifs
        · exact h.sound_get (hcur b hbuf)
        · trivial
      · trivial
    | reserveEnd mem vec =>
      simp only [accesses]
      split
      · rename_i b len init hbuf hres
        split_ifs
        · exact h.sound_get (hcur b hbuf)
        · trivial
      · trivial
    | retainTo i vec =>
      simp only [accesses]
      split
      · rename_i b r hbuf hi
        split_ifs
        · have hinc := h.incr (hcur b hbuf) (hop b hbuf)
          rw [owners_retainTo hbuf hi []] at hinc
          exact ⟨⟨b.mBuffer, rfl, h.live _ (hcur b hbuf)⟩, hinc.sound_decrs⟩
        · trivial
      · trivial
    | clearRef i =>
      simp only [accesses]
      split
      · rename_i r hi
        rw [owners_clearRef hi] at h
        exact h.sound_decrs
      · trivial
    | destroy =>
      simp only [accesses]
      split
      · rename_i b hbuf
        rw [owners, hbuf, bufOwners, Multiset.cons_add] at h
        exact ⟨⟨b.mBuffer, rfl, h.live _ (Multiset.mem_cons_self _ _)⟩, h.decr.sound_decrs⟩
      · trivial
    | construct _ _ | write _ _ | bufferFilled _ | dataConsumed _ | newRef | swapRefs _ _ => trivial

/-- Chunks are owned in common: counters count owners, a chunk is live while it has one, and it is freed
by the call that takes the last one away. -/
structure Shares (s : State) : Prop where
  counted : ∀ d c, s.heap d = some c → c.count = (owners s).count d
  live : ∀ d, (s.heap d).isSome ↔ d ∈ owners s
  sound : ∀ op, Counted s op → Sound s.heap (accesses s op)
  freed : ∀ op s' o, Counted s op → performRef s op = some (s', o) →
    ∀ d, (s.heap d).isSome ∧ ¬ (s'.heap d).isSome ↔ d ∈ owners s ∧ d ∉ owners s'

theorem reachable_shares (h : refSystem.Reachable Counted s) : Shares s := by
  have hc := reachable_counts h
  refine ⟨fun d c hd => (hc.count d c hd).1, hc.isSome_iff, fun op hop => accesses_sound hc hop, ?_⟩
  intro op s' o hop hp d
  rw [hc.isSome_iff, (performRef_counts hc hop hp).isSome_iff]

/-- The copy at the end of the list holds the chunks that its source holds. -/
def CopyRight (s s' : State) (i : ℕ) : Prop :=
  ∃ r r', s.refs[i]? = some r ∧ s'.refs = s.refs ++ [r'] ∧ r'.mArray = r.mArray

/-- No copy is right whatever its memory held before: the constructor does not read the source. -/
theorem copyRef_not_right (s : State) {i : ℕ} {r : Ref} (hi : s.refs[i]? = some r) :
    ¬ ∀ own s' o, performRef s (.copyRef i own) = some (s', o) → CopyRight s s' i := by
  intro hall
  obtain ⟨r₁, r₂, hr₁, hrefs, harray⟩ := hall (0 :: r.mArray) _ _ (by simp only [performRef, hi]; rfl)
  obtain rfl := Option.some.inj (hi.symm.trans hr₁)
  obtain rfl := List.singleton_inj.mp (List.append_cancel_left hrefs)
  exact List.cons_ne_self _ _ harray

end StreamBuffer

namespace SharedBuffer

open StreamBuffer (sizeofCount Alloc)

variable {s s' : State} {b : Buf} {o : Outcome}

/-! ## `shared_buffer` -/

/-- The counter operations of a call. The copy constructor does not test its pointer. -/
def accesses (s : State) : Op → List Access
  | .reserveBegin _ _ =>
    match s.buf with
    | some b => [.get (some b.mBuffer)]
    | none => []
  | .reserveExpand _ =>
    match s.buf, s.inReserve with
    | some b, some (.counted len _) =>
      if b.mFree < len ∧ b.mUsed = sizeofCount then [.get (some b.mBuffer)] else []
    | _, _ => []
  | .reserveEnd | .destroy =>
    match s.buf with
    | some b => [.decr (some b.mBuffer)]
    | none => []
  | .hold _ =>
    match s.buf with
    | some b => [.incr (some b.mBuffer)]
    | none => []
  | .copyRef i =>
    match s.refs[i]? with
    | some r => [.incr r.m]
    | none => []
  | .clearRef i =>
    match s.refs[i]? with
    | some r => decrs r.m.toList
    | none => []
  | _ => []

/-- The calls that neither allocate nor fill. -/
def Op.CountsOnly : Op → Prop
  | .construct _ _ | .reserveExpand _ | .write _ _ => False
  | _ => True

theorem heap_eq_accesses {op : Op} (hop : op.CountsOnly) (hp : perform s op = some (s', o)) :
    s'.heap = (accesses s op).foldl Access.apply s.heap := by
  cases perform_cases hp with
  | constructFailed _ | construct _ _ | reserveRoom _ _ _ | reserveExpand _ _ _ _ | write _ _ _ _ =>
    exact hop.elim
  | reserveBegin hbuf hres | reserveEnd hbuf hres | hold hbuf hres | destroy hbuf hres =>
    simp only [accesses, hbuf]
    rfl
  | skip hbuf hres => rfl
  | newRef => rfl
  | swapRefs hi hj => rfl
  | copyRef hi | clearRef hi | clearNull hi =>
    simp only [accesses, hi]
    rfl

/-- No empty reference is copied and no chunk gets `2 ^ 32` owners. -/
def Counted (s : State) (op : Op) : Prop :=
  OwnersOk s op ∧ ∀ i r, op = .copyRef i → s.refs[i]? = some r → r.m ≠ none

/-- Counters count owners; a `reserve_buffer` call is under way only on a buffer. -/
structure Owned (s : State) : Prop where
  counts : Counts s.heap (owners s)
  idle : s.buf = none → s.inReserve = none

theorem Owned.counts_of_buf (h : Owned s) (hbuf : s.buf = some b) (hres : s.inReserve = none) :
    Counts s.heap (b.mBuffer ::ₘ refOwners s.refs) := by
  have hc := h.counts
  rwa [owners, hbuf, hres, show bufOwners (some b) none = {b.mBuffer} from rfl,
    Multiset.singleton_add] at hc

theorem Owned.counts_of_counted (h : Owned s) (hbuf : s.buf = some b) {len init : ℕ}
    (hres : s.inReserve = some (.counted len init)) : Counts s.heap (b.mBuffer ::ₘ refOwners s.refs) := by
  have hc := h.counts
  rwa [owners, hbuf, hres, show bufOwners (some b) (some (.counted len init)) = {b.mBuffer} from rfl,
    Multiset.singleton_add] at hc

theorem owned_of_counts (hbuf : s.buf = some b) (hres : ∀ len d n, s.inReserve ≠ some (.allocated len d n))
    (hc : Counts s.heap (b.mBuffer ::ₘ refOwners s.refs)) : Owned s := by
  refine ⟨?_, fun hnone => absurd (hbuf.symm.trans hnone) (Option.some_ne_none b)⟩
  have hown : bufOwners (some b) s.inReserve = {b.mBuffer} := by
    cases hr : s.inReserve with
    | none => rfl
    | some p =>
      cases p with
      | counted len init => rfl
      | allocated len d n => exact absurd hr (hres len d n)
  rw [owners, hbuf, hown, Multiset.singleton_add]
  exact hc

theorem expandBuffer_owned {len init : ℕ} {mem : Alloc} (h : Owned s) (hbuf : s.buf = some b)
    (hres : s.inReserve = some (.counted len init))
    (he : expandBuffer s b len init mem = some (s', o)) : Owned s' := by
  have hc := h.counts_of_counted hbuf hres
  cases expandBuffer_expands he with
  | resizeLoops hresize hn => exact h
  | resizeFailed hresize => exact owned_of_counts hbuf (by simp) hc
  | @resized _ d junk c hresize hn hcell hd =>
    simp only [resizes, Bool.and_eq_true, beq_iff_eq] at hresize
    have hone : c.count = 1 := by simpa [getCount, hcell] using hresize.2
    exact owned_of_counts rfl (by simp) (hc.realloc hcell hone hd _)
  | allocLoops hresize hn => exact h
  | allocFailed hresize => exact owned_of_counts hbuf (by simp) hc
  | allocated hresize hn hd =>
    refine ⟨?_, fun hnone => absurd (hbuf.symm.trans hnone) (Option.some_ne_none b)⟩
    rw [owners, show s.buf = some b from hbuf, bufOwners, Multiset.insert_eq_cons, Multiset.cons_add,
      Multiset.singleton_add, Multiset.cons_swap]
    exact hc.alloc hd _

theorem perform_owned {op : Op} (h : Owned s) (hop : OwnersOk s op) (hp : perform s op = some (s', o)) :
    Owned s' := by
  cases perform_cases hp with
  | constructFailed hbuf => exact h
  | @construct init d junk hbuf hd =>
    have hres := h.idle hbuf
    have hc := h.counts.alloc hd (fresh (max init sizeofCount) junk)
    refine owned_of_counts rfl (by simp [hres]) ?_
    simpa [owners, hbuf, bufOwners] using hc
  | reserveBegin hbuf hres =>
    refine owned_of_counts rfl (by simp) ?_
    have hc := h.counts_of_buf hbuf hres
    split_ifs
    · exact hc
    · exact hc
  | reserveRoom hbuf hres hroom =>
    exact owned_of_counts hbuf (by simp) (h.counts_of_counted hbuf hres)
  | reserveExpand hbuf hres hlt he => exact expandBuffer_owned h hbuf hres he
  | reserveEnd hbuf hres =>
    have hc := h.counts
    rw [owners, hbuf, hres, bufOwners, Multiset.insert_eq_cons, Multiset.cons_add,
      Multiset.singleton_add] at hc
    exact owned_of_counts rfl (by simp) hc.decr
  | write hbuf hres hpos hc => exact ⟨h.counts.setData hc _, h.idle⟩
  | @hold len b hbuf hres =>
    have hc := h.counts_of_buf hbuf hres
    have hcount := hop b hbuf
    rw [owners, hbuf, hres, show bufOwners (some b) none = {b.mBuffer} from rfl,
      Multiset.singleton_add] at hcount
    refine owned_of_counts rfl (by simp [hres]) ?_
    rw [refOwners_append_live]
    exact hc.incr (Multiset.mem_cons_self _ _) hcount
  | skip hbuf hres =>
    have hc := h.counts_of_buf hbuf hres
    exact owned_of_counts rfl (by simp [hres]) hc
  | newRef =>
    refine ⟨?_, h.idle⟩
    rw [owners, refOwners_append_null]
    exact h.counts
  | @copyRef i d k hi =>
    have hmem : d ∈ refOwners s.refs := mem_refOwners.mpr ⟨_, List.mem_of_getElem? hi, rfl⟩
    refine ⟨?_, h.idle⟩
    rw [owners, refOwners_append_live, Multiset.add_cons]
    exact h.counts.incr (Multiset.mem_add.mpr (.inr hmem)) (hop _ hi d rfl)
  | swapRefs hi hj =>
    refine ⟨?_, h.idle⟩
    rw [owners, refOwners, sum_map_swap _ hi hj]
    exact h.counts
  | clearRef hi =>
    have hc := h.counts
    rw [owners_clearRef hi] at hc
    exact ⟨hc.decr, h.idle⟩
  | clearNull hi => exact h
  | destroy hbuf hres =>
    refine ⟨?_, fun _ => hres⟩
    simpa [owners, bufOwners] using (h.counts_of_buf hbuf hres).decr

theorem reachable_owned (h : system.Reachable Counted s) : Owned s := by
  refine h.invariant ?_ ?_
  · rintro s rfl
    exact ⟨inv_start.counts, fun _ => rfl⟩
  · intro s op s' _ hi hop hstep
    obtain ⟨⟨s₁, o⟩, hp, rfl⟩ := Option.map_eq_some_iff.mp hstep
    exact perform_owned hi hop.1 hp

theorem accesses_sound {op : Op} (h : Owned s) (hop : Counted s op) : Sound s.heap (accesses s op) := by
  have hcur : ∀ b, s.buf = some b → (s.heap b.mBuffer).isSome := by
    intro b hbuf
    refine h.counts.live _ (Multiset.mem_add.mpr (.inl ?_))
    rw [hbuf]
    exact mem_bufOwners b _
  have href : ∀ (i : ℕ) (r : Ref) (d : ℕ), s.refs[i]? = some r → r.m = some d → (s.heap d).isSome := by
    intro i r d hi hd
    refine h.counts.live _ (Multiset.mem_add.mpr (.inr ?_))
    exact mem_refOwners.mpr ⟨r, List.mem_of_getElem? hi, hd⟩
  cases op with
  | reserveBegin _ _ | reserveEnd | hold _ | destroy =>
    simp only [accesses]
    split
    · rename_i b hbuf
      exact ⟨⟨b.mBuffer, rfl, hcur b hbuf⟩, trivial⟩
    · trivial
  | reserveExpand _ =>
    simp only [accesses]
    split
    · rename_i b len init hbuf hres
      split_ifs
      · exact ⟨⟨b.mBuffer, rfl, hcur b hbuf⟩, trivial⟩
      · trivial
    · trivial
  | copyRef i =>
    simp only [accesses]
    split
    · rename_i r hi
      obtain ⟨d, hd⟩ := Option.ne_none_iff_exists'.mp (hop.2 i r rfl hi)
      exact ⟨⟨d, hd, href i r d hi hd⟩, trivial⟩
    · trivial
  | clearRef i =>
    simp only [accesses]
    split
    · rename_i r hi
      cases hd : r.m with
      | none => trivial
      | some d => exact ⟨⟨d, rfl, href i r d hi hd⟩, trivial⟩
    · trivial
  | construct _ _ | write _ _ | skip _ | newRef | swapRefs _ _ => trivial

/-- The copy at the end of the list holds the chunk that its source holds. -/
def CopyRight (s s' : State) (i : ℕ) : Prop :=
  ∃ r r', s.refs[i]? = some r ∧ s'.refs = s.refs ++ [r'] ∧ r'.m = r.m

/-- Chunks are owned in common: counters count owners, a chunk is live while it has one, it is freed by
the call that takes the last one away, and a copy holds what its source holds. -/
structure Shares (s : State) : Prop where
  counted : ∀ d c, s.heap d = some c → c.count = (owners s).count d
  live : ∀ d, (s.heap d).isSome ↔ d ∈ owners s
  sound : ∀ op, Counted s op → Sound s.heap (accesses s op)
  freed : ∀ op s' o, Counted s op → perform s op = some (s', o) →
    ∀ d, (s.heap d).isSome ∧ ¬ (s'.heap d).isSome ↔ d ∈ owners s ∧ d ∉ owners s'
  copies : ∀ i s' o, perform s (.copyRef i) = some (s', o) → CopyRight s s' i

theorem reachable_shares (h : system.Reachable Counted s) : Shares s := by
  have ho := reachable_owned h
  refine ⟨fun d c hd => (ho.counts.count d c hd).1, ho.counts.isSome_iff, fun op hop => accesses_sound ho hop,
    ?_, ?_⟩
  · intro op s' o hop hp d
    rw [ho.counts.isSome_iff, (perform_owned ho hop.1 hp).counts.isSome_iff]
  · intro i s' o hp
    cases perform_cases hp with
    | copyRef hi => exact ⟨_, _, hi, rfl, rfl⟩

theorem copyRef_sound_iff (h : Owned s) {i : ℕ} {r : Ref} (hi : s.refs[i]? = some r) :
    Sound s.heap (accesses s (.copyRef i)) ↔ r.m ≠ none := by
  simp only [accesses, hi]
  constructor
  · rintro ⟨⟨d, hd, -⟩, -⟩ hnone
    rw [show Access.target (.incr r.m) = r.m from rfl, hnone] at hd
    cases hd
  · intro hne
    obtain ⟨d, hd⟩ := Option.ne_none_iff_exists'.mp hne
    refine ⟨⟨d, hd, h.counts.live d (Multiset.mem_add.mpr (.inr ?_))⟩, trivial⟩
    exact mem_refOwners.mpr ⟨r, List.mem_of_getElem? hi, hd⟩

end SharedBuffer

/-! ## Both buffers -/

/-- Ownership is shared over every run without a copy of a `stream_buffer::ref` and without a copy of an
empty `shared_buffer::ref`. The first copy is right in no state; the second is what a sound copy excludes. -/
theorem refs_share {s : StreamBuffer.State} {t : SharedBuffer.State}
    (hs : StreamBuffer.refSystem.Reachable StreamBuffer.Counted s)
    (ht : SharedBuffer.system.Reachable SharedBuffer.Counted t) :
    (StreamBuffer.Shares s ∧
      ∀ i r, s.refs[i]? = some r → ¬ ∀ own s' o,
        StreamBuffer.performRef s (.copyRef i own) = some (s', o) → StreamBuffer.CopyRight s s' i) ∧
    SharedBuffer.Shares t ∧
      ∀ i r, t.refs[i]? = some r →
        (Sound t.heap (SharedBuffer.accesses t (.copyRef i)) ↔ r.m ≠ none) := by
  constructor
  · exact ⟨StreamBuffer.reachable_shares hs, fun i r hi => StreamBuffer.copyRef_not_right s hi⟩
  · exact ⟨SharedBuffer.reachable_shares ht,
      fun i r hi => SharedBuffer.copyRef_sound_iff (SharedBuffer.reachable_owned ht) hi⟩

theorem StreamBuffer.exists_copied :
    ∃ s s', refSystem.Reachable Counted s ∧ s.refs.map (·.mArray) = [[0]] ∧
      performRef s (.copyRef 0 []) = some (s', .ok) ∧ s'.refs.map (·.mArray) = [[0], []] := by
  refine ⟨_, _, (((System.Reachable.init rfl).step
    (a := RefOp.base (.construct 16 (some (0, fun _ => 0)))) trivial rfl).step
    (a := RefOp.base .newRef) trivial rfl).step
    (a := RefOp.base (.retainTo 0 true)) ?_ rfl, rfl, rfl, rfl⟩
  show OwnersOk _ (.retainTo 0 true)
  decide

/-- A chunk retained by a `stream_buffer::ref`, and a `shared_buffer::ref` held, copied and released. -/
theorem refs_share_copied :
    (∃ s, StreamBuffer.refSystem.Reachable StreamBuffer.Counted s ∧ s.refs.map (·.mArray) = [[0]] ∧
      StreamBuffer.Shares s) ∧
    ∃ t, SharedBuffer.system.Reachable SharedBuffer.Counted t ∧ t.refs.length = 2 ∧
      SharedBuffer.Shares t := by
  have hshared : ∃ t, SharedBuffer.system.Reachable SharedBuffer.Counted t ∧ t.refs.length = 2 := by
    refine ⟨_, ((((System.Reachable.init rfl).step
      (a := SharedBuffer.Op.construct 16 (some (0, fun _ => 0))) ⟨trivial, nofun⟩ rfl).step
      (a := SharedBuffer.Op.hold 3) ⟨?_, nofun⟩ rfl).step
      (a := SharedBuffer.Op.copyRef 0) ⟨?_, ?_⟩ rfl).step
      (a := SharedBuffer.Op.clearRef 0) ⟨trivial, nofun⟩ rfl, rfl⟩
    · decide
    · decide
    · rintro i r heq hi
      obtain rfl := SharedBuffer.Op.copyRef.inj heq
      obtain rfl := Option.some.inj hi
      exact Option.some_ne_none _
  obtain ⟨s, -, hs, harray, -, -⟩ := StreamBuffer.exists_copied
  obtain ⟨t, ht, hlen⟩ := hshared
  have hshare := refs_share hs ht
  exact ⟨⟨s, hs, harray, hshare.1.1⟩, t, ht, hlen, hshare.2.1⟩

/-- A copy of an empty `shared_buffer::ref` increments a counter at `NULL`, and the copy of a
`stream_buffer::ref` whose memory was zero holds nothing of what its source holds. -/
theorem refs_not_shared :
    (∃ s, SharedBuffer.system.Reachable SharedBuffer.Counted s ∧ s.refs[0]? = some ⟨none, 0⟩ ∧
      ¬ Sound s.heap (SharedBuffer.accesses s (.copyRef 0))) ∧
    ∃ s s', StreamBuffer.refSystem.Reachable StreamBuffer.Counted s ∧
      s.refs.map (·.mArray) = [[0]] ∧ StreamBuffer.performRef s (.copyRef 0 []) = some (s', .ok) ∧
      s'.refs.map (·.mArray) = [[0], []] := by
  constructor
  · have hs := (System.Reachable.init (S := SharedBuffer.system) (P := SharedBuffer.Counted)
      (s := SharedBuffer.start) rfl).step (a := SharedBuffer.Op.newRef) ⟨trivial, nofun⟩ rfl
    refine ⟨_, hs, rfl, ?_⟩
    rw [SharedBuffer.copyRef_sound_iff (SharedBuffer.reachable_owned hs) (i := 0) rfl]
    exact fun hne => hne rfl
  · exact StreamBuffer.exists_copied

end Mpio
