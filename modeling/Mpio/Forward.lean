import Mpio.StreamBuffer.Safety
import Mpio.Wavy.Lease

/-!
# Sending what a stream buffer holds

What `stream_buffer::ref` is for: the bytes that a handler has received are given to `loop::writev` as they
lie in the chunks of its buffer, with a reference to the chunks as the object that `object_delete` deletes
when they are sent, and the handler goes on filling its buffer. Here the two models meet. A step is one of
`out`, one of the buffer, or a `writev` of parts of a reference. The number of a chunk is its address;
after a step of the buffer the memory holds the chunks as the buffer has them (`Placed`), and may be
anything elsewhere.

The application gives a reference away once, and does not use it afterwards: it is cleared by its
finalizer, or by the `auto_ptr` of a call that threw.
-/

namespace Mpio.Forward

open Lib Wavy

/-- A part of what a reference holds: `len` bytes from `off` on of an entry of `kept`. -/
structure Part where
  entry : ℕ
  off : ℕ
  len : ℕ
  deriving DecidableEq

/-- The chunk and the bytes of the entry. -/
def Part.source (p : Part) (r : StreamBuffer.Ref) : ℕ × List UInt8 := r.kept.getD p.entry (0, [])

/-- The part lies inside the entry, and its length is a `size_t`. -/
structure Part.Valid (r : StreamBuffer.Ref) (p : Part) : Prop where
  entry : p.entry < r.kept.length
  bound : p.off + p.len ≤ (p.source r).2.length
  size : p.len < 2 ^ 64

instance (r : StreamBuffer.Ref) (p : Part) : Decidable (p.Valid r) :=
  decidable_of_iff (p.entry < r.kept.length ∧ p.off + p.len ≤ (p.source r).2.length ∧ p.len < 2 ^ 64)
    ⟨fun h => ⟨h.1, h.2.1, h.2.2⟩, fun h => ⟨h.entry, h.bound, h.size⟩⟩

/-- The entry of the vector that `writev` gets. -/
def Part.iov (r : StreamBuffer.Ref) (p : Part) : IoVec :=
  ⟨UInt64.ofNat ((p.source r).1 + (StreamBuffer.sizeofCount + p.off)), UInt64.ofNat p.len⟩

/-- The bytes that the application means. -/
def Part.bytes (r : StreamBuffer.Ref) (p : Part) : List UInt8 := slice (p.source r).2 p.off p.len

/-- The memory holds each chunk in use at its address. -/
def Placed (w : World) (s : StreamBuffer.State) : Prop :=
  ∀ d ∈ StreamBuffer.owners s, ∀ i < (StreamBuffer.bytesAt s.heap d).length,
    some (w.mem (UInt64.ofNat (d + i))) = (StreamBuffer.bytesAt s.heap d)[i]?

instance (w : World) (s : StreamBuffer.State) : Decidable (Placed w s) :=
  Multiset.decidableForallMultiset

structure State where
  lender : Lender
  buffer : StreamBuffer.State
  meant : ℕ → List (List Item)

/-- `&object_delete<stream_buffer::ref>` is `del`; the object of reference `i` is `i`. -/
def token (del : UInt64) (i : ℕ) : Finalizer := (del, UInt64.ofNat i)

def State.given (del : UInt64) (s : State) (i : ℕ) : Prop :=
  token del i ∈ s.lender.calls.map Call.token

instance (del : UInt64) (s : State) (i : ℕ) : Decidable (s.given del i) :=
  inferInstanceAs (Decidable (_ ∈ _))

/-- The object has been deleted, or its call has thrown. -/
def State.back (del : UInt64) (s : State) (i : ℕ) : Prop :=
  token del i ∈ s.lender.book.state.invoked ∨ token del i ∈ s.lender.book.thrown

instance (del : UInt64) (s : State) (i : ℕ) : Decidable (s.back del i) :=
  inferInstanceAs (Decidable (_ ∨ _))

inductive Action
  | out (act : Wavy.Action)
  | buffer (op : StreamBuffer.Op) (world : World)
  | send (fd i : ℕ) (parts : List Part) (stack : ℕ → UInt8) (as : List Answer) (junk : Xfer.Junk)

/-- `loop::writev` with the parts of a reference. -/
def call (del : UInt64) (r : StreamBuffer.Ref) (i : ℕ) (parts : List Part) : Call :=
  .writev (parts.map (·.iov r)) del (UInt64.ofNat i)

/-- What it is meant to send. -/
def meaning (del : UInt64) (r : StreamBuffer.Ref) (i : ℕ) (parts : List Part) : List Item :=
  (parts.flatMap (·.bytes r)).map .byte ++ [.fin del (UInt64.ofNat i)]

def step (n m : ℕ) (mc : Memcpy) (del : UInt64) (s : State) : Action → Option State
  | .out act => (s.lender.step n m mc act).map fun l => { s with lender := l }
  | .buffer op world =>
    (StreamBuffer.perform s.buffer op).bind fun r =>
      (s.lender.step n m mc (.rewrite world)).map fun l => { s with lender := l, buffer := r.1 }
  | .send fd i parts stack as junk =>
    (s.buffer.refs[i]?).bind fun r =>
      (s.lender.step n m mc (.submit fd (call del r i parts) stack as junk)).map fun l =>
        { s with lender := l, meant := Function.update s.meant fd (s.meant fd ++ [meaning del r i parts]) }

/-- What the threads of the loop do. -/
def Quiet : Wavy.Action → Prop
  | .writeEvent .. | .goOn .. | .pollWait .. | .pollPush | .next => True
  | .write .. | .submit .. | .commit .. | .push .. | .migrate .. | .clearXfer .. | .rewrite .. => False

/-- What the application does not do with a reference that it has given away. -/
def Kept (del : UInt64) (s : State) : StreamBuffer.Op → Prop
  | .retainTo i _ => ¬ s.given del i
  | .swapRefs i j => ¬ s.given del i ∧ ¬ s.given del j
  | .clearRef i => s.given del i → s.back del i
  | _ => True

/-- The discipline of the application, with what the steps of `out` have to meet. -/
def Allowed (meets : Book → Wavy.Action → Prop) (del : UInt64) (s : State) : Action → Prop
  | .out act => Quiet act ∧ meets s.lender.book act
  | .buffer op world =>
    StreamBuffer.Admissible s.buffer op ∧
    (∀ r ∈ StreamBuffer.perform s.buffer op, Placed world r.1) ∧ Kept del s op
  | .send fd i parts stack as junk =>
    ¬ s.given del i ∧ ∀ r ∈ s.buffer.refs[i]?, (∀ p ∈ parts, p.Valid r) ∧
      meets s.lender.book (.submit fd (call del r i parts) stack as junk)

theorem Allowed.mono {meets meets' : Book → Wavy.Action → Prop} (h : ∀ b act, meets b act → meets' b act)
    {del : UInt64} {s : State} {act : Action} (ha : Allowed meets del s act) : Allowed meets' del s act := by
  cases act with
  | out act => exact ⟨ha.1, h _ _ ha.2⟩
  | buffer op world => exact ha
  | send fd i parts stack as junk => exact ⟨ha.1, fun r hr => ⟨(ha.2 r hr).1, h _ _ (ha.2 r hr).2⟩⟩

instance (act : Wavy.Action) : Decidable (Quiet act) :=
  match act with
  | .writeEvent .. | .goOn .. | .pollWait .. | .pollPush | .next => inferInstanceAs (Decidable True)
  | .write .. | .submit .. | .commit .. | .push .. | .migrate .. | .clearXfer .. | .rewrite .. =>
    inferInstanceAs (Decidable False)

instance (del : UInt64) (s : State) (op : StreamBuffer.Op) : Decidable (Kept del s op) :=
  match op with
  | .retainTo i _ => inferInstanceAs (Decidable (¬ s.given del i))
  | .swapRefs i j => inferInstanceAs (Decidable (¬ s.given del i ∧ ¬ s.given del j))
  | .clearRef i => inferInstanceAs (Decidable (s.given del i → s.back del i))
  | .construct .. | .reserveBegin .. | .reserveEnd .. | .write .. | .bufferFilled .. | .dataConsumed ..
  | .newRef | .destroy => inferInstanceAs (Decidable True)

instance (meets : Book → Wavy.Action → Prop) [∀ b act, Decidable (meets b act)] (del : UInt64) (s : State)
    (act : Action) : Decidable (Allowed meets del s act) :=
  match act with
  | .out act => inferInstanceAs (Decidable (Quiet act ∧ meets s.lender.book act))
  | .buffer op world => inferInstanceAs (Decidable (StreamBuffer.Admissible s.buffer op ∧
    (∀ r ∈ StreamBuffer.perform s.buffer op, Placed world r.1) ∧ Kept del s op))
  | .send fd i parts stack as junk => inferInstanceAs (Decidable (¬ s.given del i ∧
    ∀ r ∈ s.buffer.refs[i]?, (∀ p ∈ parts, p.Valid r) ∧
      meets s.lender.book (.submit fd (call del r i parts) stack as junk)))

def start (world : World) : State := ⟨⟨⟨.start world, fun _ => [], [], []⟩, []⟩, StreamBuffer.start, fun _ => []⟩

def system (n m : ℕ) (mc : Memcpy) (del : UInt64) : System State Action where
  init s := ∃ world, s = start world
  step := step n m mc del

/-! ## Memory and chunks -/

variable {n m : ℕ} {mc : Memcpy} {del : UInt64} {s s' : State} {act : Action}

theorem Part.Valid.iov_eq {r : StreamBuffer.Ref} {p : Part} (hp : p.Valid r) {b : StreamBuffer.State}
    (hb : StreamBuffer.Inv b) (hr : r ∈ b.refs) {w : World} (hw : Placed w b) :
    w.iov (p.iov r) = p.bytes r := by
  have hmem : p.source r ∈ r.kept := by
    rw [Part.source, List.getD_eq_getElem?_getD, List.getElem?_eq_getElem hp.entry]
    exact List.getElem_mem hp.entry
  obtain ⟨hchunk, hkept, -⟩ := hb.kept r hr _ hmem
  have howner : (p.source r).1 ∈ StreamBuffer.owners b :=
    Multiset.mem_add.mpr (.inr (StreamBuffer.mem_refOwners.mpr ⟨r, hr, hchunk⟩))
  have hlen : (UInt64.ofNat p.len).toNat = p.len := UInt64.toNat_ofNat_of_lt hp.size
  have hbound := hp.bound
  have hroom := congrArg List.length hkept
  simp only [slice, List.length_take, List.length_drop] at hroom
  refine List.ext_getElem? fun i => ?_
  simp only [World.iov, rangeOf, Part.iov, hlen, Part.bytes, getElem?_slice, List.getElem?_map]
  by_cases hi : i < p.len
  · have hplace := hw _ howner (StreamBuffer.sizeofCount + p.off + i) (by omega)
    have haddr : UInt64.ofNat ((p.source r).1 + (StreamBuffer.sizeofCount + p.off)) + UInt64.ofNat i =
        UInt64.ofNat ((p.source r).1 + (StreamBuffer.sizeofCount + p.off + i)) := by
      rw [← UInt64.ofNat_add, Nat.add_assoc]
    have hsame := congrArg (·[p.off + i]?) hkept
    simp only [getElem?_slice] at hsame
    rw [if_pos (by omega), ← Nat.add_assoc] at hsame
    rw [List.getElem?_range hi, if_pos hi, Option.map_some, haddr, hplace, hsame]
  · rw [List.getElem?_eq_none (by simpa using hi), if_neg hi, Option.map_none]

/-- What a call denotes while its reference is there. -/
theorem items_call {r : StreamBuffer.Ref} {i : ℕ} {parts : List Part} (hdel : del ≠ 0)
    (hparts : ∀ p ∈ parts, p.Valid r) {b : StreamBuffer.State} (hb : StreamBuffer.Inv b) (hr : r ∈ b.refs)
    {w : World} (hw : Placed w b) : items w (call del r i parts).recs = meaning del r i parts := by
  have hvec : w.vec (parts.map (·.iov r)) = parts.flatMap (·.bytes r) := by
    rw [World.vec, List.flatMap_map]
    exact List.flatMap_congr fun p hp => (hparts p hp).iov_eq hb hr hw
  simp only [call, Call.recs, items, meaning, List.flatMap_cons, List.flatMap_nil, List.append_nil, Rec.items,
    finItem, if_neg hdel, hvec]

/-! ## One step -/

theorem perform_refs {b b' : StreamBuffer.State} {op : StreamBuffer.Op} {o : Outcome}
    (hp : StreamBuffer.perform b op = some (b', o)) {i : ℕ} {r : StreamBuffer.Ref} (hr : b.refs[i]? = some r)
    (hop : match op with
      | .retainTo j _ | .clearRef j => j ≠ i
      | .swapRefs j k => j ≠ i ∧ k ≠ i
      | _ => True) : b'.refs[i]? = some r := by
  cases StreamBuffer.perform_cases hp with
  | constructFailed | construct | reserveBegin | reserveRoom | reserveExpand | write | bufferFilled
  | dataConsumed | retainFailed | destroy => exact hr
  | retainTo hbuf hres hr' =>
    simp only [List.getElem?_set_ne hop]
    exact hr
  | newRef =>
    simp only [List.getElem?_append_left (List.getElem?_eq_some_iff.mp hr).1]
    exact hr
  | swapRefs hi hj =>
    simp only [List.getElem?_set_ne hop.2, List.getElem?_set_ne hop.1]
    exact hr
  | clearRef hi =>
    simp only [List.getElem?_set_ne hop]
    exact hr

theorem stepOut_invoked {s s' : Wavy.State} {act : Wavy.Action} (hs : stepOut n m mc s act = some s') :
    s.invoked <+: s'.invoked := by
  cases stepOut_cases hs with
  | entered => exact List.prefix_append ..
  | @goOn fd s' _ hgo =>
    unfold State.goOn at hgo
    cases hcs : s.cs fd with
    | idle => simp [hcs] at hgo
    | addFd | incr | reactivate | remove | decr =>
      rw [hcs] at hgo
      obtain rfl := Option.some.inj hgo
      exact List.prefix_rfl
    | clear =>
      rw [hcs] at hgo
      obtain rfl := Option.some.inj hgo
      exact List.prefix_append ..
  | clearXfer => exact List.prefix_append ..
  | pollWait | pollPush | next | push | migrate | rewrite => exact List.prefix_rfl

/-- What a step of `out` adds. -/
structure Grows (l l' : Lender) (new : List Call) : Prop where
  calls : l'.calls = l.calls ++ new
  invoked : l.book.state.invoked <+: l'.book.state.invoked
  thrown : l.book.thrown <+: l'.book.thrown

theorem Grows.lent {l l' : Lender} {new : List Call} (h : Grows l l' new) :
    ∀ c ∈ l'.lent, c ∈ l.lent ∨ c ∈ new := by
  intro c hc
  simp only [Lender.lent, List.mem_filter, decide_eq_true_eq, h.calls] at hc ⊢
  rcases List.mem_append.mp hc.1 with hcalls | hnew
  · exact .inl ⟨hcalls, fun hin => hc.2.1 (h.invoked.subset hin), fun hin => hc.2.2 (h.thrown.subset hin)⟩
  · exact .inr hnew

theorem lender_grows {l l' : Lender} {act : Wavy.Action} (hs : l.step n m mc act = some l') :
    Grows l l' (match act with
      | .submit _ call .. => [call]
      | _ => []) := by
  obtain ⟨b', hb', rfl⟩ := Option.map_eq_some_iff.mp hs
  refine ⟨?_, stepOut_invoked (Book.step_state hb'), ?_⟩
  · cases act <;> simp
  · rw [(Book.step_lists hb').2]
    exact List.prefix_append ..

theorem lender_quiet {l l' : Lender} {act : Wavy.Action} (hact : Quiet act)
    (hs : l.step n m mc act = some l') :
    l'.book.commits = l.book.commits ∧ l'.book.state.world = l.book.state.world ∧ Grows l l' [] := by
  have hgrows := lender_grows hs
  obtain ⟨b', hb', rfl⟩ := Option.map_eq_some_iff.mp hs
  have hstate := Book.step_state hb'
  have hlists := (Book.step_lists hb').1
  cases act with
  | writeEvent fd as =>
    have he := enter_writeEvent hstate
    obtain ⟨hentered, -⟩ := stepOut_enter he hstate
    refine ⟨?_, by rw [hentered]; rfl, hgrows⟩
    rw [hlists, he]
    simp only [Option.elim_some, Entry.commits, List.append_nil, Function.update_eq_self]
  | goOn fd =>
    refine ⟨hlists, ?_, hgrows⟩
    simp only [stepOut, enter] at hstate
    split_ifs at hstate
    exact (State.goOn_ctx hstate).1.2
  | pollWait fds =>
    refine ⟨hlists, ?_, hgrows⟩
    simp only [stepOut, enter, State.pollWait] at hstate
    split_ifs at hstate
    exact (congrArg Wavy.State.world (Option.some.inj hstate)).symm
  | next =>
    refine ⟨hlists, ?_, hgrows⟩
    simp only [stepOut, enter] at hstate
    split at hstate
    · cases hstate
    · exact (congrArg Wavy.State.world (Option.some.inj hstate)).symm
  | pollPush => exact ⟨hlists, (congrArg Wavy.State.world (Option.some.inj hstate)).symm, hgrows⟩
  | write | submit | commit | push | migrate | clearXfer | rewrite => exact hact.elim

theorem lender_rewrite {l l' : Lender} {world : World} (hs : l.step n m mc (.rewrite world) = some l') :
    l'.book.commits = l.book.commits ∧ l'.book.state.world = world ∧ Grows l l' [] := by
  have hgrows := lender_grows hs
  obtain ⟨b', hb', rfl⟩ := Option.map_eq_some_iff.mp hs
  have hstate := Book.step_state hb'
  exact ⟨(Book.step_lists hb').1, congrArg Wavy.State.world (Option.some.inj hstate).symm, hgrows⟩

theorem lender_call {l l' : Lender} {fd : ℕ} {c : Call} {stack : ℕ → UInt8} {as : List Answer}
    {junk : Xfer.Junk} (hs : l.step n m mc (.submit fd c stack as junk) = some l') :
    (∃ returned, l'.book.commits = Function.update l.book.commits fd
      (l.book.commits fd ++ [⟨items l.book.state.world c.recs, returned, none⟩])) ∧
    l'.book.state.world = l.book.state.world ∧ Grows l l' [c] := by
  have hgrows := lender_grows hs
  obtain ⟨b', hb', rfl⟩ := Option.map_eq_some_iff.mp hs
  obtain ⟨hentered, -⟩ := stepOut_enter rfl (Book.step_state hb')
  exact ⟨⟨_, (Book.step_lists hb').1⟩, by rw [hentered]; rfl, hgrows⟩

/-! ## Runs -/

structure Inv (n m : ℕ) (del : UInt64) (s : State) : Prop where
  lender : s.lender.Inv n m
  buffer : StreamBuffer.system.Reachable StreamBuffer.Admissible s.buffer
  placed : Placed s.lender.book.state.world s.buffer
  lent : ∀ c ∈ s.lender.lent, ∃ i r parts, c = call del r i parts ∧ s.buffer.refs[i]? = some r ∧
    ∀ p ∈ parts, p.Valid r
  meant : ∀ fd, (s.lender.book.commits fd).map (·.payload) = s.meant fd

theorem Inv.start (world : World) : Inv n m del (start world) := by
  refine ⟨⟨⟨_, _, .start world⟩, by simp [Forward.start], List.nodup_nil, rfl, fun fd _ => ?_⟩, .init rfl, ?_, ?_,
    fun _ => rfl⟩
  · rw [Forward.start, State.start, Xfer.holds_new.recs_eq]
    exact Backed.nil _
  · intro d hd
    cases hd
  · intro c hc
    cases hc

theorem Inv.out {act : Wavy.Action} (h : Inv n m del s) (hact : Quiet act)
    (hp : Exhausting mc s.lender.book act) {l : Lender} (hs : s.lender.step n m mc act = some l) :
    Inv n m del { s with lender := l } := by
  obtain ⟨hcommits, hworld, hgrows⟩ := lender_quiet hact hs
  have hleased : Leased s.lender act := by
    cases act with
    | write | submit | commit | push | migrate | clearXfer | rewrite => exact hact.elim
    | _ => trivial
  refine ⟨h.lender.step hp hleased hs, h.buffer, ?_, fun c hc => ?_, ?_⟩
  · rw [hworld]
    exact h.placed
  · exact h.lent c ((hgrows.lent c hc).resolve_right (by simp))
  · rw [hcommits]
    exact h.meant

theorem Inv.buffer_step {op : StreamBuffer.Op} {world : World} (hdel : del ≠ 0) (h : Inv n m del s)
    (hp : Allowed (Exhausting mc) del s (.buffer op world)) {b : StreamBuffer.State} {o : Outcome}
    (hb : StreamBuffer.perform s.buffer op = some (b, o)) {l : Lender}
    (hs : s.lender.step n m mc (.rewrite world) = some l) :
    Inv n m del { s with lender := l, buffer := b } := by
  obtain ⟨hadm, hplaced, hop⟩ := hp
  have hw : Placed world b := hplaced _ hb
  have hreach : StreamBuffer.system.Reachable StreamBuffer.Admissible b :=
    .step h.buffer hadm (by simp only [StreamBuffer.system, hb, Option.map_some])
  obtain ⟨hcommits, hworld, hgrows⟩ := lender_rewrite hs
  have hlent : ∀ c ∈ s.lender.lent, ∃ i r parts, c = call del r i parts ∧ s.buffer.refs[i]? = some r ∧
      b.refs[i]? = some r ∧ ∀ p ∈ parts, p.Valid r := by
    intro c hc
    obtain ⟨i, r, parts, rfl, hr, hparts⟩ := h.lent c hc
    obtain ⟨hcall, hfree⟩ := List.mem_filter.mp hc
    have hgiven : s.given del i := List.mem_map_of_mem hcall
    have hback : ¬ s.back del i := by
      rintro (hin | hin)
      · exact (of_decide_eq_true hfree).1 hin
      · exact (of_decide_eq_true hfree).2 hin
    refine ⟨i, r, parts, rfl, hr, perform_refs hb hr ?_, hparts⟩
    cases op with
    | retainTo j vec => exact fun hj => hop (hj ▸ hgiven)
    | swapRefs j k => exact ⟨fun hj => hop.1 (hj ▸ hgiven), fun hk => hop.2 (hk ▸ hgiven)⟩
    | clearRef j =>
      rintro rfl
      exact hback (hop hgiven)
    | _ => trivial
  have hleased : Leased s.lender (.rewrite world) := by
    intro c hc
    obtain ⟨i, r, parts, rfl, hr, hr', hparts⟩ := hlent c hc
    rw [items_call hdel hparts (StreamBuffer.reachable_inv hreach) (List.mem_of_getElem? hr') hw,
      items_call hdel hparts (StreamBuffer.reachable_inv h.buffer) (List.mem_of_getElem? hr) h.placed]
  have hexh : Exhausting mc s.lender.book (.rewrite world) := ⟨trivial, .inr rfl⟩
  refine ⟨h.lender.step hexh hleased hs, hreach, ?_, fun c hc => ?_, ?_⟩
  · rw [hworld]
    exact hw
  · obtain ⟨i, r, parts, hcall, -, hr', hparts⟩ := hlent c ((hgrows.lent c hc).resolve_right (by simp))
    exact ⟨i, r, parts, hcall, hr', hparts⟩
  · rw [hcommits]
    exact h.meant

theorem Inv.send {fd i : ℕ} {parts : List Part} {stack : ℕ → UInt8} {as : List Answer} {junk : Xfer.Junk}
    (hdel : del ≠ 0) (h : Inv n m del s) (hp : Allowed (Exhausting mc) del s (.send fd i parts stack as junk))
    {r : StreamBuffer.Ref} (hr : s.buffer.refs[i]? = some r) {l : Lender}
    (hs : s.lender.step n m mc (.submit fd (call del r i parts) stack as junk) = some l) :
    Inv n m del
      { s with lender := l, meant := Function.update s.meant fd (s.meant fd ++ [meaning del r i parts]) } := by
  obtain ⟨hfresh, hall⟩ := hp
  obtain ⟨hparts, hexh⟩ := hall r hr
  obtain ⟨⟨returned, hcommits⟩, hworld, hgrows⟩ := lender_call hs
  refine ⟨h.lender.step hexh ⟨hdel, hfresh⟩ hs, h.buffer, ?_, fun c hc => ?_, fun fd' => ?_⟩
  · rw [hworld]
    exact h.placed
  · rcases hgrows.lent c hc with hc | hc
    · exact h.lent c hc
    · exact ⟨i, r, parts, List.mem_singleton.mp hc, hr, hparts⟩
  · rw [hcommits, items_call hdel hparts (StreamBuffer.reachable_inv h.buffer) (List.mem_of_getElem? hr)
      h.placed]
    by_cases hf : fd' = fd
    · subst hf
      simp [h.meant]
    · simp only [Function.update_of_ne hf]
      exact h.meant fd'

theorem reachable_inv (hdel : del ≠ 0) (h : (system n m mc del).Reachable (Allowed (Exhausting mc) del) s) :
    Inv n m del s := by
  apply h.invariant
  · rintro s ⟨world, rfl⟩
    exact .start world
  · rintro s act s' - hi hp hs
    cases act with
    | out act =>
      obtain ⟨l, hl, rfl⟩ := Option.map_eq_some_iff.mp hs
      exact hi.out hp.1 hp.2 hl
    | buffer op world =>
      obtain ⟨⟨b, o⟩, hb, hs⟩ := Option.bind_eq_some_iff.mp hs
      obtain ⟨l, hl, rfl⟩ := Option.map_eq_some_iff.mp hs
      exact hi.buffer_step hdel hp hb hl
    | send fd i parts stack as junk =>
      obtain ⟨r, hr, hs⟩ := Option.bind_eq_some_iff.mp hs
      obtain ⟨l, hl, rfl⟩ := Option.map_eq_some_iff.mp hs
      exact hi.send hdel hp hr hl

/-- An application that forwards parts of its stream buffers by reference: what the kernel has accepted on
a descriptor followed by what is queued is made of one piece for each `writev`, in their order, and the
pieces are of the bytes that the references were filled with, all of them when the call returned; the
buffer may go on receiving, reuse and move its chunks as it does. -/
theorem forwarded_pieces (hdel : del ≠ 0) {fd : ℕ} (hfd : fd < n)
    (h : (system n m mc del).Reachable (Allowed (Exhausting mc) del) s)
    (hb : s.lender.book.state.broken fd = false) :
    (s.lender.book.commits fd).map (·.payload) = s.meant fd ∧
    ∃ pieces, List.Forall₂ Commit.Takes (s.lender.book.commits fd) pieces ∧
      s.lender.book.state.wire fd ++ items s.lender.book.state.world (s.lender.book.state.ctx fd).recs =
        pieces.flatten := by
  have hinv := reachable_inv hdel h
  obtain ⟨pieces, kept, hi⟩ := hinv.lender.book
  refine ⟨hinv.meant fd, pieces fd, hi.takes fd hb, ?_⟩
  have hstream := hi.data.stream fd hfd hb
  simp only [List.map_id] at hstream
  exact hstream

/-- The memory with its first chunk at 100 and its second at 200. -/
def memory (first second : ℕ → UInt8) : World :=
  ⟨fun a => if a.toNat < 200 then first (a.toNat - 100) else second (a.toNat - 200), fun _ _ => 0⟩

def received (i : ℕ) : UInt8 := if i = 4 then 7 else if i = 5 then 8 else 0

/-- Two bytes are received at the first chunk and given away; one is sent. The buffer goes on at the second
chunk and gives up the first, which is freed when the other byte is sent, and overwritten. -/
def forwardedBytes : List Action :=
  [.buffer (.construct 8 (some (100, fun _ => 0))) (memory (fun _ => 0) fun _ => 0),
    .buffer (.write 4 [7, 8]) (memory received fun _ => 0),
    .buffer (.bufferFilled 2) (memory received fun _ => 0),
    .buffer .newRef (memory received fun _ => 0), .buffer (.retainTo 0 true) (memory received fun _ => 0),
    .send 0 0 [⟨0, 0, 2⟩] (fun _ => 0) [.count 1] (some fun _ => 0), .out (.goOn 0), .out (.goOn 0),
    .buffer (.dataConsumed 2) (memory received fun _ => 0),
    .buffer (.reserveBegin 6 8) (memory received fun _ => 0),
    .buffer (.reserveEnd (some (200, fun _ => 9)) true) (memory received fun _ => 9),
    .buffer .newRef (memory received fun _ => 9), .buffer (.retainTo 1 true) (memory received fun _ => 9),
    .buffer (.clearRef 1) (memory received fun _ => 9), .out (.pollWait [0]), .out .pollPush, .out .next,
    .out (.writeEvent 0 [.count 1]), .buffer (.clearRef 0) (memory (fun _ => 3) fun _ => 9)]

theorem forwarded_pieces_freed : ∃ s, (system 1 0 .ascending 5).Reachable (Allowed (Exhausting .ascending) 5) s ∧
    (s.buffer.heap 100).isNone ∧ s.lender.book.state.world.mem 104 = 3 ∧
    s.meant 0 = [[.byte 7, .byte 8, .fin 5 0]] ∧ (s.lender.book.commits 0).map (·.payload) = s.meant 0 ∧
    ∃ pieces, List.Forall₂ Commit.Takes (s.lender.book.commits 0) pieces ∧
      s.lender.book.state.wire 0 ++ items s.lender.book.state.world (s.lender.book.state.ctx 0).recs =
        pieces.flatten := by
  obtain ⟨s, hs, hq⟩ := System.exists_reachable_of_exec (S := system 1 0 .ascending 5)
    (P := Allowed (fun b act => act.Small ∧ overlaps b.state act = false) 5)
    (s := start (memory (fun _ => 0) fun _ => 0)) forwardedBytes
    (fun s => decide ((s.buffer.heap 100).isNone ∧ s.lender.book.state.world.mem 104 = 3 ∧
      s.meant 0 = [[.byte 7, .byte 8, .fin 5 0]] ∧ s.lender.book.state.broken 0 = false)) ⟨_, rfl⟩
    (by decide +kernel)
  obtain ⟨hfreed, hmem, hmeant, hbroken⟩ := of_decide_eq_true hq
  have hs' := hs.mono (Q := Allowed (Exhausting .ascending) 5)
    fun _ _ _ h => h.mono fun _ _ hp => ⟨hp.1, .inr hp.2⟩
  exact ⟨s, hs', hfreed, hmem, hmeant, forwarded_pieces (by decide) (by decide) hs' hbroken⟩

end Mpio.Forward
