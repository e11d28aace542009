import Mpio.Lib.Run
import Mpio.Wavy.Execute

/-!
# The queue as an encoding of a list of records

Any number of `xfer` objects, each starting from the constructor, under `push_write`, `push_writev`,
`push_sendfile`, `push_finalize`, `push_xfraw`, `migrate` and `clear` in any order, where every
`realloc` may fail. `Op.run` is what the code does to the blocks, `Op.spec` what the operation means
for the lists of records; the lists are carried along (`Xfers.list`) and change only when the
operation returns.

`xfer_faithful`: the blocks encode the lists. Both decoders of the source, the loop of `clear` and the
loop of `execute`, advance from record to record with sizes of their own (`clearNext`, `executeNext`);
both land on `m_tail`, having seen the list. The invariant is `Holds` for every object; what is added
here is that an operation that throws leaves its object as it was, and that no size computation goes
round in circles while the sizes stay below `2 ^ 62`.
-/

namespace Mpio.Wavy

open Lib

/-! ## The two decoders -/

/-- Where the loop of `clear` goes from a record at `p`. -/
def clearNext (blk : List UInt8) (p : ℕ) : ℕ :=
  let tag := readWord blk p 4
  if tag = XF_SENDFILE then p + sizeofSendfile
  else if tag = XF_FINALIZE then p + sizeofFinalize
  else p + sizeofIovec (tag >>> 1)

/-- Where the loop of `execute` goes from a record at `p` that is sent completely. -/
def executeNext (blk : List UInt8) (p : ℕ) : ℕ :=
  match readRec blk p with
  | .sendfile .. => p + sizeofSendfile
  | .finalize .. => p + sizeofFinalize
  | .iovec vec => p + sizeofIovec vec.length

/-- A loop over the records that advances with `next`: the records it sees and where it ends. -/
def walk (next : List UInt8 → ℕ → ℕ) (blk : List UInt8) (endp : ℕ) : ℕ → ℕ → List Rec × ℕ
  | 0, p => ([], p)
  | fuel + 1, p =>
    if p < endp then
      let r := walk next blk endp fuel (next blk p)
      (readRec blk p :: r.1, r.2)
    else ([], p)

theorem length_readVec (blk : List UInt8) (pos n : ℕ) : (readVec blk pos n).length = n := by
  induction n generalizing pos with
  | zero => rfl
  | succ n ih => rw [readVec, List.length_cons, ih]

theorem clearNext_eq (blk : List UInt8) (p : ℕ) : clearNext blk p = p + (readRec blk p).size := by
  simp only [clearNext, readRec]
  split_ifs
  · rfl
  · rfl
  · rw [Rec.size, length_readVec]

theorem executeNext_eq (blk : List UInt8) (p : ℕ) : executeNext blk p = p + (readRec blk p).size := by
  unfold executeNext
  cases readRec blk p <;> rfl

theorem clearLoop_walk (blk : List UInt8) (tail fuel p : ℕ) :
    Xfer.clearLoop blk tail fuel p = finalizers (walk clearNext blk tail fuel p).1 := by
  induction fuel generalizing p with
  | zero => rfl
  | succ fuel ih =>
    rw [Xfer.clearLoop, walk]
    split_ifs
    · have hnext := clearNext_eq blk p
      cases hr : readRec blk p <;> rw [hr] at hnext <;>
        simp only [finalizers, hnext, Rec.size, ih]
    · rfl

/-- `execute` walks with its own sizes, and when it has processed everything it has sent and called
what the records it saw denote. -/
theorem execute_walk (w : World) (mc : Memcpy) (endp fuel : ℕ) (blk : List UInt8) (p : ℕ)
    (as : List Answer) (h : (execute w mc endp fuel blk p as).tail = 0) :
    (execute w mc endp fuel blk p as).log = items w (walk executeNext blk endp fuel p).1 := by
  fun_induction execute w mc endp fuel blk p as with
  | case1 => rfl
  | case2 | case3 | case6 =>
    simp only [consumed] at h
    omega
  | case4 fuel blk p as hlt infd off len hr a call sent h0 hge ih =>
    have hall : sent = (Rec.sendfile infd off len).items w := by
      apply List.take_of_length_le
      simp only [Rec.items, List.length_map, length_rangeOf]
      omega
    rw [walk, if_pos hlt, hr, items_cons, executeNext, hr, Exec.after, hall, ih h]
  | case5 fuel blk p as hlt fin user hr ih =>
    rw [walk, if_pos hlt, hr, items_cons, executeNext, hr, Exec.after, ih h, Rec.items]
  | case7 =>
    simp only [consumedIovec] at h
    split_ifs at h
    · simp only [consumed] at h
      omega
    · simp only [sizeofIovec, sizeofXferType] at h
      omega
  | case8 fuel blk p as hlt vec hr a call sent h0 hstop ih =>
    have hall : sent = (Rec.iovec vec).items w := by
      apply List.take_of_length_le
      rw [Rec.items, List.length_map, w.length_vec]
      exact stopAt_none hstop
    rw [walk, if_pos hlt, hr, items_cons, executeNext, hr, Exec.after, hall, ih h]
  | case9 fuel blk p as hge => rw [walk, if_neg hge, items_nil]

theorem walk_middle {next : List UInt8 → ℕ → ℕ}
    (hnext : ∀ blk p, next blk p = p + (readRec blk p).size) {a b c : List UInt8} {rs : List Rec}
    (h : Encodes b rs) (fuel : ℕ) (hfuel : b.length ≤ fuel) :
    walk next (a ++ (b ++ c)) (a.length + b.length) fuel a.length = (rs, a.length + b.length) := by
  induction h generalizing a fuel with
  | nil =>
    cases fuel with
    | zero => rfl
    | succ fuel => simp [walk]
  | @cons r b bytes rs hr _ ih =>
    have hlen := hr.length
    have hpos := r.size_pos
    rw [List.length_append] at hfuel
    obtain ⟨fuel, rfl⟩ : ∃ k, fuel = k + 1 := ⟨fuel - 1, by omega⟩
    have hread : readRec (a ++ (b ++ bytes ++ c)) a.length = r := by
      rw [List.append_assoc]
      exact readRec_middle hr
    have hrest := @ih (a ++ b) fuel (by omega)
    simp only [List.length_append, List.append_assoc, hlen, Nat.add_assoc] at hrest hread ⊢
    rw [walk, if_pos (by omega), hnext, hread, hrest]

theorem Xfer.Holds.walk {x : Xfer} {rs : List Rec} (h : x.Holds rs) {next : List UInt8 → ℕ → ℕ}
    (hnext : ∀ blk p, next blk p = p + (readRec blk p).size) :
    walk next x.mem x.tail x.tail 0 = (rs, x.tail) := by
  have hlen := h.length_bytes
  have := walk_middle hnext (a := []) (c := x.mem.drop x.tail) h.encodes x.tail (by omega)
  rw [hlen] at this
  simpa [bytes] using this

/-! ## Any number of objects -/

/-- The operations. `migrate k dst` moves the queue of `k` behind that of `dst`. -/
inductive XferOp
  | pushWrite (k : ℕ) (buf size : UInt64)
  | pushWritev (k : ℕ) (vec : List IoVec)
  | pushSendfile (k : ℕ) (infd : UInt32) (off len : UInt64)
  | pushFinalize (k : ℕ) (fin user : UInt64)
  | pushXfraw (k : ℕ) (buf : List UInt8) (size : ℕ)
  | migrate (k dst : ℕ)
  | clear (k : ℕ)

namespace XferOp

/-- What the code does: the objects afterwards, the finalizers called, and how the operation ends. -/
def run (x : ℕ → Xfer) (op : XferOp) (junk : Xfer.Junk) :
    (ℕ → Xfer) × List (UInt64 × UInt64) × Outcome :=
  let put (k : ℕ) (r : Xfer × Outcome) := (Function.update x k r.1, [], r.2)
  match op with
  | pushWrite k buf size => put k ((x k).pushWrite buf size junk)
  | pushWritev k vec => put k ((x k).pushWritev vec junk)
  | pushSendfile k infd off len => put k ((x k).pushSendfile infd off len junk)
  | pushFinalize k fin user => put k ((x k).pushFinalize fin user junk)
  | pushXfraw k buf size => put k ((x k).pushXfraw buf size junk)
  | migrate k dst =>
    let r := (x k).migrate (x dst) junk
    (Function.update (Function.update x k r.1) dst r.2.1, [], r.2.2)
  | clear k => (Function.update x k (x k).clear.1, (x k).clear.2, .ok)

/-- What the operation is for: the lists afterwards and the finalizers to call. -/
def spec (list : ℕ → List Rec) (op : XferOp) : (ℕ → List Rec) × List (UInt64 × UInt64) :=
  let add (k : ℕ) (rs : List Rec) := (Function.update list k (list k ++ rs), [])
  match op with
  | pushWrite k buf size => add k [.iovec [⟨buf, size⟩]]
  | pushWritev k vec => add k [.iovec vec]
  | pushSendfile k infd off len => add k [.sendfile infd off len]
  | pushFinalize k fin user => add k [.finalize fin user]
  | pushXfraw k buf size => add k (decode buf size size 0)
  | migrate k dst =>
    (Function.update (Function.update list k []) dst (list dst ++ list k), [])
  | clear k => (Function.update list k [], finalizers (list k))

/-- The sizes stay below `2 ^ 62`, `push_xfraw` is given encoded records, and `migrate` goes to
another object. -/
def Sized (x : ℕ → Xfer) : XferOp → Prop
  | pushWrite k _ _ => (x k).tail + sizeofMem < 2 ^ 62
  | pushWritev k vec => vec.length < 2 ^ 31 ∧ (x k).tail + sizeofIovec vec.length < 2 ^ 62
  | pushSendfile k _ _ _ => (x k).tail + sizeofSendfile < 2 ^ 62
  | pushFinalize k _ _ => (x k).tail + sizeofFinalize < 2 ^ 62
  | pushXfraw k buf size =>
    (∃ rs, Encodes (buf.take size) rs) ∧ size ≤ buf.length ∧ (x k).tail + size < 2 ^ 62
  | migrate k dst => k ≠ dst ∧ (x dst).tail + (x k).tail < 2 ^ 62
  | clear _ => True

variable {x : ℕ → Xfer} {list : ℕ → List Rec}

theorem holds_update (hx : ∀ k, (x k).Holds (list k)) {y : Xfer} {rs : List Rec} (k : ℕ)
    (hy : y.Holds rs) (i : ℕ) : (Function.update x k y i).Holds (Function.update list k rs i) := by
  by_cases hi : i = k
  · subst hi
    rw [Function.update_self, Function.update_self]
    exact hy
  · rw [Function.update_of_ne hi, Function.update_of_ne hi]
    exact hx i

theorem run_ok (hx : ∀ k, (x k).Holds (list k)) (op : XferOp) (junk : Xfer.Junk) (hs : op.Sized x)
    (hok : (op.run x junk).2.2 = .ok) :
    (∀ k, ((op.run x junk).1 k).Holds ((op.spec list).1 k)) ∧
    (op.run x junk).2.1 = (op.spec list).2 := by
  cases op with
  | pushWrite k buf size =>
    exact ⟨holds_update hx k ((hx k).pushWrite (Prod.ext rfl hok)), rfl⟩
  | pushWritev k vec =>
    exact ⟨holds_update hx k ((hx k).pushWritev hs.1 (Prod.ext rfl hok)), rfl⟩
  | pushSendfile k infd off len =>
    exact ⟨holds_update hx k ((hx k).pushSendfile (Prod.ext rfl hok)), rfl⟩
  | pushFinalize k fin user =>
    exact ⟨holds_update hx k ((hx k).pushFinalize (Prod.ext rfl hok)), rfl⟩
  | pushXfraw k buf size =>
    obtain ⟨⟨rs, hrs⟩, hle, hlt⟩ := hs
    have hdec : decode buf size size 0 = rs := decode_eq hrs hle
    have hsize : size < 2 ^ 63 := by omega
    rw [← hdec] at hrs
    exact ⟨holds_update hx k ((hx k).pushXfraw hrs hle hsize (Prod.ext rfl hok)), rfl⟩
  | migrate k dst =>
    obtain ⟨hsrc, hdst⟩ := (hx k).migrate (hx dst) (Prod.ext rfl (Prod.ext rfl hok))
    exact ⟨holds_update (holds_update hx k hsrc) dst hdst, rfl⟩
  | clear k =>
    obtain ⟨hempty, hfins⟩ := (hx k).clear
    exact ⟨holds_update hx k hempty, hfins⟩

theorem run_throws (op : XferOp) (junk : Xfer.Junk) (h : (op.run x junk).2.2 ≠ .ok) :
    (op.run x junk).1 = x ∧ (op.run x junk).2.1 = [] := by
  -- a push that throws leaves its object as it was, so the update changes nothing
  have hput {k : ℕ} {y : Xfer} (hy : y = x k) : Function.update x k y = x := by
    rw [hy, Function.update_eq_self]
  cases op with
  | pushWrite | pushWritev | pushSendfile | pushFinalize | pushXfraw =>
    exact ⟨hput (Xfer.push_throws _ _ junk h), rfl⟩
  | migrate k dst =>
    obtain ⟨hsrc, hdst⟩ := Xfer.migrate_throws junk h
    refine ⟨?_, rfl⟩
    show Function.update (Function.update x k _) dst _ = x
    rw [hput hsrc, hput hdst]
  | clear k => exact absurd rfl h

theorem run_returns (op : XferOp) (junk : Xfer.Junk) (hs : op.Sized x) :
    (op.run x junk).2.2 ≠ .diverges := by
  cases op with
  | pushWrite | pushSendfile | pushFinalize => exact Xfer.push_returns _ junk hs
  | pushWritev => exact Xfer.push_returns _ junk hs.2
  | pushXfraw => exact Xfer.push_returns _ junk hs.2.2
  | migrate => exact Xfer.migrate_returns junk hs.2
  | clear => simp [run]

end XferOp

/-! ## Runs -/

/-- The objects and the finalizers their `clear` has called; beside them the lists of records pushed
and the finalizers that were to be called. -/
structure Xfers where
  xfer : ℕ → Xfer
  called : List (UInt64 × UInt64)
  list : ℕ → List Rec
  due : List (UInt64 × UInt64)

def Xfers.start : Xfers := ⟨fun _ => Xfer.new, [], fun _ => [], []⟩

/-- One operation, with what `realloc` would answer. The lists follow only when it returns. -/
def Xfers.perform (s : Xfers) (a : XferOp × Xfer.Junk) : Option Xfers :=
  let r := a.1.run s.xfer a.2
  match r.2.2 with
  | .ok => some ⟨r.1, s.called ++ r.2.1, (a.1.spec s.list).1, s.due ++ (a.1.spec s.list).2⟩
  | .badAlloc => some { s with xfer := r.1, called := s.called ++ r.2.1 }
  | .diverges => none

def xferSystem : System Xfers (XferOp × Xfer.Junk) where
  init s := s = Xfers.start
  step := Xfers.perform

def Sized (s : Xfers) (a : XferOp × Xfer.Junk) : Prop := a.1.Sized s.xfer

/-- The blocks encode the lists. -/
structure Faithful (s : Xfers) : Prop where
  holds : ∀ k, (s.xfer k).Holds (s.list k)
  called : s.called = s.due

theorem Faithful.perform {s s' : Xfers} {a : XferOp × Xfer.Junk} (h : Faithful s) (hs : Sized s a)
    (hstep : s.perform a = some s') : Faithful s' := by
  obtain ⟨op, junk⟩ := a
  have hok := op.run_ok h.holds junk hs
  have hthrows := op.run_throws (x := s.xfer) junk
  simp only [Xfers.perform] at hstep
  rcases ho : (op.run s.xfer junk).2.2 with _ | _ | _ <;> rw [ho] at hstep hok hthrows
  · obtain ⟨hholds, hcalled⟩ := hok rfl
    obtain rfl := Option.some.inj hstep
    exact ⟨hholds, by rw [h.called, hcalled]⟩
  · obtain ⟨hxfer, hcalled⟩ := hthrows (by decide)
    obtain rfl := Option.some.inj hstep
    refine ⟨fun k => ?_, ?_⟩
    · simp only [hxfer]
      exact h.holds k
    · simp only [hcalled, List.append_nil, h.called]
  · cases hstep

theorem reachable_faithful {s : Xfers} (h : xferSystem.Reachable Sized s) : Faithful s :=
  h.invariant (fun _ h0 => h0 ▸ ⟨fun _ => Xfer.holds_new, rfl⟩)
    (fun _ _ _ _ hinv hs hstep => hinv.perform hs hstep)

/-- In every state that the operations reach: the members of each object give the size of its block;
the sizes of `clear` and those of `execute` lead from `m_head` to exactly `m_tail` and to the records
pushed, and `execute` does what the list says; the finalizers that `clear` called are those of the
lists; and every further operation ends, doing what it is for when it returns and leaving all lists
alone when it throws. -/
theorem xfer_faithful {s : Xfers} (h : xferSystem.Reachable Sized s) :
    (∀ k, (s.xfer k).tail + (s.xfer k).free = ((s.xfer k).block.map List.length).getD 0) ∧
    (∀ k, walk clearNext (s.xfer k).mem (s.xfer k).tail (s.xfer k).tail 0 =
        (s.list k, (s.xfer k).tail) ∧
      walk executeNext (s.xfer k).mem (s.xfer k).tail (s.xfer k).tail 0 =
        (s.list k, (s.xfer k).tail)) ∧
    (∀ k w mc as, ((s.xfer k).tryWrite w mc as).2.1.log = (execRecs w (s.list k) as).log ∧
      ((s.xfer k).tryWrite w mc as).2.1.calls = (execRecs w (s.list k) as).calls) ∧
    s.called = s.due ∧
    ∀ (op : XferOp) (junk : Xfer.Junk), op.Sized s.xfer →
      (op.run s.xfer junk).2.2 ≠ .diverges ∧
      ((op.run s.xfer junk).2.2 = .ok → (op.run s.xfer junk).2.1 = (op.spec s.list).2 ∧
        ∀ k, ((op.run s.xfer junk).1 k).recs = (op.spec s.list).1 k) ∧
      ((op.run s.xfer junk).2.2 = .badAlloc → (op.run s.xfer junk).2.1 = [] ∧
        ∀ k, ((op.run s.xfer junk).1 k).recs = s.list k) := by
  obtain ⟨hholds, hcalled⟩ := reachable_faithful h
  refine ⟨fun k => ?_, fun k => ?_, fun k w mc as => ?_, hcalled, fun op junk hs => ⟨?_, ?_, ?_⟩⟩
  · rw [← (hholds k).length, Xfer.mem]
    cases (s.xfer k).block <;> rfl
  · exact ⟨(hholds k).walk clearNext_eq, (hholds k).walk executeNext_eq⟩
  · obtain ⟨-, hlog, hcalls, -⟩ := (hholds k).tryWrite w mc as
    exact ⟨hlog, hcalls⟩
  · exact op.run_returns junk hs
  · intro hok
    obtain ⟨hafter, hfins⟩ := op.run_ok hholds junk hs hok
    exact ⟨hfins, fun k => (hafter k).recs_eq⟩
  · intro hbad
    obtain ⟨hsame, hnone⟩ := op.run_throws (x := s.xfer) junk (by rw [hbad]; decide)
    refine ⟨hnone, fun k => ?_⟩
    rw [hsame]
    exact (hholds k).recs_eq

/-- A finalizer queued in object 0 is moved to object 1 and called by its `clear`; a `push_sendfile`
throws; then a write is queued in the block object 1 has kept. -/
theorem xfer_faithful_moved : ∃ s, xferSystem.Reachable Sized s ∧ s.called = s.due ∧
    s.due = [(7, 9)] ∧ s.list 1 = [.iovec [⟨16, 4⟩]] ∧
    (s.xfer 1).tail + (s.xfer 1).free = ((s.xfer 1).block.map List.length).getD 0 := by
  have h0 : xferSystem.Reachable Sized Xfers.start := .init rfl
  have h1 := h0.step (a := (.pushFinalize 0 7 9, some fun _ => 0)) (by show _ < _; decide) rfl
  have h2 := h1.step (a := (.migrate 0 1, none)) (by show _ ∧ _; decide) rfl
  have h3 := h2.step (a := (.clear 1, none)) (by show True; trivial) rfl
  have h4 := h3.step (a := (.pushSendfile 0 3 0 8, none)) (by show _ < _; decide) rfl
  have h5 := h4.step (a := (.pushWrite 1 16 4, none)) (by show _ < _; decide) rfl
  obtain ⟨hsize, -, -, hcalled, -⟩ := xfer_faithful h5
  exact ⟨_, h5, hcalled, by decide, rfl, hsize 1⟩

end Mpio.Wavy
