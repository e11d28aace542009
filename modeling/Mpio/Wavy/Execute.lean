import Mpio.Wavy.Xfer

/-!
# `xfer_impl::execute` (Linux branch)

`execute` sends the records of a queue until the kernel stops it, and moves what is left to the head
of the block. The kernel's answers to `writev` and `sendfile` are a list; a list that ends early
answers `EAGAIN`.

`execRecs` is the same on a list of records. `execute_refines` connects the two: they make the same
calls, accept the same bytes, run the same finalizers and return the same value, and what `execute`
leaves in the block are the records that `execRecs` leaves. The last part has a condition. A `writev`
that stops inside entry `i ≥ 1` of a record is compacted with `fill_iovec`, whose `memcpy` reads and
writes ranges of one block; where they overlap (`overlapAt`) the entries left are those of an
implementation that copes with it, and otherwise not defined.

`execRecs_items`: what has been sent and run, followed by what is left, is what was queued.
-/

namespace Mpio.Wavy

open Lib

/-! ## The kernel and what the records denote -/

/-- What the pointers and descriptors of the records refer to. -/
structure World where
  mem : UInt64 → UInt8
  file : UInt32 → UInt64 → UInt8

inductive Errno
  | EAGAIN
  | EINTR
  | other
  deriving DecidableEq

/-- The result of `write`, `writev` or `sendfile`. -/
inductive Answer
  | fails (errno : Errno)
  | count (n : ℕ)
  deriving DecidableEq

namespace Answer

/-- The bytes taken, when `wl > 0`. -/
def accepted : Answer → ℕ
  | fails _ => 0
  | count n => n

/-- `wl < 0 && (errno == EAGAIN || errno == EINTR)`. -/
def retry : Answer → Bool
  | fails .EAGAIN | fails .EINTR => true
  | fails .other | count _ => false

/-- What ends the stream: another error, or no byte taken. -/
def Fatal (a : Answer) : Prop := a.accepted = 0 ∧ a.retry = false

instance (a : Answer) : Decidable a.Fatal := inferInstanceAs (Decidable (_ ∧ _))

/-- A retryable error, or at least one and at most all of the bytes offered. -/
def Benign (offered : ℕ) (a : Answer) : Prop := a.retry = true ∨ 1 ≤ a.accepted ∧ a.accepted ≤ offered

instance (offered : ℕ) (a : Answer) : Decidable (a.Benign offered) := inferInstanceAs (Decidable (_ ∨ _))

theorem Benign.not_fatal {offered : ℕ} {a : Answer} (h : a.Benign offered) : ¬ a.Fatal := by
  rintro ⟨h0, hr⟩
  rcases h with h | h
  · rw [hr] at h
    cases h
  · omega

end Answer

/-- The answer to the next call. -/
def answer (as : List Answer) : Answer := as.headD (.fails .EAGAIN)

/-- What happens at a descriptor: a byte is accepted, a finalizer is called. -/
inductive Item
  | byte (b : UInt8)
  | fin (fin user : UInt64)
  deriving DecidableEq

def rangeOf (f : UInt64 → UInt8) (base : UInt64) (n : ℕ) : List UInt8 :=
  (List.range n).map fun i => f (base + UInt64.ofNat i)

def World.iov (w : World) (v : IoVec) : List UInt8 := rangeOf w.mem v.iovBase v.iovLen.toNat

def World.vec (w : World) (vec : List IoVec) : List UInt8 := vec.flatMap w.iov

def finItem (fin user : UInt64) : List Item := if fin = 0 then [] else [.fin fin user]

/-- What a record denotes. -/
def Rec.items (w : World) : Rec → List Item
  | .iovec vec => (w.vec vec).map .byte
  | .sendfile infd off len => (rangeOf (w.file infd) off len.toNat).map .byte
  | .finalize fin user => finItem fin user

def items (w : World) (rs : List Rec) : List Item := rs.flatMap (Rec.items w)

/-- The sum of the `iov_len`, which is what a `writev` offers. -/
def vecLen (vec : List IoVec) : ℕ := (vec.map fun v => v.iovLen.toNat).sum

/-! ## `execute` -/

/-- The block and `*tail` afterwards, the value returned, what was accepted and called, and each
system call with the bytes it offered. -/
structure Exec where
  block : List UInt8
  tail : ℕ
  cont : Bool
  log : List Item
  calls : List (ℕ × Answer)

def Exec.after (log : List Item) (calls : List (ℕ × Answer)) (e : Exec) : Exec :=
  { e with log := log ++ e.log, calls := calls ++ e.calls }

/-- `MP_WAVY_XFER_CONSUMED` and the return after it. -/
def consumed (blk : List UInt8) (p endp : ℕ) (cont : Bool) (log : List Item)
    (calls : List (ℕ × Answer)) : Exec :=
  ⟨patch blk 0 (slice blk p (endp - p)), endp - p, cont, log, calls⟩

/-- The loop over the entries after a `writev` of `wl` bytes: the entry it stops in, and how many
bytes of that entry are gone. -/
def stopAt : List IoVec → ℕ → Option (ℕ × ℕ)
  | [], _ => none
  | v :: vec, wl =>
    if v.iovLen.toNat ≤ wl then (stopAt vec (wl - v.iovLen.toNat)).map fun s => (s.1 + 1, s.2)
    else some (0, wl)

/-- An entry without its first `wl` bytes. -/
def IoVec.skip (v : IoVec) (wl : ℕ) : IoVec :=
  ⟨v.iovBase + UInt64.ofNat wl, v.iovLen - UInt64.ofNat wl⟩

/-- A `writev` that stopped in entry `i`: the entry is shortened in place, then the rest of the queue
is moved to the head. -/
def consumedIovec (mc : Memcpy) (blk : List UInt8) (p endp : ℕ) (vec : List IoVec) (i wl : ℕ)
    (log : List Item) (calls : List (ℕ × Answer)) : Exec :=
  let pos := p + 4 + 16 * i
  let blk := patch blk pos (iovBytes ((readIov blk pos).skip wl))
  if i = 0 then consumed blk p endp true log calls
  else
    let p := p + sizeofIovec vec.length
    let left := endp - p
    let n := vec.length - i
    let blk := fillIovec (fun b dst => mc.copy b dst pos (16 * n)) blk 0 n
    let filltail := sizeofIovec n
    ⟨patch blk filltail (slice blk p left), filltail + left, true, log, calls⟩

/-- `execute`, from `p` on. The fuel bounds the number of records; with `endp` of it the loop ends by
itself. -/
def execute (w : World) (mc : Memcpy) (endp : ℕ) : ℕ → List UInt8 → ℕ → List Answer → Exec
  | 0, blk, _, _ => ⟨blk, 0, false, [], []⟩
  | fuel + 1, blk, p, as =>
    if p < endp then
      match readRec blk p with
      | .sendfile infd off len =>
        let a := answer as
        let call := [(len.toNat, a)]
        let sent := ((Rec.sendfile infd off len).items w).take a.accepted
        if a.accepted = 0 then consumed blk p endp a.retry [] call
        else if a.accepted < len.toNat then
          let wl := UInt64.ofNat a.accepted
          let blk := patch blk (p + 12) (leBytes 8 (off + wl).toNat)
          let blk := patch blk (p + 20) (leBytes 8 (len - wl).toNat)
          consumed blk p endp true sent call
        else (execute w mc endp fuel blk (p + sizeofSendfile) as.tail).after sent call
      | .finalize fin user =>
        (execute w mc endp fuel blk (p + sizeofFinalize) as).after (finItem fin user) []
      | .iovec vec =>
        let a := answer as
        let call := [(vecLen vec, a)]
        let sent := ((Rec.iovec vec).items w).take a.accepted
        if a.accepted = 0 then consumed blk p endp a.retry [] call
        else
          match stopAt vec a.accepted with
          | some (i, wl) => consumedIovec mc blk p endp vec i wl sent call
          | none =>
            (execute w mc endp fuel blk (p + sizeofIovec vec.length) as.tail).after sent call
    else ⟨blk, 0, false, [], []⟩

/-- `try_write`: the queue afterwards, what `execute` did, and whether it shut the descriptor down. -/
def Xfer.tryWrite (w : World) (mc : Memcpy) (x : Xfer) (as : List Answer) : Xfer × Exec × Bool :=
  let e := execute w mc x.tail x.tail x.mem 0 as
  (⟨x.block.map fun _ => e.block, e.tail, x.tail + x.free - e.tail⟩, e, !e.cont && e.tail != 0)

/-! ## The same on records -/

/-- The records left, and the other results of `execute`. -/
structure Progress where
  recs : List Rec
  cont : Bool
  log : List Item
  calls : List (ℕ × Answer)

def Progress.after (log : List Item) (calls : List (ℕ × Answer)) (r : Progress) : Progress :=
  { r with log := log ++ r.log, calls := calls ++ r.calls }

/-- The entries from `i` on, the first without `wl` bytes. -/
def advance (vec : List IoVec) (i wl : ℕ) : List IoVec :=
  match vec.drop i with
  | [] => []
  | v :: rest => v.skip wl :: rest

def execRecs (w : World) : List Rec → List Answer → Progress
  | [], _ => ⟨[], false, [], []⟩
  | .sendfile infd off len :: rs, as =>
    let a := answer as
    let call := [(len.toNat, a)]
    let sent := ((Rec.sendfile infd off len).items w).take a.accepted
    if a.accepted = 0 then ⟨.sendfile infd off len :: rs, a.retry, [], call⟩
    else if a.accepted < len.toNat then
      let wl := UInt64.ofNat a.accepted
      ⟨.sendfile infd (off + wl) (len - wl) :: rs, true, sent, call⟩
    else (execRecs w rs as.tail).after sent call
  | .finalize fin user :: rs, as => (execRecs w rs as).after (finItem fin user) []
  | .iovec vec :: rs, as =>
    let a := answer as
    let call := [(vecLen vec, a)]
    let sent := ((Rec.iovec vec).items w).take a.accepted
    if a.accepted = 0 then ⟨.iovec vec :: rs, a.retry, [], call⟩
    else
      match stopAt vec a.accepted with
      | some (i, wl) => ⟨.iovec (advance vec i wl) :: rs, true, sent, call⟩
      | none => (execRecs w rs as.tail).after sent call

/-- Whether the answers stop a `writev` where the entries left and their place at the head of the
block overlap. The first record lies at offset `p`. -/
def overlapAt : ℕ → List Rec → List Answer → Bool
  | _, [], _ => false
  | p, .sendfile _ _ len :: rs, as =>
    len.toNat ≤ (answer as).accepted && (answer as).accepted ≠ 0 && overlapAt (p + sizeofSendfile) rs as.tail
  | p, .finalize _ _ :: rs, as => overlapAt (p + sizeofFinalize) rs as
  | p, .iovec vec :: rs, as =>
    (answer as).accepted ≠ 0 &&
    match stopAt vec (answer as).accepted with
    | some (i, _) => i ≠ 0 && p + 16 * i < 16 * (vec.length - i)
    | none => overlapAt (p + sizeofIovec vec.length) rs as.tail

/-! ## Ranges -/

theorem length_rangeOf (f : UInt64 → UInt8) (base : UInt64) (n : ℕ) : (rangeOf f base n).length = n := by
  simp [rangeOf]

theorem toNat_ofNat_of_le {len : UInt64} {k : ℕ} (h : k ≤ len.toNat) : (UInt64.ofNat k).toNat = k := by
  rw [UInt64.toNat_ofNat', Nat.mod_eq_of_lt (by have := len.toNat_lt; omega)]

theorem toNat_left {len : UInt64} {k : ℕ} (h : k ≤ len.toNat) :
    (len - UInt64.ofNat k).toNat = len.toNat - k := by
  have hk := toNat_ofNat_of_le h
  rw [UInt64.toNat_sub_of_le _ _ (by rw [UInt64.le_iff_toNat_le, hk]; exact h), hk]

theorem drop_rangeOf (f : UInt64 → UInt8) (base len : UInt64) {k : ℕ} (h : k ≤ len.toNat) :
    (rangeOf f base len.toNat).drop k =
      rangeOf f (base + UInt64.ofNat k) (len - UInt64.ofNat k).toNat := by
  rw [toNat_left h]
  apply List.ext_getElem
  · simp [rangeOf]
  · intro i h1 h2
    simp only [rangeOf, List.getElem_drop, List.getElem_map, List.getElem_range]
    congr 1
    rw [UInt64.ofNat_add, UInt64.add_assoc]

theorem World.length_vec (w : World) (vec : List IoVec) : (w.vec vec).length = vecLen vec := by
  induction vec with
  | nil => rfl
  | cons v vec ih =>
    simp only [World.vec, vecLen, List.flatMap_cons, List.length_append, List.map_cons,
      List.sum_cons] at ih ⊢
    rw [ih, World.iov, length_rangeOf]

theorem World.vec_append (w : World) (a b : List IoVec) : w.vec (a ++ b) = w.vec a ++ w.vec b := by
  simp [World.vec]

theorem World.vec_cons (w : World) (v : IoVec) (vec : List IoVec) :
    w.vec (v :: vec) = w.iov v ++ w.vec vec := by
  simp [World.vec]

theorem stopAt_some {vec : List IoVec} {n i wl : ℕ} (h : stopAt vec n = some (i, wl)) :
    ∃ v1 v v2, vec = v1 ++ v :: v2 ∧ v1.length = i ∧ wl < v.iovLen.toNat ∧ n = vecLen v1 + wl := by
  induction vec generalizing n i with
  | nil => simp [stopAt] at h
  | cons v vec ih =>
    rw [stopAt] at h
    split_ifs at h with hle
    · obtain ⟨⟨j, wl'⟩, hj, heq⟩ := Option.map_eq_some_iff.mp h
      obtain ⟨rfl, rfl⟩ := Prod.mk.inj heq
      obtain ⟨v1, u, v2, rfl, rfl, hlt, hn⟩ := ih hj
      refine ⟨v :: v1, u, v2, rfl, rfl, hlt, ?_⟩
      simp only [vecLen, List.map_cons, List.sum_cons] at hn ⊢
      omega
    · obtain ⟨rfl, rfl⟩ := Prod.mk.inj (Option.some.inj h)
      exact ⟨[], v, vec, rfl, rfl, by omega, by simp [vecLen]⟩

theorem stopAt_none {vec : List IoVec} {n : ℕ} (h : stopAt vec n = none) : vecLen vec ≤ n := by
  induction vec generalizing n with
  | nil => simp [vecLen]
  | cons v vec ih =>
    rw [stopAt] at h
    split_ifs at h with hle
    have := ih (Option.map_eq_none_iff.mp h)
    simp only [vecLen, List.map_cons, List.sum_cons] at this ⊢
    omega

theorem advance_eq {v1 v2 : List IoVec} {v : IoVec} (wl : ℕ) :
    advance (v1 ++ v :: v2) v1.length wl = v.skip wl :: v2 := by
  simp [advance]

theorem World.take_drop_vec (w : World) {v1 v2 : List IoVec} {v : IoVec} {wl : ℕ}
    (h : wl < v.iovLen.toNat) :
    (w.vec (v1 ++ v :: v2)).take (vecLen v1 + wl) ++ w.vec (v.skip wl :: v2) =
      w.vec (v1 ++ v :: v2) := by
  have hdrop : (w.iov v).drop wl = w.iov (v.skip wl) := drop_rangeOf w.mem v.iovBase v.iovLen (by omega)
  have htake : (w.vec (v1 ++ v :: v2)).take (vecLen v1 + wl) = w.vec v1 ++ (w.iov v).take wl := by
    rw [w.vec_append, w.vec_cons, ← w.length_vec, List.take_length_add_append,
      List.take_append_of_le_length (by rw [World.iov, length_rangeOf]; omega)]
  rw [htake, w.vec_append, w.vec_cons, w.vec_cons, ← hdrop, List.append_assoc,
    ← List.append_assoc _ _ (w.vec v2), List.take_append_drop]

/-! ## Nothing is lost or made up -/

@[simp] theorem items_nil (w : World) : items w [] = [] := rfl

theorem items_cons (w : World) (r : Rec) (rs : List Rec) : items w (r :: rs) = r.items w ++ items w rs := by
  simp [items]

theorem items_append (w : World) (rs rs' : List Rec) :
    items w (rs ++ rs') = items w rs ++ items w rs' := by
  simp [items]

/-- What was accepted and called, followed by what the records left denote, is what they denoted. -/
theorem execRecs_items (w : World) (rs : List Rec) (as : List Answer) :
    (execRecs w rs as).log ++ items w (execRecs w rs as).recs = items w rs := by
  fun_induction execRecs w rs as with
  | case1 as => rfl
  | case2 infd off len rs as a call h0 => simp
  | case3 infd off len rs as a call sent h0 hlt wl =>
    rw [items_cons, items_cons, ← List.append_assoc]
    congr 1
    simp only [sent, Rec.items, ← List.map_take, ← List.map_append]
    rw [← drop_rangeOf _ _ _ (Nat.le_of_lt hlt), List.take_append_drop]
  | case4 infd off len rs as a call sent h0 hge ih =>
    have hall : sent = (Rec.sendfile infd off len).items w := by
      apply List.take_of_length_le
      simp only [Rec.items, List.length_map, length_rangeOf]
      omega
    rw [Progress.after, hall, items_cons, List.append_assoc, ih]
  | case5 fin user rs as ih =>
    rw [Progress.after, items_cons, List.append_assoc, ih, Rec.items]
  | case6 vec rs as a call h0 => simp
  | case7 vec rs as a call sent h0 i wl hstop =>
    obtain ⟨v1, v, v2, rfl, rfl, hlt, hn⟩ := stopAt_some hstop
    rw [items_cons, items_cons, ← List.append_assoc, advance_eq]
    congr 1
    simp only [sent, Rec.items, ← List.map_take, ← List.map_append, hn]
    rw [w.take_drop_vec hlt]
  | case8 vec rs as a call sent h0 hstop ih =>
    have hall : sent = (Rec.iovec vec).items w := by
      apply List.take_of_length_le
      rw [Rec.items, List.length_map, w.length_vec]
      exact stopAt_none hstop
    rw [Progress.after, hall, items_cons, List.append_assoc, ih]

/-! ## Refinement -/

/-- The results agree; the block keeps its size, and if `intact` holds it encodes the records left. -/
structure Refines (size endp : ℕ) (intact : Prop) (e : Exec) (r : Progress) : Prop where
  cont : e.cont = r.cont
  log : e.log = r.log
  calls : e.calls = r.calls
  length : e.block.length = size
  tail : e.tail ≤ endp
  encodes : intact → Encodes (e.block.take e.tail) r.recs

theorem Refines.mono {size endp : ℕ} {intact intact' : Prop} {e : Exec} {r : Progress}
    (h : Refines size endp intact e r) (himp : intact' → intact) : Refines size endp intact' e r :=
  { h with encodes := fun hi => h.encodes (himp hi) }

theorem Refines.after {size endp : ℕ} {intact : Prop} {e : Exec} {r : Progress}
    (h : Refines size endp intact e r) (log : List Item) (calls : List (ℕ × Answer)) :
    Refines size endp intact (e.after log calls) (r.after log calls) where
  cont := h.cont
  log := by rw [Exec.after, Progress.after, h.log]
  calls := by rw [Exec.after, Progress.after, h.calls]
  length := h.length
  tail := h.tail
  encodes := h.encodes

theorem consumed_refines {a b c : List UInt8} {rs : List Rec} (h : Encodes b rs) {intact : Prop}
    {size endp : ℕ} (hsize : size = endp + c.length) (hend : endp = a.length + b.length) (cont : Bool)
    (log : List Item) (calls : List (ℕ × Answer)) :
    Refines size endp intact (consumed (a ++ (b ++ c)) a.length endp cont log calls)
      ⟨rs, cont, log, calls⟩ := by
  have hleft : endp - a.length = b.length := by omega
  have hslice : slice (a ++ (b ++ c)) a.length b.length = b := slice_middle a b c
  refine ⟨rfl, rfl, rfl, ?_, ?_, fun _ => ?_⟩
  · simp only [consumed, hleft, hslice]
    rw [length_patch (by simp; omega)]
    simp
    omega
  · simp only [consumed]
    omega
  · have htake := @take_patch _ (a ++ (b ++ c)) b 0 (by omega)
    simp only [consumed, hleft, hslice]
    rw [Nat.zero_add] at htake
    simpa [htake] using h

/-- `fill_iovec` at the head of the block, from entries further down: what `memcpy` leaves there, and
the bytes behind the entries, which it does not touch. -/
theorem refill (mc : Memcpy) {blk src rest got : List UInt8} {pos n : ℕ} (hpos : 4 ≤ pos)
    (hlen : pos + 16 * n + rest.length ≤ blk.length) (hsrc : slice blk pos (16 * n) = src)
    (hrest : slice blk (pos + 16 * n) rest.length = rest) :
    (fillIovec (fun b dst => mc.copy b dst pos (16 * n)) blk 0 n).length = blk.length ∧
    slice (fillIovec (fun b dst => mc.copy b dst pos (16 * n)) blk 0 n) (pos + 16 * n) rest.length =
      rest ∧
    (mc.Leaves 4 pos (16 * n) src got →
      (fillIovec (fun b dst => mc.copy b dst pos (16 * n)) blk 0 n).take (4 + 16 * n) =
        leBytes 4 (n <<< 1) ++ got) := by
  obtain ⟨blk2, hblk2⟩ : ∃ b, patch blk 0 (leBytes 4 (n <<< 1)) = b := ⟨_, rfl⟩
  have htag : (leBytes 4 (n <<< 1)).length = 4 := length_leBytes _ _
  have hlen2 : blk2.length = blk.length := by
    rw [← hblk2]
    exact length_patch (by omega)
  -- the tag is stored before anything the copy reads
  have hsrc2 : slice blk2 pos (16 * n) = src := by
    rw [← hblk2, slice_patch_disjoint (by omega) (by omega), hsrc]
  have hrest2 : slice blk2 (pos + 16 * n) rest.length = rest := by
    rw [← hblk2, slice_patch_disjoint (by omega) (by omega), hrest]
  have hbytes : (mc.bytes blk2 4 pos (16 * n)).length = 16 * n :=
    mc.length_bytes blk2 4 pos (16 * n) (by omega) (by omega)
  have hfill : fillIovec (fun b dst => mc.copy b dst pos (16 * n)) blk 0 n =
      patch blk2 4 (mc.bytes blk2 4 pos (16 * n)) := by
    rw [fillIovec, hblk2, Memcpy.copy, Nat.zero_add]
  rw [hfill]
  refine ⟨?_, ?_, fun hgot => ?_⟩
  · rw [length_patch (by omega), hlen2]
  · rw [slice_patch_disjoint (by omega) (by omega), hrest2]
  · have hbytes' : mc.bytes blk2 4 pos (16 * n) = got := hgot blk2 (by omega) (by omega) hsrc2
    have htake := @take_patch _ blk2 (mc.bytes blk2 4 pos (16 * n)) 4 (by omega)
    have htake2 := @take_patch _ blk (leBytes 4 (n <<< 1)) 0 (by omega)
    rw [hbytes] at htake
    rw [htag, hblk2] at htake2
    simpa [htake2, hbytes'] using htake

theorem patch_sendfile {a b c : List UInt8} {infd : UInt32} {off len : UInt64}
    (h : Rec.Bytes (.sendfile infd off len) b) (off' len' : UInt64) :
    ∃ b', Rec.Bytes (.sendfile infd off' len') b' ∧ b'.length = b.length ∧
      patch (patch (a ++ (b ++ c)) (a.length + 12) (leBytes 8 off'.toNat)) (a.length + 20)
        (leBytes 8 len'.toNat) = a ++ (b' ++ c) := by
  obtain ⟨⟩ | @⟨_, _, _, pad, hpad⟩ := h
  refine ⟨_, .sendfile hpad, by simp only [List.length_append, length_leBytes], ?_⟩
  obtain ⟨pre, hpre⟩ : ∃ l, a ++ (leBytes 4 XF_SENDFILE ++ (leBytes 4 infd.toNat ++ pad)) = l :=
    ⟨_, rfl⟩
  have hprelen : pre.length = a.length + 12 := by rw [← hpre]; simp [hpad]
  have hoff (x y : List UInt8) :
      a ++ (leBytes 4 XF_SENDFILE ++ (leBytes 4 infd.toNat ++ (pad ++ (x ++ y))) ++ c) =
        pre ++ (x ++ (y ++ c)) := by
    rw [← hpre]
    simp only [List.append_assoc]
  have hfst : patch (pre ++ (leBytes 8 off.toNat ++ (leBytes 8 len.toNat ++ c))) (a.length + 12)
      (leBytes 8 off'.toNat) = pre ++ (leBytes 8 off'.toNat ++ (leBytes 8 len.toNat ++ c)) := by
    rw [← hprelen]
    exact patch_middle (by simp)
  have hsnd : patch (pre ++ (leBytes 8 off'.toNat ++ (leBytes 8 len.toNat ++ c))) (a.length + 20)
      (leBytes 8 len'.toNat) = pre ++ (leBytes 8 off'.toNat ++ (leBytes 8 len'.toNat ++ c)) := by
    have hlen : (pre ++ leBytes 8 off'.toNat).length = a.length + 20 := by simp [hprelen]
    have hassoc (y : List UInt8) : pre ++ (leBytes 8 off'.toNat ++ (y ++ c)) =
        (pre ++ leBytes 8 off'.toNat) ++ (y ++ c) := (List.append_assoc _ _ _).symm
    rw [hassoc, hassoc, ← hlen]
    exact patch_middle (by simp only [length_leBytes])
  rw [hoff, hoff, hfst, hsnd]

/-- A `writev` that stopped in an entry: the record that is left has the entries `vec'`, which are
those not sent where nothing is copied, and otherwise what `memcpy` makes of them. -/
theorem consumedIovec_refines {mc : Memcpy} {a bytes c : List UInt8} {rs : List Rec}
    {v1 v2 vec' : List IoVec} {v : IoVec} {wl endp : ℕ} (henc : Encodes bytes rs)
    (hvec : (v1 ++ v :: v2).length < 2 ^ 31)
    {size : ℕ} (hsize : size = endp + c.length)
    (hend : endp = a.length + sizeofIovec (v1 ++ v :: v2).length + bytes.length) {intact : Prop}
    (hlen' : vec'.length = v2.length + 1)
    (hstay : intact → v1.length = 0 → vec' = v.skip wl :: v2)
    (hcopy : intact → v1.length ≠ 0 → mc.Leaves 4 (a.length + 4 + 16 * v1.length)
      (16 * (v2.length + 1)) (vecBytes (v.skip wl :: v2)) (vecBytes vec'))
    (log : List Item) (calls : List (ℕ × Answer)) :
    Refines size endp intact
      (consumedIovec mc
        (a ++ (leBytes 4 ((v1 ++ v :: v2).length <<< 1) ++ vecBytes (v1 ++ v :: v2) ++ (bytes ++ c)))
        a.length endp (v1 ++ v :: v2) v1.length wl log calls)
      ⟨.iovec vec' :: rs, true, log, calls⟩ := by
  obtain ⟨k, hk⟩ : ∃ k, (v1 ++ v :: v2).length = k := ⟨_, rfl⟩
  have hk' : k = v1.length + v2.length + 1 := by rw [← hk]; simp; omega
  rw [hk] at hvec hend ⊢
  simp only [sizeofIovec, sizeofXferType, sizeofStructIovec] at hend
  -- up to the entry the writev stopped in, that entry, the entries after it, the other records
  obtain ⟨pre, hpre⟩ : ∃ l, a ++ (leBytes 4 (k <<< 1) ++ vecBytes v1) = l := ⟨_, rfl⟩
  have hprelen : pre.length = a.length + 4 + 16 * v1.length := by rw [← hpre]; simp; omega
  have hblk : a ++ (leBytes 4 (k <<< 1) ++ vecBytes (v1 ++ v :: v2) ++ (bytes ++ c)) =
      pre ++ (iovBytes v ++ (vecBytes v2 ++ (bytes ++ c))) := by
    rw [← hpre, vecBytes_append, vecBytes_cons]
    simp only [List.append_assoc]
  rw [hblk]
  have hread : readIov (pre ++ (iovBytes v ++ (vecBytes v2 ++ (bytes ++ c))))
      (a.length + 4 + 16 * v1.length) = v := readIov_middle hprelen
  have hpatch : patch (pre ++ (iovBytes v ++ (vecBytes v2 ++ (bytes ++ c))))
      (a.length + 4 + 16 * v1.length) (iovBytes (v.skip wl)) =
      pre ++ (iovBytes (v.skip wl) ++ (vecBytes v2 ++ (bytes ++ c))) := by
    rw [← hprelen]
    exact patch_middle (by simp)
  unfold consumedIovec
  simp only [hread, hpatch, hk]
  by_cases hi : v1.length = 0
  · have hnil : v1 = [] := List.length_eq_zero_iff.mp hi
    subst hnil
    rw [if_pos hi]
    have hrec : Rec.Bytes (.iovec (v.skip wl :: v2))
        (leBytes 4 (k <<< 1) ++ vecBytes (v.skip wl :: v2)) := by
      have := @Rec.Bytes.iovec (v.skip wl :: v2) (by simp at hk' ⊢; omega)
      rwa [List.length_cons, show v2.length + 1 = k by simp at hk'; omega] at this
    have heq : a ++ (leBytes 4 (k <<< 1) ++ vecBytes (v.skip wl :: v2) ++ bytes ++ c) =
        pre ++ (iovBytes (v.skip wl) ++ (vecBytes v2 ++ (bytes ++ c))) := by
      rw [← hpre, vecBytes_cons]
      simp [vecBytes]
    rw [← heq]
    have hcons : Refines size endp intact _ ⟨.iovec (v.skip wl :: v2) :: rs, true, log, calls⟩ :=
      consumed_refines (a := a) (c := c) (Encodes.cons hrec henc) hsize (by simp at hk' ⊢; omega) true
        log calls
    exact { hcons with encodes := fun hint => by rw [hstay hint hi]; exact hcons.encodes hint }
  · rw [if_neg hi]
    obtain ⟨n, hn⟩ : ∃ n, k - v1.length = n := ⟨_, rfl⟩
    obtain ⟨blk, hblk1⟩ : ∃ b, pre ++ (iovBytes (v.skip wl) ++ (vecBytes v2 ++ (bytes ++ c))) = b :=
      ⟨_, rfl⟩
    have hsrclen : (vecBytes (v.skip wl :: v2)).length = 16 * n := by simp; omega
    have hsrc : slice blk (a.length + 4 + 16 * v1.length) (16 * n) = vecBytes (v.skip wl :: v2) := by
      have := slice_middle pre (vecBytes (v.skip wl :: v2)) (bytes ++ c)
      rw [hprelen, hsrclen, vecBytes_cons, List.append_assoc, hblk1] at this
      rw [this, vecBytes_cons]
    have hrest : slice blk (a.length + 4 + 16 * v1.length + 16 * n) bytes.length = bytes := by
      have := slice_middle (pre ++ vecBytes (v.skip wl :: v2)) bytes c
      rw [List.length_append, hprelen, hsrclen, vecBytes_cons] at this
      simp only [List.append_assoc] at this
      rwa [hblk1] at this
    have hlen : blk.length = a.length + 4 + 16 * v1.length + 16 * n + bytes.length + c.length := by
      rw [← hblk1]
      simp [hprelen]
      omega
    obtain ⟨hlenF, hrestF, htakeF⟩ := refill mc (by omega) (by omega) hsrc hrest
    have hp : a.length + sizeofIovec k = a.length + 4 + 16 * v1.length + 16 * n := by
      simp only [sizeofIovec, sizeofXferType, sizeofStructIovec]
      omega
    have hleft : endp - (a.length + 4 + 16 * v1.length + 16 * n) = bytes.length := by omega
    have hft : sizeofIovec n = 4 + 16 * n := by
      simp only [sizeofIovec, sizeofXferType, sizeofStructIovec]
    simp only [hn, hblk1, hp, hleft, hft, hrestF]
    refine ⟨rfl, rfl, rfl, ?_, ?_, fun hint => ?_⟩
    · simp only
      rw [length_patch (by omega), hlenF, hlen]
      omega
    · simp only
      omega
    · have hrec : Rec.Bytes (.iovec vec') (leBytes 4 (n <<< 1) ++ vecBytes vec') := by
        have := @Rec.Bytes.iovec vec' (by omega)
        rwa [show vec'.length = n by omega] at this
      have htake := htakeF (by
        have := hcopy hint hi
        rwa [show v2.length + 1 = n by omega] at this)
      simp only
      rw [take_patch (by omega), htake]
      exact Encodes.cons hrec henc

/-- `execute` on a block that encodes `rs` from `a.length` on does what `execRecs` does on `rs`. -/
theorem execute_middle (w : World) (mc : Memcpy) {a b c : List UInt8} {rs : List Rec}
    (henc : Encodes b rs) {size endp fuel : ℕ} (hsize : size = endp + c.length)
    (hend : endp = a.length + b.length) (hfuel : b.length ≤ fuel) (as : List Answer) :
    Refines size endp (mc.CopiesDown ∨ overlapAt a.length rs as = false)
      (execute w mc endp fuel (a ++ (b ++ c)) a.length as) (execRecs w rs as) := by
  induction henc generalizing a fuel as with
  | nil =>
    have hex : execute w mc endp fuel (a ++ ([] ++ c)) a.length as = ⟨a ++ c, 0, false, [], []⟩ := by
      cases fuel with
      | zero => rfl
      | succ fuel =>
        rw [execute, if_neg]
        · simp
        · simp at hend
          omega
    rw [hex]
    exact ⟨rfl, rfl, rfl, by simp at hend ⊢; omega, by simp, fun _ => by simpa [execRecs] using Encodes.nil⟩
  | @cons r b bytes rs hr henc ih =>
    have hlen := hr.length
    have hpos := r.size_pos
    rw [List.length_append] at hend hfuel
    obtain ⟨fuel, rfl⟩ : ∃ k, fuel = k + 1 := ⟨fuel - 1, by omega⟩
    have hread : readRec (a ++ (b ++ bytes ++ c)) a.length = r := by
      rw [List.append_assoc]
      exact readRec_middle hr
    -- the record stays, whole or shortened: the queue from it on moves to the head
    have hstay {r' : Rec} {b' : List UInt8} (hr' : r'.Bytes b') (hsame : b'.length = b.length)
        (cont : Bool) (log : List Item) (calls : List (ℕ × Answer)) {intact : Prop} :
        Refines size endp intact
          (consumed (a ++ (b' ++ bytes ++ c)) a.length endp cont log calls)
          ⟨r' :: rs, cont, log, calls⟩ :=
      consumed_refines (Encodes.cons hr' henc) hsize (by rw [List.length_append]; omega) cont log calls
    have hnext (as : List Answer) :
        Refines size endp (mc.CopiesDown ∨ overlapAt (a.length + r.size) rs as = false)
          (execute w mc endp fuel (a ++ (b ++ bytes ++ c)) (a.length + r.size) as)
          (execRecs w rs as) := by
      have := @ih (a ++ b) fuel (by rw [List.length_append]; omega) (by omega) as
      rwa [List.length_append, hlen, List.append_assoc, ← List.append_assoc b] at this
    rw [execute, if_pos (by omega), hread]
    cases r with
    | finalize fin user => exact (hnext as).after _ _
    | sendfile infd off len =>
      simp only [execRecs]
      by_cases h0 : (answer as).accepted = 0
      · rw [if_pos h0, if_pos h0]
        exact hstay hr rfl _ _ _
      rw [if_neg h0, if_neg h0]
      by_cases hlt : (answer as).accepted < len.toNat
      · rw [if_pos hlt, if_pos hlt]
        obtain ⟨b', hb', hlen', hpatch⟩ := patch_sendfile (a := a) (c := bytes ++ c) hr
          (off + UInt64.ofNat (answer as).accepted) (len - UInt64.ofNat (answer as).accepted)
        rw [List.append_assoc, hpatch, ← List.append_assoc b']
        exact hstay hb' hlen' _ _ _
      · rw [if_neg hlt, if_neg hlt]
        refine ((hnext as.tail).mono ?_).after _ _
        rintro (h | h)
        · exact .inl h
        · right
          have hge : len.toNat ≤ (answer as).accepted := by omega
          simpa [overlapAt, hge, h0, Rec.size] using h
    | iovec vec =>
      simp only [execRecs]
      by_cases h0 : (answer as).accepted = 0
      · rw [if_pos h0, if_pos h0]
        exact hstay hr rfl _ _ _
      rw [if_neg h0, if_neg h0]
      rcases hstop : stopAt vec (answer as).accepted with _ | ⟨i, wl⟩
      · refine ((hnext as.tail).mono ?_).after _ _
        rintro (h | h)
        · exact .inl h
        · exact .inr (by simpa [overlapAt, hstop, h0, Rec.size] using h)
      · obtain ⟨v1, v, v2, rfl, rfl, -, -⟩ := stopAt_some hstop
        obtain ⟨hvec⟩ := hr
        simp only [advance_eq]
        rw [List.append_assoc]
        refine consumedIovec_refines henc hvec hsize (by rw [hend, hlen, Rec.size, Nat.add_assoc])
          rfl (fun _ _ => rfl) ?_ _ _
        rintro (h | h) hi
        · exact h.leaves (by omega)
        · simp only [overlapAt, hstop] at h
          simp only [ne_eq, h0, not_false_eq_true, decide_true, Bool.true_and, Bool.and_eq_false_imp,
            decide_eq_true_eq, decide_eq_false_iff_not] at h
          have hfar := h hi
          rw [List.length_append, List.length_cons] at hfar
          exact Memcpy.leaves_of_disjoint (.inl (by omega))

theorem execute_refines (w : World) (mc : Memcpy) {blk : List UInt8} {tail : ℕ} {rs : List Rec}
    (henc : Encodes (blk.take tail) rs) (ht : tail ≤ blk.length) (as : List Answer) :
    Refines blk.length tail (mc.CopiesDown ∨ overlapAt 0 rs as = false)
      (execute w mc tail tail blk 0 as) (execRecs w rs as) := by
  have hlen : (blk.take tail).length = tail := List.length_take_of_le ht
  have := @execute_middle w mc [] _ (blk.drop tail) _ henc blk.length tail tail (by simp; omega)
    (by simp [hlen]) (by omega) as
  simpa using this

theorem Xfer.Holds.tryWrite {x : Xfer} {rs : List Rec} (h : x.Holds rs) (w : World) (mc : Memcpy)
    (as : List Answer) :
    (x.tryWrite w mc as).2.1.cont = (execRecs w rs as).cont ∧
    (x.tryWrite w mc as).2.1.log = (execRecs w rs as).log ∧
    (x.tryWrite w mc as).2.1.calls = (execRecs w rs as).calls ∧
    (mc.CopiesDown ∨ overlapAt 0 rs as = false →
      (x.tryWrite w mc as).1.Holds (execRecs w rs as).recs) := by
  have hlen := h.length
  have hsmall := h.small
  have href := execute_refines w mc h.encodes (by omega) as
  unfold Xfer.tryWrite
  obtain ⟨e, he⟩ : ∃ e, execute w mc x.tail x.tail x.mem 0 as = e := ⟨_, rfl⟩
  rw [he] at href ⊢
  have htail := href.tail
  have helen := href.length
  refine ⟨href.cont, href.log, href.calls, fun hok => ?_⟩
  have henc := href.encodes hok
  rcases hblk : x.block with _ | blk
  · -- nothing is allocated: the queue is empty before and after
    simp only [mem, hblk, Option.getD_none, List.length_nil] at hlen
    have hz : e.tail = 0 := by omega
    rw [hz, List.take_zero] at henc
    refine ⟨?_, ?_, by simpa [bytes, mem] using henc⟩
    · simp only [mem, Option.map_none, Option.getD_none, List.length_nil]
      omega
    · simp only
      omega
  · refine ⟨?_, ?_, by simpa [bytes, mem] using henc⟩
    · simp only [mem, Option.map_some, Option.getD_some]
      omega
    · simp only
      omega

/-! ## When `execute` returns -/

theorem execute_cont (w : World) (mc : Memcpy) (endp fuel : ℕ) (blk : List UInt8) (p : ℕ)
    (as : List Answer) (h : (execute w mc endp fuel blk p as).cont = true) :
    0 < (execute w mc endp fuel blk p as).tail := by
  fun_induction execute w mc endp fuel blk p as with
  | case1 | case9 => cases h
  | case2 | case3 | case6 =>
    simp only [consumed]
    omega
  | case4 | case5 | case8 =>
    rename_i ih
    exact ih h
  | case7 =>
    simp only [consumedIovec]
    split_ifs
    · simp only [consumed]
      omega
    · simp only [sizeofIovec, sizeofXferType]
      omega

/-- Without a fatal answer `execute` returns false only when everything is sent. -/
theorem execRecs_done (w : World) (rs : List Rec) (as : List Answer)
    (hb : ∀ c ∈ (execRecs w rs as).calls, ¬ c.2.Fatal) (h : (execRecs w rs as).cont = false) :
    (execRecs w rs as).recs = [] := by
  fun_induction execRecs w rs as with
  | case1 as => rfl
  | case2 infd off len rs as a call h0 | case6 vec rs as a call h0 =>
    exact absurd ⟨h0, h⟩ (hb _ (List.mem_singleton.mpr rfl))
  | case3 infd off len rs as a call sent h0 hlt wl => cases h
  | case4 infd off len rs as a call sent h0 hge ih | case8 vec rs as a call sent h0 hstop ih =>
    exact ih (fun c hc => hb c (List.mem_append_right _ hc)) h
  | case5 fin user rs as ih => exact ih (fun c hc => hb c (by simpa [Progress.after] using hc)) h
  | case7 vec rs as a call sent h0 i wl hstop => cases h

theorem execRecs_answers (w : World) (rs : List Rec) (as : List Answer) :
    ∀ c ∈ (execRecs w rs as).calls, c.2 ∈ as ∨ c.2 = .fails .EAGAIN := by
  have hanswer (as : List Answer) : answer as ∈ as ∨ answer as = .fails .EAGAIN := by
    cases as with
    | nil => exact .inr rfl
    | cons a as => exact .inl (List.mem_cons_self ..)
  fun_induction execRecs w rs as with
  | case1 as => simp
  | case2 infd off len rs as a call h0 | case6 vec rs as a call h0
  | case3 infd off len rs as a call sent h0 hlt wl
  | case7 vec rs as a call sent h0 i wl hstop =>
    intro c hc
    rw [List.mem_singleton.mp hc]
    exact hanswer as
  | case4 infd off len rs as a call sent h0 hge ih | case8 vec rs as a call sent h0 hstop ih =>
    intro c hc
    rcases List.mem_append.mp hc with hc | hc
    · rw [List.mem_singleton.mp hc]
      exact hanswer as
    · exact (ih c hc).imp_left fun h => List.mem_of_mem_tail h
  | case5 fin user rs as ih => exact fun c hc => ih c (by simpa [Progress.after] using hc)

end Mpio.Wavy
