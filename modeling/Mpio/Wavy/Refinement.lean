import Mpio.Wavy.Stream

/-!
# What `execute` means for a list of records

`WorksOff` says on lists what `execute` is for: the queue held `passed ++ rest`, the records `passed`
are done with and their finalizers called, the first of `rest` may have lost bytes that were accepted,
and the value returned and the new tail tell why it stopped. Together with termination (`execute?`
tells apart that its fuel ran out) this is `Meets`.

`execute_meets_iff`: on a queue that encodes a list of records, `execute` does this with every
implementation of `memcpy` exactly when no compaction copies between overlapping ranges. One
direction is `execute_refines` with what `execRecs` does; for the other, an implementation that clears
an overlapping destination (`Memcpy.zeroing`) leaves entries of no bytes, and the byte the `writev`
stopped at is lost.
-/

namespace Mpio.Wavy

open Lib

variable {w : World} {mc : Memcpy} {as : List Answer}

/-- `execute` where running out of fuel is told apart. -/
def execute? (w : World) (mc : Memcpy) (endp : ℕ) :
    ℕ → List UInt8 → ℕ → List Answer → Option Exec
  | 0, blk, p, _ => if p < endp then none else some ⟨blk, 0, false, [], []⟩
  | fuel + 1, blk, p, as =>
    if p < endp then
      match readRec blk p with
      | .sendfile infd off len =>
        let a := answer as
        let call := [(len.toNat, a)]
        let sent := ((Rec.sendfile infd off len).items w).take a.accepted
        if a.accepted = 0 then some (consumed blk p endp a.retry [] call)
        else if a.accepted < len.toNat then
          let wl := UInt64.ofNat a.accepted
          let blk := patch blk (p + 12) (leBytes 8 (off + wl).toNat)
          let blk := patch blk (p + 20) (leBytes 8 (len - wl).toNat)
          some (consumed blk p endp true sent call)
        else (execute? w mc endp fuel blk (p + sizeofSendfile) as.tail).map (Exec.after sent call)
      | .finalize fin user =>
        (execute? w mc endp fuel blk (p + sizeofFinalize) as).map (Exec.after (finItem fin user) [])
      | .iovec vec =>
        let a := answer as
        let call := [(vecLen vec, a)]
        let sent := ((Rec.iovec vec).items w).take a.accepted
        if a.accepted = 0 then some (consumed blk p endp a.retry [] call)
        else
          match stopAt vec a.accepted with
          | some (i, wl) => some (consumedIovec mc blk p endp vec i wl sent call)
          | none =>
            (execute? w mc endp fuel blk (p + sizeofIovec vec.length) as.tail).map
              (Exec.after sent call)
    else some ⟨blk, 0, false, [], []⟩

theorem execute_eq_of_mem (w : World) (mc : Memcpy) (endp fuel : ℕ) (blk : List UInt8) (p : ℕ)
    (as : List Answer) :
    ∀ e ∈ execute? w mc endp fuel blk p as, execute w mc endp fuel blk p as = e := by
  fun_induction execute w mc endp fuel blk p as with
  | case1 blk p as =>
    intro e h
    simp only [execute?] at h
    split_ifs at h
    · cases h
    · exact Option.some.inj h
  | case2 fuel blk p as hlt infd off len hr a call h0 =>
    intro e h
    simp only [execute?, if_pos hlt, hr] at h
    rw [if_pos h0] at h
    exact Option.some.inj h
  | case3 fuel blk p as hlt infd off len hr a call sent h0 hpart wl b1 b2 =>
    intro e h
    simp only [execute?, if_pos hlt, hr] at h
    rw [if_neg h0, if_pos hpart] at h
    exact Option.some.inj h
  | case4 fuel blk p as hlt infd off len hr a call sent h0 hge ih =>
    intro e h
    simp only [execute?, if_pos hlt, hr] at h
    rw [if_neg h0, if_neg hge] at h
    obtain ⟨e', he', rfl⟩ := Option.map_eq_some_iff.mp h
    rw [ih e' he']
  | case5 fuel blk p as hlt fin user hr ih =>
    intro e h
    simp only [execute?, if_pos hlt, hr] at h
    obtain ⟨e', he', rfl⟩ := Option.map_eq_some_iff.mp h
    rw [ih e' he']
  | case6 fuel blk p as hlt vec hr a call h0 =>
    intro e h
    simp only [execute?, if_pos hlt, hr] at h
    rw [if_pos h0] at h
    exact Option.some.inj h
  | case7 fuel blk p as hlt vec hr a call sent h0 i wl hstop =>
    intro e h
    simp only [execute?, if_pos hlt, hr] at h
    rw [if_neg h0, hstop] at h
    exact Option.some.inj h
  | case8 fuel blk p as hlt vec hr a call sent h0 hstop ih =>
    intro e h
    simp only [execute?, if_pos hlt, hr] at h
    rw [if_neg h0, hstop] at h
    obtain ⟨e', he', rfl⟩ := Option.map_eq_some_iff.mp h
    rw [ih e' he']
  | case9 fuel blk p as hge =>
    intro e h
    rw [execute?, if_neg hge] at h
    exact Option.some.inj h

theorem execute?_isSome (w : World) (mc : Memcpy) {a b c : List UInt8} {rs : List Rec}
    (henc : Encodes b rs) {endp fuel : ℕ} (hend : endp = a.length + b.length)
    (hfuel : b.length ≤ fuel) (as : List Answer) :
    (execute? w mc endp fuel (a ++ (b ++ c)) a.length as).isSome := by
  induction henc generalizing a fuel as with
  | nil =>
    have hge : ¬ a.length < endp := by simp [hend]
    cases fuel with
    | zero => simp [execute?, hge]
    | succ fuel => simp [execute?, hge]
  | @cons r b bytes rs hr _ ih =>
    have hlen := hr.length
    have hpos := r.size_pos
    rw [List.length_append] at hend hfuel
    obtain ⟨fuel, rfl⟩ : ∃ k, fuel = k + 1 := ⟨fuel - 1, by omega⟩
    have hread : readRec (a ++ (b ++ bytes ++ c)) a.length = r := by
      rw [List.append_assoc]
      exact readRec_middle hr
    have hnext (as : List Answer) :
        (execute? w mc endp fuel (a ++ (b ++ bytes ++ c)) (a.length + r.size) as).isSome := by
      have := @ih (a ++ b) fuel (by rw [List.length_append]; omega) (by omega) as
      rwa [List.length_append, hlen, List.append_assoc, ← List.append_assoc b] at this
    rw [execute?, if_pos (by omega), hread]
    cases r with
    | finalize fin user =>
      rw [Option.isSome_map]
      exact hnext as
    | sendfile infd off len =>
      simp only
      split_ifs
      · rfl
      · rfl
      · rw [Option.isSome_map]
        exact hnext as.tail
    | iovec vec =>
      simp only
      split_ifs
      · rfl
      · rcases stopAt vec (answer as).accepted with _ | ⟨i, wl⟩
        · rw [Option.isSome_map]
          exact hnext as.tail
        · rfl

/-! ## Working off a list of records -/

/-- The call ends the loop without an error: it is to be tried again, or part of the bytes is taken. -/
def Answer.Stops (offered : ℕ) (a : Answer) : Prop :=
  a.retry = true ∨ 0 < a.accepted ∧ a.accepted < offered

/-- What `execute` is for. The queue held `passed ++ rest`, and `left` is queued now. -/
structure WorksOff (w : World) (passed rest left : List Rec) (e : Exec) : Prop where
  encodes : Encodes (e.block.take e.tail) left
  log : ∃ sent : List UInt8, e.log = items w passed ++ sent.map .byte
  bytes : bytesOf e.log ++ bytesOf (items w left) = bytesOf (items w (passed ++ rest))
  called : fins e.log = finalizers passed
  kept : finalizers left = finalizers rest
  stopped : e.cont = true ↔ ∃ c ∈ e.calls, c.2.Stops c.1
  residue : e.cont = true → left ≠ []
  done : e.cont = false ∧ e.tail = 0 ↔ rest = []
  fatal : e.cont = false ∧ e.tail ≠ 0 ↔ ∃ c ∈ e.calls, c.2.Fatal

/-- The part of it that the list semantics decides. -/
structure Progress.WorksOff (w : World) (passed rest : List Rec) (r : Progress) : Prop where
  log : ∃ sent : List UInt8, r.log = items w passed ++ sent.map .byte
  kept : finalizers r.recs = finalizers rest
  nil_iff : r.recs = [] ↔ rest = []
  stopped : r.cont = true ↔ ∃ c ∈ r.calls, c.2.Stops c.1
  residue : r.cont = true → r.recs ≠ []
  fatal : r.cont = false ∧ r.recs ≠ [] ↔ ∃ c ∈ r.calls, c.2.Fatal

theorem Answer.retry_of_accepted {a : Answer} (h : a.accepted ≠ 0) : a.retry = false := by
  cases a with
  | fails errno => exact absurd rfl h
  | count n => rfl

theorem Progress.WorksOff.pass {passed rest : List Rec} {r : Progress} (h : r.WorksOff w passed rest)
    {rec : Rec} {sent : List Item} (hsent : sent = rec.items w) {calls : List (ℕ × Answer)}
    (hcalls : ∀ c ∈ calls, c.2.accepted ≠ 0 ∧ c.1 ≤ c.2.accepted) :
    (r.after sent calls).WorksOff w (rec :: passed) rest := by
  have hstops : ∀ c ∈ calls, ¬ c.2.Stops c.1 := by
    rintro c hc (hr | ⟨-, hlt⟩)
    · rw [Answer.retry_of_accepted (hcalls c hc).1] at hr
      cases hr
    · have := (hcalls c hc).2
      omega
  have hfatal : ∀ c ∈ calls, ¬ c.2.Fatal := fun c hc hf => (hcalls c hc).1 hf.1
  have hskip {P : ℕ × Answer → Prop} (hno : ∀ c ∈ calls, ¬ P c) :
      (∃ c ∈ r.calls, P c) ↔ ∃ c ∈ calls ++ r.calls, P c := by
    constructor
    · rintro ⟨c, hc, hs⟩
      exact ⟨c, List.mem_append_right _ hc, hs⟩
    · rintro ⟨c, hc, hs⟩
      rcases List.mem_append.mp hc with hc | hc
      · exact absurd hs (hno c hc)
      · exact ⟨c, hc, hs⟩
  obtain ⟨bytes, hlog⟩ := h.log
  refine ⟨⟨bytes, ?_⟩, h.kept, h.nil_iff, ?_, h.residue, ?_⟩
  · rw [Progress.after, hsent, hlog, items_cons, List.append_assoc]
  · exact h.stopped.trans (hskip hstops)
  · exact h.fatal.trans (hskip hfatal)

theorem Progress.worksOff_stay {r r' : Rec} {rs : List Rec} (sent : List UInt8) {offered : ℕ}
    {a : Answer} {cont : Bool} (hfin : finalizers (r' :: rs) = finalizers (r :: rs))
    (hcont : cont = true ↔ a.Stops offered) (hfatal : cont = false ↔ a.Fatal) :
    Progress.WorksOff w [] (r :: rs) ⟨r' :: rs, cont, sent.map .byte, [(offered, a)]⟩ := by
  refine ⟨⟨sent, rfl⟩, hfin, by simp, ?_, by simp, ?_⟩
  · simpa using hcont
  · simpa using hfatal

theorem execRecs_worksOff (w : World) (rs : List Rec) (as : List Answer) :
    ∃ passed rest, rs = passed ++ rest ∧ (execRecs w rs as).WorksOff w passed rest := by
  have hnone {offered : ℕ} {a : Answer} (h0 : a.accepted = 0) :
      (a.retry = true ↔ a.Stops offered) ∧ (a.retry = false ↔ a.Fatal) :=
    ⟨⟨.inl, fun h => h.elim id fun h => by omega⟩, ⟨fun h => ⟨h0, h⟩, fun h => h.2⟩⟩
  have hpart {offered : ℕ} {a : Answer} (h0 : a.accepted ≠ 0) (hlt : a.accepted < offered) :
      (true = true ↔ a.Stops offered) ∧ (true = false ↔ a.Fatal) :=
    ⟨⟨fun _ => .inr ⟨by omega, hlt⟩, fun _ => rfl⟩, ⟨fun h => (by cases h), fun h => absurd h.1 h0⟩⟩
  fun_induction execRecs w rs as with
  | case1 as =>
    refine ⟨[], [], rfl, ⟨⟨[], rfl⟩, rfl, Iff.rfl, ?_, ?_, ?_⟩⟩
    · simp
    · simp
    · simp
  | case2 infd off len rs as a call h0 =>
    obtain ⟨hcont, hfatal⟩ := @hnone len.toNat a h0
    exact ⟨[], _, rfl, Progress.worksOff_stay [] rfl hcont hfatal⟩
  | case3 infd off len rs as a call sent h0 hlt wl =>
    obtain ⟨hcont, hfatal⟩ := @hpart len.toNat a h0 hlt
    refine ⟨[], .sendfile infd off len :: rs, rfl, ?_⟩
    simp only [sent, Rec.items, ← List.map_take]
    exact Progress.worksOff_stay _ rfl hcont hfatal
  | case4 infd off len rs as a call sent h0 hge ih =>
    obtain ⟨passed, rest, rfl, h⟩ := ih
    have hall : sent = (Rec.sendfile infd off len).items w := by
      apply List.take_of_length_le
      simp only [Rec.items, List.length_map, length_rangeOf]
      omega
    refine ⟨.sendfile infd off len :: passed, rest, rfl, h.pass hall fun c hc => ?_⟩
    obtain rfl := List.mem_singleton.mp hc
    exact ⟨h0, Nat.le_of_not_lt hge⟩
  | case5 fin user rs as ih =>
    obtain ⟨passed, rest, rfl, h⟩ := ih
    exact ⟨.finalize fin user :: passed, rest, rfl, h.pass rfl (by simp)⟩
  | case6 vec rs as a call h0 =>
    obtain ⟨hcont, hfatal⟩ := @hnone (vecLen vec) a h0
    exact ⟨[], _, rfl, Progress.worksOff_stay [] rfl hcont hfatal⟩
  | case7 vec rs as a call sent h0 i wl hstop =>
    have hlt : a.accepted < vecLen vec := by
      obtain ⟨v1, v, v2, rfl, -, hwl, hn⟩ := stopAt_some hstop
      simp only [vecLen, List.map_append, List.map_cons, List.sum_append, List.sum_cons] at hn ⊢
      omega
    obtain ⟨hcont, hfatal⟩ := hpart h0 hlt
    refine ⟨[], .iovec vec :: rs, rfl, ?_⟩
    simp only [sent, Rec.items, ← List.map_take]
    exact Progress.worksOff_stay _ rfl hcont hfatal
  | case8 vec rs as a call sent h0 hstop ih =>
    obtain ⟨passed, rest, rfl, h⟩ := ih
    have hall : sent = (Rec.iovec vec).items w := by
      apply List.take_of_length_le
      rw [Rec.items, List.length_map, w.length_vec]
      exact stopAt_none hstop
    refine ⟨.iovec vec :: passed, rest, rfl, h.pass hall fun c hc => ?_⟩
    obtain rfl := List.mem_singleton.mp hc
    exact ⟨h0, stopAt_none hstop⟩

/-! ## Overlapping ranges -/

theorem vecBytes_replicate (n : ℕ) :
    vecBytes (List.replicate n ⟨0, 0⟩) = List.replicate (16 * n) 0 := by
  induction n with
  | zero => rfl
  | succ n ih =>
    rw [List.replicate_succ, vecBytes_cons, ih, Nat.mul_succ, Nat.add_comm, List.replicate_add]
    rfl

theorem World.vec_replicate (w : World) (n : ℕ) : w.vec (List.replicate n ⟨0, 0⟩) = [] := by
  induction n with
  | zero => rfl
  | succ n ih => rw [List.replicate_succ, w.vec_cons, ih]; rfl

theorem bytesOf_map_byte (l : List UInt8) : bytesOf (l.map .byte) = l := by
  induction l with
  | nil => rfl
  | cons b l ih => simp [bytesOf, ih]

theorem Encodes.unique {b : List UInt8} {rs rs' : List Rec} (h : Encodes b rs) (h' : Encodes b rs') :
    rs = rs' := by
  have hdec := @decode_eq b b.length rs (by rwa [List.take_length]) le_rfl
  have hdec' := @decode_eq b b.length rs' (by rwa [List.take_length]) le_rfl
  rw [← hdec, ← hdec']

/-- Where the ranges overlap, clearing the destination loses bytes. -/
theorem execute_zeroing (w : World) {a b c : List UInt8} {rs : List Rec} (henc : Encodes b rs)
    {endp fuel : ℕ} (hend : endp = a.length + b.length) (hfuel : b.length ≤ fuel) (as : List Answer)
    (hov : overlapAt a.length rs as = true) :
    ∃ left, Encodes ((execute w .zeroing endp fuel (a ++ (b ++ c)) a.length as).block.take
        (execute w .zeroing endp fuel (a ++ (b ++ c)) a.length as).tail) left ∧
      (bytesOf (items w left)).length < (bytesOf (items w (execRecs w rs as).recs)).length := by
  induction henc generalizing a fuel as with
  | nil => cases hov
  | @cons r b bytes rs hr henc ih =>
    have hlen := hr.length
    have hpos := r.size_pos
    rw [List.length_append] at hend hfuel
    obtain ⟨fuel, rfl⟩ : ∃ k, fuel = k + 1 := ⟨fuel - 1, by omega⟩
    have hread : readRec (a ++ (b ++ bytes ++ c)) a.length = r := by
      rw [List.append_assoc]
      exact readRec_middle hr
    have hnext (as : List Answer) (hov : overlapAt (a.length + r.size) rs as = true) :
        ∃ left, Encodes ((execute w .zeroing endp fuel (a ++ (b ++ bytes ++ c)) (a.length + r.size)
            as).block.take (execute w .zeroing endp fuel (a ++ (b ++ bytes ++ c)) (a.length + r.size)
            as).tail) left ∧
          (bytesOf (items w left)).length < (bytesOf (items w (execRecs w rs as).recs)).length := by
      have := @ih (a ++ b) fuel (by rw [List.length_append]; omega) (by omega) as
      rw [List.length_append, hlen, List.append_assoc, ← List.append_assoc b] at this
      exact this hov
    rw [execute, if_pos (by omega), hread]
    cases r with
    | finalize fin user => exact hnext as hov
    | sendfile infd off len =>
      simp only [overlapAt, Bool.and_eq_true, decide_eq_true_eq] at hov
      obtain ⟨⟨hge, h0⟩, hov⟩ := hov
      simp only [execRecs, if_neg h0, if_neg (Nat.not_lt.mpr hge)]
      exact hnext as.tail hov
    | iovec vec =>
      simp only [overlapAt, Bool.and_eq_true, decide_eq_true_eq] at hov
      obtain ⟨h0, hov⟩ := hov
      simp only [execRecs, if_neg h0]
      rcases hstop : stopAt vec (answer as).accepted with _ | ⟨i, wl⟩
      · rw [hstop] at hov
        exact hnext as.tail hov
      · obtain ⟨v1, v, v2, rfl, rfl, hwl, -⟩ := stopAt_some hstop
        obtain ⟨hvec⟩ := hr
        simp only [hstop, Bool.and_eq_true, decide_eq_true_eq] at hov
        obtain ⟨hi, hclose⟩ := hov
        rw [List.length_append, List.length_cons] at hclose
        have hleaves : Memcpy.zeroing.Leaves 4 (a.length + 4 + 16 * v1.length)
            (16 * (v2.length + 1)) (vecBytes (v.skip wl :: v2))
            (vecBytes (List.replicate (v2.length + 1) ⟨0, 0⟩)) := by
          rw [vecBytes_replicate]
          exact Memcpy.zeroing_leaves (by omega)
        have hend' : endp = a.length + sizeofIovec (v1 ++ v :: v2).length + bytes.length := by
          rw [hend, hlen, Rec.size, Nat.add_assoc]
        have href := @consumedIovec_refines .zeroing a bytes c rs v1 v2
          (List.replicate (v2.length + 1) ⟨0, 0⟩) v wl endp henc hvec _ rfl hend' True List.length_replicate
          (fun _ h => absurd h hi) (fun _ _ => hleaves)
          (((Rec.iovec (v1 ++ v :: v2)).items w).take (answer as).accepted)
          [(vecLen (v1 ++ v :: v2), answer as)]
        rw [List.append_assoc]
        refine ⟨_, href.encodes trivial, ?_⟩
        have hskip : 0 < (v.skip wl).iovLen.toNat := by
          have hlt := v.iovLen.toNat_lt
          have hwl' : (UInt64.ofNat wl).toNat = wl := by
            rw [UInt64.toNat_ofNat', Nat.mod_eq_of_lt (by omega)]
          rw [IoVec.skip, UInt64.toNat_sub_of_le _ _ (by rw [UInt64.le_iff_toNat_le, hwl']; omega), hwl']
          omega
        simp only [advance_eq, items_cons, Rec.items, bytesOf_append, bytesOf_map_byte,
          List.length_append, w.vec_replicate, w.vec_cons, World.iov, length_rangeOf, List.length_nil]
        omega

/-! ## The refinement -/

/-- `execute` on a queue that holds `rs` ends and does what it is for. -/
def Meets (w : World) (mc : Memcpy) (blk : List UInt8) (tail : ℕ) (rs : List Rec)
    (as : List Answer) : Prop :=
  ∃ e, execute? w mc tail tail blk 0 as = some e ∧ e.tail ≤ tail ∧
    ∃ passed rest left, rs = passed ++ rest ∧ WorksOff w passed rest left e

theorem meets_of_refines {blk : List UInt8} {tail : ℕ} {rs : List Rec}
    (henc : Encodes (blk.take tail) rs) (ht : tail ≤ blk.length)
    (hok : mc.CopiesDown ∨ overlapAt 0 rs as = false) : Meets w mc blk tail rs as := by
  have hlen : (blk.take tail).length = tail := List.length_take_of_le ht
  have hsome := @execute?_isSome w mc [] _ (blk.drop tail) _ henc tail tail (by simp [hlen])
    (by omega) as
  rw [List.nil_append, List.take_append_drop] at hsome
  obtain ⟨e, he⟩ := Option.isSome_iff_exists.mp hsome
  have href := execute_refines w mc henc ht as
  rw [execute_eq_of_mem w mc tail tail blk 0 as e he] at href
  obtain ⟨passed, rest, hrs, hp⟩ := execRecs_worksOff w rs as
  have hleft := href.encodes hok
  have htail : e.tail = 0 ↔ (execRecs w rs as).recs = [] := by
    have hle := href.tail
    have hblk := href.length
    rw [← hleft.nil_iff, ← List.length_eq_zero_iff, List.length_take]
    omega
  refine ⟨e, he, href.tail, passed, rest, (execRecs w rs as).recs, hrs, ?_⟩
  have hbytes := congrArg bytesOf (execRecs_items w rs as)
  obtain ⟨sent, hlog⟩ := hp.log
  refine ⟨hleft, ⟨sent, by rw [href.log, hlog]⟩, ?_, ?_, hp.kept, ?_, ?_, ?_, ?_⟩
  · rw [← hrs, href.log, ← bytesOf_append, hbytes]
  · rw [href.log, hlog, fins_append, fins_items, fins_bytes, List.append_nil]
  · rw [href.cont, href.calls]
    exact hp.stopped
  · rw [href.cont]
    exact hp.residue
  · rw [href.cont, htail, ← hp.nil_iff]
    refine ⟨And.right, fun hnil => ⟨?_, hnil⟩⟩
    by_contra hcont
    exact hp.residue (by simpa using hcont) hnil
  · rw [href.cont, href.calls, ← hp.fatal]
    exact and_congr_right fun _ => not_congr htail

/-- On a queue that holds `rs`, `execute` does what it is for with every implementation of `memcpy`
exactly when no compaction of a vector copies between overlapping ranges. -/
theorem execute_meets_iff (w : World) {blk : List UInt8} {tail : ℕ} {rs : List Rec}
    (henc : Encodes (blk.take tail) rs) (ht : tail ≤ blk.length) (as : List Answer) :
    (∀ mc : Memcpy, Meets w mc blk tail rs as) ↔ overlapAt 0 rs as = false := by
  refine ⟨fun hall => ?_, fun hov mc => meets_of_refines henc ht (.inr hov)⟩
  by_contra hov
  have hlen : (blk.take tail).length = tail := List.length_take_of_le ht
  obtain ⟨left, hleft, hless⟩ := @execute_zeroing w [] _ (blk.drop tail) _ henc tail tail
    (by simp [hlen]) (by omega) as (by simpa using hov)
  obtain ⟨e, he, -, passed, rest, left', hrs, hworks⟩ := hall .zeroing
  have href := execute_refines w .zeroing henc ht as
  rw [List.nil_append, List.take_append_drop, List.length_nil,
    execute_eq_of_mem w .zeroing tail tail blk 0 as e he] at hleft
  rw [execute_eq_of_mem w .zeroing tail tail blk 0 as e he] at href
  -- both lists are what the block encodes, but one denotes too few bytes
  have hsame : left' = left := hworks.encodes.unique hleft
  have hbytes := congrArg List.length hworks.bytes
  have hitems := congrArg (List.length ∘ bytesOf) (execRecs_items w rs as)
  simp only [Function.comp_apply, bytesOf_append, List.length_append] at hitems hbytes
  rw [← hrs, hsame, href.log] at hbytes
  omega

/-- A queue of one vector. -/
def vecQueue (vec : List IoVec) : List UInt8 := leBytes 4 (vec.length <<< 1) ++ vecBytes vec

theorem encodes_vecQueue {vec : List IoVec} (h : vec.length < 2 ^ 31) :
    Encodes ((vecQueue vec).take (vecQueue vec).length) [.iovec vec] := by
  rw [List.take_length]
  exact .singleton (.iovec h)

/-- Two entries of which three bytes are taken: one entry is left and fits before its old place. -/
theorem execute_meets_iff_twoEntries :
    overlapAt 0 [.iovec [⟨16, 2⟩, ⟨32, 3⟩]] [.count 3] = false ∧
    ∀ mc : Memcpy, Meets addressWorld mc (vecQueue [⟨16, 2⟩, ⟨32, 3⟩])
      (vecQueue [⟨16, 2⟩, ⟨32, 3⟩]).length [.iovec [⟨16, 2⟩, ⟨32, 3⟩]] [.count 3] := by
  have hov : overlapAt 0 [.iovec [⟨16, 2⟩, ⟨32, 3⟩]] [.count 3] = false := by decide
  refine ⟨hov, ?_⟩
  exact (execute_meets_iff addressWorld (encodes_vecQueue (by decide)) le_rfl [.count 3]).mpr hov

theorem Meets.decoded {blk : List UInt8} {tail : ℕ} {rs : List Rec}
    (henc : Encodes (blk.take tail) rs) (ht : tail ≤ blk.length) (h : Meets w mc blk tail rs as) :
    bytesOf (execute w mc tail tail blk 0 as).log ++
      bytesOf (items w (decode (execute w mc tail tail blk 0 as).block
        (execute w mc tail tail blk 0 as).tail (execute w mc tail tail blk 0 as).tail 0)) =
      bytesOf (items w rs) := by
  obtain ⟨e, he, hle, passed, rest, left, hrs, hworks⟩ := h
  have hlen := (execute_refines w mc henc ht as).length
  rw [execute_eq_of_mem w mc tail tail blk 0 as e he] at hlen ⊢
  rw [decode_eq hworks.encodes (by omega), hworks.bytes, hrs]

/-- Three entries of which two bytes are taken, with a `memcpy` that copies the last byte first: the
third entry is left twice, and byte 33 is lost. -/
theorem execute_garbles :
    ¬ Meets addressWorld .descending (vecQueue [⟨16, 1⟩, ⟨32, 2⟩, ⟨48, 1⟩])
      (vecQueue [⟨16, 1⟩, ⟨32, 2⟩, ⟨48, 1⟩]).length [.iovec [⟨16, 1⟩, ⟨32, 2⟩, ⟨48, 1⟩]] [.count 2] := by
  intro h
  have hbytes := h.decoded (encodes_vecQueue (by decide)) le_rfl
  revert hbytes
  decide +kernel

end Mpio.Wavy
