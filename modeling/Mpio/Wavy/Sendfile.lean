import Mpio.Wavy.Refinement

/-!
# `XF_SENDFILE` on three platforms

`execute` has three branches for a `sendfile` record, chosen at compile time, that turn what the system
call reports into `wl`; what follows is shared. `sendfileCase` is that part of the loop for each of
them, on the block. The Linux branch is the one in `execute` (`execute_sendfile`).

A queue that starts with a `sendfile` record is executed again and again until the record is dropped.
`Exact` is what has to hold at each moment: the bytes `[off, off + k)` of the file are on the wire and
the record denotes the rest. `sendfile_exact_iff` gives the answers for which it does. `sendfile` of
macOS and of the other BSDs may have sent something when it fails, which the code does not look at; and
the last branch computes `wl` as `x->len + sbytes`, so every success counts as complete.
-/

namespace Mpio.Wavy

open Lib

inductive Platform
  | linux
  | darwin
  | bsd
  deriving DecidableEq

/-- What a call of `sendfile` did: it returned and `n` bytes went out, or it failed after `n` bytes. -/
inductive Sent
  | ok (n : ℕ)
  | fails (errno : Errno) (n : ℕ)
  deriving DecidableEq

namespace Sent

def bytes : Sent → ℕ
  | ok n | fails _ n => n

/-- The bytes sent by a call that fails. -/
def aside : Sent → ℕ
  | ok _ => 0
  | fails _ n => n

/-- What the kernels do: at most what was asked for is sent, which an `off_t` can count, and on Linux
the byte count is returned, so that nothing was sent when the call fails. -/
def Allowed (pl : Platform) (len : UInt64) (a : Sent) : Prop :=
  a.bytes ≤ len.toNat ∧ a.bytes < 2 ^ 63 ∧ (pl = .linux → a.aside = 0)

instance (pl : Platform) (len : UInt64) (a : Sent) : Decidable (a.Allowed pl len) :=
  inferInstanceAs (Decidable (_ ∧ _))

end Sent

/-- `errno == EAGAIN || errno == EINTR`. -/
def Errno.retry (errno : Errno) : Bool := errno == .EAGAIN || errno == .EINTR

/-- The call and the part of the case that differs: `wl`, or the value to return at once. -/
def sendfileCall (pl : Platform) (len : UInt64) (a : Sent) : Except Bool UInt64 :=
  match pl, a with
  | .linux, .ok n => if n = 0 then .error false else .ok (UInt64.ofNat n)
  | .darwin, .ok n => .ok (UInt64.ofNat n)
  | .bsd, .ok n => .ok (len + UInt64.ofNat n)
  | _, .fails errno _ => .error errno.retry

/-- The case for a record at `p`: the block, the new tail and the value returned, or `none` when the
record is passed. -/
def sendfileCase (pl : Platform) (blk : List UInt8) (p endp : ℕ) (off len : UInt64) (a : Sent) :
    Option (List UInt8 × ℕ × Bool) :=
  match sendfileCall pl len a with
  | .error cont => some (patch blk 0 (slice blk p (endp - p)), endp - p, cont)
  | .ok wl =>
    if wl < len then
      let blk := patch blk (p + 12) (leBytes 8 (off + wl).toNat)
      let blk := patch blk (p + 20) (leBytes 8 (len - wl).toNat)
      some (patch blk 0 (slice blk p (endp - p)), endp - p, true)
    else none

/-- The answer of a Linux kernel. -/
def Sent.ofAnswer : Answer → Sent
  | .fails errno => .fails errno 0
  | .count n => .ok n

theorem execute_sendfile (w : World) (mc : Memcpy) {endp fuel p : ℕ} {blk : List UInt8}
    {as : List Answer} {infd : UInt32} {off len : UInt64} (hp : p < endp)
    (hr : readRec blk p = .sendfile infd off len) (ha : (answer as).accepted ≤ len.toNat) :
    execute w mc endp (fuel + 1) blk p as =
      let sent := ((Rec.sendfile infd off len).items w).take (answer as).accepted
      match sendfileCase .linux blk p endp off len (.ofAnswer (answer as)) with
      | some (blk, tail, cont) => ⟨blk, tail, cont, sent, [(len.toNat, answer as)]⟩
      | none => (execute w mc endp fuel blk (p + sizeofSendfile) as.tail).after sent
          [(len.toNat, answer as)] := by
  rw [execute, if_pos hp, hr]
  simp only
  rcases hans : answer as with errno | n
  · have hretry : (Answer.fails errno).retry = errno.retry := by cases errno <;> rfl
    simp only [Answer.accepted, Sent.ofAnswer, sendfileCase, sendfileCall, if_true, List.take_zero,
      consumed, hretry]
  · rw [hans] at ha
    have hacc : (Answer.count n).accepted = n := rfl
    have hof : (UInt64.ofNat n).toNat = n := by
      rw [UInt64.toNat_ofNat', Nat.mod_eq_of_lt (by have := len.toNat_lt; omega)]
    have hiff : UInt64.ofNat n < len ↔ n < len.toNat := by rw [UInt64.lt_iff_toNat_lt, hof]
    simp only [Sent.ofAnswer, sendfileCase, sendfileCall]
    by_cases h0 : n = 0
    · rw [if_pos (hacc.trans h0), if_pos h0, hacc, h0]
      rfl
    · rw [if_neg (by rwa [hacc]), if_neg h0]
      by_cases hlt : n < len.toNat
      · simp only [if_pos hlt, if_pos (hiff.mpr hlt), hacc, consumed]
      · simp only [if_neg hlt, if_neg (mt hiff.mp hlt), hacc]

/-! ## One record, executed until it is dropped -/

/-- A queue from `p` on. -/
structure Queue where
  blk : List UInt8
  p : ℕ
  endp : ℕ

/-- The queue while it starts with the record, and the places in the file that are on the wire. -/
structure Sending where
  queue : Option Queue
  wire : List UInt64

def offsets (off : UInt64) (n : ℕ) : List UInt64 := (List.range n).map fun i => off + UInt64.ofNat i

/-- `execute` comes to the record and gets the answer `a`. Afterwards the queue starts at the head of
the block. -/
def Sending.step (pl : Platform) (s : Sending) (a : Sent) : Sending :=
  match s.queue with
  | none => s
  | some q =>
    match readRec q.blk q.p with
    | .sendfile _ off len =>
      let wire := s.wire ++ offsets off a.bytes
      match sendfileCase pl q.blk q.p q.endp off len a with
      | some (blk, tail, _) => ⟨some ⟨blk, 0, tail⟩, wire⟩
      | none => ⟨none, wire⟩
    | _ => s

def Sending.run (pl : Platform) (s : Sending) (as : List Sent) : Sending := as.foldl (Sending.step pl) s

/-- The length the kernel is asked for. -/
def Sending.asked (s : Sending) : Option UInt64 :=
  s.queue.bind fun q =>
    match readRec q.blk q.p with
    | .sendfile _ _ len => some len
    | _ => none

/-- The kernel's answers along a run. -/
def Sending.Allowed (pl : Platform) : Sending → List Sent → Prop
  | _, [] => True
  | s, a :: as => (∀ len ∈ s.asked, a.Allowed pl len) ∧ (s.step pl a).Allowed pl as

instance (pl : Platform) (s : Sending) (as : List Sent) : Decidable (s.Allowed pl as) :=
  match as with
  | [] => inferInstanceAs (Decidable True)
  | a :: as =>
    -- by cases on `s.asked`, and not by going through all values of a `UInt64`
    have : Decidable (∀ len ∈ s.asked, a.Allowed pl len) := Option.decidableForallMem s.asked
    have := instDecidableAllowed pl (s.step pl a) as
    inferInstanceAs (Decidable (_ ∧ _))

/-- `rs` are queued. -/
structure Queue.Holds (q : Queue) (rs : List Rec) : Prop where
  le : q.p ≤ q.endp
  fits : q.endp ≤ q.blk.length
  encodes : Encodes (slice q.blk q.p (q.endp - q.p)) rs

/-- The first `k` bytes of the record are on the wire, once and in order, and the others are queued. -/
def Exact (infd : UInt32) (off len : UInt64) (rs : List Rec) (s : Sending) : Prop :=
  ∃ k ≤ len.toNat, s.wire = offsets off k ∧
    match s.queue with
    | none => k = len.toNat
    | some q => q.Holds (.sendfile infd (off + UInt64.ofNat k) (len - UInt64.ofNat k) :: rs)

/-- The answers tell the code what was sent of a record of `len` bytes: nothing when a call fails and,
on the other BSDs, all of it when a call succeeds. -/
def telling (pl : Platform) : ℕ → List Sent → Bool
  | _, [] => true
  | len, .fails _ n :: as => n == 0 && telling pl len as
  | len, .ok n :: as => n == len || (pl != .bsd && telling pl (len - n) as)

/-! ## One answer -/

/-- What is left of a record, if it is not dropped. -/
def leftBy (pl : Platform) (off len : UInt64) (a : Sent) : Option (UInt64 × UInt64) :=
  match sendfileCall pl len a with
  | .error _ => some (off, len)
  | .ok wl => if wl < len then some (off + wl, len - wl) else none

variable {pl : Platform} {infd : UInt32} {off len : UInt64} {rs : List Rec} {q : Queue} {a : Sent}

theorem Queue.Holds.split {rs : List Rec} (h : q.Holds rs) :
    ∃ pre b post, q.blk = pre ++ (b ++ post) ∧ pre.length = q.p ∧ q.endp = pre.length + b.length ∧
      Encodes b rs := by
  have hle := h.le
  have hfits := h.fits
  refine ⟨q.blk.take q.p, slice q.blk q.p (q.endp - q.p), q.blk.drop q.endp, ?_, ?_, ?_, h.encodes⟩
  · have hdrop : q.blk.drop q.endp = (q.blk.drop q.p).drop (q.endp - q.p) := by
      rw [List.drop_drop]
      congr 1
      omega
    rw [hdrop, slice, List.take_append_drop, List.take_append_drop]
  · exact List.length_take_of_le (by omega)
  · rw [List.length_take_of_le (by omega), length_slice (by omega)]
    omega

theorem Queue.Holds.readRec_eq {r : Rec} (h : q.Holds (r :: rs)) : readRec q.blk q.p = r := by
  obtain ⟨pre, b, post, hblk, hpre, -, henc⟩ := h.split
  obtain ⟨⟩ | @⟨r, b, bytes, rs, hr, -⟩ := henc
  rw [hblk, ← hpre, List.append_assoc]
  exact readRec_middle hr

theorem holds_moved {pre b post : List UInt8} (h : Encodes b rs) {p endp : ℕ} (hp : pre.length = p)
    (hend : endp = pre.length + b.length) :
    Queue.Holds ⟨patch (pre ++ (b ++ post)) 0 (slice (pre ++ (b ++ post)) p (endp - p)), 0, endp - p⟩
      rs := by
  have hcons : Refines (endp + post.length) endp True _ ⟨rs, true, [], []⟩ :=
    consumed_refines (a := pre) (c := post) h rfl hend true [] []
  simp only [consumed, hp] at hcons
  have hlen := hcons.length
  simp only at hlen
  refine ⟨Nat.zero_le _, ?_, ?_⟩
  · simp only [hlen]
    omega
  · have henc := hcons.encodes trivial
    simpa only [slice, List.drop_zero, Nat.sub_zero] using henc

theorem step_left (pl : Platform) (a : Sent) (h : q.Holds (.sendfile infd off len :: rs))
    (wire : List UInt64) :
    ((⟨some q, wire⟩ : Sending).step pl a).wire = wire ++ offsets off a.bytes ∧
    (leftBy pl off len a = none → ((⟨some q, wire⟩ : Sending).step pl a).queue = none) ∧
    (∀ off' len', leftBy pl off len a = some (off', len') →
      ∃ q', ((⟨some q, wire⟩ : Sending).step pl a).queue = some q' ∧
        q'.Holds (.sendfile infd off' len' :: rs)) := by
  have hread := h.readRec_eq
  obtain ⟨pre, b, post, hblk, hpre, hend, henc⟩ := h.split
  simp only [Sending.step, hread, sendfileCase, leftBy]
  rcases sendfileCall pl len a with cont | wl
  · simp only [reduceCtorEq, false_imp_iff, Option.some.injEq, Prod.mk.injEq, true_and]
    rintro off' len' ⟨rfl, rfl⟩
    rw [hblk]
    exact ⟨_, rfl, holds_moved henc hpre hend⟩
  · simp only
    by_cases hlt : wl < len
    · simp only [if_pos hlt, reduceCtorEq, false_imp_iff, Option.some.injEq, Prod.mk.injEq, true_and]
      rintro off' len' ⟨rfl, rfl⟩
      obtain ⟨⟩ | @⟨r, b, bytes, rs, hr, hrest⟩ := henc
      obtain ⟨b', hb', hlen', hpatch⟩ := patch_sendfile (a := pre) (c := bytes ++ post) hr (off + wl)
        (len - wl)
      rw [hpre] at hpatch
      rw [hblk, List.append_assoc, hpatch, ← List.append_assoc b']
      refine ⟨_, rfl, holds_moved (Encodes.cons hb' hrest) hpre ?_⟩
      rw [hend, List.length_append, List.length_append, hlen']
    · simp only [if_neg hlt, reduceCtorEq, false_imp_iff, implies_true, and_self]

/-! ## Counting the bytes -/

theorem length_offsets (off : UInt64) (n : ℕ) : (offsets off n).length = n := by simp [offsets]

theorem offsets_append (off : UInt64) (k n : ℕ) :
    offsets off k ++ offsets (off + UInt64.ofNat k) n = offsets off (k + n) := by
  simp only [offsets, List.range_add, List.map_append, List.map_map]
  congr 1
  apply List.map_congr_left
  intro i _
  rw [Function.comp_apply, UInt64.ofNat_add, UInt64.add_assoc]

/-- The first `k` bytes are on the wire, and the record denotes the others. -/
structure At (infd : UInt32) (off len : UInt64) (rs : List Rec) (k : ℕ) (s : Sending) : Prop where
  lt : k < len.toNat
  wire : s.wire = offsets off k
  queue : ∃ q, s.queue = some q ∧
    q.Holds (.sendfile infd (off + UInt64.ofNat k) (len - UInt64.ofNat k) :: rs)

theorem At.exact {k : ℕ} {s : Sending} (h : At infd off len rs k s) : Exact infd off len rs s := by
  obtain ⟨q, hq, hholds⟩ := h.queue
  refine ⟨k, Nat.le_of_lt h.lt, h.wire, ?_⟩
  rw [hq]
  exact hholds

theorem Queue.Holds.unique {rs rs' : List Rec} (h : q.Holds rs) (h' : q.Holds rs') : rs = rs' :=
  h.encodes.unique h'.encodes

/-- The code learns from the answer what was sent of the `len` bytes. -/
def Sent.Told (pl : Platform) (len : ℕ) : Sent → Prop
  | .fails _ n => n = 0
  | .ok n => pl = .bsd → n = len

theorem leftBy_told (off : UInt64) (ha : a.Allowed pl len) (hpos : 0 < len.toNat)
    (h : a.Told pl len.toNat) :
    (a.bytes = len.toNat → leftBy pl off len a = none) ∧
    (a.bytes ≠ len.toNat →
      leftBy pl off len a = some (off + UInt64.ofNat a.bytes, len - UInt64.ofNat a.bytes)) := by
  obtain ⟨hle, hoff, -⟩ := ha
  have hof := toNat_ofNat_of_le hle
  cases a with
  | fails errno n =>
    obtain rfl : n = 0 := h
    refine ⟨fun hall => ?_, fun _ => by simp [leftBy, sendfileCall, Sent.bytes]⟩
    simp only [Sent.bytes] at hall
    omega
  | ok n =>
    simp only [Sent.bytes] at hle hoff hof ⊢
    have hlt : UInt64.ofNat n < len ↔ n ≠ len.toNat := by
      rw [UInt64.lt_iff_toNat_lt, hof]
      omega
    cases pl with
    | linux =>
      refine ⟨fun hall => ?_, fun hpart => ?_⟩
      · simp only [leftBy, sendfileCall, if_neg (show ¬ n = 0 by omega),
          if_neg (mt hlt.mp (not_not.mpr hall))]
      · by_cases h0 : n = 0
        · subst h0
          simp [leftBy, sendfileCall]
        · simp only [leftBy, sendfileCall, if_neg h0, if_pos (hlt.mpr hpart)]
    | darwin =>
      refine ⟨fun hall => ?_, fun hpart => ?_⟩
      · simp only [leftBy, sendfileCall, if_neg (mt hlt.mp (not_not.mpr hall))]
      · simp only [leftBy, sendfileCall, if_pos (hlt.mpr hpart)]
    | bsd =>
      obtain rfl : n = len.toNat := h rfl
      have hge : ¬ len + UInt64.ofNat len.toNat < len := by
        rw [UInt64.lt_iff_toNat_lt, UInt64.toNat_add, hof, Nat.mod_eq_of_lt (by omega)]
        omega
      exact ⟨fun _ => by simp only [leftBy, sendfileCall, if_neg hge], fun hne => absurd rfl hne⟩

theorem leftBy_not_told (off : UInt64) (ha : a.Allowed pl len) (hpos : 0 < len.toNat)
    (h : ¬ a.Told pl len.toNat) :
    leftBy pl off len a = none ∧ a.bytes ≠ len.toNat ∨
    ∃ off' len', leftBy pl off len a = some (off', len') ∧ off' ≠ off + UInt64.ofNat a.bytes := by
  obtain ⟨hle, -, -⟩ := ha
  have hof := toNat_ofNat_of_le hle
  cases a with
  | fails errno n =>
    simp only [Sent.Told, Sent.bytes] at h hof
    refine .inr ⟨off, len, by simp [leftBy, sendfileCall], fun heq => h ?_⟩
    have hz : UInt64.ofNat n = 0 := by simpa [Sent.bytes] using heq.symm
    rw [← hof, hz]
    rfl
  | ok n =>
    simp only [Sent.Told, Classical.not_imp] at h
    obtain ⟨rfl, hne⟩ := h
    -- `wl` is `len + n`: not below `len`, or it has wrapped around and is not `n`
    by_cases hlt : len + UInt64.ofNat n < len
    · refine .inr ⟨off + (len + UInt64.ofNat n), len - (len + UInt64.ofNat n),
        by simp only [leftBy, sendfileCall, if_pos hlt], fun heq => ?_⟩
      have hz : len + UInt64.ofNat n = UInt64.ofNat n := UInt64.add_right_inj off |>.mp heq
      have hlen : len = 0 := by simpa using hz
      rw [hlen] at hpos
      exact absurd hpos (by decide)
    · exact .inl ⟨by simp only [leftBy, sendfileCall, if_neg hlt], hne⟩

theorem At.step_left {k : ℕ} {s : Sending} (h : At infd off len rs k s) (pl : Platform) (a : Sent) :
    (s.step pl a).wire = offsets off (k + a.bytes) ∧
    (leftBy pl (off + UInt64.ofNat k) (len - UInt64.ofNat k) a = none → (s.step pl a).queue = none) ∧
    ∀ off' len', leftBy pl (off + UInt64.ofNat k) (len - UInt64.ofNat k) a = some (off', len') →
      ∃ q', (s.step pl a).queue = some q' ∧ q'.Holds (.sendfile infd off' len' :: rs) := by
  obtain ⟨q, hq, hholds⟩ := h.queue
  obtain ⟨squeue, swire⟩ := s
  obtain rfl : squeue = some q := hq
  obtain rfl : swire = offsets off k := h.wire
  have hstep := Wavy.step_left pl a hholds (offsets off k)
  rwa [offsets_append] at hstep

/-- When the code learns what was sent, the record is complete and dropped, or it denotes the rest. -/
theorem At.step_told {k : ℕ} {s : Sending} (h : At infd off len rs k s)
    (ha : a.Allowed pl (len - UInt64.ofNat k)) (ht : a.Told pl (len.toNat - k)) :
    a.bytes = len.toNat - k ∧ (s.step pl a).queue = none ∧ (s.step pl a).wire = offsets off len.toNat ∨
    a.bytes ≠ len.toNat - k ∧ At infd off len rs (k + a.bytes) (s.step pl a) := by
  have hlt := h.lt
  have hlen := toNat_left (Nat.le_of_lt hlt)
  obtain ⟨hwire, hnone, hsome⟩ := h.step_left pl a
  have hle := ha.1
  rw [hlen] at hle
  obtain ⟨hdrop, hkeep⟩ := leftBy_told (off + UInt64.ofNat k) ha (by omega) (by rwa [hlen])
  rw [hlen] at hdrop hkeep
  by_cases hall : a.bytes = len.toNat - k
  · refine .inl ⟨hall, hnone (hdrop hall), ?_⟩
    rw [hwire, hall]
    congr 1
    omega
  · obtain ⟨q', hq', hholds'⟩ := hsome _ _ (hkeep hall)
    refine .inr ⟨hall, by omega, hwire, q', hq', ?_⟩
    have hsub : len - UInt64.ofNat k - UInt64.ofNat a.bytes =
        len - (UInt64.ofNat k + UInt64.ofNat a.bytes) := by
      apply UInt64.eq_sub_iff_add_eq.mpr
      rw [UInt64.add_comm (UInt64.ofNat k), ← UInt64.add_assoc, UInt64.sub_add_cancel,
        UInt64.sub_add_cancel]
    rwa [UInt64.ofNat_add, ← UInt64.add_assoc, ← hsub]

theorem At.step_not_told {k : ℕ} {s : Sending} (h : At infd off len rs k s)
    (ha : a.Allowed pl (len - UInt64.ofNat k)) (ht : ¬ a.Told pl (len.toNat - k)) :
    ¬ Exact infd off len rs (s.step pl a) := by
  have hlt := h.lt
  have hlen := toNat_left (Nat.le_of_lt hlt)
  obtain ⟨hwire, hnone, hsome⟩ := h.step_left pl a
  rintro ⟨k', -, hwire', hqueue⟩
  have hk : k' = k + a.bytes := by
    have := congrArg List.length (hwire'.symm.trans hwire)
    simpa only [length_offsets] using this
  rcases leftBy_not_told (off + UInt64.ofNat k) ha (by omega) (by rwa [hlen]) with
    ⟨hleft, hne⟩ | ⟨off', len', hleft, hne⟩
  · rw [hnone hleft] at hqueue
    simp only at hqueue
    omega
  · obtain ⟨q', hq', hholds'⟩ := hsome off' len' hleft
    rw [hq'] at hqueue
    have hsame := (List.cons.inj (hqueue.unique hholds')).1
    rw [hk, UInt64.ofNat_add, ← UInt64.add_assoc] at hsame
    exact hne (Rec.sendfile.inj hsame).2.1.symm

/-! ## All answers -/

theorem run_dropped (pl : Platform) {s : Sending} (h : s.queue = none) (as : List Sent) :
    s.run pl as = s := by
  induction as with
  | nil => rfl
  | cons a as ih =>
    have hstep : s.step pl a = s := by rw [Sending.step, h]
    rw [Sending.run, List.foldl_cons, hstep]
    exact ih

theorem At.exact_iff {k : ℕ} {s : Sending} (h : At infd off len rs k s) (as : List Sent)
    (ha : s.Allowed pl as) :
    (∀ i, Exact infd off len rs (s.run pl (as.take i))) ↔ telling pl (len.toNat - k) as = true := by
  induction as generalizing k s with
  | nil => simpa [Sending.run, telling] using h.exact
  | cons a as ih =>
    obtain ⟨hfirst, hrest⟩ := ha
    obtain ⟨q, hq, hholds⟩ := h.queue
    have hallowed : a.Allowed pl (len - UInt64.ofNat k) := by
      apply hfirst
      rw [Sending.asked, hq, Option.bind_some, hholds.readRec_eq]
      rfl
    have hsplit : (∀ i, Exact infd off len rs (s.run pl ((a :: as).take i))) ↔
        ∀ i, Exact infd off len rs ((s.step pl a).run pl (as.take i)) := by
      refine ⟨fun hall i => hall (i + 1), fun hall i => ?_⟩
      cases i with
      | zero => exact h.exact
      | succ i => exact hall i
    rw [hsplit]
    by_cases ht : a.Told pl (len.toNat - k)
    · rcases h.step_told hallowed ht with ⟨hbytes, hdropped, hwire⟩ | ⟨hbytes, hat⟩
      · have hok : telling pl (len.toNat - k) (a :: as) = true := by
          have hlt := h.lt
          cases a with
          | ok n => simp [telling, show n = len.toNat - k from hbytes]
          | fails errno n =>
            have hn : n = 0 := ht
            simp only [Sent.bytes] at hbytes
            omega
        refine iff_of_true (fun i => ?_) hok
        rw [run_dropped pl hdropped]
        refine ⟨len.toNat, le_rfl, hwire, ?_⟩
        rw [hdropped]
      · rw [ih hat hrest]
        cases a with
        | ok n =>
          simp only [Sent.Told, Sent.bytes] at ht hbytes ⊢
          have hpl : (pl != .bsd) = true := by
            simp only [bne_iff_ne, ne_eq]
            exact fun hb => hbytes (ht hb)
          rw [telling, hpl, Bool.true_and, beq_false_of_ne hbytes, Bool.false_or, Nat.sub_sub]
        | fails errno n =>
          obtain rfl : n = 0 := ht
          rfl
    · have hnot : ¬ telling pl (len.toNat - k) (a :: as) = true := by
        cases a with
        | ok n =>
          simp only [Sent.Told, Classical.not_imp] at ht
          simp [telling, ht.1, ht.2]
        | fails errno n =>
          have hn : ¬ n = 0 := ht
          simp [telling, hn]
      refine iff_of_false (fun hall => ?_) hnot
      exact h.step_not_told hallowed ht (hall 0)

/-- At every moment of the run the bytes on the wire and the record left are exact, just when no failing
call has sent anything and, on the other BSDs, a successful call sends the whole record. -/
theorem sendfile_exact_iff (pl : Platform) (hlen : 0 < len.toNat)
    (hq : q.Holds (.sendfile infd off len :: rs)) (as : List Sent)
    (ha : Sending.Allowed pl ⟨some q, []⟩ as) :
    (∀ i, Exact infd off len rs (Sending.run pl ⟨some q, []⟩ (as.take i))) ↔
      telling pl len.toNat as = true := by
  have hat : At infd off len rs 0 ⟨some q, []⟩ := ⟨hlen, rfl, q, rfl, by simpa using hq⟩
  exact hat.exact_iff as ha

/-- A queue of one `sendfile` record of four bytes. -/
def sendfileQueue : Queue :=
  ⟨fillSendfile (fresh sizeofSendfile fun _ => 0) 0 3 100 4, 0, sizeofSendfile⟩

theorem holds_sendfileQueue : sendfileQueue.Holds [.sendfile 3 100 4] := by
  obtain ⟨hlen, b, hb, htake⟩ := @fillSendfile_fills (fresh sizeofSendfile fun _ => 0) 0 3 100 4
    (by decide)
  refine ⟨by decide, by decide, ?_⟩
  have hslice : slice sendfileQueue.blk 0 sizeofSendfile = b := by
    simpa [sendfileQueue, slice, Rec.size] using htake
  show Encodes (slice sendfileQueue.blk 0 sizeofSendfile) _
  rw [hslice]
  exact .singleton hb

/-- On macOS a call that sends two bytes and succeeds, one that fails with nothing sent, and one that
sends the other two. -/
theorem sendfile_exact_iff_darwin :
    telling .darwin 4 [.ok 2, .fails .EAGAIN 0, .ok 2] = true ∧
    ∀ i, Exact 3 100 4 [] (Sending.run .darwin ⟨some sendfileQueue, []⟩
      (([.ok 2, .fails .EAGAIN 0, .ok 2] : List Sent).take i)) := by
  have htell : telling .darwin 4 [.ok 2, .fails .EAGAIN 0, .ok 2] = true := by decide
  refine ⟨htell, ?_⟩
  exact (sendfile_exact_iff .darwin (by decide) holds_sendfileQueue _ (by decide +kernel)).mpr htell

/-- On macOS two of the four bytes go out and the call fails with `EAGAIN`: the record is left as it
was, and the two bytes will be sent again. -/
theorem sendfile_repeats :
    Sending.Allowed .darwin ⟨some sendfileQueue, []⟩ [.fails .EAGAIN 2] ∧
    ¬ ∀ i, Exact 3 100 4 [] (Sending.run .darwin ⟨some sendfileQueue, []⟩
      (([.fails .EAGAIN 2] : List Sent).take i)) := by
  refine ⟨by decide +kernel, fun h => ?_⟩
  obtain ⟨k, -, hwire, hqueue⟩ := h 1
  have hk : k = 2 := by
    have hlen := congrArg List.length hwire
    rw [length_offsets] at hlen
    rw [← hlen]
    decide +kernel
  subst hk
  have hread := Queue.Holds.readRec_eq hqueue
  revert hread
  decide +kernel

end Mpio.Wavy
