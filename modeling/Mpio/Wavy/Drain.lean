import Mathlib.Algebra.Order.BigOperators.Group.Finset
import Mpio.Wavy.Stream
import Mpio.Wavy.Watch

/-!
# What is queued is sent

`writeInterest_accounted` says that a descriptor with a queue has a write token. Here the token comes
round: a registration that is armed is reported, queued and taken, and `write_event` sends a part of the
queue or ends it. `State.due` counts what is left to be sent at each descriptor, the way of its token, and
the stages of the section on its mutex. Every step takes something off, apart from what callers commit and
from write events whose first call the kernel refuses with `EAGAIN` or `EINTR` (`due_step`).

So with finitely many of these everything is sent, the registrations are removed, and `m_watching` is 0:
`writes_drain`.
-/

namespace Mpio.Wavy

open Lib Finset

variable {n m : ℕ} {mc : Memcpy} {s s' : State} {act : Action} {w : World}

/-! ## What is left of a queue -/

/-- A record counts one more than the bytes it asks for. -/
def Rec.load : Rec → ℕ
  | .iovec vec => vecLen vec + 1
  | .sendfile _ _ len => len.toNat + 1
  | .finalize .. => 1

def load : List Rec → ℕ
  | [] => 0
  | r :: rs => r.load + load rs

theorem Rec.load_pos (r : Rec) : 0 < r.load := by
  cases r <;> simp [Rec.load]

theorem load_pos {rs : List Rec} (h : rs ≠ []) : 0 < load rs := by
  cases rs with
  | nil => exact absurd rfl h
  | cons r rs => exact Nat.add_pos_left r.load_pos _

theorem vecLen_advance {vec : List IoVec} {k i wl : ℕ} (h : stopAt vec k = some (i, wl)) :
    vecLen (advance vec i wl) + k = vecLen vec := by
  obtain ⟨v1, v, v2, rfl, rfl, hlt, rfl⟩ := stopAt_some h
  have hleft : (v.skip wl).iovLen.toNat = v.iovLen.toNat - wl := toNat_left hlt.le
  rw [advance_eq]
  simp only [vecLen, List.map_append, List.map_cons, List.sum_append, List.sum_cons, hleft]
  omega

theorem execRecs_load_le (w : World) (rs : List Rec) (as : List Answer) :
    load (execRecs w rs as).recs ≤ load rs := by
  fun_induction execRecs w rs as with
  | case1 as | case2 infd off len rs as a call h0 | case6 vec rs as a call h0 => exact le_rfl
  | case3 infd off len rs as a call sent h0 hlt wl =>
    have hleft : (len - wl).toNat = len.toNat - a.accepted := toNat_left hlt.le
    simp only [load, Rec.load, hleft]
    omega
  | case4 infd off len rs as a call sent h0 hge ih | case8 vec rs as a call sent h0 hstop ih
  | case5 fin user rs as ih => exact ih.trans (Nat.le_add_left _ _)
  | case7 vec rs as a call sent h0 i wl hstop =>
    have hlen := vecLen_advance hstop
    simp only [load, Rec.load]
    omega

/-- `execute` goes on after a refusal only if it has sent something before, unless its first call is
refused. -/
theorem execRecs_load_lt (w : World) (rs : List Rec) (as : List Answer)
    (hcont : (execRecs w rs as).cont = true) (ha : (answer as).retry = false) :
    load (execRecs w rs as).recs < load rs := by
  cases rs with
  | nil => cases hcont
  | cons r rs =>
    cases r with
    | finalize fin user =>
      have hle := execRecs_load_le w rs as
      simp only [execRecs, Progress.after, load, Rec.load]
      omega
    | sendfile infd off len =>
      have hle := execRecs_load_le w rs as.tail
      simp only [execRecs] at hcont ⊢
      split_ifs at hcont ⊢ with h0 hlt
      · exact absurd (ha.symm.trans hcont) Bool.false_ne_true
      · have hleft := toNat_left hlt.le
        simp only [load, Rec.load, hleft]
        omega
      · simp only [Progress.after, load, Rec.load]
        omega
    | iovec vec =>
      have hle := execRecs_load_le w rs as.tail
      simp only [execRecs] at hcont ⊢
      split_ifs at hcont ⊢ with h0
      · exact absurd (ha.symm.trans hcont) Bool.false_ne_true
      · rcases hstop : stopAt vec (answer as).accepted with _ | ⟨i, wl⟩
        · simp only [Progress.after, load, Rec.load]
          omega
        · have hlen := vecLen_advance hstop
          simp only [load, Rec.load]
          omega

theorem out.writeEvent_load {ctx : Xfer} {rs : List Rec} (hx : ctx.Holds rs) {as : List Answer}
    (hint : mc.CopiesDown ∨ overlapAt 0 rs as = false) (ha : (answer as).retry = false)
    (hst : (out.writeEvent w mc ctx as).stage = .reactivate) :
    load (out.writeEvent w mc ctx as).ctx.recs < load rs := by
  obtain ⟨hcont, -, -, hleft⟩ := hx.tryWrite w mc as
  have hgo : (ctx.tryWrite w mc as).2.1.cont = true := by
    by_contra hno
    simp [out.writeEvent, hno] at hst
  change load (ctx.tryWrite w mc as).1.recs < load rs
  rw [(hleft hint).recs_eq]
  exact execRecs_load_lt w rs as (hcont.symm.trans hgo) ha

/-! ## What is due -/

/-- The token of a descriptor counts more the longer its way to `write_event`. -/
def State.way (s : State) (fd : ℕ) : ℕ :=
  4 * (if s.interest fd = .armed then 1 else 0) + 3 * s.backlog.count fd + 2 * s.queue.count fd +
    s.taken.count fd

/-- What is due at a descriptor: a round of its token for each part of its queue. -/
def State.dueAt (s : State) (fd : ℕ) : ℕ :=
  match s.cs fd with
  | .idle => 5 * load (s.ctx fd).recs + s.way fd
  | .addFd => 5 * load (s.ctx fd).recs + 6
  | .incr => 5 * load (s.ctx fd).recs + s.way fd + 1
  | .reactivate => 5 * load (s.ctx fd).recs + 5
  | .remove => 3
  | .clear => 2
  | .decr => 1

def State.due (n : ℕ) (s : State) : ℕ := ∑ fd ∈ range n, s.dueAt fd

/-- Calls of the application, and write events whose first call the kernel refuses. -/
def Action.asks : Action → Bool
  | .write .. | .submit .. | .commit .. | .push .. | .migrate .. | .clearXfer .. | .rewrite .. => true
  | .writeEvent _ as => (answer as).retry
  | .goOn _ | .pollWait _ | .pollPush | .next => false

/-- A poll that finds something, and the loop behind it when there is something to push. -/
def Finds (s : State) : Action → Prop
  | .pollWait fds => fds ≠ []
  | .pollPush => s.backlog ≠ []
  | _ => True

instance (s : State) (act : Action) : Decidable (Finds s act) :=
  match act with
  | .pollWait fds => inferInstanceAs (Decidable (fds ≠ []))
  | .pollPush => inferInstanceAs (Decidable (s.backlog ≠ []))
  | .write .. | .submit .. | .commit .. | .writeEvent .. | .goOn .. | .next | .push .. | .migrate ..
  | .clearXfer .. | .rewrite .. => inferInstanceAs (Decidable True)

theorem stepOut_of_not_finds (hf : ¬ Finds s act) (hs : stepOut n m mc s act = some s') : s' = s := by
  cases act with
  | pollWait fds =>
    obtain rfl : fds = [] := by simpa [Finds] using hf
    have hs : s.pollWait [] = some s' := hs
    simp only [State.pollWait] at hs
    split_ifs at hs with hc
    obtain rfl := Option.some.inj hs
    simp only [List.not_mem_nil, if_false]
    rw [← hc.1]
  | pollPush =>
    have hb : s.backlog = [] := by simpa [Finds] using hf
    obtain rfl := Option.some.inj hs
    rw [hb, List.append_nil, ← hb]
  | _ => exact absurd trivial hf

/-- Nothing happens at descriptors from `n` on. -/
def Beyond (n : ℕ) (s : State) : Prop := ∀ fd, n ≤ fd → s.cs fd = .idle ∧ (s.ctx fd).empty = true

theorem Beyond.update {fd : ℕ} (h : Beyond n s) (hfd : fd < n)
    (hcs : ∀ fd', fd' ≠ fd → s'.cs fd' = s.cs fd') (hctx : ∀ fd', fd' ≠ fd → s'.ctx fd' = s.ctx fd') :
    Beyond n s' := by
  intro fd' hle
  rw [hcs fd' (by omega), hctx fd' (by omega)]
  exact h fd' hle

theorem Beyond.step (h : Beyond n s) (hs : stepOut n m mc s act = some s') : Beyond n s' := by
  cases stepOut_cases hs with
  | @entered e he hfd _ _ =>
    exact h.update hfd (fun fd' hne => Function.update_of_ne hne _ _)
      fun fd' hne => Function.update_of_ne hne _ _
  | @goOn fd s' hfd hgo =>
    exact h.update hfd (fun _ hne => (State.goOn_other hgo hne).2.1) fun _ hne => (State.goOn_other hgo hne).1
  | _ => exact h

theorem reachable_beyond {P : State → Action → Prop} (h : (outSystem n m mc).Reachable P s) :
    Beyond n s := by
  refine h.invariant ?_ fun _ _ _ _ hi _ hs => hi.step hs
  rintro s ⟨world, rfl⟩ fd -
  exact ⟨rfl, rfl⟩

theorem tokens_pos_of_queue {fd : ℕ} (h : fd ∈ s.queue) : 0 < tokens s fd := by
  have hpos := List.count_pos_iff.mpr h
  unfold tokens
  omega

theorem tokens_pos_of_taken {fd : ℕ} (h : fd ∈ s.taken) : 0 < tokens s fd := by
  have hpos := List.count_pos_iff.mpr h
  unfold tokens
  omega

/-- A token is at a descriptor with a queue, outside a section or at the end of `watch`. -/
theorem WatchInv.of_token {fd : ℕ} (h : WatchInv n s) (ht : 0 < tokens s fd) :
    tokens s fd = 1 ∧ (s.ctx fd).empty = false ∧ (s.cs fd = .idle ∨ s.cs fd = .incr) := by
  have hfd := h.fd fd
  cases hcs : s.cs fd with
  | idle =>
    rw [hcs] at hfd
    obtain ⟨-, -, hz⟩ | ⟨hne, -, hone⟩ := hfd
    · omega
    · exact ⟨hone, hne, .inl rfl⟩
  | incr =>
    rw [hcs] at hfd
    exact ⟨hfd.2.2, hfd.1, .inr rfl⟩
  | addFd | reactivate =>
    rw [hcs] at hfd
    have := hfd.2.2
    omega
  | remove | clear =>
    rw [hcs] at hfd
    have := hfd.2
    omega
  | decr =>
    rw [hcs] at hfd
    have := hfd.2.2
    omega

theorem Beyond.lt_of_token {fd : ℕ} (h : Beyond n s) (hw : WatchInv n s) (ht : 0 < tokens s fd) : fd < n := by
  by_contra hle
  have hne := (hw.of_token ht).2.1
  rw [(h fd (by omega)).2] at hne
  cases hne

/-! ## Every step takes something off -/

theorem dueAt_congr {fd : ℕ} (hcs : s'.cs fd = s.cs fd) (hctx : s'.ctx fd = s.ctx fd)
    (hway : s'.way fd = s.way fd) : s'.dueAt fd = s.dueAt fd := by
  unfold State.dueAt
  rw [hcs, hctx, hway]

theorem dueAt_lt {fd : ℕ} (hw : WatchInv n s) (ht : 0 < tokens s fd) (hcs : s'.cs fd = s.cs fd)
    (hctx : s'.ctx fd = s.ctx fd) (hway : s'.way fd < s.way fd) : s'.dueAt fd < s.dueAt fd := by
  obtain ⟨-, -, hstage⟩ := hw.of_token ht
  unfold State.dueAt
  rw [hcs, hctx]
  obtain hstage | hstage := hstage
  · rw [hstage]
    exact Nat.add_lt_add_left hway _
  · rw [hstage]
    exact Nat.add_lt_add_right (Nat.add_lt_add_left hway _) _

theorem due_lt {fds : List ℕ} (hw : WatchInv n s) (hb : Beyond n s) (hne : fds ≠ [])
    (hcs : s'.cs = s.cs) (hctx : s'.ctx = s.ctx) (ht : ∀ fd ∈ fds, 0 < tokens s fd)
    (hway : ∀ fd ∈ fds, s'.way fd < s.way fd) (hsame : ∀ fd, fd ∉ fds → s'.way fd = s.way fd) :
    s'.due n < s.due n := by
  have hlt : ∀ fd ∈ fds, s'.dueAt fd < s.dueAt fd := fun fd hfd =>
    dueAt_lt hw (ht fd hfd) (congrFun hcs fd) (congrFun hctx fd) (hway fd hfd)
  obtain ⟨fd, hfd⟩ := List.exists_mem_of_ne_nil fds hne
  refine sum_lt_sum (fun fd' _ => ?_) ⟨fd, mem_range.mpr (hb.lt_of_token hw (ht fd hfd)), hlt fd hfd⟩
  by_cases hmem : fd' ∈ fds
  · exact (hlt fd' hmem).le
  · exact (dueAt_congr (congrFun hcs fd') (congrFun hctx fd') (hsame fd' hmem)).le

theorem due_lt_at {fd : ℕ} (hfd : fd < n) (hother : ∀ fd', fd' ≠ fd → s'.dueAt fd' = s.dueAt fd')
    (hself : s'.dueAt fd < s.dueAt fd) : s'.due n < s.due n := by
  have hmove : s'.due n + s.dueAt fd = s.due n + s'.dueAt fd := sum_move hfd hother
  omega

theorem due_pollWait {fds : List ℕ} (hw : WatchInv n s) (hb : Beyond n s) (hne : fds ≠ [])
    (hs : s.pollWait fds = some s') : s'.due n < s.due n := by
  simp only [State.pollWait] at hs
  split_ifs at hs with hc
  obtain rfl := Option.some.inj hs
  obtain ⟨hnil, hnd, harmed⟩ := hc
  refine due_lt hw hb hne rfl rfl (fun fd hfd => ?_) (fun fd hfd => ?_) fun fd hfd => ?_
  · simp only [tokens, harmed fd hfd, if_true]
    omega
  · simp [State.way, hfd, harmed fd hfd, hnil, List.count_eq_one_of_mem hnd hfd]
  · simp [State.way, hfd, hnil, List.count_eq_zero_of_not_mem hfd]

theorem due_pollPush (hw : WatchInv n s) (hb : Beyond n s) (hne : s.backlog ≠ []) :
    { s with queue := s.queue ++ s.backlog, backlog := [] }.due n < s.due n := by
  refine due_lt hw hb hne rfl rfl (fun fd hfd => ?_) (fun fd hfd => ?_) fun fd hfd => ?_
  · have hpos := List.count_pos_iff.mpr hfd
    unfold tokens
    omega
  · have hpos := List.count_pos_iff.mpr hfd
    simp only [State.way, List.count_append, List.count_nil]
    omega
  · simp [State.way, List.count_eq_zero_of_not_mem hfd]

theorem due_next {fd : ℕ} {queue : List ℕ} (hw : WatchInv n s) (hb : Beyond n s)
    (hq : s.queue = fd :: queue) :
    { s with queue := queue, taken := fd :: s.taken }.due n < s.due n := by
  have htok : ∀ fd' ∈ [fd], 0 < tokens s fd' := by
    intro fd' hfd
    obtain rfl := List.mem_singleton.mp hfd
    simp [tokens, hq]
  refine due_lt hw hb (by simp) rfl rfl htok (fun fd' hfd => ?_) fun fd' hfd => ?_
  · obtain rfl := List.mem_singleton.mp hfd
    simp only [State.way, hq, List.count_cons_self]
    omega
  · have hne : fd ≠ fd' := fun h => hfd (List.mem_singleton.mpr h.symm)
    simp [State.way, hq, hne]

theorem due_goOn {fd : ℕ} (hw : WatchInv n s) (hx : (s.ctx fd).Holds (s.ctx fd).recs) (hfd : fd < n)
    (hs : s.goOn fd = some s') : s'.due n < s.due n := by
  have hinv := hw.fd fd
  simp only [State.goOn] at hs
  have hother {stage : Stage} (hcs : s'.cs = Function.update s.cs fd stage) (fd' : ℕ) (hne : fd' ≠ fd)
      (hctx : s'.ctx fd' = s.ctx fd') (hway : s'.way fd' = s.way fd') : s'.dueAt fd' = s.dueAt fd' :=
    dueAt_congr (by rw [hcs, Function.update_of_ne hne]) hctx hway
  cases hstage : s.cs fd with
  | idle => simp [hstage] at hs
  | addFd =>
    rw [hstage] at hs hinv
    obtain rfl := Option.some.inj hs
    obtain ⟨-, hi, ht⟩ := hinv
    refine due_lt_at hfd (fun fd' hne => hother rfl fd' hne rfl ?_) ?_
    · simp [State.way, Function.update_of_ne hne]
    · simp only [tokens, hi] at ht
      simp [State.dueAt, State.way, hstage, hi]
      omega
  | incr =>
    rw [hstage] at hs
    obtain rfl := Option.some.inj hs
    refine due_lt_at hfd (fun fd' hne => hother rfl fd' hne rfl rfl) ?_
    simp [State.dueAt, State.way, hstage]
  | reactivate =>
    rw [hstage] at hs hinv
    obtain rfl := Option.some.inj hs
    obtain ⟨-, hi, ht⟩ := hinv
    refine due_lt_at hfd (fun fd' hne => hother rfl fd' hne rfl ?_) ?_
    · simp [State.way, Function.update_of_ne hne]
    · simp only [tokens, hi] at ht
      simp [State.dueAt, State.way, hstage, hi]
      omega
  | remove =>
    rw [hstage] at hs
    obtain rfl := Option.some.inj hs
    refine due_lt_at hfd (fun fd' hne => hother rfl fd' hne rfl ?_) ?_
    · simp [State.way, Function.update_of_ne hne]
    · simp [State.dueAt, hstage]
  | clear =>
    rw [hstage] at hs
    obtain rfl := Option.some.inj hs
    refine due_lt_at hfd (fun fd' hne => hother rfl fd' hne (Function.update_of_ne hne _ _) rfl) ?_
    simp [State.dueAt, hstage]
  | decr =>
    rw [hstage] at hs hinv
    obtain rfl := Option.some.inj hs
    obtain ⟨hemp, hi, ht⟩ := hinv
    have hnil : (s.ctx fd).recs = [] := hx.empty_iff.mp (Xfer.empty_iff.mp hemp)
    refine due_lt_at hfd (fun fd' hne => hother rfl fd' hne rfl rfl) ?_
    simp only [tokens, hi] at ht
    simp [State.dueAt, State.way, hstage, hi, hnil, load]
    omega

/-- `write_event` sends a part of the queue, or ends it. -/
theorem due_writeEvent {fd : ℕ} {as : List Answer} {e : Entry} (hw : WatchInv n s)
    (hx : (s.ctx fd).Holds (s.ctx fd).recs) (hint : Intact mc s (.writeEvent fd as))
    (he : enter m mc s (.writeEvent fd as) = some e) (hfd : e.fd < n) (hidle : s.cs e.fd = .idle)
    (ha : (answer as).retry = false) : (s.entered e).due n < s.due n := by
  simp only [enter] at he
  split_ifs at he with htaken
  obtain rfl := Option.some.inj he
  have hpos : 0 < s.taken.count fd := List.count_pos_iff.mpr htaken
  have hne := (hw.of_token (tokens_pos_of_taken htaken)).2.1
  have hload : 0 < load (s.ctx fd).recs := by
    refine load_pos fun hnil => ?_
    have hzero := Xfer.empty_iff.mpr (hx.empty_iff.mpr hnil)
    rw [hne] at hzero
    cases hzero
  refine due_lt_at hfd (fun fd' hne => dueAt_congr ?_ ?_ ?_) ?_
  · exact Function.update_of_ne hne _ _
  · exact Function.update_of_ne hne _ _
  · simp [State.way, State.entered, List.count_erase_of_ne hne]
  · have hbefore : 5 * load (s.ctx fd).recs + 1 ≤ s.dueAt fd := by
      simp only at hidle
      simp only [State.dueAt, State.way, hidle]
      omega
    obtain ⟨-, ⟨hst, -⟩ | hst⟩ := out.writeEvent_stage (hw.ctxSound fd) s.world mc as
    · have hless := out.writeEvent_load hx hint ha hst
      simp only [State.dueAt, State.entered, Function.update_self, hst]
      simp only [State.dueAt] at hbefore
      omega
    · simp only [State.dueAt, State.entered, Function.update_self, hst]
      simp only [State.dueAt] at hbefore
      omega

theorem due_step (hw : WatchInv n s) (hb : Beyond n s) (hx : ∀ fd, (s.ctx fd).Holds (s.ctx fd).recs)
    (hint : Intact mc s act) (hf : Finds s act) (ha : act.asks = false)
    (hs : stepOut n m mc s act = some s') : s'.due n < s.due n := by
  cases act with
  | goOn fd =>
    simp only [stepOut, enter] at hs
    split_ifs at hs with hfd
    exact due_goOn hw (hx fd) hfd hs
  | pollWait fds => exact due_pollWait hw hb hf hs
  | pollPush =>
    obtain rfl := Option.some.inj hs
    exact due_pollPush hw hb hf
  | next =>
    simp only [stepOut, enter] at hs
    split at hs
    · cases hs
    · rename_i fd queue hq
      obtain rfl := Option.some.inj hs
      exact due_next hw hb hq
  | writeEvent fd as =>
    unfold stepOut at hs
    rcases he : enter m mc s (.writeEvent fd as) with _ | e
    · rw [he] at hs
      cases hs
    · rw [he] at hs
      simp only at hs
      split_ifs at hs with hc
      obtain rfl := Option.some.inj hs
      exact due_writeEvent hw (hx fd) hint he hc.1 hc.2.1 ha
  | _ => cases ha

/-! ## Until everything is sent there is something to do -/

/-- Nothing is left to do: no queue, no registration, no event, nobody in a section. What was committed to
a descriptor has been accepted, unless a fatal answer has ended its stream. -/
structure Drained (n : ℕ) (s : State) : Prop where
  watching : s.watching = 0
  fd : ∀ fd < n, s.cs fd = .idle ∧ (s.ctx fd).empty = true ∧ s.interest fd = .absent ∧ tokens s fd = 0
  sent : ∀ fd < n, s.broken fd = false → s.wire fd = s.payload fd

theorem DataInv.wire_eq {fd : ℕ} (h : DataInv id n s) (hfd : fd < n) (hb : s.broken fd = false)
    (hemp : (s.ctx fd).empty = true) : s.wire fd = s.payload fd := by
  have hnil : (s.ctx fd).recs = [] := (h.ctx fd).empty_iff.mp (Xfer.empty_iff.mp hemp)
  have hstream := h.stream fd hfd hb
  rwa [hnil, items_nil, List.map_nil, List.append_nil, List.map_id, List.map_id] at hstream

theorem drained_of_idle (hw : WatchInv n s) (hd : DataInv id n s)
    (h : ∀ fd < n, s.cs fd = .idle ∧ (s.ctx fd).empty = true) : Drained n s := by
  refine ⟨?_, fun fd hfd => ?_, fun fd hfd hb => hd.wire_eq hfd hb (h fd hfd).2⟩
  · rw [hw.watching]
    refine congrArg Nat.cast (sum_eq_zero fun fd hfd => ?_)
    obtain ⟨hidle, hemp⟩ := h fd (mem_range.mp hfd)
    simp [counted, hidle, hemp]
  · obtain ⟨hidle, hemp⟩ := h fd hfd
    have hinv := hw.fd fd
    rw [hidle] at hinv
    obtain ⟨-, hi, ht⟩ | ⟨hne, -, -⟩ := hinv
    · exact ⟨hidle, hemp, hi, ht⟩
    · rw [hemp] at hne
      cases hne

theorem overlapAt_fatal (rs : List Rec) (p : ℕ) : overlapAt p rs [.fails .other] = false := by
  induction rs generalizing p with
  | nil => rfl
  | cons r rs ih => cases r <;> simp [overlapAt, answer, Answer.accepted, ih]

/-- What a run may do: allocations succeed, every vector fits its tag, queued memory is left alone, no
`memcpy` goes wrong, and polls find something. The kernel may answer anything. -/
def Serving (n m : ℕ) (mc : Memcpy) (s : State) (act : Action) : Prop :=
  Regular m mc s act ∧ Unchanged id n s act ∧ Intact mc s act ∧ Finds s act

theorem serving_of_apart (he : enter m mc s act = none) (hsmall : act.Small) (hu : Unchanged id n s act)
    (hint : overlaps s act = false) (hf : Finds s act) : Serving n m mc s act := by
  refine ⟨⟨fun e hmem => ?_, hsmall⟩, hu, .inr hint, hf⟩
  rw [he] at hmem
  cases hmem

theorem exists_writeEvent {fd : ℕ} (hfd : fd < n) (hidle : s.cs fd = .idle) (htaken : fd ∈ s.taken) :
    ∃ s', Serving n m mc s (.writeEvent fd [.fails .other]) ∧
      stepOut n m mc s (.writeEvent fd [.fails .other]) = some s' := by
  obtain ⟨e, hwork, he⟩ : ∃ e : Entry, (e.fd = fd ∧ e.work.outcome = .ok) ∧
      enter m mc s (.writeEvent fd [.fails .other]) = some e := ⟨_, ⟨rfl, rfl⟩, if_pos htaken⟩
  obtain ⟨s', hs'⟩ : ∃ s', stepOut n m mc s (.writeEvent fd [.fails .other]) = some s' := by
    unfold stepOut
    rw [he]
    exact ⟨_, if_pos ⟨by rwa [hwork.1], by rwa [hwork.1], by simp [hwork.2]⟩⟩
  refine ⟨s', ⟨⟨fun e' hmem => ?_, trivial⟩, trivial, .inr (overlapAt_fatal _ _), trivial⟩, hs'⟩
  obtain rfl := Option.some.inj (he.symm.trans hmem)
  exact hwork.2

theorem exists_goOn {fd : ℕ} (hcs : s.cs fd ≠ .idle) : ∃ s', s.goOn fd = some s' := by
  unfold State.goOn
  cases hstage : s.cs fd with
  | idle => exact absurd hstage hcs
  | addFd | incr | reactivate | remove | clear | decr => exact ⟨_, rfl⟩

theorem exists_step (hw : WatchInv n s) {fd : ℕ} (hfd : fd < n)
    (hbusy : s.cs fd ≠ .idle ∨ (s.ctx fd).empty = false) :
    ∃ act s', Serving n m mc s act ∧ act.asks = false ∧ stepOut n m mc s act = some s' := by
  by_cases hidle : s.cs fd = .idle
  · have hne := hbusy.resolve_left (not_not_intro hidle)
    have hinv := hw.fd fd
    rw [hidle] at hinv
    obtain ⟨hemp, -, -⟩ | ⟨-, -, htok⟩ := hinv
    · rw [hne] at hemp
      cases hemp
    by_cases hb : s.backlog = []
    · by_cases harmed : s.interest fd = .armed
      · obtain ⟨s', hs'⟩ : ∃ s', s.pollWait [fd] = some s' :=
          ⟨_, if_pos ⟨hb, List.nodup_singleton _, by simpa using harmed⟩⟩
        exact ⟨.pollWait [fd], s', serving_of_apart rfl trivial trivial rfl (by simp [Finds]), rfl, hs'⟩
      · cases hq : s.queue with
        | cons fd' queue =>
          refine ⟨.next, { s with queue := queue, taken := fd' :: s.taken },
            serving_of_apart rfl trivial trivial rfl trivial, rfl, ?_⟩
          simp [stepOut, enter, hq]
        | nil =>
          simp only [tokens, harmed, hb, hq, if_false, List.count_nil] at htok
          obtain ⟨s', hserving, hs'⟩ := exists_writeEvent hfd hidle (List.count_pos_iff.mp (by omega))
          exact ⟨_, s', hserving, rfl, hs'⟩
    · exact ⟨.pollPush, _, serving_of_apart rfl trivial trivial rfl hb, rfl, rfl⟩
  · obtain ⟨s', hs'⟩ := exists_goOn hidle
    exact ⟨.goOn fd, s', serving_of_apart rfl trivial trivial rfl trivial, rfl, (if_pos hfd).trans hs'⟩

theorem reachable_dataInv (h : (outSystem n m mc).Reachable (Serving n m mc) s) : DataInv id n s := by
  apply h.invariant
  · rintro s ⟨world, rfl⟩
    exact .start world
  · intro s act s' _ hd hp hs
    exact hd.step hp.1 hp.2.1 hp.2.2.1 hs

/-- Everything committed is sent: however the steps of the workers and of the callers are mixed and
whatever the kernel answers, with at most `k` more calls and refusals on the way, all queues become empty,
the registrations are removed and `m_watching` is 0 again. Until then somebody can always go on. -/
theorem writes_drain (h : (outSystem n m mc).Reachable (Serving n m mc) s) (k : ℕ) :
    (outSystem n m mc).Inevitable (Serving n m mc) Action.asks (Drained n) k s := by
  by_cases hdone : Drained n s
  · exact .here hdone
  refine System.Inevitable.of_rank (State.due n)
    (I := fun s => (outSystem n m mc).Reachable (Serving n m mc) s ∧ ¬ Drained n s) ?_ ?_ k ⟨h, hdone⟩
  · rintro s ⟨hr, hdone⟩
    have hw := reachable_watchInv hr
    obtain ⟨fd, hfd, hbusy⟩ : ∃ fd < n, s.cs fd ≠ .idle ∨ (s.ctx fd).empty = false := by
      by_contra hno
      refine hdone (drained_of_idle hw (reachable_dataInv hr) fun fd hfd => ?_)
      by_contra hbusy
      refine hno ⟨fd, hfd, ?_⟩
      by_cases hidle : s.cs fd = .idle
      · exact .inr (by simpa [hidle] using hbusy)
      · exact .inl hidle
    exact exists_step hw hfd hbusy
  · rintro s act s' ⟨hr, -⟩ hp hs
    by_cases hdone : Drained n s'
    · exact .inl hdone
    · refine .inr ⟨⟨.step hr hp hs, hdone⟩, fun ha => ?_⟩
      exact due_step (reachable_watchInv hr) (reachable_beyond hr) (reachable_dataInv hr).ctx hp.2.2.1
        hp.2.2.2 ha hs

/-- A blocked `write` at one descriptor, and a `writev` of which a part is sent at another. -/
def twoQueued : List Action :=
  [.write 0 16 3 [.fails .EAGAIN] (some fun _ => 0), .goOn 0, .goOn 0,
    .submit 1 (.writev [⟨16, 2⟩, ⟨32, 3⟩] 7 9) (fun _ => 0) [.count 3] (some fun _ => 0), .goOn 1]

theorem writes_drain_twoQueued : ∃ s, (outSystem 2 0 .descending).Reachable (Serving 2 0 .descending) s ∧
    s.watching = 1 ∧ queued s 0 = [16, 17, 18] ∧ queued s 1 = [33, 34] ∧
    (outSystem 2 0 .descending).Inevitable (Serving 2 0 .descending) Action.asks (Drained 2) 5 s := by
  obtain ⟨s, hs, hq⟩ := System.exists_reachable_of_exec (S := outSystem 2 0 .descending)
    (P := fun s act => Regular 0 .descending s act ∧ Unchanged id 2 s act ∧ overlaps s act = false ∧
      Finds s act)
    (s := .start addressWorld) twoQueued
    (fun s => decide (s.watching = 1 ∧ queued s 0 = [16, 17, 18] ∧ queued s 1 = [33, 34])) ⟨_, rfl⟩
    (by decide +kernel)
  have hs' := hs.mono (Q := Serving 2 0 .descending) fun _ _ _ h => ⟨h.1, h.2.1, .inr h.2.2.1, h.2.2.2⟩
  obtain ⟨hwatch, h0, h1⟩ := of_decide_eq_true hq
  exact ⟨s, hs', hwatch, h0, h1, writes_drain hs' 5⟩

end Mpio.Wavy
