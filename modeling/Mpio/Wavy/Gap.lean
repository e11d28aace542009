import Mpio.Wavy.Paths

/-!
# What a fatal answer leaves out

After a fatal answer the queue is cleared or the caller's records are dropped, and then the descriptor
looks like an idle one: nothing keeps a later commit from being sent. So the bytes accepted are in
general not a prefix of what was committed (`gap_after_fatal`). What holds of every run is
`stream_pieces`: they are a prefix of each committed payload, one after the other in commit order; and
a prefix of the whole as long as no commit follows a fatal answer, or a commit that threw, on the
descriptor.

The run carries along what was committed piece by piece (`Journal`). The work of a section is described
by `Cuts`: a prefix of what it commits is accepted or queued, and all of it unless its stream ends
there. Clearing a queue takes away the end of what was accepted or queued, and that leaves a prefix
of each piece (`Pieces.cut`).
-/

namespace Mpio.Wavy

open Lib

variable {n m : ℕ} {mc : Memcpy} {s s' : State} {act : Action} {w : World} {as : List Answer}

/-! ## Prefixes of pieces -/

/-- The list is made of a prefix of each part. -/
inductive Pieces {α : Type*} : List (List α) → List α → Prop
  | nil : Pieces [] []
  | cons {part p rest : List α} {parts : List (List α)} :
      p <+: part → Pieces parts rest → Pieces (part :: parts) (p ++ rest)

section Pieces
variable {α : Type*} {parts : List (List α)} {l l' part : List α}

theorem Pieces.none (parts : List (List α)) : Pieces parts [] := by
  induction parts with
  | nil => exact .nil
  | cons part parts ih => exact .cons (p := []) List.nil_prefix ih

theorem Pieces.snoc (h : Pieces parts l) (hp : l' <+: part) : Pieces (parts ++ [part]) (l ++ l') := by
  induction h with
  | nil =>
    have := Pieces.cons hp .nil
    simpa using this
  | cons hq _ ih =>
    rw [List.append_assoc]
    exact .cons hq ih

theorem Pieces.cut (h : Pieces parts (l ++ l')) : Pieces parts l := by
  obtain ⟨whole, hwhole⟩ : ∃ whole, l ++ l' = whole := ⟨_, rfl⟩
  rw [hwhole] at h
  induction h generalizing l with
  | nil =>
    rw [(List.append_eq_nil_iff.mp hwhole).1]
    exact .nil
  | @cons part p rest parts hp hrest ih =>
    rcases List.append_eq_append_iff.mp hwhole with ⟨a, hpa, -⟩ | ⟨a, hla, hra⟩
    · -- the cut is inside the first piece
      have hl : l <+: part := (List.prefix_append l a).trans (hpa ▸ hp)
      have := Pieces.cons hl (Pieces.none parts)
      rwa [List.append_nil] at this
    · rw [hla]
      exact .cons hp (ih hra.symm)

theorem Pieces.bytesOf {parts : List (List Item)} {l : List Item} (h : Pieces parts l) :
    Pieces (parts.map bytesOf) (bytesOf l) := by
  induction h with
  | nil => exact .nil
  | cons hp _ ih =>
    obtain ⟨rest, rfl⟩ := hp
    rw [bytesOf_append, List.map_cons, bytesOf_append]
    exact .cons (List.prefix_append _ _) ih

end Pieces

/-! ## The work of a section, however it ends -/

/-- The queue held `rs` and `pay` was committed. A prefix of it was accepted or is queued now; all of it
unless the stream ended or the section threw. -/
structure Section.Cuts (w : World) (rs : List Rec) (pay : List Item) (work : Section) : Prop where
  holds : work.ctx.Holds work.ctx.recs
  sent : ∃ got, got <+: pay ∧ work.log ++ items w work.ctx.recs = items w rs ++ got
  whole : work.fatal = false → work.outcome = .ok →
    work.log ++ items w work.ctx.recs = items w rs ++ pay

/-- A section that threw: its queue is as it was, and it has sent a prefix of what it was to commit,
if the queue was empty. -/
theorem cuts_of_throws {ctx : Xfer} {rs : List Rec} (hx : ctx.Holds rs) {pay : List Item}
    {work : Section} (hctx : work.ctx = ctx) (hno : work.outcome ≠ .ok) (hlog : work.log <+: pay)
    (hbehind : rs ≠ [] → work.log = []) : work.Cuts w rs pay := by
  refine ⟨hctx ▸ hx.self, ⟨work.log, hlog, ?_⟩, fun _ hok => absurd hok hno⟩
  rw [hctx, hx.recs_eq]
  by_cases hrs : rs = []
  · simp [hrs]
  · simp [hbehind hrs]

theorem cuts_of_submits {rs new : List Rec} {work : Section} {shuts : Bool}
    (h : work.Submits w rs new as shuts)
    (hsent : work.fatal = false → work.outcome = .ok →
      work.log ++ items w work.ctx.recs = items w rs ++ items w new) : work.Cuts w rs (items w new) := by
  have hitems := execRecs_items w new as
  refine ⟨?_, ?_, hsent⟩
  · by_cases hrs : rs = []
    · by_cases hc : (execRecs w new as).cont = true
      · exact (h.left hrs hc).1.self
      · exact (h.ended hrs (by simpa using hc)).1.self
    · exact (h.behind hrs).2.1.self
  · by_cases hrs : rs = []
    · have hlog := h.log hrs
      by_cases hc : (execRecs w new as).cont = true
      · refine ⟨items w new, List.prefix_rfl, ?_⟩
        rw [(h.left hrs hc).1.recs_eq, hlog, hrs, hitems]
        rfl
      · refine ⟨work.log, ⟨items w (execRecs w new as).recs, by rw [hlog, hitems]⟩, ?_⟩
        rw [(h.ended hrs (by simpa using hc)).1.recs_eq, hrs]
        simp
    · obtain ⟨hlog, hctx, -⟩ := h.behind hrs
      refine ⟨items w new, List.prefix_rfl, ?_⟩
      rw [hlog, hctx.recs_eq, items_append]
      rfl

theorem out.write_cuts {ctx : Xfer} {rs : List Rec} (hx : ctx.Holds rs) {buf size : UInt64}
    {junk : Xfer.Junk} :
    (out.write w ctx buf size as junk).Cuts w rs ((Rec.iovec [⟨buf, size⟩]).items w) := by
  by_cases hok : (out.write w ctx buf size as junk).outcome = .ok
  · have hcuts := cuts_of_submits (out.write_submits hx hok) (fun hfatal hok => by
      rw [(out.write_sends hx hok).sent hfatal]
      simp [items])
    simpa [items] using hcuts
  · have hemp : ctx.empty = true ↔ rs = [] := by rw [Xfer.empty_iff, hx.empty_iff]
    have hthrows (b l : UInt64) (h : (ctx.pushWrite b l junk).2 ≠ .ok) :
        (ctx.pushWrite b l junk).1 = ctx := Xfer.push_throws _ _ junk h
    refine cuts_of_throws hx ?_ hok ?_ ?_
    · simp only [out.write] at hok ⊢
      split_ifs at hok ⊢
      · rfl
      · rfl
      · exact hthrows _ _ hok
      · exact hthrows _ _ hok
    · simp only [out.write]
      split_ifs
      · exact List.nil_prefix
      · exact List.take_prefix _ _
      · exact List.take_prefix _ _
      · exact List.nil_prefix
    · intro hrs
      simp only [out.write]
      rw [if_neg (mt hemp.mp hrs)]

theorem out.commitRaw_cuts {ctx : Xfer} {rs new : List Rec} (hx : ctx.Holds rs)
    {xfbuf : List UInt8} (henc : Encodes xfbuf new) (hlen : xfbuf.length < 2 ^ 63) {junk : Xfer.Junk}
    (hint : mc.CopiesDown ∨ (ctx.empty && overlapAt 0 new as) = false) :
    (out.commitRaw w mc ctx xfbuf as junk).Cuts w rs (items w new) := by
  by_cases hok : (out.commitRaw w mc ctx xfbuf as junk).outcome = .ok
  · exact cuts_of_submits (out.commitRaw_submits hx henc hlen hint hok)
      fun hfatal hok => (out.commitRaw_sends hx henc hlen hint hok).sent hfatal
  · have hemp : ctx.empty = true ↔ rs = [] := by rw [Xfer.empty_iff, hx.empty_iff]
    have hthrows (b : List UInt8) (k : ℕ) (h : (ctx.pushXfraw b k junk).2 ≠ .ok) :
        (ctx.pushXfraw b k junk).1 = ctx := Xfer.push_throws _ _ junk h
    have hlog : (execute w mc xfbuf.length xfbuf.length xfbuf 0 as).log <+: items w new := by
      have href := @execute_refines w mc xfbuf xfbuf.length new (by rwa [List.take_length]) le_rfl as
      rw [href.log]
      exact ⟨_, execRecs_items w new as⟩
    refine cuts_of_throws hx ?_ hok ?_ ?_
    · simp only [out.commitRaw] at hok ⊢
      split_ifs at hok ⊢
      · exact hthrows _ _ hok
      · rfl
      · exact hthrows _ _ hok
    · simp only [out.commitRaw]
      split_ifs
      · exact hlog
      · exact hlog
      · exact List.nil_prefix
    · intro hrs
      simp only [out.commitRaw]
      rw [if_neg (mt hemp.mp hrs)]

theorem out.commit_cuts {ctx xf : Xfer} {rs new : List Rec} (hx : ctx.Holds rs) (hf : xf.Holds new)
    {junk : Xfer.Junk} (hint : mc.CopiesDown ∨ (ctx.empty && overlapAt 0 new as) = false) :
    (out.commit w mc ctx xf as junk).1.Cuts w rs (items w new) ∧
    (out.commit w mc ctx xf as junk).2.Holds (out.commit w mc ctx xf as junk).2.recs := by
  by_cases hok : (out.commit w mc ctx xf as junk).1.outcome = .ok
  · obtain ⟨hsends, hxf⟩ := out.commit_sends (w := w) hx hf hint hok
    exact ⟨cuts_of_submits (out.commit_submits hx hf hint hok) fun hfatal _ => hsends.sent hfatal, hxf⟩
  · have hemp : ctx.empty = true ↔ rs = [] := by rw [Xfer.empty_iff, hx.empty_iff]
    obtain ⟨-, hlog', -, hleft⟩ := hf.tryWrite w mc as
    have hlog : (xf.tryWrite w mc as).2.1.log <+: items w new := by
      rw [hlog']
      exact ⟨_, execRecs_items w new as⟩
    refine ⟨cuts_of_throws hx ?_ hok ?_ ?_, ?_⟩
    · simp only [out.commit] at hok ⊢
      split_ifs at hok ⊢
      · exact (Xfer.migrate_throws junk hok).2
      · rfl
      · exact (Xfer.migrate_throws junk hok).2
    · simp only [out.commit]
      split_ifs
      · exact hlog
      · exact hlog
      · exact List.nil_prefix
    · intro hrs
      simp only [out.commit]
      rw [if_neg (mt hemp.mp hrs)]
    · simp only [out.commit] at hok ⊢
      split_ifs at hok ⊢ with hempty hcont
      · rw [(Xfer.migrate_throws junk hok).1]
        exact (hleft (by simpa [hempty] using hint)).self
      · exact (hleft (by simpa [hempty] using hint)).self
      · rw [(Xfer.migrate_throws junk hok).1]
        exact hf.self

theorem out.writeEvent_cuts {ctx : Xfer} {rs : List Rec} (hx : ctx.Holds rs)
    (hint : mc.CopiesDown ∨ overlapAt 0 rs as = false) :
    (out.writeEvent w mc ctx as).Cuts w rs [] := by
  obtain ⟨-, hlog, -, hleft'⟩ := hx.tryWrite w mc as
  have hleft := hleft' hint
  have hsame : (out.writeEvent w mc ctx as).log ++ items w (out.writeEvent w mc ctx as).ctx.recs =
      items w rs ++ [] := by
    simp only [out.writeEvent, hlog, hleft.recs_eq, List.append_nil]
    exact execRecs_items w rs as
  exact ⟨hleft.self, ⟨[], List.prefix_rfl, hsame⟩, fun _ _ => hsame⟩

/-! ## Runs with a journal -/

/-- Whether the action commits something. -/
def Action.commits : Action → Bool
  | .write .. | .submit .. | .commit .. => true
  | _ => false

/-- The object with, for each descriptor, the payloads committed to it one by one, whether a commit or
a write event there got a fatal answer or threw, and whether a commit has followed since. -/
structure Journal where
  state : State
  commits : ℕ → List (List Item)
  lost : ℕ → Bool
  late : ℕ → Bool

/-- A critical section was entered. -/
def Journal.noted (j : Journal) (act : Action) (e : Entry) (s : State) : Journal where
  state := s
  commits := if act.commits then Function.update j.commits e.fd (j.commits e.fd ++ [e.payload])
    else j.commits
  lost := Function.update j.lost e.fd (j.lost e.fd || e.work.fatal || e.work.outcome != .ok)
  late := Function.update j.late e.fd (j.late e.fd || (act.commits && j.lost e.fd))

def Journal.step (n m : ℕ) (mc : Memcpy) (j : Journal) (act : Action) : Option Journal :=
  (stepOut n m mc j.state act).map fun s =>
    match enter m mc j.state act with
    | some e => j.noted act e s
    | none => { j with state := s }

def journalSystem (n m : ℕ) (mc : Memcpy) : System Journal Action where
  init j := ∃ world, j = ⟨.start world, fun _ => [], fun _ => false, fun _ => false⟩
  step := Journal.step n m mc

/-- What an entry into a critical section does to the data, however it ends. -/
structure Entry.Cuts (s : State) (act : Action) (e : Entry) : Prop where
  cuts : e.work.Cuts s.world (s.ctx e.fd).recs e.payload
  xfers : ∀ k, (e.xfers k).Holds (e.xfers k).recs
  done : e.work.stage = .remove → e.work.fatal = false → e.work.ctx.recs = []
  notClear : e.work.stage ≠ .clear
  event : act.commits = false → e.payload = []

theorem enter_cuts (hctx : ∀ fd, (s.ctx fd).Holds (s.ctx fd).recs)
    (hxfers : ∀ k, (s.xfers k).Holds (s.xfers k).recs) (hsmall : act.Small) (hint : Intact mc s act)
    {e : Entry} (he : enter m mc s act = some e) : e.Cuts s act := by
  cases act with
  | write fd buf size as junk =>
    obtain rfl := Option.some.inj he
    refine ⟨out.write_cuts (hctx fd), hxfers, ?_, ?_, fun h => (by cases h)⟩
    all_goals
      simp only [out.write]
      split_ifs <;> simp [watchAfter_ne_clear, watchAfter_ne_remove]
  | submit fd call stack as junk =>
    obtain rfl := Option.some.inj he
    obtain ⟨henc, hlen⟩ := call.encodes stack hsmall
    refine ⟨out.commitRaw_cuts (hctx fd) henc hlen hint, hxfers, ?_, ?_, fun h => (by cases h)⟩
    all_goals
      simp only [out.commitRaw]
      split_ifs <;> simp [watchAfter_ne_clear, watchAfter_ne_remove]
  | commit fd k as junk =>
    simp only [enter] at he
    split_ifs at he with hk
    obtain rfl := Option.some.inj he
    obtain ⟨hw, hx⟩ := out.commit_cuts (w := s.world) (hctx fd) (hxfers k) hint
    refine ⟨hw, holds_update hxfers hx k, ?_, ?_, fun h => (by cases h)⟩
    all_goals
      simp only [out.commit]
      split_ifs <;> simp [watchAfter_ne_clear, watchAfter_ne_remove]
  | writeEvent fd as =>
    simp only [enter] at he
    split_ifs at he with ht
    obtain rfl := Option.some.inj he
    refine ⟨out.writeEvent_cuts (hctx fd) hint, hxfers,
      (out.writeEvent_sends (w := s.world) (hctx fd) hint).done, ?_, fun _ => rfl⟩
    simp only [out.writeEvent]
    split_ifs <;> simp
  | _ => cases he

/-- What has been accepted at a descriptor or is queued there. -/
def State.reached (s : State) (fd : ℕ) : List Item := s.wire fd ++ items s.world (s.ctx fd).recs

structure JournalInv (n : ℕ) (j : Journal) : Prop where
  ctx : ∀ fd, (j.state.ctx fd).Holds (j.state.ctx fd).recs
  xfers : ∀ k, (j.state.xfers k).Holds (j.state.xfers k).recs
  payload : ∀ fd, j.state.payload fd = (j.commits fd).flatten
  pieces : ∀ fd < n, Pieces (j.commits fd) (j.state.reached fd)
  upTo : ∀ fd < n, j.late fd = false → j.state.reached fd <+: (j.commits fd).flatten
  whole : ∀ fd < n, j.lost fd = false → j.state.reached fd = (j.commits fd).flatten
  closing : ∀ fd, j.state.cs fd = .remove ∨ j.state.cs fd = .clear → j.lost fd = false →
    (j.state.ctx fd).recs = []

theorem JournalInv.entered {j : Journal} (h : JournalInv n j) {e : Entry}
    (he : e.Cuts j.state act) : JournalInv n (j.noted act e (j.state.entered e)) := by
  have hother {fd : ℕ} (hf : fd ≠ e.fd) : (j.state.entered e).reached fd = j.state.reached fd := by
    simp [State.reached, State.entered, Function.update_of_ne hf]
  have hsame : (j.state.entered e).reached e.fd =
      j.state.wire e.fd ++ (e.work.log ++ items j.state.world e.work.ctx.recs) := by
    simp [State.reached, State.entered]
  have hcommits {fd : ℕ} (hf : fd ≠ e.fd) :
      (j.noted act e (j.state.entered e)).commits fd = j.commits fd := by
    simp only [Journal.noted]
    split_ifs
    · rw [Function.update_of_ne hf]
    · rfl
  have hflat : ((j.noted act e (j.state.entered e)).commits e.fd).flatten =
      (j.commits e.fd).flatten ++ e.payload := by
    simp only [Journal.noted]
    split_ifs with hc
    · simp
    · rw [he.event (by simpa using hc), List.append_nil]
  refine ⟨fun fd => ?_, he.xfers, fun fd => ?_, fun fd hfd => ?_, fun fd hfd hl => ?_,
    fun fd hfd hl => ?_, fun fd hst hl => ?_⟩
  · by_cases hf : fd = e.fd
    · subst hf
      simpa [Journal.noted, State.entered] using he.cuts.holds
    · simpa [Journal.noted, State.entered, Function.update_of_ne hf] using h.ctx fd
  · by_cases hf : fd = e.fd
    · subst hf
      rw [hflat, ← h.payload]
      simp [Journal.noted, State.entered]
    · rw [hcommits hf, ← h.payload]
      simp [Journal.noted, State.entered, Function.update_of_ne hf]
  · by_cases hf : fd = e.fd
    · subst hf
      obtain ⟨got, hgot, hsent⟩ := he.cuts.sent
      show Pieces _ ((j.state.entered e).reached e.fd)
      rw [hsame, hsent, ← List.append_assoc]
      simp only [Journal.noted]
      split_ifs with hc
      · rw [Function.update_self]
        exact (h.pieces _ hfd).snoc hgot
      · have hnil : got = [] := by
          rw [he.event (by simpa using hc)] at hgot
          exact List.prefix_nil.mp hgot
        rw [hnil, List.append_nil]
        exact h.pieces _ hfd
    · show Pieces _ ((j.state.entered e).reached fd)
      rw [hcommits hf, hother hf]
      exact h.pieces fd hfd
  · show (j.state.entered e).reached fd <+: _
    by_cases hf : fd = e.fd
    · subst hf
      obtain ⟨got, hgot, hsent⟩ := he.cuts.sent
      rw [hsame, hsent, hflat, ← List.append_assoc]
      simp only [Journal.noted, Function.update_self, Bool.or_eq_false_iff, Bool.and_eq_false_imp] at hl
      by_cases hc : act.commits = true
      · rw [← h.whole _ hfd (hl.2 hc)]
        exact (List.prefix_append_right_inj _).mpr hgot
      · have hpay := he.event (by simpa using hc)
        rw [hpay] at hgot ⊢
        rw [List.prefix_nil.mp hgot, List.append_nil, List.append_nil]
        exact h.upTo _ hfd hl.1
    · rw [hcommits hf, hother hf]
      simp only [Journal.noted, Function.update_of_ne hf] at hl
      exact h.upTo fd hfd hl
  · show (j.state.entered e).reached fd = _
    by_cases hf : fd = e.fd
    · subst hf
      simp only [Journal.noted, Function.update_self, Bool.or_eq_false_iff, bne_eq_false_iff_eq] at hl
      rw [hsame, he.cuts.whole hl.1.2 hl.2, hflat, ← List.append_assoc]
      exact congrArg (· ++ e.payload) (h.whole _ hfd hl.1.1)
    · rw [hcommits hf, hother hf]
      simp only [Journal.noted, Function.update_of_ne hf] at hl
      exact h.whole fd hfd hl
  · by_cases hf : fd = e.fd
    · subst hf
      simp only [Journal.noted, State.entered, Function.update_self, Bool.or_eq_false_iff] at hst hl ⊢
      rcases hst with hst | hst
      · exact he.done hst hl.1.2
      · exact absurd hst he.notClear
    · simp only [Journal.noted, State.entered, Function.update_of_ne hf] at hst hl ⊢
      exact h.closing fd hst hl

theorem JournalInv.frame {j : Journal} (h : JournalInv n j) (hctx : s'.ctx = j.state.ctx)
    (hxfers : ∀ k, (s'.xfers k).Holds (s'.xfers k).recs) (hpay : s'.payload = j.state.payload)
    (hreached : ∀ fd < n, s'.reached fd = j.state.reached fd)
    (hcs : ∀ fd, s'.cs fd = .remove ∨ s'.cs fd = .clear →
      j.state.cs fd = .remove ∨ j.state.cs fd = .clear) : JournalInv n { j with state := s' } := by
  refine ⟨hctx ▸ h.ctx, hxfers, hpay ▸ h.payload, fun fd hfd => ?_, fun fd hfd hl => ?_,
    fun fd hfd hl => ?_, fun fd hst hl => ?_⟩
  · simp only [hreached fd hfd]
    exact h.pieces fd hfd
  · simp only [hreached fd hfd]
    exact h.upTo fd hfd hl
  · simp only [hreached fd hfd]
    exact h.whole fd hfd hl
  · simp only [hctx]
    exact h.closing fd (hcs fd hst) hl

theorem JournalInv.goOn {j : Journal} (h : JournalInv n j) {fd : ℕ} (hs : j.state.goOn fd = some s') :
    JournalInv n { j with state := s' } := by
  have hstage {stage : Stage} (hne : stage ≠ .remove)
      (hclear : stage = .clear → j.state.cs fd = .remove) (fd' : ℕ)
      (hst : Function.update j.state.cs fd stage fd' = .remove ∨
        Function.update j.state.cs fd stage fd' = .clear) :
      j.state.cs fd' = .remove ∨ j.state.cs fd' = .clear := by
    by_cases hf : fd' = fd
    · subst hf
      rw [Function.update_self] at hst
      exact .inl (hclear (hst.resolve_left hne))
    · rwa [Function.update_of_ne hf] at hst
  simp only [State.goOn] at hs
  cases hcase : j.state.cs fd with
  | idle => simp [hcase] at hs
  | addFd | incr | reactivate | decr =>
    rw [hcase] at hs
    obtain rfl := Option.some.inj hs
    exact h.frame rfl h.xfers rfl (fun _ _ => rfl) (hstage (by simp) (by simp))
  | remove =>
    rw [hcase] at hs
    obtain rfl := Option.some.inj hs
    exact h.frame rfl h.xfers rfl (fun _ _ => rfl) (hstage (by simp) fun _ => hcase)
  | clear =>
    rw [hcase] at hs
    obtain rfl := Option.some.inj hs
    have hcl := (h.ctx fd).clear.1
    -- what was queued is gone, and with it the end of what was accepted or queued
    have hcut (fd' : ℕ) : j.state.wire fd' ++
        items j.state.world (Function.update j.state.ctx fd (j.state.ctx fd).clear.1 fd').recs <+:
          j.state.reached fd' := by
      by_cases hf : fd' = fd
      · subst hf
        rw [Function.update_self, hcl.recs_eq, items_nil, List.append_nil]
        exact List.prefix_append _ _
      · rw [Function.update_of_ne hf]
        exact List.prefix_rfl
    refine ⟨holds_update h.ctx hcl fd, h.xfers, h.payload, fun fd' hfd' => ?_, fun fd' hfd' hl => ?_,
      fun fd' hfd' hl => ?_, fun fd' hst hl => ?_⟩
    · obtain ⟨rest, hrest⟩ := hcut fd'
      have hp := h.pieces fd' hfd'
      rw [← hrest] at hp
      exact hp.cut
    · exact (hcut fd').trans (h.upTo fd' hfd' hl)
    · show j.state.wire fd' ++ _ = _
      rw [← h.whole fd' hfd' hl, State.reached]
      by_cases hf : fd' = fd
      · subst hf
        simp only [Function.update_self]
        rw [hcl.recs_eq, h.closing fd' (.inr hcase) hl]
      · simp only [Function.update_of_ne hf]
    · by_cases hf : fd' = fd
      · subst hf
        simp at hst
      · simp only [Function.update_of_ne hf] at hst ⊢
        exact h.closing fd' hst hl

theorem JournalInv.step {j j' : Journal} (h : JournalInv n j) (hsmall : act.Small)
    (hu : Unchanged id n j.state act) (hint : Intact mc j.state act)
    (hs : j.step n m mc act = some j') : JournalInv n j' := by
  obtain ⟨s', hs', rfl⟩ := Option.map_eq_some_iff.mp hs
  rcases he : enter m mc j.state act with _ | e
  · simp only
    obtain ⟨fd, hgo⟩ | hel := stepOut_elsewhere h.xfers hsmall he hs'
    · exact h.goOn hgo
    · refine h.frame hel.ctx hel.xfers hel.payload (fun fd hfd => ?_) (fun fd hst => hel.cs ▸ hst)
      have hitems := hel.items hu hfd
      simp only [List.map_id] at hitems
      rw [State.reached, hel.wire, hitems, State.reached]
  · obtain ⟨rfl, -⟩ := stepOut_enter he hs'
    exact h.entered (enter_cuts h.ctx h.xfers hsmall hint he)

/-- The runs: vectors fit their tags, queued memory is left alone, and no `memcpy` goes wrong. Nothing
is asked of the kernel's answers or of the allocations. -/
def Careful (n : ℕ) (mc : Memcpy) (j : Journal) (act : Action) : Prop :=
  act.Small ∧ Unchanged id n j.state act ∧ Intact mc j.state act

theorem reachable_journalInv {j : Journal} (h : (journalSystem n m mc).Reachable (Careful n mc) j) :
    JournalInv n j := by
  apply h.invariant
  · rintro j ⟨world, rfl⟩
    exact ⟨fun _ => Xfer.holds_new.self, fun _ => Xfer.holds_new.self, fun _ => rfl, fun _ _ => .nil,
      fun _ _ _ => List.prefix_rfl, fun _ _ _ => rfl, fun _ hst _ => by rcases hst with hst | hst <;> cases hst⟩
  · rintro j act j' - hinv ⟨hsmall, hu, hint⟩ hs
    exact hinv.step hsmall hu hint hs

/-- The payloads committed to a descriptor, in commit order. -/
def Journal.payloads (j : Journal) (fd : ℕ) : List (List UInt8) := (j.commits fd).map bytesOf

/-- At every moment the bytes accepted on a descriptor are a prefix of each payload committed to it, one
after the other in commit order; and a prefix of all of them together as long as no commit has
followed a fatal answer, or a commit that threw. -/
theorem stream_pieces {j : Journal} {fd : ℕ} (hfd : fd < n)
    (h : (journalSystem n m mc).Reachable (Careful n mc) j) :
    (j.payloads fd).flatten = committed j.state fd ∧
    Pieces (j.payloads fd) (accepted j.state fd) ∧
    (j.late fd = false → accepted j.state fd <+: committed j.state fd) := by
  have hinv := reachable_journalInv h
  have hflat (parts : List (List Item)) : (parts.map bytesOf).flatten = bytesOf parts.flatten := by
    induction parts with
    | nil => rfl
    | cons p parts ih => rw [List.map_cons, List.flatten_cons, List.flatten_cons, bytesOf_append, ih]
  refine ⟨?_, (hinv.pieces fd hfd).cut.bytesOf, fun hlate => ?_⟩
  · rw [Journal.payloads, hflat, committed, hinv.payload]
  · obtain ⟨rest, hrest⟩ := hinv.upTo fd hfd hlate
    rw [accepted, committed, hinv.payload, ← hrest, State.reached, List.append_assoc, bytesOf_append]
    exact List.prefix_append _ _

/-- A `sendfile` of four bytes: the kernel takes two and then finds the file at its end, so the rest is
discarded; then a write. -/
def shortFile : List Action :=
  [.submit 0 (.sendfile 3 100 4 0 0) (fun _ => 0) [.count 2] (some fun _ => 0), .goOn 0, .goOn 0,
    .pollWait [0], .pollPush, .next, .writeEvent 0 [.count 0], .goOn 0, .goOn 0, .goOn 0,
    .write 0 16 3 [.count 3] (some fun _ => 0)]

theorem shortFile_reachable : ∃ j, (journalSystem 1 0 .ascending).Reachable (Careful 1 .ascending) j ∧
    accepted j.state 0 = [100, 101, 16, 17, 18] ∧
    committed j.state 0 = [100, 101, 102, 103, 16, 17, 18] := by
  obtain ⟨j, hj, hq⟩ := System.exists_reachable_of_exec (S := journalSystem 1 0 .ascending)
    (P := fun j act => (act.Small ∧ Unchanged id 1 j.state act) ∧ overlaps j.state act = false)
    (s := ⟨.start addressWorld, fun _ => [], fun _ => false, fun _ => false⟩) shortFile
    (fun j => decide (accepted j.state 0 = [100, 101, 16, 17, 18] ∧
      committed j.state 0 = [100, 101, 102, 103, 16, 17, 18])) ⟨_, rfl⟩ (by decide +kernel)
  obtain ⟨ha, hc⟩ := of_decide_eq_true hq
  exact ⟨j, hj.mono fun _ _ _ h => ⟨h.1.1, h.1.2, .inr h.2⟩, ha, hc⟩

theorem stream_pieces_shortFile : ∃ j, (journalSystem 1 0 .ascending).Reachable (Careful 1 .ascending) j ∧
    accepted j.state 0 = [100, 101, 16, 17, 18] ∧
    Pieces (j.payloads 0) (accepted j.state 0) := by
  obtain ⟨j, hj, ha, -⟩ := shortFile_reachable
  exact ⟨j, hj, ha, (stream_pieces (by decide) hj).2.1⟩

/-- The write is sent although the end of the file's payload is missing. -/
theorem gap_after_fatal : ∃ j, (journalSystem 1 0 .ascending).Reachable (Careful 1 .ascending) j ∧
    ¬ accepted j.state 0 <+: committed j.state 0 := by
  obtain ⟨j, hj, ha, hc⟩ := shortFile_reachable
  refine ⟨j, hj, ?_⟩
  rw [ha, hc]
  decide

end Mpio.Wavy
