import Mathlib.Algebra.BigOperators.Group.Finset.Piecewise
import Mpio.Wavy.Out

/-!
# Write interest

`m_watching` counts the descriptors with a queue, and each of them has exactly one write token: an
armed registration, an event in the backlog or in `m_queue`, or an event taken by `next`. Inside a
critical section the two move at different moments; `FdInv` says for each stage where they are, and
`counted` whether the descriptor is counted in `m_watching` at that stage.

Nothing here depends on what the queued bytes are: `execute` returns true only with something left
(`execute_cont`), and a push leaves something behind.
-/

namespace Mpio.Wavy

open Lib Finset

variable {n m : ℕ} {mc : Memcpy} {s s' : State} {act : Action}

/-! ## Empty and non-empty queues -/

namespace Xfer

variable {x y z : Xfer} {junk : Junk}

/-- While nothing is allocated, nothing is queued and nothing is free. -/
def Sound (x : Xfer) : Prop := x.block = none → x.tail = 0 ∧ x.free = 0

theorem empty_iff : x.empty = true ↔ x.tail = 0 := by simp [empty]

theorem not_empty_iff : x.empty = false ↔ 0 < x.tail := by
  simp [empty, Nat.pos_iff_ne_zero]

theorem reserve_sound (hx : x.Sound) (sz : ℕ) (junk : Junk) :
    (x.reserve sz junk).1.Sound ∧ (x.reserve sz junk).1.tail = x.tail ∧
      ((x.reserve sz junk).2 = .ok → (x.reserve sz junk).1.block.isSome) := by
  simp only [reserve]
  rcases doubleUntil (wrap (sz + x.tail)) 64 (wrap ((x.tail + x.free) * 2 + 72)) with _ | nsize
  · exact ⟨hx, rfl, by simp⟩
  · rcases junk with _ | junk
    · exact ⟨hx, rfl, by simp⟩
    · simp only
      split_ifs
      · exact ⟨fun h => by simp at h, rfl, fun _ => rfl⟩
      · exact ⟨hx, rfl, by simp⟩

theorem push_sound (hx : x.Sound) (sz : ℕ) (fill : List UInt8 → ℕ → List UInt8) (junk : Junk) :
    (x.push sz fill junk).1.Sound ∧
      ((x.push sz fill junk).2 = .ok → (x.push sz fill junk).1.tail = x.tail + sz) := by
  unfold push
  by_cases hlt : x.free < sz
  · rw [if_pos hlt]
    obtain ⟨hs, ht, hsome⟩ := reserve_sound hx sz junk
    rcases hr : x.reserve sz junk with ⟨y, o⟩
    rw [hr] at hs ht hsome
    cases o with
    | ok =>
      refine ⟨fun h => ?_, fun _ => congrArg (· + sz) ht⟩
      simp only [Option.map_eq_none_iff] at h
      have := hsome rfl
      rw [h] at this
      cases this
    | badAlloc => exact ⟨hs, by simp⟩
    | diverges => exact ⟨hs, by simp⟩
  · rw [if_neg hlt]
    refine ⟨fun h => ?_, fun _ => rfl⟩
    obtain ⟨ht, hf⟩ := hx (by simpa using h)
    simp only
    omega

theorem Sound.emptied (hx : x.Sound) : Sound ⟨x.block, 0, x.free + x.tail⟩ := by
  intro h
  obtain ⟨ht, hf⟩ := hx h
  exact ⟨rfl, by simp only [ht, hf]⟩

theorem migrate_sound (hx : x.Sound) (hy : y.Sound) (junk : Junk) :
    (x.migrate y junk).1.Sound ∧ (x.migrate y junk).2.1.Sound ∧
      ((x.migrate y junk).2.2 = .ok → (x.migrate y junk).2.1.tail = y.tail + x.tail) := by
  unfold migrate
  rcases hblk : y.block with _ | blk
  · obtain ⟨ht, hf⟩ := hy hblk
    refine ⟨fun _ => ⟨rfl, rfl⟩, hx, fun _ => ?_⟩
    simp only
    omega
  · obtain ⟨hs, ht⟩ := push_sound hy x.tail (patch · · (x.mem.take x.tail)) junk
    have hr : y.pushXfraw x.mem x.tail junk = y.push x.tail (patch · · (x.mem.take x.tail)) junk := rfl
    rw [← hr] at hs ht
    rcases hp : y.pushXfraw x.mem x.tail junk with ⟨z, o⟩
    rw [hp] at hs ht
    cases o with
    | ok => exact ⟨hx.emptied, hs, ht⟩
    | badAlloc => exact ⟨hx, hs, by simp⟩
    | diverges => exact ⟨hx, hs, by simp⟩

theorem clear_sound (hx : x.Sound) : x.clear.1.Sound ∧ x.clear.1.empty = true := ⟨hx.emptied, rfl⟩

theorem tryWrite_sound (hx : x.Sound) (w : World) (mc : Memcpy) (as : List Answer) :
    (x.tryWrite w mc as).1.Sound := by
  intro h
  simp only [tryWrite, Option.map_eq_none_iff] at h
  obtain ⟨ht, hf⟩ := hx h
  simp [tryWrite, ht, hf, execute]

theorem tryWrite_cont {w : World} {as : List Answer}
    (h : (x.tryWrite w mc as).2.1.cont = true) : (x.tryWrite w mc as).1.empty = false :=
  not_empty_iff.mpr (execute_cont w mc _ _ _ _ _ h)

theorem pushRec_sound {r : Rec} (hx : x.Sound) : (x.pushRec junk r).1.Sound := by
  unfold pushRec
  split <;> exact (push_sound hx _ _ _).1

end Xfer

/-! ## Critical sections -/

/-- What the work of a commit leaves: the queue stays empty or non-empty, or an empty queue got
something and `watch` comes next. -/
structure Section.Commits (ctx : Xfer) (work : Section) : Prop where
  sound : work.ctx.Sound
  stage : work.stage = .idle ∧ work.ctx.empty = ctx.empty ∨
    ctx.empty = true ∧ work.stage = .addFd ∧ work.ctx.empty = false

theorem watchAfter_of_ne {o : Outcome} (h : o ≠ .ok) : watchAfter o = .idle := if_neg h

theorem out.write_commits {ctx : Xfer} (hx : ctx.Sound) (w : World) (buf size : UInt64)
    (as : List Answer) (junk : Xfer.Junk) : (out.write w ctx buf size as junk).Commits ctx := by
  have hpush (b l : UInt64) := Xfer.push_sound hx sizeofMem (fillMem · · b l) junk
  have hfull (b l : UInt64) (h : (ctx.pushWrite b l junk).2 = .ok) :
      (ctx.pushWrite b l junk).1.empty = false := by
    rw [Xfer.not_empty_iff, Xfer.pushWrite, (hpush b l).2 h, sizeofMem, sizeofXferType]
    omega
  have hthrows (b l : UInt64) (h : (ctx.pushWrite b l junk).2 ≠ .ok) :
      (ctx.pushWrite b l junk).1 = ctx := Xfer.push_throws _ _ junk h
  simp only [out.write]
  split_ifs with he h1 h2
  · exact ⟨hx, .inl ⟨rfl, rfl⟩⟩
  · exact ⟨hx, .inl ⟨rfl, rfl⟩⟩
  · refine ⟨(hpush _ _).1, ?_⟩
    obtain ⟨v, hv⟩ : ∃ v, IoVec.skip ⟨buf, size⟩ (answer as).accepted = v := ⟨_, rfl⟩
    rw [hv]
    by_cases hok : (ctx.pushWrite v.iovBase v.iovLen junk).2 = .ok
    · exact .inr ⟨he, by simp only [hok, watchAfter, if_true], hfull _ _ hok⟩
    · exact .inl ⟨watchAfter_of_ne hok, by rw [hthrows _ _ hok]⟩
  · refine ⟨(hpush _ _).1, .inl ⟨rfl, ?_⟩⟩
    by_cases hok : (ctx.pushWrite buf size junk).2 = .ok
    · rw [hfull _ _ hok]
      simpa using he
    · rw [hthrows _ _ hok]

theorem out.commitRaw_commits {ctx : Xfer} (hx : ctx.Sound) (w : World) (mc : Memcpy)
    (xfbuf : List UInt8) (as : List Answer) (junk : Xfer.Junk) :
    (out.commitRaw w mc ctx xfbuf as junk).Commits ctx := by
  have hpush (b : List UInt8) (k : ℕ) := Xfer.push_sound hx k (patch · · (b.take k)) junk
  have htail (b : List UInt8) (k : ℕ) (h : (ctx.pushXfraw b k junk).2 = .ok) :
      (ctx.pushXfraw b k junk).1.tail = ctx.tail + k := (hpush b k).2 h
  have hthrows (b : List UInt8) (k : ℕ) (h : (ctx.pushXfraw b k junk).2 ≠ .ok) :
      (ctx.pushXfraw b k junk).1 = ctx := Xfer.push_throws _ _ junk h
  simp only [out.commitRaw]
  obtain ⟨e, hex⟩ : ∃ e, execute w mc xfbuf.length xfbuf.length xfbuf 0 as = e := ⟨_, rfl⟩
  split_ifs with he hcont
  · have hne := execute_cont w mc _ _ _ _ _ hcont
    rw [hex] at hne ⊢
    refine ⟨(hpush _ _).1, ?_⟩
    by_cases hok : (ctx.pushXfraw e.block e.tail junk).2 = .ok
    · refine .inr ⟨he, by simp only [hok, watchAfter, if_true], ?_⟩
      rw [Xfer.not_empty_iff, htail _ _ hok]
      omega
    · exact .inl ⟨watchAfter_of_ne hok, by rw [hthrows _ _ hok]⟩
  · exact ⟨hx, .inl ⟨rfl, rfl⟩⟩
  · refine ⟨(hpush _ _).1, .inl ⟨rfl, ?_⟩⟩
    have hne : 0 < ctx.tail := Xfer.not_empty_iff.mp (by simpa using he)
    by_cases hok : (ctx.pushXfraw xfbuf xfbuf.length junk).2 = .ok
    · simp only
      rw [Xfer.not_empty_iff.mpr hne, Xfer.not_empty_iff, htail _ _ hok]
      omega
    · rw [hthrows _ _ hok]

theorem out.commit_commits {ctx xf : Xfer} (hx : ctx.Sound) (hf : xf.Sound) (w : World) (mc : Memcpy)
    (as : List Answer) (junk : Xfer.Junk) :
    (out.commit w mc ctx xf as junk).1.Commits ctx ∧ (out.commit w mc ctx xf as junk).2.Sound := by
  have htry := Xfer.tryWrite_sound hf w mc as
  simp only [out.commit]
  obtain ⟨t, ht⟩ : ∃ t, xf.tryWrite w mc as = t := ⟨_, rfl⟩
  rw [ht] at htry
  split_ifs with he hcont
  · have hne := Xfer.not_empty_iff.mp (Xfer.tryWrite_cont hcont)
    rw [ht] at hne ⊢
    obtain ⟨hs1, hs2, htail⟩ := Xfer.migrate_sound htry hx junk
    refine ⟨⟨hs2, ?_⟩, hs1⟩
    by_cases hok : (t.1.migrate ctx junk).2.2 = .ok
    · refine .inr ⟨he, by simp only [hok, watchAfter, if_true], ?_⟩
      rw [Xfer.not_empty_iff, htail hok]
      omega
    · exact .inl ⟨watchAfter_of_ne hok, by rw [(Xfer.migrate_throws junk hok).2]⟩
  · rw [ht]
    exact ⟨⟨hx, .inl ⟨rfl, rfl⟩⟩, htry⟩
  · obtain ⟨hs1, hs2, htail⟩ := Xfer.migrate_sound hf hx junk
    refine ⟨⟨hs2, .inl ⟨rfl, ?_⟩⟩, hs1⟩
    have hne : 0 < ctx.tail := Xfer.not_empty_iff.mp (by simpa using he)
    by_cases hok : (xf.migrate ctx junk).2.2 = .ok
    · simp only
      rw [Xfer.not_empty_iff.mpr hne, Xfer.not_empty_iff, htail hok]
      omega
    · rw [(Xfer.migrate_throws junk hok).2]

theorem out.writeEvent_stage {ctx : Xfer} (hx : ctx.Sound) (w : World) (mc : Memcpy)
    (as : List Answer) :
    (out.writeEvent w mc ctx as).ctx.Sound ∧
      ((out.writeEvent w mc ctx as).stage = .reactivate ∧ (out.writeEvent w mc ctx as).ctx.empty = false ∨
        (out.writeEvent w mc ctx as).stage = .remove) := by
  refine ⟨Xfer.tryWrite_sound hx w mc as, ?_⟩
  simp only [out.writeEvent]
  split_ifs with hcont
  · exact .inl ⟨rfl, Xfer.tryWrite_cont hcont⟩
  · exact .inr rfl

/-! ## Tokens -/

/-- The write tokens of a descriptor. -/
def tokens (s : State) (fd : ℕ) : ℕ :=
  (if s.interest fd = .armed then 1 else 0) + s.backlog.count fd + s.queue.count fd + s.taken.count fd

/-- Whether a descriptor is counted in `m_watching`. -/
def counted (stage : Stage) (ctx : Xfer) : ℕ :=
  match stage with
  | .idle => if ctx.empty then 0 else 1
  | .addFd | .incr => 0
  | .reactivate | .remove | .clear | .decr => 1

/-- The queue, the registration and the tokens of a descriptor at each stage. -/
def FdInv (ctx : Xfer) (i : Interest) (tokens : ℕ) : Stage → Prop
  | .idle => ctx.empty = true ∧ i = .absent ∧ tokens = 0 ∨ ctx.empty = false ∧ i ≠ .absent ∧ tokens = 1
  | .addFd => ctx.empty = false ∧ i = .absent ∧ tokens = 0
  | .incr => ctx.empty = false ∧ i ≠ .absent ∧ tokens = 1
  | .reactivate => ctx.empty = false ∧ i = .disabled ∧ tokens = 0
  | .remove => i = .disabled ∧ tokens = 0
  | .clear => i = .absent ∧ tokens = 0
  | .decr => ctx.empty = true ∧ i = .absent ∧ tokens = 0

structure WatchInv (n : ℕ) (s : State) : Prop where
  ctxSound : ∀ fd, (s.ctx fd).Sound
  xferSound : ∀ k, (s.xfers k).Sound
  fd : ∀ fd, FdInv (s.ctx fd) (s.interest fd) (tokens s fd) (s.cs fd)
  watching : s.watching = ∑ fd ∈ range n, counted (s.cs fd) (s.ctx fd)

theorem WatchInv.start (world : World) : WatchInv n (.start world) where
  ctxSound _ _ := ⟨rfl, rfl⟩
  xferSound _ _ := ⟨rfl, rfl⟩
  fd _ := .inl ⟨rfl, rfl, rfl⟩
  watching := by simp [State.start, counted, Xfer.empty, Xfer.new]

/-- One descriptor moves on: the others keep their tokens, and `m_watching` follows `counted`. -/
theorem WatchInv.update (h : WatchInv n s) {fd : ℕ} (hfd : fd < n) {ctx : Xfer} {stage : Stage}
    (hctx : s'.ctx = Function.update s.ctx fd ctx) (hcs : s'.cs = Function.update s.cs fd stage)
    (hsound : ctx.Sound) (hxfers : ∀ k, (s'.xfers k).Sound)
    (hother : ∀ fd', fd' ≠ fd → s'.interest fd' = s.interest fd' ∧ tokens s' fd' = tokens s fd')
    (hself : FdInv ctx (s'.interest fd) (tokens s' fd) stage)
    (hwatch : s'.watching + counted (s.cs fd) (s.ctx fd) = s.watching + counted stage ctx) :
    WatchInv n s' := by
  refine ⟨fun fd' => ?_, hxfers, fun fd' => ?_, ?_⟩
  · rw [hctx]
    by_cases he : fd' = fd
    · rw [he, Function.update_self]
      exact hsound
    · rw [Function.update_of_ne he]
      exact h.ctxSound fd'
  · rw [hctx, hcs]
    by_cases he : fd' = fd
    · rw [he, Function.update_self, Function.update_self]
      exact hself
    · rw [Function.update_of_ne he, Function.update_of_ne he, (hother fd' he).1, (hother fd' he).2]
      exact h.fd fd'
  · have hsum := sum_update hfd (fun p : Stage × Xfer => counted p.1 p.2)
      (fun i => (s.cs i, s.ctx i)) (stage, ctx)
    have hpair : ∀ i, Function.update (fun i => (s.cs i, s.ctx i)) fd (stage, ctx) i =
        (s'.cs i, s'.ctx i) := by
      intro i
      rw [hctx, hcs]
      by_cases he : i = fd
      · simp [he]
      · simp [Function.update_of_ne he]
    simp only [hpair] at hsum
    have := h.watching
    have hcast := congrArg (fun k : ℕ => (k : ℤ)) hsum
    simp only [Nat.cast_add] at hcast
    omega

theorem WatchInv.entered (h : WatchInv n s) {e : Entry} (he : enter m mc s act = some e)
    (hfd : e.fd < n) (hidle : s.cs e.fd = .idle) : WatchInv n (s.entered e) := by
  have hcommit (fd : ℕ) (work : Section) (hc : work.Commits (s.ctx fd)) (hfd : fd < n)
      (hidle : s.cs fd = .idle) (pay : List Item) (xfers : ℕ → Xfer) (hxfers : ∀ k, (xfers k).Sound)
      (given : List Finalizer) : WatchInv n (s.entered ⟨fd, work, pay, xfers, s.taken, given⟩) := by
    have hinv := h.fd fd
    rw [hidle] at hinv
    refine h.update hfd rfl rfl hc.sound hxfers (fun _ _ => ⟨rfl, rfl⟩) ?_ ?_
    · rcases hc.stage with ⟨hst, hemp⟩ | ⟨hemp, hst, hne⟩
      · simpa [hst, FdInv, hemp, State.entered, tokens] using hinv
      · rcases hinv with ⟨_, hi, ht⟩ | ⟨hne', _, _⟩
        · simpa [hst, FdInv, hne, State.entered, tokens] using And.intro hi ht
        · rw [hemp] at hne'
          cases hne'
    · rcases hc.stage with ⟨hst, hemp⟩ | ⟨hemp, hst, hne⟩
      · simp [hst, hidle, counted, hemp, State.entered]
      · simp [hst, hidle, counted, hemp, State.entered]
  cases act with
  | write fd buf size as junk =>
    obtain rfl := Option.some.inj he
    exact hcommit fd _ (out.write_commits (h.ctxSound fd) ..) hfd hidle _ _ h.xferSound _
  | submit fd call stack as junk =>
    obtain rfl := Option.some.inj he
    exact hcommit fd _ (out.commitRaw_commits (h.ctxSound fd) ..) hfd hidle _ _ h.xferSound _
  | commit fd k as junk =>
    simp only [enter] at he
    split_ifs at he
    obtain rfl := Option.some.inj he
    obtain ⟨hc, hx⟩ := out.commit_commits (h.ctxSound fd) (h.xferSound k) s.world mc as junk
    refine hcommit fd _ hc hfd hidle _ _ (fun k' => ?_) _
    by_cases hk : k' = k
    · rw [hk, Function.update_self]
      exact hx
    · rw [Function.update_of_ne hk]
      exact h.xferSound k'
  | writeEvent fd as =>
    simp only [enter] at he
    split_ifs at he with htaken
    obtain rfl := Option.some.inj he
    simp only at hidle hfd
    obtain ⟨hsound, hstage⟩ := out.writeEvent_stage (h.ctxSound fd) s.world mc as
    have hinv := h.fd fd
    rw [hidle] at hinv
    have hpos : 0 < s.taken.count fd := List.count_pos_iff.mpr htaken
    -- the event taken is the one token, so the registration is there and disabled
    obtain ⟨hne, hi, hrest⟩ : (s.ctx fd).empty = false ∧ s.interest fd = .disabled ∧
        s.backlog.count fd + s.queue.count fd + (s.taken.count fd - 1) = 0 := by
      rcases hinv with ⟨_, _, ht⟩ | ⟨hne, hi, ht⟩
      · simp only [tokens] at ht
        omega
      · refine ⟨hne, ?_, ?_⟩
        · cases hcase : s.interest fd with
          | absent => exact absurd hcase hi
          | armed =>
            simp only [tokens, hcase, if_true] at ht
            omega
          | disabled => rfl
        · simp only [tokens] at ht
          omega
    refine h.update hfd rfl rfl hsound h.xferSound (fun fd' hne' => ⟨rfl, ?_⟩) ?_ ?_
    · simp only [tokens, State.entered, List.count_erase_of_ne hne']
      rfl
    · have htok : tokens (s.entered ⟨fd, out.writeEvent s.world mc (s.ctx fd) as, [], s.xfers,
          s.taken.erase fd, []⟩) fd = 0 := by
        simp only [tokens, State.entered, hi, List.count_erase_self]
        simpa using hrest
      rw [htok]
      rcases hstage with ⟨hst, hfull⟩ | hst
      · rw [hst]
        exact ⟨hfull, hi, rfl⟩
      · rw [hst]
        exact ⟨hi, rfl⟩
    · rcases hstage with ⟨hst, hfull⟩ | hst <;> simp [hst, hidle, counted, hne, State.entered]
  | _ => cases he

theorem WatchInv.goOn (h : WatchInv n s) {fd : ℕ} (hfd : fd < n) (hs : s.goOn fd = some s') :
    WatchInv n s' := by
  have hinv := h.fd fd
  simp only [State.goOn] at hs
  cases hstage : s.cs fd with
  | idle => simp [hstage] at hs
  | addFd =>
    rw [hstage] at hs hinv
    obtain rfl := Option.some.inj hs
    obtain ⟨hne, hi, ht⟩ := hinv
    refine h.update hfd (Function.update_eq_self fd s.ctx).symm rfl (h.ctxSound fd) h.xferSound
      (fun fd' hne' => ?_) ?_ ?_
    · simp [tokens, Function.update_of_ne hne']
    · refine ⟨hne, by simp [hi], ?_⟩
      simp only [tokens, hi] at ht ⊢
      simp at ht ⊢
      omega
    · simp [hstage, counted]
  | incr =>
    rw [hstage] at hs hinv
    obtain rfl := Option.some.inj hs
    obtain ⟨hne, hi, ht⟩ := hinv
    refine h.update hfd (Function.update_eq_self fd s.ctx).symm rfl (h.ctxSound fd) h.xferSound
      (fun _ _ => ⟨rfl, rfl⟩) (.inr ⟨hne, hi, ht⟩) ?_
    simp [hstage, counted, hne]
  | reactivate =>
    rw [hstage] at hs hinv
    obtain rfl := Option.some.inj hs
    obtain ⟨hne, hi, ht⟩ := hinv
    refine h.update hfd (Function.update_eq_self fd s.ctx).symm rfl (h.ctxSound fd) h.xferSound
      (fun fd' hne' => ?_) (.inr ⟨hne, ?_, ?_⟩) ?_
    · simp [tokens, Function.update_of_ne hne']
    · simp [hi]
    · simp only [tokens, hi] at ht ⊢
      simp at ht ⊢
      omega
    · simp [hstage, counted, hne]
  | remove =>
    rw [hstage] at hs hinv
    obtain rfl := Option.some.inj hs
    obtain ⟨hi, ht⟩ := hinv
    refine h.update hfd (Function.update_eq_self fd s.ctx).symm rfl (h.ctxSound fd) h.xferSound
      (fun fd' hne' => ?_) ⟨by simp, ?_⟩ ?_
    · simp [tokens, Function.update_of_ne hne']
    · simp only [tokens, hi] at ht ⊢
      simpa using ht
    · simp [hstage, counted]
  | clear =>
    rw [hstage] at hs hinv
    obtain rfl := Option.some.inj hs
    obtain ⟨hi, ht⟩ := hinv
    obtain ⟨hsound, hemp⟩ := Xfer.clear_sound (h.ctxSound fd)
    refine h.update hfd rfl rfl hsound h.xferSound (fun _ _ => ⟨rfl, rfl⟩) ⟨hemp, hi, ht⟩ ?_
    simp [hstage, counted]
  | decr =>
    rw [hstage] at hs hinv
    obtain rfl := Option.some.inj hs
    obtain ⟨hemp, hi, ht⟩ := hinv
    refine h.update hfd (Function.update_eq_self fd s.ctx).symm rfl (h.ctxSound fd) h.xferSound
      (fun _ _ => ⟨rfl, rfl⟩) (.inl ⟨hemp, hi, ht⟩) ?_
    simp [hstage, counted, hemp]

/-- No allocation fails in the step. -/
def AllocOk (m : ℕ) (mc : Memcpy) (s : State) (act : Action) : Prop :=
  ∀ e ∈ enter m mc s act, e.work.outcome = .ok

instance (s : State) (act : Action) : Decidable (AllocOk m mc s act) :=
  inferInstanceAs (Decidable (∀ e ∈ enter m mc s act, e.work.outcome = .ok))

theorem WatchInv.step (h : WatchInv n s) (hs : stepOut n m mc s act = some s') : WatchInv n s' := by
  have hmove (s' : State) (hctx : s'.ctx = s.ctx) (hcs : s'.cs = s.cs)
      (hw : s'.watching = s.watching) (hx : ∀ k, (s'.xfers k).Sound)
      (hi : ∀ fd, (s'.interest fd = .absent ↔ s.interest fd = .absent) ∧
        (s.interest fd = .disabled → s'.interest fd = .disabled))
      (ht : ∀ fd, tokens s' fd = tokens s fd) : WatchInv n s' := by
    refine ⟨hctx ▸ h.ctxSound, hx, fun fd => ?_, by rw [hw, hctx, hcs]; exact h.watching⟩
    rw [hctx, hcs, ht]
    have hinv := h.fd fd
    obtain ⟨habs, hdis⟩ := hi fd
    cases hstage : s.cs fd with
    | idle | addFd | incr | clear | decr =>
      rw [hstage] at hinv
      simpa [FdInv, habs] using hinv
    | reactivate =>
      rw [hstage] at hinv
      exact ⟨hinv.1, hdis hinv.2.1, hinv.2.2⟩
    | remove =>
      rw [hstage] at hinv
      exact ⟨hdis hinv.1, hinv.2⟩
  cases stepOut_cases hs with
  | entered he hfd hidle _ => exact h.entered he hfd hidle
  | goOn hfd hs' => exact h.goOn hfd hs'
  | @pollWait fds hb hnd harmed =>
    refine hmove _ rfl rfl rfl h.xferSound (fun fd => ?_) (fun fd => ?_)
    · by_cases hmem : fd ∈ fds
      · simp [hmem, harmed fd hmem]
      · simp [hmem]
    · by_cases hmem : fd ∈ fds
      · simp only [tokens, hmem, if_true, harmed fd hmem, hb, List.count_nil,
          List.count_eq_one_of_mem hnd hmem]
        simp
      · simp [tokens, hmem, hb, List.count_eq_zero_of_not_mem hmem]
  | pollPush =>
    refine hmove _ rfl rfl rfl h.xferSound (fun _ => ⟨Iff.rfl, id⟩) (fun fd => ?_)
    simp only [tokens, List.count_append, List.count_nil]
    omega
  | @next fd queue hq =>
    refine hmove _ rfl rfl rfl h.xferSound (fun _ => ⟨Iff.rfl, id⟩) (fun fd => ?_)
    simp only [tokens, hq, List.count_cons]
    omega
  | @push k r junk _ _ _ =>
    refine hmove _ rfl rfl rfl (fun k' => ?_) (fun _ => ⟨Iff.rfl, id⟩) (fun _ => rfl)
    by_cases hk : k' = k
    · simpa [hk] using Xfer.pushRec_sound (h.xferSound k)
    · simpa [Function.update_of_ne hk] using h.xferSound k'
  | @migrate k l junk _ _ _ _ =>
    obtain ⟨h1, h2, -⟩ := Xfer.migrate_sound (h.xferSound k) (h.xferSound l) junk
    refine hmove _ rfl rfl rfl (fun k' => ?_) (fun _ => ⟨Iff.rfl, id⟩) (fun _ => rfl)
    by_cases hl : k' = l
    · simpa [hl] using h2
    · by_cases hk : k' = k
      · subst hk
        simpa [Function.update_of_ne hl] using h1
      · simpa [Function.update_of_ne hl, Function.update_of_ne hk] using h.xferSound k'
  | @clearXfer k _ =>
    refine hmove _ rfl rfl rfl (fun k' => ?_) (fun _ => ⟨Iff.rfl, id⟩) (fun _ => rfl)
    by_cases hk : k' = k
    · simpa [hk] using (Xfer.clear_sound (h.xferSound k)).1
    · simpa [Function.update_of_ne hk] using h.xferSound k'
  | rewrite _ => exact hmove _ rfl rfl rfl h.xferSound (fun _ => ⟨Iff.rfl, id⟩) (fun _ => rfl)

theorem reachable_watchInv {P : State → Action → Prop} (h : (outSystem n m mc).Reachable P s) :
    WatchInv n s := by
  apply h.invariant
  · rintro s ⟨world, rfl⟩
    exact .start world
  · intro s act s' _ hinv _ hs
    exact hinv.step hs

/-! ## The accounting -/

theorem WatchInv.watching_nonneg (h : WatchInv n s) : 0 ≤ s.watching := by
  rw [h.watching]
  omega

/-- `m_watching` changes at the end of `watch` and at the end of `write_event` only. -/
theorem stepOut_watching (h : stepOut n m mc s act = some s') :
    s'.watching = s.watching ∨ ∃ fd, act = .goOn fd ∧
      (s.cs fd = .incr ∧ s'.watching = s.watching + 1 ∨
        s.cs fd = .decr ∧ s'.watching = s.watching - 1) := by
  obtain hsame | ⟨fd, hact, hgo⟩ := (stepOut_changes h).1
  · exact .inl hsame
  · unfold State.goOn at hgo
    cases hcs : s.cs fd with
    | idle => simp [hcs] at hgo
    | addFd | reactivate | remove | clear =>
      rw [hcs] at hgo
      obtain rfl := Option.some.inj hgo
      exact .inl rfl
    | incr =>
      rw [hcs] at hgo
      obtain rfl := Option.some.inj hgo
      exact .inr ⟨fd, hact, .inl ⟨hcs, rfl⟩⟩
    | decr =>
      rw [hcs] at hgo
      obtain rfl := Option.some.inj hgo
      exact .inr ⟨fd, hact, .inr ⟨hcs, rfl⟩⟩

/-- Outside critical sections `m_watching` is the number of non-empty queues, and a descriptor has one
write token or none as its queue is non-empty or empty. `write_event` finds a non-empty queue,
`m_watching` is not negative, and when it is 0 and no commit is on its way to `watch` all queues are
empty. -/
theorem writeInterest_accounted (h : (outSystem n m mc).Reachable (AllocOk m mc) s) :
    ((∀ fd < n, s.cs fd = .idle) →
      s.watching = (#{fd ∈ range n | (s.ctx fd).empty = false} : ℕ) ∧
      ∀ fd < n, tokens s fd = if (s.ctx fd).empty then 0 else 1) ∧
    (∀ fd ∈ s.taken, s.cs fd = .idle → (s.ctx fd).empty = false) ∧
    0 ≤ s.watching ∧
    (s.watching = 0 → (∀ fd < n, s.cs fd ≠ .addFd ∧ s.cs fd ≠ .incr) →
      ∀ fd < n, (s.ctx fd).empty = true) := by
  have hinv := reachable_watchInv h
  have hwatch := hinv.watching
  refine ⟨fun hidle => ⟨?_, fun fd hfd => ?_⟩, fun fd hmem hidle => ?_, by omega, fun hz hno fd hfd => ?_⟩
  · rw [hwatch, card_filter]
    congr 1
    refine sum_congr rfl fun fd hfd => ?_
    rw [hidle fd (mem_range.mp hfd), counted]
    cases (s.ctx fd).empty <;> rfl
  · have := hinv.fd fd
    rw [hidle fd hfd] at this
    rcases this with ⟨he, _, ht⟩ | ⟨he, _, ht⟩ <;> simp [he, ht]
  · have := hinv.fd fd
    rw [hidle] at this
    have hpos : 0 < s.taken.count fd := List.count_pos_iff.mpr hmem
    rcases this with ⟨_, _, ht⟩ | ⟨he, _, _⟩
    · simp only [tokens] at ht
      omega
    · exact he
  · -- nobody is counted, so nobody is in a stage of `write_event` and every idle queue is empty
    have hsum : ∑ fd ∈ range n, counted (s.cs fd) (s.ctx fd) = 0 := by omega
    have hzero := sum_eq_zero_iff.mp hsum fd (mem_range.mpr hfd)
    obtain ⟨h1, h2⟩ := hno fd hfd
    cases hstage : s.cs fd with
    | idle =>
      simp only [hstage, counted] at hzero
      by_contra hne
      simp [hne] at hzero
    | addFd => exact absurd hstage h1
    | incr => exact absurd hstage h2
    | reactivate | remove | clear | decr => simp [hstage, counted] at hzero

/-- A write that had to wait: queued, registered, reported, and taken by a worker. -/
def blockedWrite : List Action :=
  [.write 0 16 3 [.fails .EAGAIN] (some fun _ => 0), .goOn 0, .goOn 0, .pollWait [0], .pollPush, .next]

theorem writeInterest_accounted_blockedWrite :
    ∃ s, (outSystem 1 0 .ascending).Reachable (AllocOk 0 .ascending) s ∧ 0 ∈ s.taken ∧
      s.watching = 1 ∧ tokens s 0 = 1 ∧ (s.ctx 0).empty = false := by
  obtain ⟨s, hs, hq⟩ := System.exists_reachable_of_exec (S := outSystem 1 0 .ascending)
    (P := AllocOk 0 .ascending) (s := .start ⟨fun _ => 0, fun _ _ => 0⟩) blockedWrite
    (fun s => decide (0 ∈ s.taken ∧ s.cs 0 = .idle)) ⟨_, rfl⟩ (by decide +kernel)
  obtain ⟨htaken, hidle⟩ := of_decide_eq_true hq
  obtain ⟨hacc, hfull, -, -⟩ := writeInterest_accounted hs
  obtain ⟨hwatch, htok⟩ := hacc fun fd hfd => by rwa [Nat.lt_one_iff.mp hfd]
  have hne := hfull 0 htaken hidle
  refine ⟨s, hs, htaken, ?_, by simp [htok 0 (by omega), hne], hne⟩
  rw [hwatch]
  simp [filter_singleton, hne]

end Mpio.Wavy
