import Mpio.Wavy.Service.Coupled

/-!
# `flush`

As long as a caller waits in `flush` something is left to wait for, or a worker owes a broadcast: it has
popped the last task, or `write_event` has returned to it that `m_watching` is 0 (`Awaited`).

When it returns, `m_watching` has been 0. A commit that was over by the time of the call is counted there
while it is queued, so the kernel has accepted it (`flush_sound`). One that is still on its way to `watch`
is not counted; but then the queue was empty when it started, and what was committed before is on the wire
(`Through`).
-/

namespace Mpio.Wavy

open Lib

/-! ## What is on the wire -/

theorem Section.Commits.empty_of {ctx : Xfer} {work : Section} (h : work.Commits ctx)
    (hst : work.stage ≠ .idle) : ctx.empty = true := by
  obtain ⟨hidle, -⟩ | ⟨hemp, -⟩ := h.stage
  · exact absurd hidle hst
  · exact hemp

/-- The thread in the section has pushed something and is yet to count it. -/
def Stage.watching : Stage → Bool
  | .addFd | .incr => true
  | .idle | .reactivate | .remove | .clear | .decr => false

section through

variable {n m fd : ℕ} {mc : Memcpy} {p : List Item} {o o' : State} {act : Action} {e : Entry}

theorem enter_watching (hw : WatchInv n o) (he : enter m mc o act = some e)
    (hst : e.work.stage.watching = true) : (o.ctx e.fd).empty = true := by
  have hidle : e.work.stage ≠ .idle := by
    intro h
    rw [h] at hst
    cases hst
  cases act with
  | write fd buf size as junk =>
    obtain rfl := Option.some.inj he
    exact (out.write_commits (hw.ctxSound fd) ..).empty_of hidle
  | submit fd call stack as junk =>
    obtain rfl := Option.some.inj he
    exact (out.commitRaw_commits (hw.ctxSound fd) ..).empty_of hidle
  | commit fd k as junk =>
    simp only [enter] at he
    split_ifs at he
    obtain rfl := Option.some.inj he
    exact (out.commit_commits (hw.ctxSound fd) (hw.xferSound k) ..).1.empty_of hidle
  | writeEvent fd as =>
    simp only [enter] at he
    split_ifs at he
    obtain rfl := Option.some.inj he
    obtain ⟨-, ⟨hre, -⟩ | hre⟩ := out.writeEvent_stage (hw.ctxSound fd) o.world mc as
    · rw [hre] at hst
      cases hst
    · rw [hre] at hst
      cases hst
  | _ => cases he

/-- `p` has been committed to `fd`, and is on the wire while somebody is yet to count what he has pushed. -/
structure Through (p : List Item) (fd : ℕ) (o : State) : Prop where
  payload : p <+: o.payload fd
  wire : o.broken fd = false → (o.cs fd).watching = true → p <+: o.wire fd

theorem Through.frame (h : Through p fd o) (hp : o'.payload fd = o.payload fd)
    (hwire : o'.wire fd = o.wire fd) (hb : o'.broken fd = o.broken fd)
    (hcs : (o'.cs fd).watching = true → (o.cs fd).watching = true) : Through p fd o' :=
  ⟨by rw [hp]; exact h.payload, by rw [hb, hwire]; exact fun hb hst => h.wire hb (hcs hst)⟩

theorem Through.goOn {fd' : ℕ} (h : Through p fd o) (hs : o.goOn fd' = some o') : Through p fd o' := by
  have hcs {stage : Stage} (hst : fd' = fd → stage.watching = true → (o.cs fd).watching = true)
      (h' : (Function.update o.cs fd' stage fd).watching = true) : (o.cs fd).watching = true := by
    by_cases hfd : fd' = fd
    · rw [← hfd, Function.update_self] at h'
      exact hst hfd h'
    · rwa [Function.update_of_ne (Ne.symm hfd)] at h'
  unfold State.goOn at hs
  cases hstage : o.cs fd' with
  | idle => simp [hstage] at hs
  | addFd =>
    rw [hstage] at hs
    obtain rfl := Option.some.inj hs
    refine h.frame rfl rfl rfl (hcs fun hfd _ => ?_)
    rw [← hfd, hstage]
    rfl
  | incr | reactivate | remove | clear | decr =>
    rw [hstage] at hs
    obtain rfl := Option.some.inj hs
    exact h.frame rfl rfl rfl (hcs fun _ hst => by cases hst)

theorem Through.entered (h : Through p fd o) (hw : WatchInv n o) (hd : DataInv id n o)
    (he : enter m mc o act = some e) (hfd : e.fd < n) : Through p fd (o.entered e) := by
  by_cases hne : fd = e.fd
  · subst hne
    refine ⟨h.payload.trans ?_, fun hb hst => ?_⟩
    · simp [State.entered]
    · -- the queue was empty, so that all of `p` had been accepted
      simp only [State.entered, Function.update_self, Bool.or_eq_false_iff] at hb hst
      have hwire : p <+: o.wire e.fd := by
        rw [hd.wire_eq hfd hb.1 (enter_watching hw he hst)]
        exact h.payload
      refine hwire.trans ?_
      simp [State.entered]
  · exact h.frame (Function.update_of_ne hne _ _) (Function.update_of_ne hne _ _)
      (Function.update_of_ne hne _ _) fun hst => by
        change (Function.update o.cs e.fd e.work.stage fd).watching = true at hst
        rwa [Function.update_of_ne hne] at hst

theorem Through.stepOut (h : Through p fd o) (hr : (outSystem n m mc).Reachable (Serving n m mc) o)
    (hs : stepOut n m mc o act = some o') : Through p fd o' := by
  cases stepOut_cases hs with
  | entered he hfd _ _ => exact h.entered (reachable_watchInv hr) (reachable_dataInv hr) he hfd
  | goOn _ hgo => exact h.goOn hgo
  | _ => exact h.frame rfl rfl rfl id

end through

namespace Service

variable {N n m F : ℕ} {mc : Memcpy} {s s' : State} {act : Action}

/-! ## Whoever waits is woken -/

/-- Worker `t` is about to broadcast `m_flush_cond`. -/
def Owes (s : State) (t : ℕ) : Prop :=
  s.loop.pc t = .task true ∨ s.loop.pc t = .flush ∨ s.duty t = .done true

/-- There is a write event, a task or a broadcast to come. -/
def Expected (N : ℕ) (s : State) : Prop := s.out.watching ≠ 0 ∨ s.loop.tasks ≠ 0 ∨ ∃ t < N, Owes s t

def Awaited (N : ℕ) (s : State) : Prop := ∀ f, s.flusher f = .waiting → Expected N s

theorem Owes.of_own {t : ℕ} (h : Owes s t)
    (hpc : ∀ p : Loop.Pc, p.own = true → s.loop.pc t = p → s'.loop.pc t = p)
    (hd : s.duty t = .done true → s'.duty t = .done true) : Owes s' t := by
  obtain ht | ht | ht := h
  · exact .inl (hpc _ rfl ht)
  · exact .inr (.inl (hpc _ rfl ht))
  · exact .inr (.inr (hd ht))

theorem Expected.loop {a : Loop.Action} {l : Loop.State} (h : Expected N s) (ha : a.aside = true)
    (hl : Loop.step N s.loop a = some l) : Expected N { s with loop := l } := by
  have hs := Loop.step_cases hl
  obtain hwatch | htasks | ⟨t, htN, ht⟩ := h
  · exact .inl hwatch
  · have hle := (hs.queues_aside ha).2
    refine .inr (.inl ?_)
    change l.tasks ≠ 0
    omega
  · exact .inr (.inr ⟨t, htN, ht.of_own (fun p hp hpc => (hs.pc_iff ha hp).mpr hpc) id⟩)

/-- A worker that does not broadcast leaves something to come. -/
theorem Expected.run {t k : ℕ} {wake : Option ℕ} (h : Expected N s)
    (hl : Loop.step N s.loop (.run t wake k) = some s'.loop) (ht : s.loop.pc t ≠ .flush)
    (hwatch : s'.out.watching = s.out.watching) (hd : ∀ u, s.duty u = .done true → s'.duty u = .done true) :
    Expected N s' := by
  obtain ⟨htN, -⟩ := Loop.run_not_outEvent hl
  obtain hne | htasks | ⟨u, huN, hu⟩ := h
  · exact .inl (by rwa [hwatch])
  · by_cases hzero : s'.loop.tasks = 0
    · obtain hsame | hlast := Loop.run_tasks hl
      · omega
      · exact .inr (.inr ⟨t, htN, .inl (hlast hzero)⟩)
    · exact .inr (.inl hzero)
  · refine .inr (.inr ⟨u, huN, ?_⟩)
    by_cases hut : u = t
    · subst hut
      obtain hpc | hpc | hdone := hu
      · exact .inr (.inl (Loop.run_lastTask hl hpc))
      · exact absurd hpc ht
      · exact .inr (.inr (hd u hdone))
    · have hact : (Loop.Action.run t wake k).actor ≠ some u := fun heq => hut (Option.some.inj heq).symm
      exact hu.of_own (fun p hp hpc => ((Loop.step_cases hl).pc_iff_of_ne hact hp).mpr hpc) (hd u)

theorem Expected.goOn {fd : ℕ} {o : Wavy.State} (h : Expected N s) (hc : Coupled N n s) (hw : WatchInv n s.out)
    (hg : GoesOn fd s.out o) :
    Expected N { s with out := o, duty := fun t => (s.duty t).after fd s.out o } := by
  have hnonneg := hw.watching_nonneg
  have hdone (t : ℕ) (ht : s.duty t = .done true) : (s.duty t).after fd s.out o = .done true := by
    simp [Duty.after, ht]
  obtain hne | htasks | ⟨t, htN, ht⟩ := h
  · obtain hsame | hlt | ⟨hdecr, hidle⟩ := hg.watching
    · exact .inl (by rwa [hsame])
    · refine .inl ?_
      change o.watching ≠ 0
      omega
    · by_cases hzero : o.watching = 0
      · -- the worker that has brought it to 0 owes the broadcast
        obtain ⟨t, ht⟩ := (hc.inside fd).mp (by rw [hdecr]; rfl)
        refine .inr (.inr ⟨t, hc.bound t (by simp [ht]), .inr (.inr ?_)⟩)
        change (s.duty t).after fd s.out o = .done true
        simp [Duty.after, ht, hidle, hdecr, hzero]
      · exact .inl hzero
  · exact .inr (.inl htasks)
  · exact .inr (.inr ⟨t, htN, ht.of_own (fun p hp hpc => hpc) (hdone t)⟩)

theorem Expected.writeEvent {t fd : ℕ} {o : Wavy.State} (h : Expected N s) (hd : s.duty t = .taken fd)
    (hwatch : o.watching = s.out.watching) :
    Expected N { s with out := o, duty := Function.update s.duty t (.inside fd) } := by
  obtain hne | htasks | ⟨u, huN, hu⟩ := h
  · exact .inl (by rwa [hwatch])
  · exact .inr (.inl htasks)
  · refine .inr (.inr ⟨u, huN, hu.of_own (fun p hp hpc => hpc) fun hdone => ?_⟩)
    have hut : u ≠ t := by
      rintro rfl
      rw [hd] at hdone
      cases hdone
    exact (Function.update_of_ne hut _ _).trans hdone

theorem Expected.outDone {t : ℕ} {empty : Bool} {l : Loop.State} (h : Expected N s)
    (hd : s.duty t = .done empty) (hl : Loop.step N s.loop (.outDone t empty) = some l) :
    Expected N { s with loop := l, duty := Function.update s.duty t .none } := by
  obtain ⟨hpc, rfl⟩ := Loop.outDone_eq hl
  obtain hne | htasks | ⟨u, huN, hu⟩ := h
  · exact .inl hne
  · exact .inr (.inl htasks)
  · refine .inr (.inr ⟨u, huN, ?_⟩)
    by_cases hut : u = t
    · subst hut
      obtain ht | ht | hdone := hu
      · rw [hpc] at ht
        cases ht
      · rw [hpc] at ht
        cases ht
      · obtain rfl := Duty.done.inj (hd.symm.trans hdone)
        exact .inr (.inl (Loop.pc_setPc_self _ _ _))
    · exact hu.of_own (fun p hp hu => (Loop.pc_setPc_of_ne hut _ _).trans hu)
        fun hdone => (Function.update_of_ne hut _ _).trans hdone

/-- Who starts to wait has seen that something is left. -/
theorem look_waiting {f f' : ℕ} (h : (s.look f).flusher f' = .waiting) :
    s.flusher f' = .waiting ∨ s.out.watching ≠ 0 ∨ s.loop.tasks ≠ 0 := by
  unfold State.look at h
  by_cases hf : f' = f
  · rw [hf] at h
    simp only [Function.update_self] at h
    split_ifs at h with hleft
    exact .inr hleft
  · simp only [Function.update_of_ne hf] at h
    exact .inl h

theorem Awaited.look (h : Awaited N s) (f : ℕ) : Awaited N (s.look f) := by
  intro f' hf'
  obtain hold | hwatch | htasks := look_waiting hf'
  · exact h f' hold
  · exact .inl hwatch
  · exact .inr (.inl htasks)

theorem wakeAll_ne (flusher : ℕ → Flusher) (f : ℕ) : wakeAll flusher f ≠ .waiting := by
  unfold wakeAll
  split_ifs with h
  · simp
  · exact h

theorem Awaited.step (h : Awaited N s) (hr : (serviceSystem N n m F mc).Reachable (Healthy n m mc) s)
    (hs : step N n m F mc s act = some s') : Awaited N s' := by
  have hc := reachable_coupled hr
  have hworkers := Loop.reachable_workers (reachable_loop hr)
  have hwatch := reachable_watchInv (reachable_out hr)
  have hnot {t k : ℕ} {wake : Option ℕ} {l : Loop.State} (hl : Loop.step N s.loop (.run t wake k) = some l)
      (hp : (l.pc t).apart = false) : s.loop.pc t ≠ .flush := by
    intro ht
    rw [Loop.run_flush hworkers hl ht] at hp
    cases hp
  cases step_cases hs with
  | loop ha hr hl => exact fun f hf => (h f hf).loop ha hl
  | poll hl ht ho ho' =>
    obtain ⟨-, rfl⟩ := polled_eq ho ho'
    exact fun f hf => (h f hf).run hl (hnot hl (by rw [ht]; rfl)) rfl fun _ hd => hd
  | @next t wake l o fd queue hl ht hq ho =>
    obtain rfl := next_eq hq ho
    refine fun f hf => (h f hf).run hl (hnot hl (by rw [ht]; rfl)) rfl fun u hd => ?_
    have hut : u ≠ t := by
      rintro rfl
      rw [(hc.run_free hl).2] at hd
      cases hd
    exact (Function.update_of_ne hut _ _).trans hd
  | @run t wake l hl hp =>
    intro f hf
    by_cases ht : s.loop.pc t = .flush
    · simp only [if_pos ht] at hf
      exact absurd hf (wakeAll_ne _ _)
    · simp only [if_neg ht] at hf
      exact (h f hf).run hl ht rfl fun _ hd => hd
  | writeEvent hd ho =>
    exact fun f hf => (h f hf).writeEvent hd (writeEvent_eq hwatch ho).2.2.2.2.2.2.2
  | goOn ho => exact fun f hf => (h f hf).goOn hc hwatch (goesOn hwatch ho).2
  | outDone hd hl => exact fun f hf => (h f hf).outDone hd hl
  | out ha ho =>
    intro f hf
    have hsame := (bystander hwatch ha ho).watching
    obtain hne | hrest := h f hf
    · exact .inl (by rwa [hsame])
    · exact .inr hrest
  | flush hf hwhere | look hf hwhere => exact h.look _
  | @flushWakeup f hf hwhere =>
    intro f' hf'
    by_cases hff : f' = f
    · simp [hff] at hf'
    · simp only [Function.update_of_ne hff] at hf'
      exact h f' hf'

theorem reachable_awaited (h : (serviceSystem N n m F mc).Reachable (Healthy n m mc) s) : Awaited N s := by
  apply h.invariant
  · rintro s ⟨world, rfl⟩ f hf
    cases hf
  · exact fun s act s' hr hi _ hs => hi.step hr hs

/-! ## What has been done when `flush` returns -/

theorem through_step {p : List Item} {fd : ℕ} (h : Through p fd s.out)
    (hr : (serviceSystem N n m F mc).Reachable (Healthy n m mc) s) (hs : step N n m F mc s act = some s') :
    Through p fd s'.out := by
  have ho := reachable_out hr
  cases step_cases hs with
  | poll hl ht hwait hpush =>
    exact (h.stepOut ho hwait).stepOut (reachable_apart ho hwait rfl trivial trivial rfl) hpush
  | next hl ht hq hstep => exact h.stepOut ho hstep
  | writeEvent hd hstep => exact h.stepOut ho hstep
  | goOn hstep => exact h.stepOut ho hstep
  | out ha hstep => exact h.stepOut ho hstep
  | loop | run | outDone | flush | look | flushWakeup => exact h

/-- Who returns has seen `m_watching` and the task queue empty. -/
theorem look_outside {f : ℕ} (h : (s.look f).flusher f = .outside) :
    s.out.watching = 0 ∧ s.loop.tasks = 0 := by
  unfold State.look at h
  simp only [Function.update_self] at h
  split_ifs at h with hleft
  obtain ⟨hwatch, htasks⟩ := not_or.mp hleft
  exact ⟨not_not.mp hwatch, not_not.mp htasks⟩

theorem returns_look {f : ℕ} (hs : step N n m F mc s act = some s') (hact : act = .flush f ∨ act = .look f) :
    s' = s.look f := by
  obtain rfl | rfl := hact
  · cases step_cases hs
    rfl
  · cases step_cases hs
    rfl

theorem wire_of_watching {p : List Item} {fd : ℕ} (h : Through p fd s.out) (hfd : fd < n)
    (hr : (serviceSystem N n m F mc).Reachable (Healthy n m mc) s) (hzero : s.out.watching = 0)
    (hb : s.out.broken fd = false) : p <+: s.out.wire fd := by
  have hw := reachable_watchInv (reachable_out hr)
  have hd := reachable_dataInv (reachable_out hr)
  have hsum : ∑ fd ∈ Finset.range n, counted (s.out.cs fd) (s.out.ctx fd) = 0 := by
    have hwatch := hw.watching
    rw [hzero] at hwatch
    exact_mod_cast hwatch.symm
  have hcounted := Finset.sum_eq_zero_iff.mp hsum fd (Finset.mem_range.mpr hfd)
  by_cases hst : (s.out.cs fd).watching = true
  · exact h.wire hb hst
  · have hemp : (s.out.ctx fd).empty = true := by
      cases hcs : s.out.cs fd with
      | idle => simpa [counted, hcs] using hcounted
      | addFd | incr =>
        rw [hcs] at hst
        exact absurd rfl hst
      | reactivate | remove | clear | decr =>
        rw [hcs] at hcounted
        cases hcounted
    rw [hd.wire_eq hfd hb hemp]
    exact h.payload

/-- When `flush` returns the task queue is empty, and whatever had been committed to a descriptor at any time
before, by calls that were over then, has been accepted by the kernel, in order, unless a fatal answer has
ended the stream: in every run before `end()`, with writes of other threads at any point. -/
theorem flush_sound {s₀ : State} {f : ℕ} (h₀ : (serviceSystem N n m F mc).Reachable (Healthy n m mc) s₀)
    (h : ((serviceSystem N n m F mc).startingAt s₀).Reachable (Healthy n m mc) s)
    (hs : step N n m F mc s act = some s') (hact : act = .flush f ∨ act = .look f)
    (hret : s'.flusher f = .outside) :
    s.loop.tasks = 0 ∧ ∀ fd < n, (s₀.out.cs fd).watching = false → s.out.broken fd = false →
      s₀.out.payload fd <+: s.out.wire fd := by
  obtain rfl := returns_look hs hact
  obtain ⟨hzero, htasks⟩ := look_outside hret
  refine ⟨htasks, fun fd hfd hover hb => ?_⟩
  have hthrough : Through (s₀.out.payload fd) fd s.out ∧
      (serviceSystem N n m F mc).Reachable (Healthy n m mc) s := by
    refine h.invariant (I := fun s => Through (s₀.out.payload fd) fd s.out ∧
      (serviceSystem N n m F mc).Reachable (Healthy n m mc) s) ?_ ?_
    · rintro _ rfl
      refine ⟨⟨List.prefix_rfl, fun _ hst => ?_⟩, h₀⟩
      rw [hover] at hst
      cases hst
    · rintro s act s' - ⟨hthrough, hr⟩ hp hs
      exact ⟨through_step hthrough hr hs, .step hr hp hs⟩
  exact wire_of_watching hthrough.1 hfd hthrough.2 hzero hb

/-- One worker polls and the other waits, a `write` has blocked, and a caller waits in `flush`. -/
def blockedWrite : List Action :=
  [.run 0 none none, .run 1 none none, .out (.write 0 16 3 [.fails .EAGAIN] (some fun _ => 0)), .goOn 0,
    .goOn 0, .flush 0]

/-- The rest of the queue is sent, and the next `write` blocks before the caller has looked again. -/
def sentAndBlocked : List Action :=
  [.loop (.waitReturns 0 [Loop.outIdent]), .run 0 (some 1) (some [0]), .run 0 none none, .run 0 none none,
    .run 1 none none, .writeEvent 1 [.count 3], .goOn 0, .goOn 0, .goOn 0, .outDone 1, .run 1 none none,
    .out (.write 0 32 2 [.fails .EAGAIN] (some fun _ => 0))]

theorem flush_sound_blockedWrite : ∃ s₀ s s',
    (serviceSystem 2 1 0 1 .descending).Reachable (Healthy 1 0 .descending) s₀ ∧ s₀.flusher 0 = .waiting ∧
    ((serviceSystem 2 1 0 1 .descending).startingAt s₀).Reachable (Healthy 1 0 .descending) s ∧
    step 2 1 0 1 .descending s (.look 0) = some s' ∧ s'.flusher 0 = .outside ∧
    bytesOf (s₀.out.payload 0) = [16, 17, 18] ∧ queued s.out 0 = [32, 33] ∧
    s₀.out.payload 0 <+: s.out.wire 0 := by
  obtain ⟨s₀, h₀, hq⟩ := System.exists_reachable_of_exec (S := serviceSystem 2 1 0 1 .descending)
    (P := Checked 1 0 .descending) (s := .init addressWorld) blockedWrite
    (fun s₀ : State => decide (s₀.flusher 0 = .waiting ∧ bytesOf (s₀.out.payload 0) = [16, 17, 18] ∧
        (s₀.out.cs 0).watching = false) &&
      (((serviceSystem 2 1 0 1 .descending).startingAt s₀).exec (Checked 1 0 .descending) s₀
        sentAndBlocked).any (fun s : State => decide (queued s.out 0 = [32, 33] ∧ s.out.broken 0 = false) &&
          (step 2 1 0 1 .descending s (.look 0)).any (fun s' : State => decide (s'.flusher 0 = .outside))))
    ⟨_, rfl⟩
    (by decide +kernel)
  obtain ⟨hwhere, hrun⟩ := Bool.and_eq_true_iff.mp hq
  obtain ⟨hwaiting, hpayload, hover⟩ := of_decide_eq_true hwhere
  obtain ⟨s, hexec, hs⟩ := (Option.any_eq_true ..).mp hrun
  obtain ⟨hleft, hlook⟩ := Bool.and_eq_true_iff.mp hs
  obtain ⟨hqueued, hb⟩ := of_decide_eq_true hleft
  obtain ⟨s', hstep, hret⟩ := (Option.any_eq_true ..).mp hlook
  have hret := of_decide_eq_true hret
  have h₀' := h₀.mono (Q := Healthy 1 0 .descending) fun _ _ _ h => h.healthy
  have h := (System.Reachable.of_exec (.init rfl) hexec).mono (Q := Healthy 1 0 .descending)
    fun _ _ _ h => h.healthy
  have hsound := flush_sound h₀' h hstep (.inr rfl) hret
  exact ⟨s₀, s, s', h₀', hwaiting, h, hstep, hret, hpayload, hqueued, hsound.2 0 one_pos hover hb⟩

end Service

end Mpio.Wavy
