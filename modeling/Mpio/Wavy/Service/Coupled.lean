import Mpio.Wavy.Service.Model

/-!
# The workers and `m_queue`

`Coupled` is what ties the loop to `out`. The loop counts the events in `m_queue` right, so `next` is never
called on an empty queue. Each event that has been taken is with one worker, and so is each section of
`write_event`; no two workers are at the same descriptor. And when the descriptor of `out` is not armed,
a worker is about to arm it or there is something to find for `poll_event`.
-/

namespace Mpio.Wavy

open Lib

/-- The section is one of `write_event`. -/
def Stage.ofEvent : Stage → Bool
  | .reactivate | .remove | .clear | .decr => true
  | .idle | .addFd | .incr => false

theorem Section.Commits.ofEvent {ctx : Xfer} {work : Section} (h : work.Commits ctx) :
    work.stage.ofEvent = false := by
  obtain ⟨hst, -⟩ | ⟨-, hst, -⟩ := h.stage <;> rw [hst] <;> rfl

namespace Service

variable {N n m F : ℕ} {mc : Memcpy} {s s' : State} {act : Action}

/-! ## The steps of `out` -/

/-- `poll_event` moves what it finds to `m_queue`. -/
theorem polled_eq {o o₁ o' : Wavy.State} {fds : List ℕ} (ho : stepOut n m mc o (.pollWait fds) = some o₁)
    (ho' : stepOut n m mc o₁ .pollPush = some o') :
    o.backlog = [] ∧ o' = { o with
      queue := o.queue ++ fds
      interest := fun fd => if fd ∈ fds then .disabled else o.interest fd } := by
  have hs : o.pollWait fds = some o₁ := ho
  simp only [State.pollWait] at hs
  split_ifs at hs with hc
  obtain rfl := Option.some.inj hs
  obtain rfl := Option.some.inj ho'
  obtain ⟨hnil, -, -⟩ := hc
  exact ⟨hnil, by rw [← hnil]⟩

theorem next_eq {o o' : Wavy.State} {fd : ℕ} {queue : List ℕ} (hq : o.queue = fd :: queue)
    (ho : stepOut n m mc o .next = some o') :
    o' = { o with queue := queue, taken := fd :: o.taken } := by
  simp only [stepOut, enter, hq] at ho
  exact (Option.some.inj ho).symm

/-- What a step of a caller leaves alone. -/
structure Bystander (o o' : Wavy.State) : Prop where
  queue : o'.queue = o.queue
  backlog : o'.backlog = o.backlog
  taken : o'.taken = o.taken
  interest : o'.interest = o.interest
  watching : o'.watching = o.watching
  ofEvent : ∀ fd, (o'.cs fd).ofEvent = (o.cs fd).ofEvent

theorem bystander_enter {o : Wavy.State} {e : Entry} (hidle : o.cs e.fd = .idle)
    (hstage : e.work.stage.ofEvent = false) (htaken : e.taken = o.taken) : Bystander o (o.entered e) := by
  refine ⟨rfl, rfl, htaken, rfl, rfl, fun fd => ?_⟩
  change (Function.update o.cs e.fd e.work.stage fd).ofEvent = _
  by_cases hfd : fd = e.fd
  · rw [hfd, Function.update_self, hstage, hidle]
    rfl
  · rw [Function.update_of_ne hfd]

theorem bystander {o o' : Wavy.State} {act : Wavy.Action} (hw : WatchInv n o) (ha : act.ofCaller = true)
    (hs : stepOut n m mc o act = some o') : Bystander o o' := by
  have hrefl {xfers : ℕ → Xfer} {handed invoked : List Finalizer} {world : World} :
      Bystander o { o with xfers := xfers, handed := handed, invoked := invoked, world := world } :=
    ⟨rfl, rfl, rfl, rfl, rfl, fun _ => rfl⟩
  cases act with
  | write fd buf size as junk =>
    obtain ⟨rfl, hidle⟩ := stepOut_enter rfl hs
    exact bystander_enter hidle (out.write_commits (hw.ctxSound fd) _ _ _ _ _).ofEvent rfl
  | submit fd call stack as junk =>
    obtain ⟨rfl, hidle⟩ := stepOut_enter rfl hs
    exact bystander_enter hidle (out.commitRaw_commits (hw.ctxSound fd) _ _ _ _ _).ofEvent rfl
  | commit fd k as junk =>
    rcases he : enter m mc o (.commit fd k as junk) with _ | e
    · simp [stepOut, he] at hs
    · obtain ⟨rfl, hidle⟩ := stepOut_enter he hs
      simp only [enter] at he
      split_ifs at he
      obtain rfl := Option.some.inj he
      exact bystander_enter hidle
        (out.commit_commits (hw.ctxSound fd) (hw.xferSound k) _ _ _ _).1.ofEvent rfl
  | push k r junk =>
    simp only [stepOut, enter] at hs
    split_ifs at hs
    obtain rfl := Option.some.inj hs
    exact hrefl
  | migrate k l junk =>
    simp only [stepOut, enter] at hs
    split_ifs at hs
    obtain rfl := Option.some.inj hs
    exact hrefl
  | clearXfer k =>
    simp only [stepOut, enter] at hs
    split_ifs at hs
    obtain rfl := Option.some.inj hs
    exact hrefl
  | rewrite world =>
    obtain rfl := Option.some.inj hs
    exact hrefl
  | _ => cases ha

/-- `write_event` takes its event and leaves the registration to the rest of its section. -/
theorem writeEvent_eq {o o' : Wavy.State} {fd : ℕ} {as : List Answer} (hw : WatchInv n o)
    (hs : stepOut n m mc o (.writeEvent fd as) = some o') :
    o.cs fd = .idle ∧ (o'.cs fd).ofEvent = true ∧ (∀ fd', fd' ≠ fd → o'.cs fd' = o.cs fd') ∧
      o'.queue = o.queue ∧ o'.backlog = o.backlog ∧ o'.taken = o.taken.erase fd ∧
      o'.interest = o.interest ∧ o'.watching = o.watching := by
  rcases he : enter m mc o (.writeEvent fd as) with _ | e
  · simp [stepOut, he] at hs
  · obtain ⟨rfl, hidle⟩ := stepOut_enter he hs
    simp only [enter] at he
    split_ifs at he with htaken
    obtain rfl := Option.some.inj he
    refine ⟨hidle, ?_, fun fd' hne => Function.update_of_ne hne _ _, rfl, rfl, rfl, rfl, rfl⟩
    change (Function.update o.cs fd (out.writeEvent o.world mc (o.ctx fd) as).stage fd).ofEvent = true
    rw [Function.update_self]
    obtain ⟨-, ⟨hst, -⟩ | hst⟩ := out.writeEvent_stage (hw.ctxSound fd) o.world mc as <;> rw [hst] <;> rfl

/-- What the next step of a section does. -/
structure GoesOn (fd : ℕ) (o o' : Wavy.State) : Prop where
  busy : o.cs fd ≠ .idle
  other : ∀ fd', fd' ≠ fd → o'.cs fd' = o.cs fd'
  ofEvent : o'.cs fd ≠ .idle → (o'.cs fd).ofEvent = (o.cs fd).ofEvent
  queue : o'.queue = o.queue
  backlog : o'.backlog = o.backlog
  taken : o'.taken = o.taken
  armed : ∀ fd', o.interest fd' = .armed → o'.interest fd' = .armed
  watching : o'.watching = o.watching ∨ o.watching < o'.watching ∨ o.cs fd = .decr ∧ o'.cs fd = .idle

theorem goesOn {o o' : Wavy.State} {fd : ℕ} (hw : WatchInv n o)
    (hs : stepOut n m mc o (.goOn fd) = some o') : fd < n ∧ GoesOn fd o o' := by
  simp only [stepOut, enter] at hs
  split_ifs at hs with hfd
  refine ⟨hfd, ?_⟩
  have hinv := hw.fd fd
  have harmed {i : Interest} (hi : o.interest fd = .armed → i = .armed) (fd' : ℕ)
      (h : o.interest fd' = .armed) : Function.update o.interest fd i fd' = .armed := by
    by_cases he : fd' = fd
    · rw [he] at h ⊢
      rw [Function.update_self, hi h]
    · rwa [Function.update_of_ne he]
  have hother {stage : Stage} (fd' : ℕ) (he : fd' ≠ fd) : Function.update o.cs fd stage fd' = o.cs fd' :=
    Function.update_of_ne he _ _
  unfold State.goOn at hs
  cases hstage : o.cs fd with
  | idle => simp [hstage] at hs
  | addFd =>
    rw [hstage] at hs hinv
    obtain rfl := Option.some.inj hs
    refine ⟨by simp [hstage], hother, fun _ => ?_, rfl, rfl, rfl, harmed fun hi => ?_, .inl rfl⟩
    · simp [hstage, Stage.ofEvent]
    · rw [if_neg (by simp [hi]), hi]
  | incr =>
    rw [hstage] at hs
    obtain rfl := Option.some.inj hs
    refine ⟨by simp [hstage], hother, fun hne => absurd (Function.update_self _ _ _) hne, rfl, rfl, rfl,
      fun _ h => h, .inr (.inl ?_)⟩
    exact Int.lt_succ _
  | reactivate =>
    rw [hstage] at hs
    obtain rfl := Option.some.inj hs
    refine ⟨by simp [hstage], hother, fun hne => absurd (Function.update_self _ _ _) hne, rfl, rfl, rfl,
      harmed fun hi => ?_, .inl rfl⟩
    rw [if_neg (by simp [hi])]
  | remove =>
    rw [hstage] at hs hinv
    obtain rfl := Option.some.inj hs
    refine ⟨by simp [hstage], hother, fun _ => ?_, rfl, rfl, rfl, harmed fun hi => ?_, .inl rfl⟩
    · simp [hstage, Stage.ofEvent]
    · have hdisabled := hinv.1
      rw [hi] at hdisabled
      cases hdisabled
  | clear =>
    rw [hstage] at hs
    obtain rfl := Option.some.inj hs
    refine ⟨by simp [hstage], hother, fun _ => ?_, rfl, rfl, rfl, fun _ h => h, .inl rfl⟩
    simp [hstage, Stage.ofEvent]
  | decr =>
    rw [hstage] at hs
    obtain rfl := Option.some.inj hs
    exact ⟨by simp [hstage], hother, fun hne => absurd (Function.update_self _ _ _) hne, rfl, rfl, rfl,
      fun _ h => h, .inr (.inr ⟨hstage, Function.update_self _ _ _⟩)⟩

/-! ## Runs of the parts -/

/-- What a run may do: `end()` is not called, and the sections of `out` are as in `Serving`. -/
def Healthy (n m : ℕ) (mc : Memcpy) (s : State) : Action → Prop
  | .loop a => a.ends = false
  | .writeEvent t as => ∀ fd, s.duty t = .taken fd → Serving n m mc s.out (.writeEvent fd as)
  | .out act => Serving n m mc s.out act
  | .run .. | .goOn _ | .outDone _ | .flush _ | .look _ | .flushWakeup _ => True

/-- A step of `out` outside the sections, or within one, that may find nothing. -/
theorem reachable_apart {o o' : Wavy.State} {act : Wavy.Action}
    (h : (outSystem n m mc).Reachable (Serving n m mc) o) (hs : stepOut n m mc o act = some o')
    (he : enter m mc o act = none) (hsmall : act.Small) (hu : Unchanged id n o act)
    (hint : overlaps o act = false) : (outSystem n m mc).Reachable (Serving n m mc) o' := by
  by_cases hf : Finds o act
  · exact .step h (serving_of_apart he hsmall hu hint hf) hs
  · obtain rfl := stepOut_of_not_finds hf hs
    exact h

theorem reachable_running {l l' : Loop.State} {a : Loop.Action}
    (h : (Loop.loopSystem N fun _ => .main).Reachable Loop.running l) (hl : Loop.step N l a = some l')
    (ha : a.ends = false) : (Loop.loopSystem N fun _ => .main).Reachable Loop.running l' := .step h ha hl

theorem reachable_loop (h : (serviceSystem N n m F mc).Reachable (Healthy n m mc) s) :
    (Loop.loopSystem N fun _ => .main).Reachable Loop.running s.loop := by
  induction h with
  | init h0 =>
    obtain ⟨world, rfl⟩ := h0
    exact .init rfl
  | step hr hp hs ih =>
    cases step_cases hs with
    | loop ha hr hl => exact reachable_running ih hl hp
    | poll hl | next hl | run hl | outDone hd hl => exact reachable_running ih hl rfl
    | _ => exact ih

theorem reachable_out (h : (serviceSystem N n m F mc).Reachable (Healthy n m mc) s) :
    (outSystem n m mc).Reachable (Serving n m mc) s.out := by
  induction h with
  | init h0 =>
    obtain ⟨world, rfl⟩ := h0
    exact .init ⟨world, rfl⟩
  | step hr hp hs ih =>
    cases step_cases hs with
    | poll hl ht ho ho' =>
      exact reachable_apart (reachable_apart ih ho rfl trivial trivial rfl) ho' rfl trivial trivial rfl
    | next hl ht hq ho => exact reachable_apart ih ho rfl trivial trivial rfl
    | goOn ho => exact reachable_apart ih ho rfl trivial trivial rfl
    | writeEvent hd ho => exact .step ih (hp _ hd) ho
    | out ha ho => exact .step ih hp ho
    | loop | run | outDone | flush | look | flushWakeup => exact ih

/-! ## Who has which event -/

/-- The descriptor a worker in `do_out` is at. -/
def Duty.at : Duty → Option ℕ
  | .taken fd | .inside fd => some fd
  | .none | .done _ => Option.none

/-- A condition that can be evaluated: besides, no step compacts a vector onto itself. -/
def Checked (n m : ℕ) (mc : Memcpy) (s : State) : Action → Prop
  | .loop a => a.ends = false
  | .writeEvent t as => ∀ fd ∈ (s.duty t).at,
    Regular m mc s.out (.writeEvent fd as) ∧ overlaps s.out (.writeEvent fd as) = false
  | .out act => Regular m mc s.out act ∧ Unchanged id n s.out act ∧ overlaps s.out act = false ∧ Finds s.out act
  | .run .. | .goOn _ | .outDone _ | .flush _ | .look _ | .flushWakeup _ => True

instance (n m : ℕ) (mc : Memcpy) (s : State) (act : Action) : Decidable (Checked n m mc s act) :=
  match act with
  | .loop a => inferInstanceAs (Decidable (a.ends = false))
  | .writeEvent t as => inferInstanceAs (Decidable (∀ fd ∈ (s.duty t).at,
      Regular m mc s.out (.writeEvent fd as) ∧ overlaps s.out (.writeEvent fd as) = false))
  | .out act => inferInstanceAs (Decidable
      (Regular m mc s.out act ∧ Unchanged id n s.out act ∧ overlaps s.out act = false ∧ Finds s.out act))
  | .run .. | .goOn _ | .outDone _ | .flush _ | .look _ | .flushWakeup _ => inferInstanceAs (Decidable True)

theorem Checked.healthy (h : Checked n m mc s act) : Healthy n m mc s act := by
  cases act with
  | loop a => exact h
  | writeEvent t as =>
    intro fd hd
    obtain ⟨hregular, hover⟩ := h fd (by rw [hd]; rfl)
    exact ⟨hregular, trivial, .inr hover, trivial⟩
  | out act => exact ⟨h.1, h.2.1, .inr h.2.2.1, h.2.2.2⟩
  | run | goOn | outDone | flush | look | flushWakeup => trivial

structure Coupled (N n : ℕ) (s : State) : Prop where
  queue : s.loop.outQueue = s.out.queue.length
  backlog : s.out.backlog = []
  duty : ∀ t, s.loop.pc t = .outEvent ↔ s.duty t ≠ .none
  bound : ∀ t, s.duty t ≠ .none → t < N
  taken : ∀ fd, fd ∈ s.out.taken ↔ ∃ t, s.duty t = .taken fd
  inside : ∀ fd, (s.out.cs fd).ofEvent = true ↔ ∃ t, s.duty t = .inside fd
  alone : ∀ t u fd, (s.duty t).at = some fd → (s.duty u).at = some fd → t = u
  ready : s.loop.armed Loop.outIdent = 1 ∨ (∃ t < N, ∃ ke, s.loop.pc t = .rearmOut ke) ∨ Ready n s.out

section after

variable {fd : ℕ} {o o' : Wavy.State} {d : Duty}

theorem after_none (d : Duty) : d.after fd o o' = .none ↔ d = .none := by
  unfold Duty.after
  split_ifs with h
  · simp [h.1]
  · rfl

theorem after_taken (d : Duty) (x : ℕ) : d.after fd o o' = .taken x ↔ d = .taken x := by
  unfold Duty.after
  split_ifs with h
  · simp [h.1]
  · rfl

theorem after_inside (d : Duty) (x : ℕ) :
    d.after fd o o' = .inside x ↔ d = .inside x ∧ ¬ (x = fd ∧ o'.cs fd = .idle) := by
  unfold Duty.after
  split_ifs with h
  · obtain ⟨rfl, hidle⟩ := h
    simp [hidle, eq_comm]
  · refine ⟨fun hd => ⟨hd, fun ⟨hx, hidle⟩ => h ⟨hx ▸ hd, hidle⟩⟩, And.left⟩

theorem after_at {x : ℕ} (h : (d.after fd o o').at = some x) : d.at = some x := by
  unfold Duty.after at h
  split_ifs at h
  · cases h
  · exact h

end after

theorem exists_update {duty : ℕ → Duty} {t : ℕ} {d e : Duty} (hne : duty t ≠ e) :
    (∃ u, Function.update duty t d u = e) ↔ d = e ∨ ∃ u, duty u = e := by
  constructor
  · rintro ⟨u, hu⟩
    by_cases hut : u = t
    · rw [hut, Function.update_self] at hu
      exact .inl hu
    · rw [Function.update_of_ne hut] at hu
      exact .inr ⟨u, hu⟩
  · rintro (hd | ⟨u, hu⟩)
    · exact ⟨t, by rw [Function.update_self, hd]⟩
    · refine ⟨u, ?_⟩
      have hut : u ≠ t := by
        rintro rfl
        exact hne hu
      rw [Function.update_of_ne hut, hu]

theorem alone_update {duty : ℕ → Duty} {t : ℕ} {d : Duty}
    (h : ∀ t u fd, (duty t).at = some fd → (duty u).at = some fd → t = u)
    (hd : ∀ fd, d.at = some fd → ∀ u, u ≠ t → (duty u).at ≠ some fd) (u v fd : ℕ)
    (hu : (Function.update duty t d u).at = some fd) (hv : (Function.update duty t d v).at = some fd) :
    u = v := by
  by_cases hut : u = t
  · rw [hut] at hu ⊢
    rw [Function.update_self] at hu
    by_contra hne
    rw [Function.update_of_ne (Ne.symm hne)] at hv
    exact hd fd hu v (Ne.symm hne) hv
  · rw [Function.update_of_ne hut] at hu
    by_cases hvt : v = t
    · rw [hvt, Function.update_self] at hv
      exact absurd hu (hd fd hv u hut)
    · rw [Function.update_of_ne hvt] at hv
      exact h u v fd hu hv

theorem Coupled.init (N n : ℕ) (world : World) : Coupled N n (.init world) where
  queue := rfl
  backlog := rfl
  duty t := ⟨nofun, fun h => absurd rfl h⟩
  bound t h := absurd rfl h
  taken fd := ⟨nofun, nofun⟩
  inside fd := ⟨nofun, nofun⟩
  alone t u fd h := by cases h
  ready := .inl rfl

theorem Ready.mono {o o' : Wavy.State} (h : Ready n o)
    (hi : ∀ fd, o.interest fd = .armed → o'.interest fd = .armed) : Ready n o' := by
  obtain ⟨fd, hfd, harmed⟩ := h
  exact ⟨fd, hfd, hi fd harmed⟩

theorem Coupled.loop {a : Loop.Action} {l : Loop.State} (h : Coupled N n s) (hi : Loop.OutToken N s.loop)
    (ho : Loop.Owned N s.loop) (ha : a.aside = true) (hr : a.reportsOut = true → Ready n s.out)
    (hl : Loop.step N s.loop a = some l) : Coupled N n { s with loop := l } := by
  have hs := Loop.step_cases hl
  refine ⟨(hs.queues_aside ha).1.trans h.queue, h.backlog, fun t => (hs.pc_iff ha rfl).trans (h.duty t),
    h.bound, h.taken, h.inside, h.alone, ?_⟩
  by_cases hre : a.reportsOut = true
  · exact .inr (.inr (hr hre))
  · obtain harmed | ⟨t, htN, ke, ht⟩ | hready := h.ready
    · exact .inl ((hs.armed_aside ha (by simpa using hre) hi ho).trans harmed)
    · exact .inr (.inl ⟨t, htN, ke, (hs.pc_iff ha rfl).mpr ht⟩)
    · exact .inr (.inr hready)

/-- A worker that runs has no duty. -/
theorem Coupled.run_free {t k : ℕ} {wake : Option ℕ} {l : Loop.State} (h : Coupled N n s)
    (hl : Loop.step N s.loop (.run t wake k) = some l) : t < N ∧ s.duty t = .none := by
  obtain ⟨htN, hpc⟩ := Loop.run_not_outEvent hl
  refine ⟨htN, ?_⟩
  by_contra hd
  exact hpc ((h.duty t).mpr hd)

theorem Coupled.run_duty {t k : ℕ} {wake : Option ℕ} {l : Loop.State} (h : Coupled N n s)
    (hl : Loop.step N s.loop (.run t wake k) = some l) (hpc : l.pc t ≠ .outEvent) (u : ℕ) :
    l.pc u = .outEvent ↔ s.duty u ≠ .none := by
  by_cases hu : u = t
  · rw [hu]
    exact ⟨fun ht => absurd ht hpc, fun hd => absurd (h.run_free hl).2 hd⟩
  · have hact : (Loop.Action.run t wake k).actor ≠ some u := fun heq => hu (Option.some.inj heq).symm
    exact ((Loop.step_cases hl).pc_iff_of_ne hact rfl).trans (h.duty u)

theorem Coupled.run_ready {t k : ℕ} {wake : Option ℕ} {l : Loop.State} (h : Coupled N n s)
    (hi : Loop.OutToken N s.loop) (hl : Loop.step N s.loop (.run t wake k) = some l) :
    l.armed Loop.outIdent = 1 ∨ (∃ u < N, ∃ ke, l.pc u = .rearmOut ke) ∨ Ready n s.out := by
  obtain harmed | hre | hready := h.ready
  · exact or_assoc.mp (.inl (Loop.run_rearming hi hl (.inl harmed)))
  · exact or_assoc.mp (.inl (Loop.run_rearming hi hl (.inr hre)))
  · exact .inr (.inr hready)

theorem Coupled.poll {t : ℕ} {wake : Option ℕ} {fds : List ℕ} {l : Loop.State} {o o' : Wavy.State}
    {ke : Loop.Event} (h : Coupled N n s) (hw : Loop.Workers s.loop)
    (hl : Loop.step N s.loop (.run t wake fds.length) = some l) (ht : l.pc t = .rearmOut ke)
    (ho : stepOut n m mc s.out (.pollWait fds) = some o) (ho' : stepOut n m mc o .pollPush = some o') :
    Coupled N n { s with loop := l, out := o' } := by
  obtain ⟨htN, -⟩ := h.run_free hl
  obtain ⟨hnil, rfl⟩ := polled_eq ho ho'
  have hfetched := Loop.runThread_fetched hw (Loop.run_eq hl)
  simp only [Loop.Fetched, ht] at hfetched
  refine ⟨?_, hnil, h.run_duty hl (by simp [ht]), h.bound, h.taken, h.inside, h.alone,
    .inr (.inl ⟨t, htN, ke, ht⟩)⟩
  change l.outQueue = (s.out.queue ++ fds).length
  rw [hfetched, h.queue, List.length_append]

theorem Coupled.not_at {fd u : ℕ} (h : Coupled N n s) (hw : WatchInv n s.out) (hq : fd ∈ s.out.queue) :
    (s.duty u).at ≠ some fd := by
  intro hu
  have hpos := List.count_pos_iff.mpr hq
  obtain ⟨hone, -, hstage⟩ := hw.of_token (tokens_pos_of_queue hq)
  cases hd : s.duty u with
  | none | done =>
    rw [hd] at hu
    cases hu
  | taken fd' =>
    rw [hd] at hu
    obtain rfl := Option.some.inj hu
    have htaken := List.count_pos_iff.mpr ((h.taken fd').mpr ⟨u, hd⟩)
    unfold tokens at hone
    omega
  | inside fd' =>
    rw [hd] at hu
    obtain rfl := Option.some.inj hu
    have hof := (h.inside fd').mpr ⟨u, hd⟩
    obtain hst | hst := hstage <;> rw [hst] at hof <;> cases hof

theorem Coupled.next {t : ℕ} {wake : Option ℕ} {l : Loop.State} {o : Wavy.State} {fd : ℕ} {queue : List ℕ}
    (h : Coupled N n s) (hw : Loop.Workers s.loop) (hi : Loop.OutToken N s.loop) (hwatch : WatchInv n s.out)
    (hl : Loop.step N s.loop (.run t wake 0) = some l) (ht : l.pc t = .outEvent)
    (hq : s.out.queue = fd :: queue) (ho : stepOut n m mc s.out .next = some o) :
    Coupled N n { s with loop := l, out := o, duty := Function.update s.duty t (.taken fd) } := by
  obtain ⟨htN, hfree⟩ := h.run_free hl
  obtain rfl := next_eq hq ho
  have hfetched := Loop.runThread_fetched hw (Loop.run_eq hl)
  simp only [Loop.Fetched, ht, h.queue, hq, List.length_cons] at hfetched
  have hmem : fd ∈ s.out.queue := by
    rw [hq]
    exact List.mem_cons_self
  refine ⟨by simpa using hfetched.symm, h.backlog, fun u => ?_, fun u hu => ?_, fun x => ?_, fun x => ?_,
    fun u v x hu hv => ?_, h.run_ready hi hl⟩
  · change l.pc u = .outEvent ↔ Function.update s.duty t (.taken fd) u ≠ .none
    by_cases hut : u = t
    · rw [hut, Function.update_self]
      simp [ht]
    · rw [Function.update_of_ne hut]
      have hact : (Loop.Action.run t wake 0).actor ≠ some u := fun heq => hut (Option.some.inj heq).symm
      exact ((Loop.step_cases hl).pc_iff_of_ne hact rfl).trans (h.duty u)
  · by_cases hut : u = t
    · rw [hut]
      exact htN
    · change Function.update s.duty t (.taken fd) u ≠ .none at hu
      rw [Function.update_of_ne hut] at hu
      exact h.bound u hu
  · have hne : s.duty t ≠ .taken x := by simp [hfree]
    rw [exists_update hne, ← h.taken x]
    simp [eq_comm]
  · have hne : s.duty t ≠ .inside x := by simp [hfree]
    rw [exists_update hne, ← h.inside x]
    simp
  · refine alone_update h.alone (fun x hx v _ => ?_) u v x hu hv
    obtain rfl := Option.some.inj hx
    exact h.not_at hwatch hmem

theorem Coupled.run {t : ℕ} {wake : Option ℕ} {l : Loop.State} (h : Coupled N n s) (hw : Loop.Workers s.loop)
    (hi : Loop.OutToken N s.loop) (hl : Loop.step N s.loop (.run t wake 0) = some l)
    (hp : (l.pc t).apart = true) (flusher : ℕ → Flusher) :
    Coupled N n { s with loop := l, flusher := flusher } := by
  have hout : l.pc t ≠ .outEvent := by
    intro ht
    rw [ht] at hp
    cases hp
  exact ⟨((Loop.runThread_fetched hw (Loop.run_eq hl)).eq_of_apart hp).trans h.queue, h.backlog,
    h.run_duty hl hout, h.bound, h.taken, h.inside, h.alone, h.run_ready hi hl⟩

theorem Coupled.writeEvent {t fd : ℕ} {as : List Answer} {o : Wavy.State} (h : Coupled N n s)
    (hwatch : WatchInv n s.out) (hd : s.duty t = .taken fd)
    (ho : stepOut n m mc s.out (.writeEvent fd as) = some o) :
    Coupled N n { s with out := o, duty := Function.update s.duty t (.inside fd) } := by
  obtain ⟨hidle, hof, hother, hqueue, hbacklog, htaken, hinterest, -⟩ := writeEvent_eq hwatch ho
  have hat : (s.duty t).at = some fd := by
    rw [hd]
    rfl
  refine ⟨by rw [hqueue]; exact h.queue, by rw [hbacklog]; exact h.backlog, fun u => ?_, fun u hu => ?_,
    fun x => ?_, fun x => ?_, fun u v x hu hv => ?_, ?_⟩
  · rw [h.duty u]
    change _ ↔ Function.update s.duty t (.inside fd) u ≠ .none
    by_cases hut : u = t
    · rw [hut, Function.update_self, hd]
      simp
    · rw [Function.update_of_ne hut]
  · by_cases hut : u = t
    · rw [hut]
      refine h.bound t ?_
      rw [hd]
      nofun
    · change Function.update s.duty t (.inside fd) u ≠ .none at hu
      rw [Function.update_of_ne hut] at hu
      exact h.bound u hu
  · -- the event is with `t` alone, and there is one
    have hcount : s.out.taken.count fd ≤ 1 := by
      have hone := (hwatch.of_token (tokens_pos_of_taken ((h.taken fd).mpr ⟨t, hd⟩))).1
      unfold tokens at hone
      omega
    rw [htaken]
    by_cases hx : x = fd
    · subst hx
      have hgone : x ∉ s.out.taken.erase x := by
        rw [← List.count_eq_zero, List.count_erase_self]
        omega
      refine ⟨fun hmem => absurd hmem hgone, fun ⟨u, hu⟩ => ?_⟩
      change Function.update s.duty t (.inside x) u = .taken x at hu
      by_cases hut : u = t
      · rw [hut, Function.update_self] at hu
        cases hu
      · rw [Function.update_of_ne hut] at hu
        exact absurd (h.alone u t x (by rw [hu]; rfl) hat) hut
    · have hne : s.duty t ≠ .taken x := by
        rw [hd]
        intro heq
        exact hx (Duty.taken.inj heq).symm
      rw [List.mem_erase_of_ne hx, exists_update hne, h.taken x]
      simp
  · have hne : s.duty t ≠ .inside x := by
      rw [hd]
      nofun
    rw [exists_update hne, ← h.inside x]
    by_cases hx : x = fd
    · rw [hx, hof]
      simp
    · rw [hother x hx]
      simp [Ne.symm hx]
  · refine alone_update h.alone (fun x hx v hv => ?_) u v x hu hv
    obtain rfl := Option.some.inj hx
    exact fun hat' => hv (h.alone v t _ hat' hat)
  · unfold Ready
    rw [hinterest]
    exact h.ready

theorem Coupled.goOn {fd : ℕ} {o : Wavy.State} (h : Coupled N n s) (hg : GoesOn fd s.out o) :
    Coupled N n { s with out := o, duty := fun t => (s.duty t).after fd s.out o } := by
  refine ⟨by rw [hg.queue]; exact h.queue, by rw [hg.backlog]; exact h.backlog, fun t => ?_, fun t ht => ?_,
    fun x => ?_, fun x => ?_, fun t u x ht hu => ?_, ?_⟩
  · rw [h.duty t]
    exact not_congr (after_none _).symm
  · exact h.bound t fun hd => ht ((after_none _).mpr hd)
  · rw [hg.taken, h.taken x]
    exact exists_congr fun t => (after_taken _ x).symm
  · change _ ↔ ∃ t, (s.duty t).after fd s.out o = .inside x
    simp only [after_inside, exists_and_right, ← h.inside x]
    by_cases hx : x = fd
    · subst hx
      by_cases hidle : o.cs x = .idle
      · simp [hidle, Stage.ofEvent]
      · simp [hidle, hg.ofEvent hidle]
    · simp [hx, hg.other x hx]
  · exact h.alone t u x (after_at ht) (after_at hu)
  · exact h.ready.imp_right fun hr => hr.imp_right fun hready => hready.mono hg.armed

theorem Coupled.outDone {t : ℕ} {empty : Bool} {l : Loop.State} (h : Coupled N n s)
    (hd : s.duty t = .done empty) (hl : Loop.step N s.loop (.outDone t empty) = some l) :
    Coupled N n { s with loop := l, duty := Function.update s.duty t .none } := by
  obtain ⟨hpc, rfl⟩ := Loop.outDone_eq hl
  have hne {e : Duty} (he : e.at ≠ Option.none) : s.duty t ≠ e := by
    rintro rfl
    rw [hd] at he
    exact he rfl
  refine ⟨h.queue, h.backlog, fun u => ?_, fun u hu => ?_, fun x => ?_, fun x => ?_, fun u v x hu hv => ?_, ?_⟩
  · change (s.loop.setPc t _).pc u = .outEvent ↔ Function.update s.duty t .none u ≠ .none
    by_cases hut : u = t
    · rw [hut, Loop.pc_setPc_self, Function.update_self]
      cases empty <;> cases (s.loop.threads t).kind <;> simp [Loop.Kind.back]
    · rw [Loop.pc_setPc_of_ne hut, Function.update_of_ne hut]
      exact h.duty u
  · by_cases hut : u = t
    · change Function.update s.duty t .none u ≠ .none at hu
      rw [hut, Function.update_self] at hu
      exact absurd rfl hu
    · change Function.update s.duty t .none u ≠ .none at hu
      rw [Function.update_of_ne hut] at hu
      exact h.bound u hu
  · rw [exists_update (hne (e := .taken x) nofun), ← h.taken x]
    simp
  · rw [exists_update (hne (e := .inside x) nofun), ← h.inside x]
    simp
  · exact alone_update h.alone (fun _ hx => by cases hx) u v x hu hv
  · obtain harmed | ⟨u, huN, ke, hu⟩ | hready := h.ready
    · exact .inl harmed
    · refine .inr (.inl ⟨u, huN, ke, ?_⟩)
      have hut : u ≠ t := by
        rintro rfl
        rw [hpc] at hu
        cases hu
      exact (Loop.pc_setPc_of_ne hut _ _).trans hu
    · exact .inr (.inr hready)

theorem Coupled.out {o : Wavy.State} (h : Coupled N n s) (hb : Bystander s.out o) :
    Coupled N n { s with out := o } := by
  refine ⟨by rw [hb.queue]; exact h.queue, by rw [hb.backlog]; exact h.backlog, h.duty, h.bound, fun x => ?_,
    fun x => ?_, h.alone, ?_⟩
  · rw [hb.taken]
    exact h.taken x
  · rw [hb.ofEvent]
    exact h.inside x
  · exact h.ready.imp_right fun hr => hr.imp_right fun hready => hready.mono fun fd harmed => by
      rw [hb.interest]
      exact harmed

theorem Coupled.step (h : Coupled N n s) (hl : (Loop.loopSystem N fun _ => .main).Reachable Loop.running s.loop)
    (ho : (outSystem n m mc).Reachable (Serving n m mc) s.out) (hs : step N n m F mc s act = some s') :
    Coupled N n s' := by
  have hworkers := Loop.reachable_workers hl
  have htoken := Loop.reachable_outToken hl
  have hwatch := reachable_watchInv ho
  cases step_cases hs with
  | loop ha hr hl' => exact h.loop htoken (Loop.reachable_owned hl) ha hr hl'
  | poll hl' ht ho' hpush => exact h.poll hworkers hl' ht ho' hpush
  | next hl' ht hq ho' => exact h.next hworkers htoken hwatch hl' ht hq ho'
  | run hl' hp => exact h.run hworkers htoken hl' hp _
  | writeEvent hd ho' => exact h.writeEvent hwatch hd ho'
  | goOn ho' => exact h.goOn (goesOn hwatch ho').2
  | outDone hd hl' => exact h.outDone hd hl'
  | out ha ho' => exact h.out (bystander hwatch ha ho')
  | flush hf hwhere | look hf hwhere | flushWakeup hf hwhere =>
    exact ⟨h.queue, h.backlog, h.duty, h.bound, h.taken, h.inside, h.alone, h.ready⟩

theorem reachable_coupled (h : (serviceSystem N n m F mc).Reachable (Healthy n m mc) s) : Coupled N n s := by
  apply h.invariant
  · rintro s ⟨world, rfl⟩
    exact .init N n world
  · exact fun s act s' hr hc _ hs => hc.step (reachable_loop hr) (reachable_out hr) hs

end Service

end Mpio.Wavy
