import Mathlib.Data.Prod.Lex
import Mpio.Wavy.Service.Flush

/-!
# The loop and `out` get through together

`work_done` leaves the write events to `out`, and `writes_drain` the polls to the loop. Together they need
nothing but the kernel: when all workers rest and a queue is left, some descriptor is armed, the kernel can
report the descriptor of `out` to the worker that polls, and `poll_event` finds it.

`State.rank` puts what is due in `out` before what is due in the loop. A worker may have much to do for a
write event, but it takes something off the queues of `out`; between two of these the descriptor of `out`
is reported once at most (`State.round`), and with the rest of its steps the loop comes closer to its own
rest. The callers of `flush` come last.
-/

namespace Mpio.Wavy.Service

open Lib

variable {N n m F : ℕ} {mc : Memcpy} {s s' : State} {act : Action}

/-! ## The rank -/

/-- Calls from outside, other events than the one of `out`, timeouts and spurious wakeups, polls that find
nothing, and write events whose first call the kernel refuses. -/
def Action.extra : Action → Bool
  | .loop (.waitReturns _ idents) => idents != [Loop.outIdent]
  | .loop a => a.arrival
  | .run _ _ found => found == some []
  | .writeEvent _ as => (answer as).retry
  | .goOn _ | .outDone _ | .look _ => false
  | .out _ | .flush _ | .flushWakeup _ => true

def Flusher.due : Flusher → ℕ
  | .woken => 1
  | .outside | .waiting => 0

def State.rank (N n F : ℕ) (s : State) : ℕ ×ₗ ℕ ×ₗ ℕ ×ₗ ℕ :=
  toLex (s.out.due n, toLex (s.loop.round N, toLex (s.loop.due N,
    ∑ f ∈ Finset.range F, (s.flusher f).due)))

theorem rank_lt_of_out (h : s'.out.due n < s.out.due n) : s'.rank N n F < s.rank N n F :=
  Prod.Lex.toLex_lt_toLex.mpr (.inl h)

theorem rank_lt_of_round (ho : s'.out = s.out) (h : s'.loop.round N < s.loop.round N) :
    s'.rank N n F < s.rank N n F := by
  refine Prod.Lex.toLex_lt_toLex.mpr (.inr ⟨by rw [ho], ?_⟩)
  exact Prod.Lex.toLex_lt_toLex.mpr (.inl h)

theorem rank_lt_of_loop (ho : s'.out = s.out) (hround : s'.loop.round N ≤ s.loop.round N)
    (h : s'.loop.due N < s.loop.due N) : s'.rank N n F < s.rank N n F := by
  obtain hlt | heq := Nat.lt_or_eq_of_le hround
  · exact rank_lt_of_round ho hlt
  · refine Prod.Lex.toLex_lt_toLex.mpr (.inr ⟨by rw [ho], ?_⟩)
    refine Prod.Lex.toLex_lt_toLex.mpr (.inr ⟨heq, ?_⟩)
    exact Prod.Lex.toLex_lt_toLex.mpr (.inl h)

theorem rank_look {f : ℕ} (hf : f < F) (hwoken : s.flusher f = .woken) :
    (s.look f).rank N n F < s.rank N n F := by
  have hmove := sum_update hf Flusher.due s.flusher
    (if s.out.watching ≠ 0 ∨ s.loop.tasks ≠ 0 then .waiting else .outside)
  have hzero : Flusher.due (if s.out.watching ≠ 0 ∨ s.loop.tasks ≠ 0 then .waiting else .outside) = 0 := by
    split_ifs <;> rfl
  have hone : (s.flusher f).due = 1 := by rw [hwoken]; rfl
  rw [hzero, hone] at hmove
  refine Prod.Lex.toLex_lt_toLex.mpr (.inr ⟨rfl, Prod.Lex.toLex_lt_toLex.mpr (.inr ⟨rfl, ?_⟩)⟩)
  refine Prod.Lex.toLex_lt_toLex.mpr (.inr ⟨rfl, ?_⟩)
  change ∑ g ∈ Finset.range F, (Function.update s.flusher f _ g).due < _
  omega

theorem due_out {o o' : Wavy.State} {act : Wavy.Action}
    (hr : (outSystem n m mc).Reachable (Serving n m mc) o) (hs : stepOut n m mc o act = some o')
    (hint : Intact mc o act) (hf : Finds o act) (ha : act.asks = false) : o'.due n < o.due n :=
  due_step (reachable_watchInv hr) (reachable_beyond hr) (reachable_dataInv hr).ctx hint hf ha hs

theorem rank_poll {fds : List ℕ} {l : Loop.State} {o o' : Wavy.State}
    (hr : (outSystem n m mc).Reachable (Serving n m mc) s.out) (hne : fds ≠ [])
    (ho : stepOut n m mc s.out (.pollWait fds) = some o) (ho' : stepOut n m mc o .pollPush = some o') :
    { s with loop := l, out := o' }.rank N n F < s.rank N n F := by
  have hwait := due_out hr ho (.inr rfl) hne rfl
  have hbacklog : o.backlog = fds := by
    have hs : s.out.pollWait fds = some o := ho
    simp only [State.pollWait] at hs
    split_ifs at hs
    rw [← Option.some.inj hs]
  have hr' := reachable_apart hr ho rfl trivial trivial rfl
  have hpush := due_out hr' ho' (.inr rfl) (by rwa [Finds, hbacklog]) rfl
  exact rank_lt_of_out (hpush.trans hwait)

theorem rank_step (hr : (serviceSystem N n m F mc).Reachable (Healthy n m mc) s) (hp : Healthy n m mc s act)
    (hs : step N n m F mc s act = some s') (ha : act.extra = false) : s'.rank N n F < s.rank N n F := by
  have hl := reachable_loop hr
  have ho := reachable_out hr
  have htoken := Loop.reachable_outToken hl
  cases step_cases hs with
  | @loop a l haside hready hl' =>
    have hstep := Loop.step_cases hl'
    cases a with
    | waitReturns t idents =>
      obtain rfl : idents = [Loop.outIdent] := by simpa [Action.extra] using ha
      exact rank_lt_of_round rfl (Loop.round_report hl')
    | next | evRemove | finish =>
      exact rank_lt_of_loop rfl (Loop.round_aside htoken (Loop.reachable_owned hl) hstep rfl rfl).le
        (Loop.due_step hl hl' rfl)
    | run | outDone => cases haside
    | _ => cases ha
  | poll hl' ht ho' hpush => exact rank_poll ho (by simpa [Action.extra] using ha) ho' hpush
  | next hl' ht hq ho' => exact rank_lt_of_out (due_out ho ho' (.inr rfl) trivial rfl)
  | run hl' hapart =>
    exact rank_lt_of_loop rfl (Loop.round_run htoken hl' hapart) (Loop.due_step hl hl' rfl)
  | writeEvent hd ho' => exact rank_lt_of_out (due_out ho ho' (hp _ hd).2.2.1 trivial ha)
  | goOn ho' => exact rank_lt_of_out (due_out ho ho' (.inr rfl) trivial rfl)
  | outDone hd hl' => exact rank_lt_of_loop rfl (Loop.round_outDone hl').le (Loop.due_step hl hl' rfl)
  | look hf hwoken => exact rank_look hf hwoken
  | out | flush | flushWakeup => cases ha

/-! ## Somebody can go on -/

/-- The loop rests, everything committed is sent, and nobody is left in `flush`. -/
structure Quiet (N n F : ℕ) (s : State) : Prop where
  loop : Loop.Settled N s.loop
  out : Drained n s.out
  flushed : ∀ f < F, s.flusher f = .outside

/-- Some step that is not extra can be taken. -/
def Goes (N n m F : ℕ) (mc : Memcpy) (s : State) : Prop :=
  ∃ act s', Healthy n m mc s act ∧ act.extra = false ∧ step N n m F mc s act = some s'

theorem Goes.of_isSome (act : Action) (hp : Healthy n m mc s act) (ha : act.extra = false)
    (hs : (step N n m F mc s act).isSome = true) : Goes N n m F mc s := by
  obtain ⟨s', hs'⟩ := Option.isSome_iff_exists.mp hs
  exact ⟨act, s', hp, ha, hs'⟩

theorem goes_of_loop {a : Loop.Action} {l : Loop.State} (hl : Loop.step N s.loop a = some l)
    (haside : a.aside = true) (hends : a.ends = false) (hready : a.reportsOut = true → Ready n s.out)
    (ha : (Action.loop a).extra = false) : Goes N n m F mc s := by
  refine .of_isSome (.loop a) hends ha ?_
  simp only [step]
  rw [if_pos ⟨haside, hready⟩, hl]
  rfl

theorem goes_of_section {fd : ℕ} (hfd : fd < n) (hcs : s.out.cs fd ≠ .idle) : Goes N n m F mc s := by
  obtain ⟨o, ho⟩ := exists_goOn hcs
  have hs : stepOut n m mc s.out (.goOn fd) = some o := (if_pos hfd).trans ho
  refine .of_isSome (.goOn fd) trivial rfl ?_
  simp only [step, hs]
  rfl

theorem goes_of_outEvent (hr : (serviceSystem N n m F mc).Reachable (Healthy n m mc) s)
    (hidle : ∀ fd < n, s.out.cs fd = .idle) {t : ℕ} (ht : s.loop.pc t = .outEvent) : Goes N n m F mc s := by
  have hc := reachable_coupled hr
  have hbeyond := reachable_beyond (reachable_out hr)
  have hduty := (hc.duty t).mp ht
  cases hd : s.duty t with
  | none => exact absurd hd hduty
  | taken fd =>
    have htaken : fd ∈ s.out.taken := (hc.taken fd).mpr ⟨t, hd⟩
    have hfd := hbeyond.lt_of_token (reachable_watchInv (reachable_out hr)) (tokens_pos_of_taken htaken)
    obtain ⟨o, hserving, ho⟩ : ∃ o, Serving n m mc s.out (.writeEvent fd [.fails .other]) ∧
        stepOut n m mc s.out (.writeEvent fd [.fails .other]) = some o :=
      exists_writeEvent hfd (hidle fd hfd) htaken
    refine .of_isSome (.writeEvent t [.fails .other]) (fun fd' hd' => ?_) rfl ?_
    · obtain rfl := Duty.taken.inj (hd.symm.trans hd')
      exact hserving
    · simp only [step, hd, ho]
      rfl
  | inside fd =>
    have hof := (hc.inside fd).mpr ⟨t, hd⟩
    have hcs : s.out.cs fd = .idle := by
      by_cases hfd : fd < n
      · exact hidle fd hfd
      · exact (hbeyond fd (not_lt.mp hfd)).1
    rw [hcs] at hof
    cases hof
  | done empty =>
    have hl : Loop.step N s.loop (.outDone t empty) =
        some (if empty then s.loop.setPc t .flush else s.loop.back t) := if_pos ⟨hc.bound t hduty, ht⟩
    refine .of_isSome (.outDone t) trivial rfl ?_
    simp only [step, hd, hl]
    rfl

theorem ran_apart {t : ℕ} {l : Loop.State} (hp : (l.pc t).apart = true) : ran n m mc s t none l =
    some { s with loop := l, flusher := if s.loop.pc t = .flush then wakeAll s.flusher else s.flusher } := by
  unfold ran
  cases hpc : l.pc t <;> rw [hpc] at hp <;> first | rfl | cases hp

/-- A section of a worker can be taken here when it can be taken in the loop: `next` finds an event, and
`poll_event` something to move. -/
theorem goes_of_run (hr : (serviceSystem N n m F mc).Reachable (Healthy n m mc) s) {t : ℕ} {wake : Option ℕ}
    {l : Loop.State} (hl : Loop.step N s.loop (.run t wake 0) = some l) : Goes N n m F mc s := by
  have hc := reachable_coupled hr
  have hworkers := Loop.reachable_workers (reachable_loop hr)
  by_cases hp : (l.pc t).apart = true
  · refine .of_isSome (.run t wake none) trivial rfl ?_
    change ((Loop.step N s.loop (.run t wake 0)).bind _).isSome = true
    rw [hl, Option.bind_some, ran_apart hp]
    rfl
  · by_cases hout : l.pc t = .outEvent
    · have hfetched := Loop.runThread_fetched hworkers (Loop.run_eq hl)
      simp only [Loop.Fetched, hout, hc.queue] at hfetched
      obtain ⟨fd, queue, hq⟩ := List.exists_cons_of_length_pos (by omega : 0 < s.out.queue.length)
      have ho : stepOut n m mc s.out .next = some { s.out with queue := queue, taken := fd :: s.out.taken } := by
        simp [stepOut, enter, hq]
      refine .of_isSome (.run t wake none) trivial rfl ?_
      change ((Loop.step N s.loop (.run t wake 0)).bind _).isSome = true
      rw [hl, Option.bind_some]
      simp only [ran, hout, hq, ho]
      rfl
    · obtain ⟨ke, ht⟩ : ∃ ke, l.pc t = .rearmOut ke := by
        cases hpc : l.pc t <;> rw [hpc] at hp hout
        all_goals first | exact ⟨_, rfl⟩ | exact absurd rfl hp | exact absurd rfl hout
      have htoken := Loop.reachable_outToken (reachable_loop hr)
      have htoken' := Loop.reachable_outToken (reachable_running (reachable_loop hr) hl rfl)
      obtain ⟨hunarmed, hno⟩ := Loop.run_polled htoken htoken' hl ht hworkers
      obtain harmed | ⟨u, huN, ke', hu⟩ | ⟨fd, hfd, harmed⟩ := hc.ready
      · exact absurd harmed hunarmed
      · exact absurd hu (hno u huN ke')
      · obtain ⟨l', hl', hpc⟩ := Loop.run_found hworkers hl 1
        obtain ⟨o, ho⟩ : ∃ o, stepOut n m mc s.out (.pollWait [fd]) = some o :=
          ⟨_, if_pos ⟨hc.backlog, List.nodup_singleton _, by simpa using harmed⟩⟩
        obtain ⟨o', ho'⟩ : ∃ o', stepOut n m mc o .pollPush = some o' := ⟨_, rfl⟩
        refine .of_isSome (.run t wake (some [fd])) trivial rfl ?_
        change ((Loop.step N s.loop (.run t wake 1)).bind _).isSome = true
        rw [hl', Option.bind_some]
        simp only [ran, (hpc t).trans ht, ho, Option.bind_some, ho']
        rfl

theorem goes_of_busy (hN : 2 ≤ N) (hr : (serviceSystem N n m F mc).Reachable (Healthy n m mc) s)
    (hidle : ∀ fd < n, s.out.cs fd = .idle) {t : ℕ} (htN : t < N) (hw : s.loop.pc t ≠ .waiting)
    (hp : s.loop.pc t ≠ .polling) : Goes N n m F mc s := by
  have hl := reachable_loop hr
  have hx : s.loop.pc t ≠ .exited := by
    intro hx
    refine (Loop.reachable_covered hN hl).staffed (Loop.reachable_endFlag hl) t htN ?_
    change (s.loop.pc t).mode = .gone
    rw [hx]
    rfl
  obtain ⟨a, l, ha, hs⟩ := Loop.worker_goes_on_of_busy hl htN hw hp hx
  cases a with
  | run u wake k =>
    obtain rfl : k = 0 := by simpa [Loop.Action.arrival] using ha
    exact goes_of_run hr hs
  | outDone u empty => exact goes_of_outEvent hr hidle (Loop.outDone_eq hs).1
  | next | evRemove | finish => exact goes_of_loop hs rfl rfl (fun h => by cases h) rfl
  | _ => cases ha

/-- At rest the kernel can report what is left. -/
theorem goes_of_settled (hr : (serviceSystem N n m F mc).Reachable (Healthy n m mc) s)
    (hidle : ∀ fd < n, s.out.cs fd = .idle) (hset : Loop.Settled N s.loop) (hq : ¬ Quiet N n F s) :
    Goes N n m F mc s := by
  have hc := reachable_coupled hr
  have hwatch := reachable_watchInv (reachable_out hr)
  have hrest := hset.resting
  have hduty (u : ℕ) : s.duty u = .none := by
    by_contra hd
    have hu := (hc.duty u).mpr hd
    obtain hpc | hpc := hrest u (hc.bound u hd) <;> rw [hu] at hpc <;> cases hpc
  by_cases hwoken : ∃ f < F, s.flusher f = .woken
  · obtain ⟨f, hf, hfl⟩ := hwoken
    exact ⟨.look f, _, trivial, rfl, if_pos ⟨hf, hfl⟩⟩
  · by_cases hd : Drained n s.out
    · refine absurd ⟨hset, hd, fun f hf => ?_⟩ hq
      cases hfl : s.flusher f with
      | outside => rfl
      | woken => exact absurd ⟨f, hf, hfl⟩ hwoken
      | waiting =>
        obtain hne | htasks | ⟨u, huN, hu⟩ := reachable_awaited hr f hfl
        · exact absurd hd.watching hne
        · exact absurd hset.tasks htasks
        · obtain hpc | hpc | hdone := hu
          · obtain hu | hu := hrest u huN <;> rw [hpc] at hu <;> cases hu
          · obtain hu | hu := hrest u huN <;> rw [hpc] at hu <;> cases hu
          · rw [hduty u] at hdone
            cases hdone
    · obtain ⟨fd, hfd, hne⟩ : ∃ fd < n, (s.out.ctx fd).empty = false := by
        by_contra hall
        refine hd (drained_of_idle hwatch (reachable_dataInv (reachable_out hr)) fun fd hfd =>
          ⟨hidle fd hfd, ?_⟩)
        by_contra hemp
        exact hall ⟨fd, hfd, by simpa using hemp⟩
      have hqueue : s.out.queue = [] := List.length_eq_zero_iff.mp (hc.queue.symm.trans hset.outQueue)
      have htaken : fd ∉ s.out.taken := by
        intro hmem
        obtain ⟨u, hu⟩ := (hc.taken fd).mp hmem
        rw [hduty u] at hu
        cases hu
      have hinv := hwatch.fd fd
      rw [hidle fd hfd] at hinv
      obtain ⟨hemp, -, -⟩ | ⟨-, -, htok⟩ := hinv
      · rw [hne] at hemp
        cases hemp
      have harmed : s.out.interest fd = .armed := by
        by_contra hno
        simp [tokens, hno, hc.backlog, hqueue, List.count_eq_zero_of_not_mem htaken] at htok
      obtain ⟨t, htN, ht, -⟩ := hset.poller
      obtain ⟨l, hl⟩ : ∃ l, Loop.step N s.loop (.waitReturns t [Loop.outIdent]) = some l := by
        have hout := hset.armed (Loop.reachable_outToken (reachable_loop hr))
        have hreg : (s.loop.interest Loop.outIdent).map (·.armed) = some true := by
          by_contra hno
          rw [Loop.State.armed, if_neg hno] at hout
          cases hout
        exact ⟨_, (if_pos htN).trans (if_pos ⟨ht, by simp, List.nodup_singleton _, by simpa using hreg⟩)⟩
      exact goes_of_loop hl rfl rfl (fun _ => ⟨fd, hfd, harmed⟩) rfl

/-- The loop and `out` get through with everything, and every `flush` returns: in every run before `end()`
with two workers or more, however the steps of the workers, the handlers and the callers are mixed and
whatever the kernel answers, with at most `k` extra steps on the way. Until then somebody can always go
on, or the kernel can report the descriptor of `out`. -/
theorem everything_served (hN : 2 ≤ N) (h : (serviceSystem N n m F mc).Reachable (Healthy n m mc) s) (k : ℕ) :
    (serviceSystem N n m F mc).Inevitable (Healthy n m mc) Action.extra (Quiet N n F) k s := by
  by_cases hquiet : Quiet N n F s
  · exact .here hquiet
  refine System.Inevitable.of_rank (State.rank N n F) (I := fun s =>
    (serviceSystem N n m F mc).Reachable (Healthy n m mc) s ∧ ¬ Quiet N n F s) ?_ ?_ k ⟨h, hquiet⟩
  · rintro s ⟨hr, hquiet⟩
    change Goes N n m F mc s
    by_cases hidle : ∀ fd < n, s.out.cs fd = .idle
    · by_cases hrest : Loop.Resting N s.loop
      · exact goes_of_settled hr hidle (hrest.settled hN (reachable_loop hr)) hquiet
      · simp only [Loop.Resting, not_forall, not_or] at hrest
        obtain ⟨t, htN, hw, hp⟩ := hrest
        exact goes_of_busy hN hr hidle htN hw hp
    · simp only [not_forall] at hidle
      obtain ⟨fd, hfd, hcs⟩ := hidle
      exact goes_of_section hfd hcs
  · rintro s act s' ⟨hr, -⟩ hp hs
    by_cases hquiet : Quiet N n F s'
    · exact .inl hquiet
    · exact .inr ⟨⟨.step hr hp hs, hquiet⟩, fun ha => rank_step hr hp hs ha⟩

/-- A task is submitted while a caller waits in `flush`. -/
theorem everything_served_blockedWrite : ∃ s,
    (serviceSystem 2 1 0 1 .descending).Reachable (Healthy 1 0 .descending) s ∧
    s.flusher 0 = .waiting ∧ queued s.out 0 = [16, 17, 18] ∧ s.loop.tasks = 1 ∧
    (serviceSystem 2 1 0 1 .descending).Inevitable (Healthy 1 0 .descending) Action.extra (Quiet 2 1 1) 3 s := by
  obtain ⟨s, hs, hq⟩ := System.exists_reachable_of_exec (S := serviceSystem 2 1 0 1 .descending)
    (P := Checked 1 0 .descending) (s := .init addressWorld)
    (blockedWrite ++ [Action.loop (.submit (some 1))])
    (fun s => decide (s.flusher 0 = .waiting ∧ queued s.out 0 = [16, 17, 18] ∧ s.loop.tasks = 1)) ⟨_, rfl⟩
    (by decide +kernel)
  have hs' := hs.mono (Q := Healthy 1 0 .descending) fun _ _ _ h => h.healthy
  obtain ⟨hwaiting, hqueued, htasks⟩ := of_decide_eq_true hq
  exact ⟨s, hs', hwaiting, hqueued, htasks, everything_served le_rfl hs' 3⟩

end Mpio.Wavy.Service
