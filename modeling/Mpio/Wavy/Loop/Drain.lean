import Mpio.Wavy.Loop.Pending
import Mpio.Wavy.Loop.Sole

/-!
# Queued work is done

`work_attended` says that queued work always has a worker. Here the worker gets through with it. A worker
that does not wait, and is not in the wait of the kernel, can always go on by itself, and whatever it does
takes the loop closer to rest: `State.due` counts the queued tasks and write events, the events that are
on their way to a handler, and what each worker has to do before it waits again. Only new tasks and
events, timeouts and spurious wakeups raise it (`due_step`).

At rest nothing is queued and one worker polls, so that the next event is seen (`Resting.settled`). With
two workers or more the loop comes to rest after each burst of work, in whatever order the workers take
their steps: `work_done`.
-/

namespace Mpio.Wavy.Loop

open Lib

variable {N : ℕ} {s s' : State} {a : Action} {P : State → Action → Prop}

/-! ## What is due -/

/-- What a thread has to do before it waits or polls again, apart from the event it has. -/
def Pc.due : Pc → ℕ
  | .exited | .outside | .waiting | .polling | .dispatch _ | .rearmOut _ => 0
  | .start | .woken | .timedOut => 1
  | .flush | .rearm .. | .reset .. | .polled _ => 2
  | .task _ | .outEvent | .drop .. => 3
  | .nbQueue => 4
  | .running _ _ flags => 4 + (if flags.reactivated then 0 else 1) + (if flags.removed then 0 else 2)
  | .evReset _ _ flags => 5 + (if flags.reactivated then 0 else 1)

def dueSum (N : ℕ) (s : State) : ℕ := ∑ t ∈ Finset.range N, (s.pc t).due

/-- A task and a write event keep a worker busy for up to four steps, an event for up to seven. -/
def State.due (N : ℕ) (s : State) : ℕ :=
  5 * (s.tasks + s.outQueue) + 8 * (pending N s).card + dueSum N s

theorem dueSum_move {t : ℕ} (htN : t < N) (hpc : ∀ u, u ≠ t → s'.pc u = s.pc u) :
    dueSum N s' + (s.pc t).due = dueSum N s + (s'.pc t).due := by
  have hdue : ∀ u, u ≠ t → (s'.pc u).due = (s.pc u).due := fun u hu => by rw [hpc u hu]
  exact sum_move htN hdue

theorem dueSum_setPc {t : ℕ} (htN : t < N) (s : State) (p : Pc) :
    dueSum N (s.setPc t p) + (s.pc t).due = dueSum N s + p.due := by
  have hmove : dueSum N (s.setPc t p) + (s.pc t).due = dueSum N s + ((s.setPc t p).pc t).due :=
    dueSum_move htN fun u hu => pc_setPc_of_ne hu s p
  rwa [pc_setPc_self] at hmove

theorem Signalled.dueSum (h : Signalled N s s') : Loop.dueSum N s' ≤ Loop.dueSum N s + 1 := by
  obtain ⟨rfl, -⟩ | ⟨t, htN, -, rfl⟩ := h.cases
  · exact Nat.le_succ _
  · have hset := dueSum_setPc htN s .woken
    simp only [Pc.due] at hset
    omega

theorem State.Entering.due {t : ℕ} (h : s.Entering t) : (s.pc t).due = 1 := by
  obtain h | ⟨h, -⟩ := h <;> rw [h] <;> rfl

@[simp] theorem due_entry (ke : Event) : ke.entry.due = 0 := by
  unfold Event.entry
  split_ifs <;> rfl

theorem due_queue {t : ℕ} (hw : Workers s) (h : s.Entering t ∨ s.pc t = .nbQueue) : (s.pc t).due = 1 := by
  obtain h | h := h
  · exact h.due
  · exact absurd h (hw t).2.2

/-! ## The queue of `out`

It grows only by the write events that `poll_event` finds. -/

theorem processHandler_outQueue (t : ℕ) (ke : Event) (s : State) :
    (processHandler t ke 0 s).outQueue = s.outQueue := by
  unfold processHandler
  split_ifs <;> rfl

theorem takeBacklog_outQueue {t : ℕ} (h : takeBacklog t 0 s = some s') : s'.outQueue = s.outQueue := by
  unfold takeBacklog at h
  split at h
  · obtain rfl := Option.some.inj h
    exact processHandler_outQueue ..
  · cases h

theorem doTask_outQueue {t : ℕ} {wake : Option ℕ} (h : doTask N t wake s = some s') :
    s'.outQueue = s.outQueue := by
  simp only [doTask] at h
  split_ifs at h
  · obtain rfl := Option.some.inj h
    rfl
  · obtain ⟨s₁, hs, rfl⟩ := Option.map_eq_some_iff.mp h
    simp [Signalled.toQueues ⟨wake, hs⟩]

theorem threadMain_outQueue {t : ℕ} {wake : Option ℕ} (h : threadMain N t wake 0 s = some s') :
    s'.outQueue ≤ s.outQueue := by
  unfold threadMain at h
  by_cases he : s.endFlag = true
  · rw [if_pos he] at h
    obtain rfl := Option.some.inj h
    exact le_rfl
  · rw [if_neg he] at h
    cases hm : s.more with
    | cons ke rest =>
      simp only [hm] at h
      obtain rfl := Option.some.inj h
      exact (processHandler_outQueue ..).le
    | nil =>
      simp only [hm] at h
      split_ifs at h
      · obtain rfl := Option.some.inj h
        exact Nat.sub_le _ _
      · exact (doTask_outQueue h).le
      · obtain rfl := Option.some.inj h
        exact le_rfl
      · exact (doTask_outQueue h).le
      · unfold pollOrTake at h
        split_ifs at h
        · obtain rfl := Option.some.inj h
          exact le_rfl
        · exact (takeBacklog_outQueue h).le

theorem runThread_outQueue {t : ℕ} {wake : Option ℕ} (hw : Workers s)
    (h : runThread N s t wake 0 = some s') : s'.outQueue ≤ s.outQueue := by
  cases hpc : s.pc t with
  | start | woken =>
    simp only [runThread, hpc, (hw t).1] at h
    exact threadMain_outQueue h
  | polled evs =>
    simp only [runThread, hpc] at h
    obtain ⟨s₁, hs, h⟩ := Option.bind_eq_some_iff.mp h
    rw [takeBacklog_outQueue h, Signalled.toQueues ⟨wake, hs⟩]
  | timedOut =>
    simp only [runThread, hpc, afterTimeout, (hw t).1] at h
    obtain rfl := Option.some.inj h
    split_ifs <;> exact le_rfl
  | nbQueue => exact absurd hpc (hw t).2.2
  | task last =>
    simp only [runThread, hpc] at h
    obtain rfl := Option.some.inj h
    split_ifs <;> exact le_rfl
  | flush | rearmOut | evReset | rearm | drop | reset =>
    simp only [runThread, hpc] at h
    obtain rfl := Option.some.inj h
    simp
  | dispatch ke =>
    simp only [runThread, hpc] at h
    split at h
    all_goals
      obtain rfl := Option.some.inj h
      exact le_rfl
  | outside | waiting | polling | outEvent | running | exited =>
    simp only [runThread, hpc] at h
    cases h

/-! ## Every step of a worker takes the loop closer to rest -/

theorem Locked.due {t : ℕ} (hl : Locked N s t s') (hw : Workers s) (htN : t < N) (hb : Backlog s)
    (hled : s.pool.Led N) (hh : Handed N s) (ho : s'.outQueue ≤ s.outQueue) : s'.due N < s.due N := by
  unfold State.due
  rw [hl.pending htN hb hled hh]
  have hkind := (hw t).1
  cases hl with
  | leave ht he =>
    have hset := dueSum_setPc htN s (s.threads t).kind.leave
    rw [ht.due, hkind] at hset
    simp only [hkind, setPc_toQueues, Kind.leave, Pc.due] at hset ⊢
    omega
  | waited ht hk => exact absurd hkind hk
  | @moreEvent ke rest n ht he hm =>
    have hset := dueSum_setPc htN { s with more := rest, outQueue := n } ke.entry
    change _ + (s.pc t).due = dueSum N s + _ at hset
    rw [ht.due, due_entry] at hset
    simp only [setPc_toQueues] at ho ⊢
    omega
  | outEvent ht hout =>
    have hset := dueSum_setPc htN { s with outQueue := s.outQueue - 1 } .outEvent
    change _ + (s.pc t).due = dueSum N s + _ at hset
    rw [due_queue hw ht] at hset
    simp only [setPc_toQueues, Pc.due] at hset ⊢
    omega
  | lastTask ht hn =>
    have hset := dueSum_setPc htN { s with tasks := 0 } (.task true)
    change _ + (s.pc t).due = dueSum N s + _ at hset
    rw [due_queue hw ht] at hset
    simp only [setPc_toQueues, Pc.due] at hset ⊢
    omega
  | @task s₁ ht hn hs =>
    have hset := dueSum_setPc htN s₁ (.task false)
    have hwoken := hs.dueSum
    change _ ≤ dueSum N s + 1 at hwoken
    have hself : s₁.pc t = s.pc t := hs.pc_of_ne (s := { s with tasks := s.tasks - 1 }) (by
      intro hwait
      have := due_queue hw ht
      change s.pc t = .waiting at hwait
      rw [hwait] at this
      cases this)
    rw [hself, due_queue hw ht] at hset
    simp only [setPc_toQueues, hs.toQueues, Pc.due] at hset ⊢
    omega
  | wait ht he hm hp hout hn =>
    have hset := dueSum_setPc htN s .waiting
    rw [ht.due] at hset
    simp only [setPc_toQueues, Pc.due] at hset ⊢
    omega
  | idle ht =>
    obtain ⟨-, hk⟩ | ht := ht
    · exact absurd hkind hk
    · exact absurd ht (hw t).2.2
  | poll ht he hm hp hn =>
    have hset := dueSum_setPc htN { s with pollable := false } .polling
    change _ + (s.pc t).due = dueSum N s + _ at hset
    rw [ht.due] at hset
    simp only [setPc_toQueues, Pc.due] at hset ⊢
    omega
  | @backlogEvent ke n ht he hp hn hbk =>
    have hset := dueSum_setPc htN
      { s with off := s.off + 1, taken := s.taken ++ [ke], outQueue := n } ke.entry
    change _ + (s.pc t).due = dueSum N s + _ at hset
    rw [ht.due, due_entry] at hset
    simp only [setPc_toQueues] at ho ⊢
    omega
  | @relock evs s₁ ke n ht hs hbk =>
    have hset := dueSum_setPc htN { s₁ with off := 1, taken := s.taken ++ [ke], outQueue := n } ke.entry
    change _ + (s₁.pc t).due = dueSum N s₁ + _ at hset
    have hwoken := hs.dueSum
    change _ ≤ dueSum N s + 1 at hwoken
    have hself : s₁.pc t = s.pc t := hs.pc_of_ne
      (s := { s with off := 0, num := evs.length, pollable := true }) (by
        change s.pc t ≠ .waiting
        rw [ht]
        exact Pc.noConfusion)
    rw [hself, ht, due_entry] at hset
    simp only [setPc_toQueues, hs.toQueues, Pc.due] at hset ho ⊢
    omega
  | retryPoll ht hk =>
    have hset := dueSum_setPc htN s .polling
    rw [ht] at hset
    simp only [setPc_toQueues, Pc.due] at hset ⊢
    omega
  | endPoll ht hk he =>
    have hset := dueSum_setPc htN { s with pollable := true } .exited
    change _ + (s.pc t).due = dueSum N s + _ at hset
    rw [ht] at hset
    simp only [setPc_toQueues, Pc.due] at hset ⊢
    omega
  | resign ht hk hp => exact absurd hkind hk
  | @done last ht =>
    have hback : (s.threads t).kind.back = .start := by rw [hkind]; rfl
    cases last with
    | true =>
      have hset := dueSum_setPc htN s .flush
      rw [ht] at hset
      simp only [setPc_toQueues, Pc.due, if_true] at hset ⊢
      omega
    | false =>
      have hset := dueSum_setPc htN s .start
      rw [ht] at hset
      simp only [State.back, hback, setPc_toQueues, Pc.due, Bool.false_eq_true, if_false] at hset ⊢
      omega
  | flushed ht =>
    have hback : (s.threads t).kind.back = .start := by rw [hkind]; rfl
    have hset := dueSum_setPc htN s .start
    rw [ht] at hset
    simp only [State.back, hback, setPc_toQueues, Pc.due] at hset ⊢
    omega

/-- Looking up the handler of an event pays for its dispatch. -/
theorem Dispatches.due_pc {t : ℕ} (hd : Dispatches N s t a s') (hk : (s.threads t).kind = .main) :
    (s'.pc t).due < (s.pc t).due + 8 * (s.pc t).pending.card := by
  have hback : (s.threads t).kind.back = .start := by rw [hk]; rfl
  cases hd with
  | rearmOut ht | rearm ht | reset ht => simp [State.back, hback, ht, Pc.due, Pc.pending]
  | dispatch ht hh | dispatchEmpty ht hh | drop ht | evReset ht => simp [ht, Pc.due, Pc.pending]
  | next ht hf | evRemove ht hf =>
    simp only [pc_setPc_self, ht, hf, Pc.due, Bool.false_eq_true, if_false, if_true]
    omega
  | finish ht hf =>
    simp only [State.back, State.stop, settle_pc, pc_setPc_self, hback, ht, Pc.due]
    omega
  | finishRearm ht hf | finishDrop ht hf =>
    simp only [pc_setPc_self, ht, Pc.due]
    omega

theorem Dispatches.due {t : ℕ} (hd : Dispatches N s t a s') (hw : Workers s) (htN : t < N) :
    s'.due N < s.due N := by
  have hpending := congrArg Multiset.card (hd.pending htN)
  rw [Multiset.card_add] at hpending
  have hmove := dueSum_move htN fun u hu => hd.pc_of_ne hu
  have hlt := hd.due_pc (hw t).1
  unfold State.due
  rw [hd.toQueues]
  omega

/-- What is not up to the workers: calls from outside, what the kernel reports, the events that a handler
asks for once more, timeouts and wakeups that nobody signalled. -/
def Action.arrival : Action → Bool
  | .run _ _ k => k != 0
  | .outDone .. | .next _ | .evRemove _ | .finish .. => false
  | .wakeup _ | .waitReturns .. | .timeout _ | .more .. | .call .. | .submit _ | .endBegin | .endReturn
  | .addHandler .. | .addBegin .. | .addEnd .. | .removeBegin .. | .removeEnd .. | .keepRef _ | .dropRef _ => true

theorem Registers.arrival (h : Registers N s a s') : a.arrival = true := by
  cases h <;> rfl

theorem due_step (hr : (loopSystem N fun _ => .main).Reachable P s) (hs : step N s a = some s')
    (ha : a.arrival = false) : s'.due N < s.due N := by
  have hw := reachable_workers hr
  cases step_cases hs with
  | @locked t k wake _ htN hl =>
    obtain rfl : k = 0 := by simpa [Action.arrival] using ha
    simp only [step, htN, if_true] at hs
    exact hl.due hw htN (reachable_backlog hr) (reachable_led hr) (reachable_handed hr)
      (runThread_outQueue hw hs)
  | dispatches htN hd => exact hd.due hw htN
  | @outDone t empty htN ht =>
    have hback : (s.threads t).kind.back = .start := by rw [(hw t).1]; rfl
    have hzero : (s.pc t).pending = 0 := by rw [ht]; rfl
    have hpending (p : Pc) (hp : p.pending = 0) : pending N (s.setPc t p) = pending N s :=
      pending_setPc rfl rfl (fun _ => rfl) hzero hp
    unfold State.due
    cases empty with
    | true =>
      have hset := dueSum_setPc htN s .flush
      rw [ht] at hset
      simp only [if_true, setPc_toQueues, hpending .flush rfl, Pc.due] at hset ⊢
      omega
    | false =>
      have hset := dueSum_setPc htN s .start
      rw [ht] at hset
      simp only [Bool.false_eq_true, if_false, State.back, hback, setPc_toQueues, hpending .start rfl,
        Pc.due] at hset ⊢
      omega
  | call | wakeup | waitReturns | timeout | more | submit | endBegin | endReturn => cases ha
  | registers hreg =>
    rw [hreg.arrival] at ha
    cases ha

/-! ## A worker that is not at rest goes on -/

theorem exists_signal (N : ℕ) (s : State) : ∃ wake s', signal N wake s = some s' := by
  by_cases h : ∀ t < N, s.pc t ≠ .waiting
  · exact ⟨none, s, if_pos h⟩
  · simp only [not_forall, not_not] at h
    obtain ⟨t, htN, ht⟩ := h
    exact ⟨some t, _, if_pos ⟨htN, ht⟩⟩

theorem exists_doTask (t : ℕ) (s : State) : ∃ wake s', doTask N t wake s = some s' := by
  obtain ⟨wake, s', hs⟩ := exists_signal N { s with tasks := s.tasks - 1 }
  simp only [doTask]
  by_cases h : s.tasks - 1 = 0
  · exact ⟨wake, _, if_pos h⟩
  · exact ⟨wake, _, (if_neg h).trans (congrArg (Option.map _) hs)⟩

theorem exists_takeBacklog (hb : Backlog s) (hl : s.pool.Led N) (hh : Handed N s) (hp : s.pollable = true)
    (hn : s.num ≠ s.off) (t : ℕ) : ∃ s', takeBacklog t 0 s = some s' := by
  have hnum := (hh.rest fun u huN evs => not_polled_of_pollable hl hp huN evs).1
  have hle := hb.le
  have hlt : s.off < s.backlog.length := by omega
  simp only [takeBacklog, List.getElem?_eq_getElem hlt]
  exact ⟨_, rfl⟩

theorem exists_threadMain (hb : Backlog s) (hl : s.pool.Led N) (hh : Handed N s) (t : ℕ) :
    ∃ wake s', threadMain N t wake 0 s = some s' := by
  unfold threadMain
  by_cases he : s.endFlag = true
  · exact ⟨none, _, if_pos he⟩
  · simp only [if_neg he]
    cases s.more with
    | cons ke rest => exact ⟨none, _, rfl⟩
    | nil =>
      by_cases hp : s.pollable = false
      · simp only [if_pos hp]
        by_cases ho : 0 < s.outQueue
        · exact ⟨none, _, if_pos ho⟩
        · simp only [if_neg ho]
          by_cases hn : 0 < s.tasks
          · simp only [if_pos hn]
            exact exists_doTask t s
          · exact ⟨none, _, if_neg hn⟩
      · simp only [if_neg hp]
        by_cases hlimit : TASK_QUEUE_LIMIT < s.tasks
        · simp only [if_pos hlimit]
          exact exists_doTask t s
        · simp only [if_neg hlimit, pollOrTake]
          by_cases hn : s.num = s.off
          · exact ⟨none, _, if_pos hn⟩
          · simp only [if_neg hn]
            exact ⟨none, exists_takeBacklog hb hl hh (by simpa using hp) hn t⟩

theorem exists_relock {t : ℕ} {evs : List Event} (hb : Backlog s) (hh : Handed N s) (htN : t < N)
    (ht : s.pc t = .polled evs) : ∃ wake s', relock N t wake 0 evs s = some s' := by
  obtain ⟨wake, s₁, hs⟩ := exists_signal N { s with off := 0, num := evs.length, pollable := true }
  have hbacklog := (hh.polled t htN evs ht).1
  obtain ⟨ke, rest, rfl⟩ := List.exists_cons_of_ne_nil (hb.polled t evs ht)
  have htake : takeBacklog t 0 s₁ = some (processHandler t ke 0
      { s₁ with off := s₁.off + 1, taken := s₁.taken ++ [ke] }) := by
    simp only [takeBacklog, Signalled.toQueues ⟨wake, hs⟩, hbacklog]
    rfl
  exact ⟨wake, _, Option.bind_eq_some_iff.mpr ⟨s₁, hs, htake⟩⟩

theorem worker_goes_on_of_busy (hr : (loopSystem N fun _ => .main).Reachable P s) {t : ℕ} (htN : t < N)
    (hw : s.pc t ≠ .waiting) (hp : s.pc t ≠ .polling) (hx : s.pc t ≠ .exited) :
    ∃ a s', a.arrival = false ∧ step N s a = some s' := by
  have hworkers := reachable_workers hr
  have hb := reachable_backlog hr
  have hh := reachable_handed hr
  have hrun (h : ∃ wake s', runThread N s t wake 0 = some s') :
      ∃ a s', a.arrival = false ∧ step N s a = some s' := by
    obtain ⟨wake, s', hs⟩ := h
    exact ⟨.run t wake 0, s', rfl, by simp only [step, htN, if_true, hs]⟩
  cases hpc : s.pc t with
  | waiting => exact absurd hpc hw
  | polling => exact absurd hpc hp
  | exited => exact absurd hpc hx
  | outside => exact absurd hpc (hworkers t).2.1
  | nbQueue => exact absurd hpc (hworkers t).2.2
  | start | woken =>
    refine hrun ?_
    simp only [runThread, hpc, (hworkers t).1]
    exact exists_threadMain hb (reachable_led hr) hh t
  | polled evs =>
    refine hrun ?_
    simp only [runThread, hpc]
    exact exists_relock hb hh htN hpc
  | dispatch ke =>
    refine hrun ⟨none, ?_⟩
    cases hslot : s.slot ke.ident <;> simp [runThread, hpc, hslot]
  | timedOut | task | flush | rearmOut | evReset | rearm | drop | reset =>
    refine hrun ⟨none, ?_⟩
    simp only [runThread, hpc]
    exact ⟨_, rfl⟩
  | outEvent => exact ⟨.outDone t true, _, rfl, by simp only [step]; rw [if_pos ⟨htN, hpc⟩]⟩
  | running ke h flags =>
    obtain ⟨s', hs'⟩ : ∃ s', finishHandler N s t true = some s' := by
      simp only [finishHandler, hpc, if_true]
      split_ifs <;> exact ⟨_, rfl⟩
    exact ⟨.finish t true, s', rfl, by simp only [step, htN, if_true, hs']⟩

/-! ## Rest -/

/-- Every worker waits or polls. -/
def Resting (N : ℕ) (s : State) : Prop := ∀ t < N, s.pc t = .waiting ∨ s.pc t = .polling

/-- Nothing is queued, one worker polls and the others wait. -/
structure Settled (N : ℕ) (s : State) : Prop where
  tasks : s.tasks = 0
  more : s.more = []
  outQueue : s.outQueue = 0
  backlog : s.off = s.num
  poller : ∃ t < N, s.pc t = .polling ∧ ∀ u < N, u ≠ t → s.pc u = .waiting

def Action.ends : Action → Bool
  | .endBegin => true
  | _ => false

/-- `end()` is not called. -/
def running (_ : State) (a : Action) : Prop := a.ends = false

instance (s : State) (a : Action) : Decidable (running s a) := inferInstanceAs (Decidable (a.ends = false))

theorem endFlag_step (h : Step N s a s') (ha : a.ends = false) : s'.endFlag = s.endFlag := by
  cases h with
  | dispatches htN hd => rw [hd.toQueues]
  | registers hr => rw [hr.toQueues]
  | submit hs | more htN ht hf hs => simp [hs.toQueues]
  | @outDone t empty htN ht => cases empty <;> rfl
  | call | wakeup | waitReturns | timeout | endReturn => rfl
  | endBegin => cases ha
  | locked htN hl =>
    cases hl with
    | task ht hn hs | relock ht hs hb => simp [hs.toQueues]
    | @done last ht => cases last <;> rfl
    | _ => rfl

theorem reachable_endFlag (h : (loopSystem N fun _ => .main).Reachable running s) : s.endFlag = false := by
  refine h.invariant (I := fun s => s.endFlag = false) ?_ fun s a s' _ hi hp hs => ?_
  · rintro _ rfl
    rfl
  · exact (endFlag_step (step_cases hs) hp).trans hi

theorem Resting.settled (hN : 2 ≤ N) (hr : (loopSystem N fun _ => .main).Reachable running s)
    (h : Resting N s) : Settled N s := by
  have hend := reachable_endFlag hr
  have hled := reachable_led hr
  have hcovered := reachable_covered hN hr
  have hnone : ¬ ∃ t < N, s.pool.mode t = .active := by
    rintro ⟨t, htN, ht⟩
    change (s.pc t).mode = .active at ht
    obtain hpc | hpc := h t htN <;> rw [hpc] at ht <;> cases ht
  have hwork : ¬ s.Work := fun hwork => hnone (hcovered.attended hled hend hwork)
  have hfree : s.pollable = false := by
    by_contra hp
    have hp' : s.pool.free = true := by rwa [Bool.not_eq_false] at hp
    obtain ⟨a, haN, b, hbN, hab, hwa, hwb⟩ := hcovered.spare hend hp'
    exact hnone (Pool.exists_active hled (hcovered.staffed hend) haN hbN hab hwa hwb)
  obtain ⟨t, htN, ht⟩ := reachable_occupied hr hfree
  have hpoll : s.pc t = .polling := by
    refine (h t htN).resolve_left fun hw => ?_
    change (s.pc t).mode = .leading at ht
    rw [hw] at ht
    cases ht
  have hle := (reachable_backlog hr).polling hfree
  simp only [State.Work, not_or, not_lt, ne_eq, not_not] at hwork
  refine ⟨by omega, hwork.2.1, by omega, hle, t, htN, hpoll, fun u huN hut => ?_⟩
  refine (h u huN).resolve_right fun hu => hut (hled.unique u huN t htN ?_ ht)
  change (s.pc u).mode = .leading
  rw [hu]
  rfl

/-- Two workers or more get through with all that is queued and come to rest, one of them polling: in every
run before `end()`, however the workers are scheduled, whatever tasks and handlers do, and with at most
`k` more arrivals on the way. Until then some worker can always go on by itself. -/
theorem work_done (hN : 2 ≤ N) (h : (loopSystem N fun _ => .main).Reachable running s) (k : ℕ) :
    (loopSystem N fun _ => .main).Inevitable running Action.arrival (Settled N) k s := by
  by_cases hrest : Settled N s
  · exact .here hrest
  refine System.Inevitable.of_rank (State.due N) (I := fun s =>
    (loopSystem N fun _ => .main).Reachable running s ∧ ¬ Settled N s) ?_ ?_ k ⟨h, hrest⟩
  · rintro s ⟨hr, hrest⟩
    obtain ⟨t, htN, hw, hp⟩ : ∃ t < N, s.pc t ≠ .waiting ∧ s.pc t ≠ .polling := by
      by_contra hall
      refine hrest (Resting.settled hN hr fun t htN => ?_)
      by_contra hne
      exact hall ⟨t, htN, not_or.mp hne⟩
    have hx : s.pc t ≠ .exited := by
      intro hx
      refine (reachable_covered hN hr).staffed (reachable_endFlag hr) t htN ?_
      change (s.pc t).mode = .gone
      rw [hx]
      rfl
    obtain ⟨a, s', ha, hs⟩ := worker_goes_on_of_busy hr htN hw hp hx
    refine ⟨a, s', ?_, ha, hs⟩
    cases a <;> first | rfl | cases ha
  · rintro s a s' ⟨hr, -⟩ hp hs
    by_cases hrest : Settled N s'
    · exact .inl hrest
    · exact .inr ⟨⟨.step hr hp hs, hrest⟩, fun ha => due_step hr hs ha⟩

/-- Worker 0 polls, worker 1 waits, and three tasks are submitted. -/
theorem work_done_burst : ∃ s, (loopSystem 2 fun _ => .main).Reachable running s ∧ s.tasks = 3 ∧
    s.pc 0 = .polling ∧ s.pc 1 = .woken ∧
    (loopSystem 2 fun _ => .main).Inevitable running Action.arrival (Settled 2) 5 s := by
  obtain ⟨s, hs, hq⟩ := System.exists_reachable_of_exec (S := loopSystem 2 fun _ => .main) (P := running)
    (s := .init fun _ => .main)
    [.run 0 none 0, .run 1 none 0, .submit (some 1), .submit none, .submit none]
    (fun s => s.tasks == 3 && s.pc 0 == .polling && s.pc 1 == .woken) rfl (by decide)
  simp only [Bool.and_eq_true, beq_iff_eq] at hq
  exact ⟨s, hs, hq.1.1, hq.1.2, hq.2, work_done le_rfl hs 5⟩

end Mpio.Wavy.Loop
