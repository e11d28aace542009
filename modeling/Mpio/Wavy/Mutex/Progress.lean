import Mathlib.Data.Prod.Lex
import Mpio.Wavy.Empty
import Mpio.Wavy.Mutex.Solo

/-!
# `flush` without workers

Without workers `flush` calls `run_once` itself until `m_task_queue` and `out` are empty. `Served` says
what the kernel has to do for that: it reports every pending descriptor and asks for no retry. The code
of the user may run its own calls to the end and add work a number of times; it does not call `end`.

`View.rank` falls with every step of the thread. It goes by the bytes that are queued and the tasks and
events not yet taken; then by whether the event of `out` is on the way, by what is left of the backlog,
and by the place of the thread. So `flush` returns.

After `end` it does not, if there was anything to do. `run_once` looks at `m_end_flag` first and returns
with the lock held, and `flush` calls it again (`flush_returns_iff`).
-/

namespace Mpio.Wavy.Mutex

open Lib Finset

variable {n m : ℕ} {mc : Memcpy} {s s' : State} {v v' : View} {a : Action} {x x' : Solo}

/-! ## What is asked of the kernel -/

/-- What may happen while `flush` runs. A wait reports `out` when a watched descriptor is writable, and
`poll_event` reports all of these; no write has to be tried again. Nobody calls `end`. -/
def Served (n m : ℕ) (mc : Memcpy) (x : Solo) (a : Action) : Prop :=
  Sole n m mc x a ∧
  match a with
  | .run _ _ found => ∀ fd < n, x.loop.out.interest fd = .armed → fd ∈ found
  | .waitReturns _ idents =>
    x.armed = true → (∃ fd < n, x.loop.out.interest fd = .armed) → Loop.outIdent ∈ idents
  | .writeEvent _ as => ∀ e, x.loop.pc 0 = .outEvent e →
    ∀ c ∈ (out.writeEvent x.loop.out.world mc (x.loop.out.ctx e) as).calls, c.2.retry = false
  | .endBegin | .endReturn => False
  | _ => True

/-- The steps that bring new work, and a wait that returns nothing. -/
def Action.extra : Action → Bool
  | .more _ _ | .submit _ _ | .timeout _ => true
  | .commit (.goOn _) => false
  | .commit _ => true
  | _ => false

/-- There is something to flush. -/
def State.Unflushed (s : State) : Prop := s.out.watching ≠ 0 ∨ s.tasks ≠ []

/-- `flush` has returned, and there is nothing left. -/
def Flushed (x : Solo) : Prop := x.loop.pc 0 = .outside ∧ ¬ x.loop.Unflushed

/-- A call of `run_once` that did something: it took a task, an event of `out`, an event of
`m_more_queue` or one of the backlog, or went to the kernel. -/
def Works (v v' : View) : Prop :=
  (∃ f, v.tasks = f :: v'.tasks) ∨ (∃ e, v.out.queue = e :: v'.out.queue) ∨
  (∃ ident, v.polling.more = ident :: v'.polling.more) ∨
  (v.polling.off < v.polling.num ∧ v'.polling.off = v.polling.off + 1) ∨ v'.pc = .polling

/-! ## How much there is to do -/

/-- What is left to do for a descriptor: its commit, its bytes, and one event to end with. -/
def weight (o : Wavy.State) (fd : ℕ) : ℕ :=
  let queue := if (o.ctx fd).empty then 0 else 1 + (items o.world (o.ctx fd).recs).length
  match o.cs fd with
  | .idle | .reactivate => queue
  | .addFd => queue + 2
  | .incr => queue + 1
  | .remove | .clear | .decr => 0

def View.load (n : ℕ) (v : View) : ℕ :=
  ∑ fd ∈ range n, weight v.out fd + v.tasks.length + v.polling.more.length

/-- An event of `out` is on the way. -/
def View.Due (v : View) : Prop := Loop.outIdent ∈ v.remaining ∨ v.out.queue ≠ [] ∨ v.pc.takes ≠ []

instance (v : View) : Decidable v.Due := inferInstanceAs (Decidable (_ ∨ _ ∨ _))

/-- How far it is to the next decision of `flush`: the steps of `write_event` first, then the others. -/
def stagePlace : Stage → ℕ
  | .remove => 8
  | .clear => 7
  | .decr => 6
  | .idle | .addFd | .incr | .reactivate => 5

def Pc.place (cs : ℕ → Stage) : Pc → ℕ
  | .writing e => stagePlace (cs e)
  | .task _ _ => 5
  | .broadcast | .rearm | .handler _ | .timedOut => 4
  | .flushBack => 3
  | .flushTop => 2
  | .flushHold => 1
  | _ => 0

def View.rank (n : ℕ) (v : View) : ℕ ×ₗ ℕ ×ₗ ℕ :=
  toLex (2 * v.load n + if v.Due then 0 else 1,
    toLex (v.remaining.length, 10 * v.out.queue.length + v.pc.place v.out.cs))

theorem rank_lt_of_load (h : v'.load n < v.load n) : v'.rank n < v.rank n := by
  apply Prod.Lex.toLex_lt_toLex.mpr
  left
  show 2 * v'.load n + (if v'.Due then 0 else 1) < 2 * v.load n + if v.Due then 0 else 1
  split_ifs <;> omega

theorem rank_lt_of_due (hload : v'.load n ≤ v.load n) (hdue : v'.Due) (hno : ¬ v.Due) :
    v'.rank n < v.rank n := by
  apply Prod.Lex.toLex_lt_toLex.mpr
  left
  show 2 * v'.load n + (if v'.Due then 0 else 1) < 2 * v.load n + if v.Due then 0 else 1
  rw [if_pos hdue, if_neg hno]
  omega

theorem rank_lt_of_rest (hload : v'.load n ≤ v.load n) (hdue : v.Due → v'.Due)
    (h : v'.remaining.length < v.remaining.length ∨ v'.remaining.length = v.remaining.length ∧
      10 * v'.out.queue.length + v'.pc.place v'.out.cs < 10 * v.out.queue.length + v.pc.place v.out.cs) :
    v'.rank n < v.rank n := by
  have hle : 2 * v'.load n + (if v'.Due then 0 else 1) ≤ 2 * v.load n + if v.Due then 0 else 1 := by
    by_cases hd : v.Due
    · rw [if_pos hd, if_pos (hdue hd)]
      omega
    · rw [if_neg hd]
      split_ifs <;> omega
  apply Prod.Lex.toLex_lt_toLex.mpr
  rcases Nat.lt_or_eq_of_le hle with hlt | heq
  · exact .inl hlt
  · exact .inr ⟨heq, Prod.Lex.toLex_lt_toLex.mpr h⟩

/-! ## The work of the sections -/

/-- `execute` returns true after it has sent something, if no call has to be tried again. -/
theorem execRecs_sends {w : World} {rs : List Rec} {as : List Answer}
    (h : ∀ c ∈ (execRecs w rs as).calls, c.2.retry = false) (hcont : (execRecs w rs as).cont = true) :
    (execRecs w rs as).log ≠ [] := by
  have hsent {l : List Item} {k : ℕ} (hk : k ≠ 0) (hl : l.length ≠ 0) : l.take k ≠ [] := by
    apply List.ne_nil_of_length_pos
    rw [List.length_take]
    omega
  fun_induction execRecs w rs as with
  | case1 as => cases hcont
  | case2 infd off len rs as a call h0 | case6 vec rs as a call h0 =>
    have hno := h _ (List.mem_singleton.mpr rfl)
    rw [show a.retry = true from hcont] at hno
    cases hno
  | case3 infd off len rs as a call sent h0 hlt wl =>
    refine hsent h0 ?_
    simp only [Rec.items, List.length_map, length_rangeOf]
    omega
  | case7 vec rs as a call sent h0 i wl hstop =>
    refine hsent h0 ?_
    obtain ⟨v1, v, v2, rfl, rfl, hlt, -⟩ := stopAt_some hstop
    simp only [Rec.items, List.length_map, World.length_vec, vecLen, List.map_append, List.sum_append,
      List.map_cons, List.sum_cons]
    omega
  | case4 infd off len rs as a call sent h0 hge ih | case8 vec rs as a call sent h0 hstop ih =>
    have hlog := ih (fun c hc => h c (List.mem_append_right _ hc)) hcont
    exact List.append_ne_nil_of_right_ne_nil _ hlog
  | case5 fin user rs as ih =>
    have hlog := ih (fun c hc => h c (by simpa [Progress.after] using hc)) hcont
    exact List.append_ne_nil_of_right_ne_nil _ hlog

/-- Outside the sections an event that is taken finds something queued. -/
theorem Kept.taken_queued {o : Wavy.State} {e : ℕ} (h : Kept n o) (hmem : e ∈ o.taken)
    (hidle : o.cs e = .idle) : e < n ∧ (o.ctx e).empty = false := by
  have hpos : 0 < o.taken.count e := List.count_pos_iff.mpr hmem
  have hinv := h.watch.fd e
  rw [hidle] at hinv
  have hne : (o.ctx e).empty = false := by
    rcases hinv with ⟨-, -, ht⟩ | ⟨hne, -, -⟩
    · simp only [tokens] at ht
      omega
    · exact hne
  refine ⟨?_, hne⟩
  by_contra hge
  have hbeyond := (h.beyond e (by omega)).2
  rw [hne] at hbeyond
  cases hbeyond

theorem weight_idle {o : Wavy.State} {fd : ℕ} (hcs : o.cs fd = .idle) (hne : (o.ctx fd).empty = false) :
    weight o fd = 1 + (items o.world (o.ctx fd).recs).length := by
  unfold weight
  rw [hcs, hne]
  rfl

theorem weight_writeEvent {o o' : Wavy.State} {e : ℕ} {as : List Answer} (h : Kept n o) (hmem : e ∈ o.taken)
    (hi : Intact mc o (.writeEvent e as))
    (hretry : ∀ c ∈ (out.writeEvent o.world mc (o.ctx e) as).calls, c.2.retry = false)
    (ho : stepOut n m mc o (.writeEvent e as) = some o') :
    e < n ∧ (∀ fd, fd ≠ e → weight o' fd = weight o fd) ∧ weight o' e < weight o e := by
  obtain ⟨rfl, hidle⟩ := stepOut_enter (enter_writeEvent hmem as) ho
  obtain ⟨hlt, hne⟩ := h.taken_queued hmem hidle
  refine ⟨hlt, fun fd hfd => ?_, ?_⟩
  · simp only [weight, State.entered, Function.update_of_ne hfd]
  · rw [weight_idle hidle hne]
    obtain ⟨hcont, hlog, hcalls, hleft⟩ := (h.data.ctx e).tryWrite o.world mc as
    have hrecs := (hleft hi).recs_eq
    simp only [weight, State.entered, Function.update_self, out.writeEvent]
    by_cases hc : ((o.ctx e).tryWrite o.world mc as).2.1.cont = true
    · -- something was sent, and the rest is what was not
      rw [if_pos hc, hrecs]
      have hsent : (execRecs o.world (o.ctx e).recs as).log ≠ [] := by
        apply execRecs_sends
        · rw [← hcalls]
          exact hretry
        · rw [← hcont]
          exact hc
      have hitems := congrArg List.length (execRecs_items o.world (o.ctx e).recs as)
      have hpos := List.length_pos_of_ne_nil hsent
      rw [List.length_append] at hitems
      split_ifs <;> (simp only; omega)
    · rw [if_neg hc]
      simp only
      omega

theorem weight_goOn {o o' : Wavy.State} {e : ℕ} (hw : WatchInv n o) (h : o.goOn e = some o') :
    (∀ fd, fd ≠ e → weight o' fd = weight o fd) ∧ (ofCommit (o.cs e) = true → weight o' e < weight o e) ∧
    (ofCommit (o.cs e) = false → weight o' e = weight o e) := by
  have hworld := (goOn_own h).2.2.2
  refine ⟨fun fd hfd => ?_, ?_⟩
  · obtain ⟨hctx, hcs, -⟩ := State.goOn_other h hfd
    unfold weight
    rw [hctx, hcs, hworld]
  · have hinv := hw.fd e
    unfold State.goOn at h
    cases hcs : o.cs e with
    | idle => simp [hcs] at h
    | addFd | incr =>
      rw [hcs] at h
      obtain rfl := Option.some.inj h
      refine ⟨fun _ => ?_, nofun⟩
      simp only [weight, Function.update_self, hcs]
      omega
    | reactivate | remove | clear =>
      rw [hcs] at h
      obtain rfl := Option.some.inj h
      refine ⟨nofun, fun _ => ?_⟩
      simp only [weight, Function.update_self, hcs]
    | decr =>
      rw [hcs] at h hinv
      obtain rfl := Option.some.inj h
      refine ⟨nofun, fun _ => ?_⟩
      simp only [weight, Function.update_self, hcs, hinv.1, if_true]

theorem load_lt {o : Wavy.State} {e : ℕ} {p : Pc} (he : e < n)
    (hsame : ∀ fd, fd ≠ e → weight o fd = weight v.out fd) (hlt : weight o e < weight v.out e) :
    View.load n { v with pc := p, out := o } < v.load n := by
  have hsum := sum_move he hsame
  simp only [View.load]
  omega

theorem load_eq {o : Wavy.State} {e : ℕ} {p : Pc} (he : e < n)
    (hsame : ∀ fd, fd ≠ e → weight o fd = weight v.out fd) (heq : weight o e = weight v.out e) :
    View.load n { v with pc := p, out := o } = v.load n := by
  have hsum := sum_move he hsame
  simp only [View.load]
  omega

/-! ## Inside `flush` -/

/-- The places of the loop. -/
def Pc.flushes : Pc → Bool
  | .flushTop | .flushHold | .flushBack | .polling | .polled _ | .timedOut | .outEvent _ | .writing _
  | .rearm | .handler _ | .task _ _ | .broadcast => true
  | _ => false

/-- Those at which nothing is known about what there is to do. -/
def Pc.roams : Pc → Bool
  | .flushHold | .polling => false
  | p => p.flushes

/-- The thread is inside `flush`, and `end` has not been called. It goes on only with something to
flush, and to the kernel only with something to write. -/
structure Flushing (v : View) : Prop where
  kind : v.kind = .flush
  place : v.pc.flushes = true
  ended : v.polling.endFlag = false
  hold : v.pc = .flushHold → v.out.watching ≠ 0 ∨ v.tasks ≠ []
  polling : v.pc = .polling → v.out.watching ≠ 0

theorem Flushing.to {p : Pc} {pol : Polling} {tasks : List ℕ} {o : Wavy.State} (h : Flushing v)
    (hp : p.roams = true) (hend : pol.endFlag = v.polling.endFlag) : Flushing ⟨p, v.kind, pol, tasks, o⟩ := by
  refine ⟨h.kind, ?_, hend.trans h.ended, ?_, ?_⟩
  · cases p with
    | flushHold | polling => cases hp
    | _ => exact hp
  · rintro rfl
    cases hp
  · rintro rfl
    cases hp

/-- In front of the kernel some watched descriptor is armed. -/
theorem OutInv.polling_armed (h : OutInv n v) (hpc : v.pc = .polling) (hw : v.out.watching ≠ 0) :
    ∃ fd < n, v.out.interest fd = .armed := by
  have hidle : ∀ fd, v.out.cs fd = .idle := h.idle (by rw [hpc]; nofun) (by rw [hpc]; nofun)
  have hqueue := h.spent (by rw [hpc]; rfl)
  have htaken : v.out.taken = [] := by
    rw [h.taken, hpc]
    rfl
  have hsum : ∑ fd ∈ range n, counted (v.out.cs fd) (v.out.ctx fd) ≠ 0 := by
    intro hzero
    apply hw
    rw [h.kept.watch.watching, hzero]
    rfl
  obtain ⟨fd, hfd, hne⟩ := exists_ne_zero_of_sum_ne_zero hsum
  refine ⟨fd, mem_range.mp hfd, ?_⟩
  -- what is queued has its one token, and there is no other place for it
  have hinv := h.kept.watch.fd fd
  rw [hidle fd] at hinv hne
  rcases hinv with ⟨hemp, -⟩ | ⟨-, -, htok⟩
  · rw [counted, if_pos hemp] at hne
    exact absurd rfl hne
  · by_contra hno
    simp [tokens, h.backlog, hqueue, htaken, hno] at htok

theorem Hops.rank {p : Pc} (h : Hops v p) (hlt : p.place v.out.cs < v.pc.place v.out.cs) :
    View.rank n { v with pc := p } < v.rank n := by
  obtain ⟨hl, ht, -⟩ := h.source
  obtain ⟨hl', ht', -⟩ := h.target
  have hrem : View.remaining { v with pc := p } = v.remaining := by
    rw [remaining_of_leads hl]
    exact remaining_of_leads hl'
  refine rank_lt_of_rest le_rfl ?_ (.inr ⟨by rw [hrem], by simpa using hlt⟩)
  unfold View.Due
  rw [hrem, ht]
  rintro (hmem | hq | hne)
  · exact .inl hmem
  · exact .inr (.inl hq)
  · exact absurd rfl hne

/-- An event of the backlog is processed. If it is the one of `out`, it brings an event into `m_queue`. -/
theorem Processes.rank {found : List ℕ} {ident : ℕ} {pol : Polling}
    (hp : Processes found ident { v with polling := pol } v') (hmore : pol.more = v.polling.more)
    (hrem : v.remaining = ident :: pol.rest) (htakes : v.pc.takes = [])
    (hfound : Loop.outIdent ∈ v.remaining → found ≠ []) : v'.rank n < v.rank n := by
  have hload {p : Pc} {o : Wavy.State} (hctx : o.ctx = v.out.ctx) (hcs : o.cs = v.out.cs)
      (hworld : o.world = v.out.world) : View.load n ⟨p, v.kind, pol, v.tasks, o⟩ ≤ v.load n := by
    unfold View.load weight
    simp only [hctx, hcs, hworld, hmore]
    exact le_rfl
  cases hp with
  | @out o hi ho =>
    have hne := hfound (by rw [hrem, hi]; exact List.mem_cons_self ..)
    unfold State.pollWait at ho
    split_ifs at ho
    obtain rfl := Option.some.inj ho
    refine rank_lt_of_rest (hload rfl rfl rfl) (fun _ => .inr (.inl ?_)) (.inl ?_)
    · exact List.append_ne_nil_of_right_ne_nil _ hne
    · rw [hrem]
      exact Nat.lt_succ_self _
  | handler hi =>
    refine rank_lt_of_rest (hload rfl rfl rfl) ?_ (.inl ?_)
    · unfold View.Due
      rw [hrem, htakes]
      rintro (hmem | hq | hne)
      · exact .inl ((List.mem_cons.mp hmem).resolve_left (Ne.symm hi))
      · exact .inr (.inl hq)
      · exact absurd rfl hne
    · rw [hrem]
      exact Nat.lt_succ_self _

theorem Processes.flushing {found : List ℕ} {ident : ℕ} {pol : Polling} (h : Flushing v)
    (hp : Processes found ident { v with polling := pol } v') (hend : pol.endFlag = v.polling.endFlag) :
    Flushing v' := by
  cases hp with
  | out hi ho => exact h.to rfl hend
  | handler hi => exact h.to rfl hend

theorem RunsOnce.flushing {found : List ℕ} (hr : RunsOnce found v v') (h : Flushing v) (hp : PollInv v)
    (hpc : v.pc = .flushHold) (hfound : Loop.outIdent ∈ v.remaining → found ≠ []) :
    Flushing v' ∧ v'.rank n < v.rank n := by
  have htakes : v.pc.takes = [] := by
    rw [hpc]
    rfl
  have hrem : v.remaining = v.polling.rest := remaining_of_leads (by rw [hpc]; rfl)
  have hplace : v.pc.place v.out.cs = 1 := by
    rw [hpc]
    rfl
  cases hr with
  | ended he =>
    rw [h.ended] at he
    cases he
  | @more ident rest _ he hm hproc =>
    refine ⟨hproc.flushing h rfl, rank_lt_of_load ?_⟩
    cases hproc with
    | out hi ho =>
      have hmore := hp.more
      rw [hm, hi] at hmore
      exact absurd (List.mem_cons_self ..) hmore
    | handler hi =>
      simp only [View.load, hm, List.length_cons]
      omega
  | @task f rest he hm hf =>
    refine ⟨h.to rfl rfl, rank_lt_of_load ?_⟩
    simp only [View.load, hf, List.length_cons]
    omega
  | @out e rest he hm hf hq =>
    refine ⟨h.to rfl rfl, rank_lt_of_rest le_rfl (fun _ => .inr (.inr nofun)) (.inr ⟨?_, ?_⟩)⟩
    · rw [hrem]
      rfl
    · show 10 * rest.length + 0 < _
      rw [hq, hplace, List.length_cons]
      omega
  | poll he hm hf hq hn =>
    have hwatch : v.out.watching ≠ 0 := (h.hold hpc).resolve_right fun hne => hne hf
    refine ⟨⟨h.kind, rfl, h.ended, nofun, fun _ => hwatch⟩, rank_lt_of_rest le_rfl ?_ (.inr ⟨?_, ?_⟩)⟩
    · unfold View.Due
      rw [hrem, htakes]
      rintro (hmem | hne | hne)
      · exact .inl hmem
      · exact absurd hq hne
      · exact absurd rfl hne
    · rw [hrem]
      rfl
    · show 10 * v.out.queue.length + 0 < _
      rw [hplace]
      omega
  | backlog he hm hf hq hn hb hproc =>
    exact ⟨hproc.flushing h rfl, hproc.rank rfl (hrem.trans (rest_take hp.order hn hb)) htakes hfound⟩

theorem Flushing.writing {e : ℕ} {o : Wavy.State} {p : Pc} (h : Flushing v) (hw : WatchInv n v.out)
    (hpc : v.pc = .writing e) (hst : ofCommit (v.out.cs e) = false)
    (ho : stepOut n m mc v.out (.goOn e) = some o)
    (hp : (v.out.cs e = .remove ∨ v.out.cs e = .clear) ∧ p = .writing e ∨
      v.out.cs e = .reactivate ∧ p = v.kind.back ∨
      v.out.cs e = .decr ∧ (p = v.kind.back ∨ p = .broadcast)) :
    Flushing { v with pc := p, out := o } ∧ View.rank n { v with pc := p, out := o } < v.rank n := by
  obtain ⟨he, hgo⟩ := stepOut_goOn ho
  obtain ⟨hcs, -⟩ := goOn_own hgo
  have hqueue := State.goOn_queue hgo
  obtain ⟨hsame, -, heq⟩ := weight_goOn hw hgo
  have hback : v.kind.back = .flushBack := by
    rw [h.kind]
    rfl
  have hplace : p.roams = true ∧ p.leads = false ∧ p.place o.cs < stagePlace (v.out.cs e) := by
    obtain ⟨hst, rfl⟩ | ⟨hst, rfl⟩ | ⟨hst, rfl | rfl⟩ := hp
    · refine ⟨rfl, rfl, ?_⟩
      show stagePlace (o.cs e) < _
      rw [hcs]
      obtain hst | hst := hst <;> (rw [hst]; decide)
    · rw [hst, hback]
      exact ⟨rfl, rfl, (by omega : 3 < 5)⟩
    · rw [hst, hback]
      exact ⟨rfl, rfl, (by omega : 3 < 6)⟩
    · rw [hst]
      exact ⟨rfl, rfl, (by omega : 4 < 6)⟩
  obtain ⟨hf, hl, hlt⟩ := hplace
  have hrem : View.remaining { v with pc := p, out := o } = v.remaining := by
    rw [remaining_of_leads (v := v) (by rw [hpc]; rfl)]
    exact remaining_of_leads hl
  refine ⟨h.to hf rfl, rank_lt_of_rest (load_eq he hsame (heq hst)).le ?_ (.inr ⟨by rw [hrem], ?_⟩)⟩
  · unfold View.Due
    rw [hrem, hpc, hqueue]
    rintro (hmem | hq | hne)
    · exact .inl hmem
    · exact .inr (.inl hq)
    · exact absurd rfl hne
  · show 10 * o.queue.length + p.place o.cs < _
    rw [hqueue, hpc]
    exact Nat.add_lt_add_left hlt _

theorem user_roams {p : Pc} (h : p.user = true) (hf : p.flushes = true) : p.roams = true := by
  cases p with
  | flushHold | polling => cases h
  | _ => exact hf

theorem Flushing.hop {p : Pc} (h : Flushing v) (hops : Hops v p) :
    (p = .outside ∧ v.out.watching = 0 ∧ v.tasks = []) ∨
    Flushing { v with pc := p } ∧ View.rank n { v with pc := p } < v.rank n := by
  have hplace := h.place
  have hback : v.kind.back = .flushBack := by
    rw [h.kind]
    rfl
  have hgo (hp : p.roams = true) (hlt : p.place v.out.cs < v.pc.place v.out.cs) :
      Flushing { v with pc := p } ∧ View.rank n { v with pc := p } < v.rank n :=
    ⟨h.to hp rfl, hops.rank hlt⟩
  have hops' := hops
  cases hops with
  | flushLock hpc | hasQueue hpc | noQueue hpc | outFront hpc | hasTask hpc | taskFront hpc | taskLast hpc =>
    rw [hpc] at hplace
    cases hplace
  | executedLast hpc =>
    refine .inr (hgo rfl ?_)
    rw [hpc]
    exact (by omega : 4 < 5)
  | back hpc =>
    rw [hback] at hgo ⊢
    refine .inr (hgo rfl ?_)
    obtain hpc | hpc | hpc | ⟨i, hpc⟩ | ⟨f, hpc⟩ := hpc
    · rw [hpc]
      exact (by omega : 3 < 4)
    · rw [hpc]
      exact (by omega : 3 < 4)
    · rw [hpc] at hplace
      cases hplace
    · rw [hpc]
      exact (by omega : 3 < 4)
    · rw [hpc]
      exact (by omega : 3 < 5)
  | flushHold hpc hc =>
    refine .inr ⟨⟨h.kind, rfl, h.ended, fun _ => hc, nofun⟩, hops'.rank ?_⟩
    rw [hpc]
    exact (by omega : 1 < 2)
  | flushed hpc hc => exact .inl ⟨rfl, hc⟩
  | flushBack hpc =>
    refine .inr (hgo rfl ?_)
    rw [hpc]
    exact (by omega : 2 < 3)

/-- Every step ends `flush` or keeps it going, and only an extra one does not bring it closer to the
end. -/
theorem Flushing.lone (h : Flushing x.loop.view) (hinv : SoloInv n x) (hserved : Served n m mc x a)
    (hs : Lone n m mc x.loop.view a v') :
    (v'.pc = .outside ∧ v'.out.watching = 0 ∧ v'.tasks = []) ∨
    Flushing v' ∧ (a.extra = false → v'.rank n < x.loop.view.rank n) := by
  obtain ⟨hsole, hserved⟩ := hserved
  have hplace := h.place
  -- the backlog has the event of `out` only when there is something to report
  have hfound {found : List ℕ} (hall : ∀ fd < n, x.loop.out.interest fd = .armed → fd ∈ found)
      (hmem : Loop.outIdent ∈ x.loop.view.remaining) : found ≠ [] := by
    obtain ⟨fd, hlt, hfd⟩ := hinv.token.ready hmem
    exact List.ne_nil_of_mem (hall fd hlt hfd)
  cases hs with
  | hop hops =>
    obtain hend | ⟨hf, hlt⟩ := h.hop hops
    · exact .inl hend
    · exact .inr ⟨hf, fun _ => hlt⟩
  | once hpc hr =>
    obtain ⟨hpc, -⟩ | hpc := hpc
    · rw [hpc] at hplace
      cases hplace
    · obtain ⟨hf, hlt⟩ := hr.flushing h hinv.poll hpc (hfound hserved)
      exact .inr ⟨hf, fun _ => hlt⟩
  | @polled _ found idents ident _ hpc hb hp =>
    obtain ⟨hback, -⟩ := hinv.poll.polled idents hpc
    have hrem : x.loop.view.remaining = idents := by simp only [View.remaining, hpc]
    refine .inr ⟨hp.flushing h rfl, fun _ => hp.rank rfl ?_ (by rw [hpc]; rfl) (hfound hserved)⟩
    rw [hrem, ← hback]
    exact rest_polled hb
  | @timedOut _ _ p hpc hto =>
    obtain ⟨rfl, -⟩ | ⟨-, hk⟩ := hto
    · have hback : x.loop.view.kind.back = .flushBack := by
        rw [h.kind]
        rfl
      rw [hback]
      have hrem : x.loop.view.remaining = x.loop.view.polling.rest := remaining_eq fun _ => by
        rw [hpc]
        exact Pc.noConfusion
      refine .inr ⟨h.to rfl rfl, fun _ => rank_lt_of_rest le_rfl ?_ (.inr ⟨?_, ?_⟩)⟩
      · unfold View.Due
        rw [hrem, hpc]
        exact id
      · rw [hrem]
        rfl
      · rw [hpc]
        exact Nat.add_lt_add_left (by omega : 3 < 4) _
    · rw [h.kind] at hk
      cases hk
  | outPop hpc | taskPop hpc | call _ hpc =>
    rw [hpc] at hplace
    cases hplace
  | @writing _ _ e o p hpc ho hp =>
    have hst := hinv.out.stage e
    rw [hpc] at hst
    obtain ⟨hf, hlt⟩ := h.writing hinv.out.kept.watch hpc ((if_pos rfl).mp hst) ho hp
    exact .inr ⟨hf, fun _ => hlt⟩
  | @waitReturns idents hpc hne =>
    refine .inr ⟨h.to rfl rfl, fun _ => rank_lt_of_due le_rfl (.inl ?_) ?_⟩
    · exact hserved (hinv.token.armed hinv.poll hpc) (hinv.out.polling_armed hpc (h.polling hpc))
    · rintro (hmem | hq | ht)
      · rw [remaining_polling hinv.poll hpc] at hmem
        cases hmem
      · exact hq (hinv.out.spent (by rw [hpc]; rfl))
      · rw [hpc] at ht
        exact ht rfl
  | timeout hpc => exact .inr ⟨h.to rfl rfl, fun hext => by cases hext⟩
  | @writeEvent e as o hpc ho =>
    have hmem : e ∈ x.loop.out.taken := by
      rw [show x.loop.out.taken = x.loop.view.pc.takes from hinv.out.taken, hpc]
      exact List.mem_singleton.mpr rfl
    obtain ⟨he, hsame, hlt⟩ :=
      weight_writeEvent hinv.out.kept hmem (hsole e hpc) (hserved e hpc) ho
    exact .inr ⟨h.to rfl rfl, fun _ => rank_lt_of_load (load_lt he hsame hlt)⟩
  | more hpc => exact .inr ⟨h.to (by rw [hpc]; rfl) rfl, fun hext => by cases hext⟩
  | submit =>
    exact .inr ⟨h.to (user_roams hsole hplace) rfl, fun hext => by cases hext⟩
  | @commit act o hb ho =>
    refine .inr ⟨h.to (user_roams hsole.1 hplace) rfl, fun hext => rank_lt_of_load ?_⟩
    cases act with
    | goOn e =>
      obtain ⟨he, hgo⟩ := stepOut_goOn ho
      obtain ⟨hsame, hlt, -⟩ := weight_goOn hinv.out.kept.watch hgo
      exact load_lt he hsame (hlt ((allows_user hsole.1 e _).mp (hinv.out.stage e)))
    | _ => cases hext
  | endBegin => exact hserved.elim
  | endReturn => exact hserved.elim

/-! ## The thread can go on -/

/-- What `poll_event` finds when everything is writable. -/
def armedFds (n : ℕ) (o : Wavy.State) : List ℕ := (List.range n).filter fun fd => o.interest fd = .armed

theorem mem_armedFds {o : Wavy.State} {fd : ℕ} : fd ∈ armedFds n o ↔ fd < n ∧ o.interest fd = .armed := by
  simp [armedFds]

theorem processHandler_goes {ident : ℕ} (hb : s.out.backlog = []) :
    (processHandler 0 ident (armedFds n s.out) s).isSome = true := by
  have hnodup : (armedFds n s.out).Nodup := List.nodup_range.filter _
  have harmed : ∀ fd ∈ armedFds n s.out, s.out.interest fd = .armed := fun fd hfd => (mem_armedFds.mp hfd).2
  have hwait : (s.out.pollWait (armedFds n s.out)).isSome = true := by
    unfold State.pollWait
    rw [if_pos (And.intro hb (And.intro hnodup harmed))]
    rfl
  unfold processHandler pollEvent
  split_ifs
  · simpa only [Option.isSome_map] using hwait
  · rfl

theorem takeBacklog_goes (hb : s.out.backlog = []) (hlt : s.off < s.backlog.length) :
    (takeBacklog 0 (armedFds n s.out) s).isSome = true := by
  unfold takeBacklog
  rw [List.getElem?_eq_getElem hlt]
  exact processHandler_goes (s := { s with off := s.off + 1 }) hb

theorem signal_goes (h : s.pc 0 ≠ .waiting) : signal 1 none s = some s := by
  unfold signal
  apply if_pos
  intro t ht
  rw [Nat.lt_one_iff.mp ht]
  exact h

theorem doTask_goes (hw : s.pc 0 ≠ .waiting) (hf : s.tasks ≠ []) : (doTask 1 0 none s).isSome = true := by
  unfold doTask
  cases htasks : s.tasks with
  | nil => exact absurd htasks hf
  | cons f rest =>
    have hsig := signal_goes (s := { s with tasks := rest, popped := s.popped ++ [f] }) hw
    simp only [hsig]
    split_ifs <;> rfl

theorem doOut_goes (hq : s.out.queue ≠ []) : (doOut 0 s).isSome = true := by
  unfold doOut
  cases hqueue : s.out.queue with
  | nil => exact absurd hqueue hq
  | cons e rest => rfl

theorem runOnce_goes (hw : s.pc 0 ≠ .waiting) (hb : s.out.backlog = []) (hpoll : s.pollable = true)
    (horder : s.off ≤ s.num) (hbound : s.num ≤ s.backlog.length) :
    (runOnce 1 0 none (armedFds n s.out) true s).isSome = true := by
  unfold runOnce
  by_cases he : s.endFlag = true
  · rw [if_pos he]
    rfl
  · rw [if_neg he]
    cases hm : s.more with
    | cons ident rest => exact processHandler_goes (s := { s with more := rest }) hb
    | nil =>
      simp only [hpoll, Bool.true_eq_false, if_false]
      split_ifs with hf hq
      · exact doTask_goes hw hf
      · exact doOut_goes hq
      · unfold pollOrTake
        split_ifs with hn
        · rfl
        · exact takeBacklog_goes hb (by omega)

theorem relock_goes (hm : s.mutex = none) : (s.relock 0).isSome = true := by
  have hfree : (s.unlock 0).mutex = none := by
    rw [mutex_unlock]
    split_ifs
    · rfl
    · exact hm
  unfold State.relock State.lock
  rw [if_pos hfree]
  rfl

theorem goOn_goes {o : Wavy.State} {e : ℕ} (h : Kept n o) (hcs : o.cs e ≠ .idle) :
    (stepOut n m mc o (.goOn e)).isSome = true := by
  have he : e < n := by
    by_contra hge
    exact hcs (h.beyond e (by omega)).1
  simp only [stepOut, enter, if_pos he]
  unfold State.goOn
  cases hst : o.cs e with
  | idle => exact absurd hst hcs
  | addFd | incr | reactivate | remove | clear | decr => rfl

theorem polled_goes {idents : List ℕ} (h : SoloInv n x) (hpc : x.loop.pc 0 = .polled idents) :
    ((x.loop.relock 0).bind (afterPoll 1 0 none (armedFds n x.loop.out) idents)).isSome = true := by
  obtain ⟨hmutex, -⟩ := h.free (by rw [hpc]; rfl)
  obtain ⟨s₀, hs₀⟩ := Option.isSome_iff_exists.mp (relock_goes hmutex)
  have hv := view_relock hs₀
  have hpc₀ : s₀.pc 0 = .polled idents := (congrArg View.pc hv).trans hpc
  have hout : s₀.out = x.loop.out := congrArg View.out hv
  obtain ⟨hback, hne⟩ := h.poll.polled idents hpc
  have hlen : 0 < s₀.backlog.length := by
    rw [show s₀.backlog = x.loop.view.polling.backlog from congrArg (fun v => v.polling.backlog) hv, hback]
    exact List.length_pos_of_ne_nil hne
  have hb : s₀.out.backlog = [] := by
    rw [hout]
    exact h.out.backlog
  have hsig : signal 1 none { s₀ with off := 0, num := idents.length, pollable := true } = _ :=
    signal_goes (show s₀.pc 0 ≠ .waiting by rw [hpc₀]; nofun)
  rw [hs₀, Option.bind_some, afterPoll, hsig, Option.bind_some, ← hout]
  exact takeBacklog_goes (s := { s₀ with off := 0, num := idents.length, pollable := true }) hb hlen

theorem run_goes (h : SoloInv n x) (hf : (x.loop.pc 0).flushes = true)
    (hpoll : x.loop.pc 0 ≠ .polling) (hout : ∀ e, x.loop.pc 0 ≠ .outEvent e) :
    (step 1 n m mc x.loop (.run 0 none (armedFds n x.loop.out))).isSome = true := by
  simp only [step, Nat.lt_one_iff, if_true]
  unfold runThread
  cases hpc : x.loop.pc 0 with
  | polled idents => exact polled_goes h hpc
  | timedOut => rfl
  | task f last => rfl
  | writing e =>
    have hst := h.out.stage e
    rw [show x.loop.view.pc = _ from hpc] at hst
    have hcs : ofCommit (x.loop.out.cs e) = false := (if_pos rfl).mp hst
    have hgo (hne : x.loop.out.cs e ≠ .idle) : (stepOut n m mc x.loop.out (.goOn e)).isSome = true :=
      goOn_goes h.out.kept hne
    simp only [writeEvent]
    cases hstage : x.loop.out.cs e with
    | idle | addFd | incr =>
      rw [hstage] at hcs
      cases hcs
    | reactivate | remove | clear | decr =>
      simp only [Option.isSome_map]
      exact hgo (by rw [hstage]; exact Stage.noConfusion)
  | broadcast =>
    obtain ⟨hmutex, -⟩ := h.free (by rw [hpc]; rfl)
    simp only [Option.isSome_map]
    exact relock_goes hmutex
  | rearm | handler => rfl
  | flushTop =>
    simp only [flush, hpc]
    rfl
  | flushHold =>
    have hrun : x.loop.running = false := h.poll.running
    obtain ⟨hpollable, hbound⟩ := h.poll.still (by rw [show x.loop.view.pc = _ from hpc]; rfl)
    simp only [flush, hpc, hrun, Bool.false_eq_true, if_false]
    exact runOnce_goes (by rw [hpc]; exact Pc.noConfusion) h.out.backlog hpollable h.poll.order hbound
  | flushBack =>
    have hlock := h.lock 0
    rw [hpc] at hlock
    simp only [flush, hpc, Option.isSome_map]
    split_ifs with ho
    · rfl
    · exact relock_goes (h.mutex.resolve_right fun hm => ho (hlock.mpr hm))
  | polling => exact absurd hpc hpoll
  | outEvent e => exact absurd hpc (hout e)
  | _ =>
    rw [hpc] at hf
    cases hf

theorem solo_goes (h : (step 1 n m mc x.loop a).isSome = true) : ∃ x', soloStep n m mc x a = some x' := by
  obtain ⟨s', hs'⟩ := Option.isSome_iff_exists.mp h
  refine ⟨⟨s', x.armedAfter a⟩, ?_⟩
  rw [soloStep, hs']
  rfl

/-- The thread can always go on in a way that the kernel serves. -/
theorem Flushing.goes (h : Flushing x.loop.view) (hinv : SoloInv n x) :
    ∃ a x', Served n m mc x a ∧ a.extra = false ∧ soloStep n m mc x a = some x' := by
  have hfound : ∀ fd < n, x.loop.out.interest fd = .armed → fd ∈ armedFds n x.loop.out :=
    fun fd hlt hfd => mem_armedFds.mpr ⟨hlt, hfd⟩
  by_cases hpoll : x.loop.pc 0 = .polling
  · -- the kernel reports `out`
    have hfd := hinv.out.polling_armed hpoll (h.polling hpoll)
    obtain ⟨x', hx'⟩ : ∃ x', soloStep n m mc x (.waitReturns 0 [Loop.outIdent]) = some x' := by
      apply solo_goes
      simp only [step]
      rw [if_pos ⟨Nat.one_pos, hpoll, List.cons_ne_nil _ _⟩]
      rfl
    refine ⟨.waitReturns 0 [Loop.outIdent], x',
      ⟨⟨List.nodup_singleton _, fun _ => ⟨?_, hfd⟩⟩, fun _ _ => ?_⟩, rfl, hx'⟩
    · exact hinv.token.armed hinv.poll hpoll
    · exact List.mem_singleton.mpr rfl
  by_cases hout : ∃ e, x.loop.pc 0 = .outEvent e
  · -- the kernel takes all that is offered
    obtain ⟨e, hpc⟩ := hout
    obtain ⟨as, has⟩ : ∃ as, takeAll (x.loop.out.ctx e).recs = as := ⟨_, rfl⟩
    have hmem : e ∈ x.loop.out.taken := by
      rw [show x.loop.out.taken = (x.loop.pc 0).takes from hinv.out.taken, hpc]
      exact List.mem_singleton.mpr rfl
    have hidle : x.loop.out.cs e = .idle := by
      have hst := hinv.out.stage e
      rw [show x.loop.view.pc = _ from hpc] at hst
      exact hst
    obtain ⟨hlt, -⟩ := hinv.out.kept.taken_queued hmem hidle
    obtain ⟨x', hx'⟩ : ∃ x', soloStep n m mc x (.writeEvent 0 as) = some x' := by
      apply solo_goes
      simp only [step, hpc, stepOut, enter_writeEvent hmem]
      rw [if_pos Nat.one_pos, if_pos ⟨hlt, hidle, Outcome.noConfusion⟩]
      rfl
    refine ⟨.writeEvent 0 as, x', ⟨fun e' he' => ?_, fun e' he' => ?_⟩, rfl, hx'⟩
    · obtain rfl := Pc.outEvent.inj (hpc.symm.trans he')
      right
      show overlapAt 0 (x.loop.out.ctx e).recs as = false
      rw [← has]
      exact overlapAt_takeAll 0 _
    · obtain rfl := Pc.outEvent.inj (hpc.symm.trans he')
      obtain ⟨-, -, hcalls, -⟩ := (hinv.out.kept.data.ctx e).tryWrite x.loop.out.world mc as
      intro c hc
      have hmem : c ∈ (execRecs x.loop.out.world (x.loop.out.ctx e).recs as).calls := hcalls ▸ hc
      rw [← has] at hmem
      rw [execRecs_takeAll_counts _ _ c hmem]
      rfl
  by_cases hidle : (x.loop.pc 0).user = true → ∀ fd, x.loop.out.cs fd = .idle
  · obtain ⟨x', hx'⟩ : ∃ x', soloStep n m mc x (.run 0 none (armedFds n x.loop.out)) = some x' :=
      solo_goes (run_goes hinv h.place hpoll fun e he => hout ⟨e, he⟩)
    exact ⟨.run 0 none (armedFds n x.loop.out), x', ⟨hidle, hfound⟩, rfl, hx'⟩
  · -- the code of the user has calls of its own to finish
    obtain ⟨huser, hnot⟩ := Classical.not_imp.mp hidle
    obtain ⟨fd, hcs⟩ := not_forall.mp hnot
    have hst := (allows_user huser fd _).mp (hinv.out.stage fd)
    have hb : byCaller x.loop.out (.goOn fd) = true := by
      have hcommit : ofCommit (x.loop.out.cs fd) = true := hst
      show (x.loop.out.cs fd == .addFd || x.loop.out.cs fd == .incr) = true
      cases hstage : x.loop.out.cs fd with
      | idle => exact absurd hstage hcs
      | addFd | incr => rfl
      | reactivate | remove | clear | decr =>
        rw [hstage] at hcommit
        cases hcommit
    obtain ⟨x', hx'⟩ : ∃ x', soloStep n m mc x (.commit (.goOn fd)) = some x' := by
      apply solo_goes
      simp only [step, if_pos hb, Option.isSome_map]
      exact goOn_goes hinv.out.kept hcs
    exact ⟨.commit (.goOn fd), x', ⟨⟨huser, regular_of_quiet rfl, .inr rfl⟩, trivial⟩, rfl, hx'⟩

/-! ## `flush` returns -/

theorem Flushing.inevitable (h : Flushing x.loop.view) (hinv : SoloInv n x) (k : ℕ) :
    (soloSystem n m mc).Inevitable (Served n m mc) Action.extra Flushed k x := by
  refine System.Inevitable.of_rank (I := fun x => SoloInv n x ∧ Flushing x.loop.view)
    (fun x => x.loop.view.rank n) (fun x hx => hx.2.goes hx.1) (fun x a x' hx hserved hs => ?_) k ⟨hinv, h⟩
  obtain ⟨hlone, hinv'⟩ := hx.1.step hserved.1 hs
  obtain ⟨hpc, hwatch, htasks⟩ | ⟨hf, hlt⟩ := hx.2.lone hx.1 hserved hlone
  · exact .inl ⟨hpc, fun hne => hne.elim (· hwatch) (· htasks)⟩
  · exact .inr ⟨⟨hinv', hf⟩, hlt⟩

theorem Lone.flushTop (hs : Lone n m mc v a v') (hpc : v.pc = .flushTop)
    (hu : a.byUser = true → v.pc.user = true) :
    (v.out.watching ≠ 0 ∨ v.tasks ≠ []) ∧ v' = { v with pc := .flushHold } ∨
    ¬ (v.out.watching ≠ 0 ∨ v.tasks ≠ []) ∧ v' = { v with pc := .outside } := by
  rw [hpc] at hu
  cases hs with
  | hop hops =>
    cases hops with
    | flushHold _ hc => exact .inl ⟨hc, rfl⟩
    | flushed _ hc => exact .inr ⟨fun hne => hne.elim (· hc.1) (· hc.2), rfl⟩
    | _ hpc' => simp [hpc] at hpc'
  | submit | commit | endBegin | endReturn => exact absurd (hu rfl) nofun
  | call _ hpc' => simp [hpc] at hpc'
  | _ hpc' => simp [hpc] at hpc'

theorem Lone.flushHold {wake : Option ℕ} {found : List ℕ} (hs : Lone n m mc v (.run 0 wake found) v')
    (hpc : v.pc = .flushHold) : RunsOnce found v v' := by
  cases hs with
  | hop hops =>
    cases hops with
    | _ hpc' => simp [hpc] at hpc'
  | once _ hr => exact hr
  | polled hpc' | timedOut hpc' | outPop hpc' | taskPop hpc' | writing hpc' => simp [hpc] at hpc'

theorem Lone.flushBack {wake : Option ℕ} {found : List ℕ} (hs : Lone n m mc v (.run 0 wake found) v')
    (hpc : v.pc = .flushBack) : v' = { v with pc := .flushTop } := by
  cases hs with
  | hop hops =>
    cases hops with
    | flushBack _ => rfl
    | _ hpc' => simp [hpc] at hpc'
  | once hpc' | polled hpc' | timedOut hpc' | outPop hpc' | taskPop hpc' | writing hpc' =>
    simp [hpc] at hpc'

theorem Processes.more {found : List ℕ} {ident : ℕ} (h : Processes found ident v v') :
    v'.polling = v.polling := by
  cases h <;> rfl

theorem RunsOnce.works_iff {found : List ℕ} (h : RunsOnce found v v') (horder : v.polling.off ≤ v.polling.num) :
    Works v v' ↔ v.polling.endFlag = false := by
  cases h with
  | ended he =>
    refine ⟨?_, fun hno => absurd (he.symm.trans hno) nofun⟩
    rintro (⟨f, hf⟩ | ⟨e, hq⟩ | ⟨i, hm⟩ | ⟨-, hoff⟩ | hpc)
    · exact absurd hf.symm (List.cons_ne_self f v.tasks)
    · exact absurd hq.symm (List.cons_ne_self e v.out.queue)
    · exact absurd hm.symm (List.cons_ne_self i v.polling.more)
    · exact absurd hoff.symm (Nat.succ_ne_self _)
    · change v.kind.back = .polling at hpc
      cases hk : v.kind <;> (rw [hk] at hpc; cases hpc)
  | @more ident rest _ he hm hp =>
    refine ⟨fun _ => he, fun _ => .inr (.inr (.inl ⟨ident, ?_⟩))⟩
    rw [hp.more]
    exact hm
  | @task f rest he hm hf => exact ⟨fun _ => he, fun _ => .inl ⟨f, hf⟩⟩
  | @out e rest he hm hf hq => exact ⟨fun _ => he, fun _ => .inr (.inl ⟨e, hq⟩)⟩
  | poll he hm hf hq hn => exact ⟨fun _ => he, fun _ => .inr (.inr (.inr (.inr rfl)))⟩
  | backlog he hm hf hq hn hb hp =>
    refine ⟨fun _ => he, fun _ => .inr (.inr (.inr (.inl ⟨by omega, ?_⟩)))⟩
    rw [hp.more]

/-! ## After `end` -/

/-- `flush` has something to do, and `end` has been called. -/
structure Spinning (n : ℕ) (x : Solo) : Prop where
  inv : SoloInv n x
  loops : (x.loop.pc 0).loops = true
  ended : x.loop.endFlag = true
  work : x.loop.Unflushed

theorem Spinning.step (h : Spinning n x) :
    ∃ a x', Served n m mc x a ∧ a.extra = false ∧ (soloSystem n m mc).step x a = some x' ∧
      Spinning n x' := by
  have hloops := h.loops
  have hplace : (x.loop.pc 0).flushes = true ∧ x.loop.pc 0 ≠ .polling ∧
      (∀ e, x.loop.pc 0 ≠ .outEvent e) ∧ (x.loop.pc 0).user = false := by
    cases hpc : x.loop.pc 0 with
    | flushTop | flushHold | flushBack => exact ⟨rfl, nofun, nofun, rfl⟩
    | _ =>
      rw [hpc] at hloops
      cases hloops
  obtain ⟨hflushes, hpoll, hout, huser⟩ := hplace
  obtain ⟨x', hx'⟩ : ∃ x', soloStep n m mc x (.run 0 none (armedFds n x.loop.out)) = some x' :=
    solo_goes (run_goes h.inv hflushes hpoll hout)
  have hsole : Sole n m mc x (.run 0 none (armedFds n x.loop.out)) := by
    intro hu
    rw [huser] at hu
    cases hu
  refine ⟨_, x', ⟨hsole, fun fd hlt hfd => mem_armedFds.mpr ⟨hlt, hfd⟩⟩, rfl, hx', ?_⟩
  obtain ⟨hlone, hinv'⟩ := h.inv.step hsole hx'
  have hnext : ∃ p : Pc, p.loops = true ∧ x'.loop.view = { x.loop.view with pc := p } := by
    cases hpc : x.loop.pc 0 with
    | flushTop =>
      obtain ⟨-, hv⟩ | ⟨hno, -⟩ := hlone.flushTop hpc hsole.user
      · exact ⟨_, rfl, hv⟩
      · exact absurd h.work hno
    | flushHold =>
      have hended : x.loop.view.polling.endFlag = true := h.ended
      have hback : x.loop.view.kind = .flush := h.inv.flush (by rw [show x.loop.view.pc = _ from hpc]; rfl)
      generalize x'.loop.view = v' at hlone ⊢
      cases hlone.flushHold hpc with
      | ended _ =>
        refine ⟨x.loop.view.kind.back, ?_, rfl⟩
        rw [hback]
        rfl
      | more he | task he | out he | poll he | backlog he =>
        rw [hended] at he
        cases he
    | flushBack => exact ⟨_, rfl, hlone.flushBack hpc⟩
    | _ =>
      rw [hpc] at hloops
      cases hloops
  obtain ⟨p, hp, hv⟩ := hnext
  refine ⟨hinv', ?_, ?_, ?_⟩
  · rw [show x'.loop.pc 0 = p from congrArg View.pc hv]
    exact hp
  · exact (congrArg (fun v => v.polling.endFlag) hv).trans h.ended
  · show x'.loop.view.out.watching ≠ 0 ∨ x'.loop.view.tasks ≠ []
    rw [hv]
    exact h.work

theorem Spinning.not_inevitable (h : Spinning n x) (k : ℕ) :
    ¬ (soloSystem n m mc).Inevitable (Served n m mc) Action.extra Flushed k x := by
  apply System.Inevitable.not_of_trap (J := Spinning n)
  · intro x hx hflushed
    exact hflushed.2 hx.work
  · intro x hx
    exact hx.step
  · exact h

theorem flushed_inevitable (hinv : SoloInv n x) (hpc : x.loop.pc 0 = .flushTop) (hno : ¬ x.loop.Unflushed)
    (k : ℕ) : (soloSystem n m mc).Inevitable (Served n m mc) Action.extra Flushed k x := by
  have hend {a : Action} {x' : Solo} (hserved : Served n m mc x a)
      (hs : (soloSystem n m mc).step x a = some x') : Flushed x' := by
    obtain ⟨hlone, -⟩ := hinv.step hserved.1 hs
    obtain ⟨hc, -⟩ | ⟨hc, hv⟩ := hlone.flushTop hpc hserved.1.user
    · exact absurd hc hno
    · refine ⟨congrArg View.pc hv, ?_⟩
      show ¬ (x'.loop.view.out.watching ≠ 0 ∨ x'.loop.view.tasks ≠ [])
      rw [hv]
      exact hc
  obtain ⟨x', hx'⟩ : ∃ x', soloStep n m mc x (.run 0 none (armedFds n x.loop.out)) = some x' :=
    solo_goes (run_goes hinv (by rw [hpc]; rfl) (by rw [hpc]; nofun) (by rw [hpc]; nofun))
  refine .later ⟨.run 0 none (armedFds n x.loop.out), x', ⟨?_, ?_⟩, rfl, hx'⟩ ?_ ?_
  · rw [Sole, hpc]
    nofun
  · exact fun fd hlt hfd => mem_armedFds.mpr ⟨hlt, hfd⟩
  · exact fun a x' hserved _ hs => .here (hend hserved hs)
  · exact fun a x' j hserved _ hs _ => .here (hend hserved hs)

/-- `flush` at the head of its loop, in any state that one thread can get to. An iteration does something
if and only if `end` has not been called. And if the kernel serves it, `flush` returns with both queues
empty, although the code of the user adds work up to `k` times, if and only if `end` has not been called
or there is nothing to flush. -/
theorem flush_returns_iff (h : (soloSystem n m mc).Reachable (Sole n m mc) x)
    (hpc : x.loop.pc 0 = .flushTop) :
    (x.loop.Unflushed → ∀ wake wake' found found' x₁ x₂,
      soloStep n m mc x (.run 0 wake found) = some x₁ →
      soloStep n m mc x₁ (.run 0 wake' found') = some x₂ →
      (Works x.loop.view x₂.loop.view ↔ x.loop.endFlag = false)) ∧
    ∀ k, ((soloSystem n m mc).Inevitable (Served n m mc) Action.extra Flushed k x ↔
      x.loop.endFlag = false ∨ ¬ x.loop.Unflushed) := by
  have hinv := reachable_soloInv h
  refine ⟨fun hwork wake wake' found found' x₁ x₂ h₁ h₂ => ?_, fun k => ⟨fun hret => ?_, fun hend => ?_⟩⟩
  · obtain ⟨hlone₁, hinv₁⟩ := hinv.step (by rw [Sole, hpc]; nofun) h₁
    obtain ⟨-, hv⟩ | ⟨hno, -⟩ := hlone₁.flushTop hpc (by nofun)
    · have hpc₁ : x₁.loop.pc 0 = .flushHold := congrArg View.pc hv
      obtain ⟨hlone₂, -⟩ := hinv₁.step (by rw [Sole, hpc₁]; nofun) h₂
      have hworks := (hlone₂.flushHold hpc₁).works_iff hinv₁.poll.order
      rw [hv] at hworks
      exact hworks
    · exact absurd hwork hno
  · by_contra hno
    obtain ⟨hended, hwork⟩ := not_or.mp hno
    have hspin : Spinning n x :=
      ⟨hinv, by rw [hpc]; rfl, by simpa using hended, not_not.mp hwork⟩
    exact hspin.not_inevitable k hret
  · by_cases hwork : x.loop.Unflushed
    · have hended := hend.resolve_right fun hno => hno hwork
      have hkind : x.loop.kind 0 = .flush := hinv.flush (by rw [show x.loop.view.pc = _ from hpc]; rfl)
      have hflush : Flushing x.loop.view := by
        refine ⟨hkind, ?_, hended, ?_, ?_⟩
        all_goals rw [show x.loop.view.pc = _ from hpc]
        · rfl
        · nofun
        · nofun
      exact hflush.inevitable hinv k
    · exact flushed_inevitable hinv hpc hwork k

theorem reachable_next (a : Action) (h : (soloSystem n m mc).Reachable (Sole n m mc) x)
    (hsole : Sole n m mc x a) (hs : soloStep n m mc x a = some x') :
    (soloSystem n m mc).Reachable (Sole n m mc) x' := .step h hsole hs

theorem reachable_new (n m : ℕ) (mc : Memcpy) :
    (soloSystem n m mc).Reachable (Sole n m mc) ⟨.init (fun _ => .once) ⟨fun _ => 0, fun _ _ => 0⟩, true⟩ :=
  .init ⟨_, _, Kind.noConfusion, rfl⟩

/-- A write that had to wait and a task, and then `flush`. -/
theorem flush_returns_iff_queued :
    ∃ x, (soloSystem 1 0 .ascending).Reachable (Sole 1 0 .ascending) x ∧ x.loop.out.watching = 1 ∧
      x.loop.tasks = [7] ∧
      ∀ k, (soloSystem 1 0 .ascending).Inevitable (Served 1 0 .ascending) Action.extra Flushed k x := by
  have hwrite := reachable_next (.commit (.write 0 16 3 [.fails .EAGAIN] (some fun _ => 0)))
    (reachable_new 1 0 .ascending) ⟨rfl, by decide +kernel, .inr rfl⟩ rfl
  have hadd := reachable_next (.commit (.goOn 0)) hwrite ⟨rfl, regular_of_quiet rfl, .inr rfl⟩ rfl
  have hincr := reachable_next (.commit (.goOn 0)) hadd ⟨rfl, regular_of_quiet rfl, .inr rfl⟩ rfl
  have hsubmit := reachable_next (.submit 7 none) hincr rfl rfl
  have hcall := reachable_next (.call 0 .flush) hsubmit (fun fd => by
    by_cases hf : fd = 0
    · subst hf
      rfl
    · exact ((reachable_soloInv hsubmit).out.kept.beyond fd (Nat.pos_of_ne_zero hf)).1) rfl
  have hflush := reachable_next (.run 0 none []) hcall nofun rfl
  exact ⟨_, hflush, rfl, rfl, fun k => ((flush_returns_iff hflush rfl).2 k).mpr (.inl rfl)⟩

/-- A task, `end`, and then `flush`: an iteration does nothing, and `flush` never returns. -/
theorem flush_spins :
    ∃ x x₁ x₂, (soloSystem 1 0 .ascending).Reachable (Sole 1 0 .ascending) x ∧
      x.loop.pc 0 = .flushTop ∧ x.loop.tasks = [7] ∧
      soloStep 1 0 .ascending x (.run 0 none []) = some x₁ ∧
      soloStep 1 0 .ascending x₁ (.run 0 none []) = some x₂ ∧ ¬ Works x.loop.view x₂.loop.view ∧
      ∀ k, ¬ (soloSystem 1 0 .ascending).Inevitable (Served 1 0 .ascending) Action.extra Flushed k x := by
  have hsubmit := reachable_next (.submit 7 none) (reachable_new 1 0 .ascending) rfl rfl
  have hend := reachable_next .endBegin hsubmit rfl rfl
  have hcall := reachable_next (.call 0 .flush) hend (fun _ => rfl) rfl
  have hflush := reachable_next (.run 0 none []) hcall nofun rfl
  refine ⟨_, _, _, hflush, rfl, rfl, rfl, rfl, ?_, fun k => ?_⟩
  · rintro (⟨f, hf⟩ | ⟨e, hq⟩ | ⟨i, hm⟩ | ⟨hlt, -⟩ | hpc)
    · exact absurd hf.symm (List.cons_ne_self f _)
    · cases hq
    · cases hm
    · cases hlt
    · cases hpc
  · have hspin : Spinning 1 _ := ⟨reachable_soloInv hflush, rfl, rfl, .inr (List.cons_ne_nil _ _)⟩
    exact hspin.not_inevitable k

end Mpio.Wavy.Mutex
