import Mpio.Wavy.Mutex.Alone
import Mpio.Wavy.Stream

/-!
# What holds in a loop used by one thread

`Solo` is such a loop, with the registration of `out` in `m_kernel`: it is one-shot, reported by the
kernel when a watched descriptor is writable, and armed again after `poll_event`. `Sole` says what one
thread can do: user code runs outside the calls, in handlers and in tasks, and it goes on only when its
own calls have returned.

Three invariants are kept by every step. `PollInv` is about the flags and the backlog, `TokenInv` about
the event of `out`, and `OutInv` says how far the sections of `out` are at each place of the thread.
-/

namespace Mpio.Wavy.Mutex

open Lib

variable {n m : ℕ} {mc : Memcpy} {s s' : State} {v v' : View} {a : Action}

/-! ## The system -/

/-- The loop, and whether the descriptor of `out` is armed in `m_kernel`. -/
structure Solo where
  loop : State
  armed : Bool

/-- `m_kernel.wait` reports and disables, `m_kernel.reactivate` follows `poll_event`. -/
def Solo.armedAfter (x : Solo) : Action → Bool
  | .waitReturns _ idents => if Loop.outIdent ∈ idents then false else x.armed
  | .run .. => x.armed || x.loop.pc 0 == .rearm
  | _ => x.armed

def soloStep (n m : ℕ) (mc : Memcpy) (x : Solo) (a : Action) : Option Solo :=
  (step 1 n m mc x.loop a).map fun s => ⟨s, x.armedAfter a⟩

/-- The thread runs code of the user. -/
def Pc.user : Pc → Bool
  | .outside | .handler _ | .task _ _ => true
  | _ => false

/-- The calls that user code makes. -/
def Action.byUser : Action → Bool
  | .submit _ _ | .commit _ | .endBegin | .endReturn => true
  | _ => false

/-- What one thread and the kernel can do. No allocation fails, and no `memcpy` goes wrong. -/
def Sole (n m : ℕ) (mc : Memcpy) (x : Solo) : Action → Prop
  | .call _ _ => ∀ fd, x.loop.out.cs fd = .idle
  | .run _ _ _ => (x.loop.pc 0).user = true → ∀ fd, x.loop.out.cs fd = .idle
  | .waitReturns _ idents => idents.Nodup ∧
    (Loop.outIdent ∈ idents → x.armed = true ∧ ∃ fd < n, x.loop.out.interest fd = .armed)
  | .writeEvent _ as => ∀ e, x.loop.pc 0 = .outEvent e → Intact mc x.loop.out (.writeEvent e as)
  | .commit act => (x.loop.pc 0).user = true ∧ Regular m mc x.loop.out act ∧ Intact mc x.loop.out act
  | .submit _ _ | .endBegin | .endReturn => (x.loop.pc 0).user = true
  | .timeout _ | .more _ _ | .wakeup _ => True
  | .start | .join => False

theorem Sole.user {x : Solo} (h : Sole n m mc x a) (hu : a.byUser = true) : (x.loop.pc 0).user = true := by
  cases a with
  | submit | endBegin | endReturn => exact h
  | commit => exact h.1
  | _ => cases hu

/-- A new loop; the thread is none of its workers. -/
def soloSystem (n m : ℕ) (mc : Memcpy) : System Solo Action where
  init x := ∃ world kinds, kinds 0 ≠ .main ∧ x = ⟨.init kinds world, true⟩
  step := soloStep n m mc

/-! ## The flags and the backlog -/

/-- The thread polls. -/
def Pc.leads : Pc → Bool
  | .polling | .polled _ | .timedOut => true
  | _ => false

structure PollInv (v : View) : Prop where
  main : v.kind ≠ .main
  running : v.polling.running = false
  fits : v.Fits
  pollable : v.polling.pollable = !v.pc.leads
  order : v.polling.off ≤ v.polling.num
  bound : (∀ idents, v.pc ≠ .polled idents) → v.polling.num ≤ v.polling.backlog.length
  spent : v.pc.leads = true → v.polling.num = v.polling.off
  polled : ∀ idents, v.pc = .polled idents → v.polling.backlog = idents ∧ idents ≠ []
  more : Loop.outIdent ∉ v.polling.more
  handler : ∀ i, v.pc = .handler i → i ≠ Loop.outIdent

/-- The places at which nothing is known about the queues. -/
def Pc.plain : Pc → Bool
  | .outFront | .outPop _ | .taskFront | .taskPop _ | .waiting | .woken | .flushWaiting | .flushWoken
  | .exited | .polling | .polled _ | .timedOut | .handler _ => false
  | _ => true

theorem leads_of_plain {p : Pc} (h : p.plain = true) : p.leads = false := by
  cases p <;> first | rfl | cases h

theorem PollInv.to {p : Pc} {pol : Polling} {tasks : List ℕ} {o : Wavy.State} (h : PollInv v)
    (hp : p.plain = true) (hrun : pol.running = false) (hpoll : pol.pollable = true)
    (horder : pol.off ≤ pol.num) (hbound : pol.num ≤ pol.backlog.length)
    (hmore : Loop.outIdent ∉ pol.more) : PollInv ⟨p, v.kind, pol, tasks, o⟩ := by
  have hlead := leads_of_plain hp
  refine ⟨h.main, hrun, ?_, ?_, horder, fun _ => hbound, ?_, ?_, hmore, ?_⟩
  · cases p <;> first | exact trivial | exact hpoll | cases hp
  · show pol.pollable = !p.leads
    rw [hpoll, hlead]
    rfl
  · intro hl
    change p.leads = true at hl
    rw [hlead] at hl
    cases hl
  · rintro idents rfl
    cases hp
  · rintro i rfl
    cases hp

theorem back_plain (k : Kind) : k.back.plain = true := by
  cases k <;> rfl

/-- Where the thread does not poll, the backlog is sound. -/
theorem PollInv.still (h : PollInv v) (hl : v.pc.leads = false) :
    v.polling.pollable = true ∧ v.polling.num ≤ v.polling.backlog.length := by
  refine ⟨by rw [h.pollable, hl]; rfl, h.bound ?_⟩
  intro idents hpc
  rw [hpc] at hl
  cases hl

/-- The event of `out` that the thread has taken and not begun to write. -/
def Pc.takes : Pc → List ℕ
  | .outEvent e => [e]
  | _ => []

theorem Hops.source {p : Pc} (h : Hops v p) :
    v.pc.leads = false ∧ v.pc.takes = [] ∧ ∀ e, v.pc ≠ .writing e := by
  cases h with
  | flushLock hpc _ | hasQueue hpc _ | noQueue hpc _ | outFront hpc _ | hasTask hpc _ | taskFront hpc _
  | flushHold hpc _ | flushed hpc _ | taskLast hpc | executedLast hpc | flushBack hpc =>
    rw [hpc]
    exact ⟨rfl, rfl, nofun⟩
  | back hpc =>
    obtain hpc | hpc | hpc | ⟨i, hpc⟩ | ⟨f, hpc⟩ := hpc
    all_goals
      rw [hpc]
      exact ⟨rfl, rfl, nofun⟩

theorem Hops.target {p : Pc} (h : Hops v p) : p.leads = false ∧ p.takes = [] ∧ ∀ e, p ≠ .writing e := by
  cases h with
  | back hpc => cases v.kind <;> exact ⟨rfl, rfl, nofun⟩
  | _ => exact ⟨rfl, rfl, nofun⟩

theorem PollInv.hop {p : Pc} (h : PollInv v) (hops : Hops v p) : PollInv { v with pc := p } := by
  obtain ⟨hpoll, hbound⟩ := h.still hops.source.1
  have hplain : p.plain = true → PollInv { v with pc := p } := fun hp =>
    h.to hp h.running hpoll h.order hbound h.more
  -- at the queues the thread has just looked
  have hlook : p.leads = false → (∀ i, p ≠ .handler i) → View.Fits { v with pc := p } →
      PollInv { v with pc := p } := by
    intro hl hh hfit
    refine ⟨h.main, h.running, hfit, ?_, h.order, fun _ => hbound, ?_, ?_, h.more, ?_⟩
    · show v.polling.pollable = !p.leads
      rw [hpoll, hl]
      rfl
    · intro hlead
      change p.leads = true at hlead
      rw [hl] at hlead
      cases hlead
    · rintro idents rfl
      cases hl
    · intro i hi
      exact absurd hi (hh i)
  cases hops with
  | hasQueue hpc hq => exact hlook rfl nofun hq
  | outFront hpc hq => exact hlook rfl nofun ⟨_, hq⟩
  | hasTask hpc hf => exact hlook rfl nofun hf
  | taskFront hpc hf => exact hlook rfl nofun ⟨_, hf⟩
  | back hpc => exact hplain (back_plain _)
  | flushLock | noQueue | taskLast | executedLast | flushHold | flushed | flushBack => exact hplain rfl

theorem PollInv.processes {found : List ℕ} {ident : ℕ} {pol : Polling} (h : PollInv v)
    (hp : Processes found ident { v with polling := pol } v') (hrun : pol.running = false)
    (hpoll : pol.pollable = true) (horder : pol.off ≤ pol.num) (hbound : pol.num ≤ pol.backlog.length)
    (hmore : Loop.outIdent ∉ pol.more) : PollInv v' := by
  cases hp with
  | out hi ho => exact h.to rfl hrun hpoll horder hbound hmore
  | handler hi =>
    refine ⟨h.main, hrun, trivial, hpoll, horder, fun _ => hbound, nofun, nofun, hmore, ?_⟩
    intro i heq
    obtain rfl := Pc.handler.inj heq
    exact hi

theorem PollInv.runsOnce {found : List ℕ} (h : PollInv v) (hl : v.pc.leads = false)
    (hr : RunsOnce found v v') : PollInv v' := by
  obtain ⟨hpoll, hbound⟩ := h.still hl
  cases hr with
  | ended he => exact h.to (back_plain _) h.running hpoll h.order hbound h.more
  | @more ident rest _ he hm hp =>
    refine h.processes hp h.running hpoll h.order hbound ?_
    have hmore := h.more
    rw [hm] at hmore
    exact fun hmem => hmore (List.mem_cons_of_mem _ hmem)
  | task he hm hf | out he hm hf hq => exact h.to rfl h.running hpoll h.order hbound h.more
  | poll he hm hf hq hn =>
    exact ⟨h.main, h.running, trivial, rfl, h.order, fun _ => hbound, fun _ => hn, nofun, h.more, nofun⟩
  | @backlog ident _ he hm hf hq hn hb hp =>
    refine h.processes hp h.running hpoll ?_ hbound h.more
    have horder := h.order
    show v.polling.off + 1 ≤ v.polling.num
    omega

theorem fits_of_user (h : v.pc.user = true) {p : Polling} {tasks : List ℕ} {o : Wavy.State} :
    View.Fits ⟨v.pc, v.kind, p, tasks, o⟩ := by
  unfold View.Fits
  cases hpc : v.pc <;> first | trivial | (rw [hpc] at h; cases h)

theorem PollInv.lone (h : PollInv v) (hu : a.byUser = true → v.pc.user = true)
    (hs : Lone n m mc v a v') : PollInv v' := by
  have hto {p : Pc} {tasks : List ℕ} {o : Wavy.State} (hl : v.pc.leads = false) (hp : p.plain = true) :
      PollInv ⟨p, v.kind, v.polling, tasks, o⟩ := by
    obtain ⟨hpoll, hbound⟩ := h.still hl
    exact h.to hp h.running hpoll h.order hbound h.more
  cases hs with
  | hop hops => exact h.hop hops
  | once hpc hr =>
    refine h.runsOnce ?_ hr
    obtain ⟨hpc, -⟩ | hpc := hpc <;> (rw [hpc]; rfl)
  | @polled _ _ idents ident _ hpc hb hp =>
    obtain ⟨hback, hne⟩ := h.polled idents hpc
    refine h.processes hp h.running rfl ?_ ?_ h.more
    · exact List.length_pos_of_ne_nil hne
    · show idents.length ≤ v.polling.backlog.length
      rw [hback]
  | @timedOut _ _ p hpc hp =>
    have hbound : v.polling.num ≤ v.polling.backlog.length := h.bound (by rw [hpc]; nofun)
    have hplain : p.plain = true := by
      obtain ⟨rfl, -⟩ | ⟨rfl, -⟩ := hp
      · exact back_plain _
      · rfl
    exact h.to hplain h.running rfl h.order hbound h.more
  | outPop hpc hq | taskPop hpc hf | writeEvent hpc ho => exact hto (by rw [hpc]; rfl) rfl
  | @writing _ _ e o p hpc ho hp =>
    have hplain : p.plain = true := by
      obtain ⟨-, rfl⟩ | ⟨-, rfl⟩ | ⟨-, rfl | rfl⟩ := hp
      · rfl
      · exact back_plain _
      · exact back_plain _
      · rfl
    exact hto (by rw [hpc]; rfl) hplain
  | @call k hk hpc =>
    obtain ⟨hpoll, hbound⟩ := h.still (by rw [hpc]; rfl)
    exact ⟨hk, h.running, hpoll, hpoll, h.order, fun _ => hbound, nofun, nofun, h.more, nofun⟩
  | @waitReturns idents hpc hne =>
    have hspent := h.spent (by rw [hpc]; rfl)
    have hpoll := h.pollable
    rw [hpc] at hpoll
    refine ⟨h.main, h.running, trivial, hpoll, h.order, fun hno => absurd rfl (hno idents), fun _ => hspent,
      ?_, h.more, nofun⟩
    intro idents' heq
    obtain rfl := Pc.polled.inj heq
    exact ⟨rfl, hne⟩
  | timeout hpc =>
    have hspent := h.spent (by rw [hpc]; rfl)
    have hpoll := h.pollable
    rw [hpc] at hpoll
    exact ⟨h.main, h.running, trivial, hpoll, h.order, fun _ => h.bound (by rw [hpc]; nofun),
      fun _ => hspent, nofun, h.more, nofun⟩
  | @more _ ident hpc =>
    have hne := h.handler ident hpc
    refine ⟨h.main, h.running, ?_, h.pollable, h.order, h.bound, h.spent, h.polled, ?_, h.handler⟩
    · simp only [View.Fits, hpc]
    · intro hmem
      rcases List.mem_append.mp hmem with hmem | hmem
      · exact h.more hmem
      · exact hne (List.mem_singleton.mp hmem).symm
  | submit | commit =>
    exact ⟨h.main, h.running, fits_of_user (hu rfl), h.pollable, h.order, h.bound, h.spent, h.polled,
      h.more, h.handler⟩
  | endBegin =>
    exact ⟨h.main, h.running, h.fits, h.pollable, h.order, h.bound, h.spent, h.polled, h.more, h.handler⟩
  | endReturn => exact h

/-- The loop of `flush`, outside `run_once`. -/
def Pc.loops : Pc → Bool
  | .flushTop | .flushHold | .flushBack => true
  | _ => false

/-- The thread is there only inside `flush`. -/
def FlushKind (v : View) : Prop := v.pc.loops = true → v.kind = .flush

theorem FlushKind.back : FlushKind { v with pc := v.kind.back } := by
  intro hl
  change v.kind.back.loops = true at hl
  show v.kind = .flush
  cases hk : v.kind with
  | flush => rfl
  | main | once | nonblock =>
    rw [hk] at hl
    cases hl

theorem FlushKind.lone (h : FlushKind v) (hs : Lone n m mc v a v') : FlushKind v' := by
  have hback {p : Pc} {pol : Polling} {o : Wavy.State} (hp : p = v.kind.back) :
      FlushKind ⟨p, v.kind, pol, v.tasks, o⟩ := by
    subst hp
    exact FlushKind.back (v := v)
  have hproc {found : List ℕ} {ident : ℕ} {w : View} (hp : Processes found ident w v') : FlushKind v' := by
    cases hp <;> nofun
  cases hs with
  | hop hops =>
    cases hops with
    | flushLock hpc hk => exact fun _ => hk
    | flushHold hpc => exact fun _ => h (by rw [hpc]; rfl)
    | flushBack hpc => exact fun _ => h (by rw [hpc]; rfl)
    | back hpc => exact hback rfl
    | _ => nofun
  | once hpc hr =>
    cases hr with
    | ended he => exact hback rfl
    | more he hm hp => exact hproc hp
    | backlog he hm hf hq hn hb hp => exact hproc hp
    | _ => nofun
  | polled hpc hb hp => exact hproc hp
  | timedOut hpc hp =>
    obtain ⟨hp, -⟩ | ⟨rfl, -⟩ := hp
    · exact hback hp
    · nofun
  | writing hpc ho hp =>
    obtain ⟨-, rfl⟩ | ⟨-, hp⟩ | ⟨-, hp | rfl⟩ := hp
    · nofun
    · exact hback hp
    · exact hback hp
    · nofun
  | more | submit | commit | endBegin | endReturn => exact h
  | _ => nofun

/-! ## The event of `out` -/

/-- The events of the backlog that are still to be taken. -/
def Polling.rest (p : Polling) : List ℕ := (p.backlog.take p.num).drop p.off

/-- The same, also when the kernel has just written the backlog. -/
def View.remaining (v : View) : List ℕ :=
  match v.pc with
  | .polled idents => idents
  | _ => v.polling.rest

theorem remaining_eq (h : ∀ idents, v.pc ≠ .polled idents) : v.remaining = v.polling.rest := by
  unfold View.remaining
  split
  · rename_i idents hpc
    exact absurd hpc (h idents)
  · rfl

theorem rest_take {p : Polling} {ident : ℕ} (hle : p.off ≤ p.num) (hne : p.num ≠ p.off)
    (h : p.backlog[p.off]? = some ident) : p.rest = ident :: Polling.rest { p with off := p.off + 1 } := by
  have hlt : p.off < p.num := by omega
  obtain ⟨hlen, hget⟩ := List.getElem?_eq_some_iff.mp h
  have hlen' : p.off < (p.backlog.take p.num).length := by
    rw [List.length_take]
    omega
  rw [Polling.rest, List.drop_eq_getElem_cons hlen', List.getElem_take, hget]
  rfl

theorem rest_polled {p : Polling} {ident : ℕ} (h : p.backlog[0]? = some ident) :
    p.backlog = ident ::
      Polling.rest { p with off := 1, num := p.backlog.length, pollable := true } := by
  cases hb : p.backlog with
  | nil =>
    rw [hb] at h
    cases h
  | cons i l =>
    rw [hb] at h
    obtain rfl := Option.some.inj h
    simp [Polling.rest]

theorem rest_spent {p : Polling} (h : p.num = p.off) : p.rest = [] := by
  rw [Polling.rest, h]
  simp

/-- The registration of `out` is armed, or its event is on the way; then something is writable. -/
structure TokenInv (n : ℕ) (v : View) (armed : Bool) : Prop where
  nodup : v.remaining.Nodup
  token : armed = false → Loop.outIdent ∈ v.remaining ∨ v.pc = .rearm
  ready : Loop.outIdent ∈ v.remaining → ∃ fd < n, v.out.interest fd = .armed

/-- A section that goes on takes no armed registration away: the one it may remove has been delivered. -/
theorem goOn_armed {o o' : Wavy.State} {e : ℕ} (hw : WatchInv n o) (h : o.goOn e = some o') {fd : ℕ}
    (hfd : o.interest fd = .armed) : o'.interest fd = .armed := by
  have hinv := hw.fd e
  unfold State.goOn at h
  cases hcs : o.cs e with
  | idle => simp [hcs] at h
  | incr | clear | decr =>
    rw [hcs] at h
    obtain rfl := Option.some.inj h
    exact hfd
  | addFd | reactivate =>
    rw [hcs] at h
    obtain rfl := Option.some.inj h
    show Function.update o.interest e _ fd = .armed
    by_cases hf : fd = e
    · subst hf
      rw [Function.update_self, hfd]
      rfl
    · rw [Function.update_of_ne hf]
      exact hfd
  | remove =>
    rw [hcs] at h hinv
    obtain rfl := Option.some.inj h
    show Function.update o.interest e _ fd = .armed
    have hf : fd ≠ e := by
      rintro rfl
      rw [hinv.1] at hfd
      cases hfd
    rw [Function.update_of_ne hf]
    exact hfd

theorem stepOut_armed {o o' : Wavy.State} {act : Wavy.Action} (hw : WatchInv n o)
    (hact : byCaller o act = true ∨ (∃ e, act = .goOn e) ∨ ∃ e as, act = .writeEvent e as)
    (h : stepOut n m mc o act = some o') {fd : ℕ} (hfd : o.interest fd = .armed) :
    o'.interest fd = .armed := by
  unfold stepOut at h
  rcases he : enter m mc o act with _ | e
  · rw [he] at h
    cases act with
    | write | submit | commit | writeEvent => cases h
    | goOn e =>
      simp only at h
      split_ifs at h
      exact goOn_armed hw h hfd
    | pollWait | pollPush | next =>
      obtain hact | ⟨e, hact⟩ | ⟨e, as, hact⟩ := hact <;> cases hact
    | push | migrate | clearXfer =>
      simp only at h
      split_ifs at h
      obtain rfl := Option.some.inj h
      exact hfd
    | rewrite =>
      obtain rfl := Option.some.inj h
      exact hfd
  · rw [he] at h
    simp only at h
    split_ifs at h
    obtain rfl := Option.some.inj h
    exact hfd

theorem TokenInv.keep {armed armed' : Bool} (h : TokenInv n v armed) (hrem : v'.remaining = v.remaining)
    (hpc : v.pc ≠ .rearm) (harm : armed' = armed)
    (hint : ∀ fd, v.out.interest fd = .armed → v'.out.interest fd = .armed) : TokenInv n v' armed' := by
  subst harm
  refine ⟨hrem ▸ h.nodup, fun ha => .inl ?_, fun hmem => ?_⟩
  · rw [hrem]
    exact (h.token ha).resolve_right hpc
  · rw [hrem] at hmem
    obtain ⟨fd, hlt, hfd⟩ := h.ready hmem
    exact ⟨fd, hlt, hint fd hfd⟩

theorem TokenInv.take {armed : Bool} {found : List ℕ} {ident : ℕ} {pol : Polling} (h : TokenInv n v armed)
    (hpc : v.pc ≠ .rearm) (hrem : v.remaining = ident :: pol.rest)
    (hp : Processes found ident { v with polling := pol } v') : TokenInv n v' armed := by
  have hnodup := h.nodup
  rw [hrem] at hnodup
  obtain ⟨hnot, hrest⟩ := List.nodup_cons.mp hnodup
  have htoken (ha : armed = false) : Loop.outIdent ∈ ident :: pol.rest := by
    rw [← hrem]
    exact (h.token ha).resolve_right hpc
  cases hp with
  | out hi ho =>
    refine ⟨hrest, fun _ => .inr rfl, fun hmem => ?_⟩
    exact absurd (hi ▸ hmem) hnot
  | handler hi =>
    refine ⟨hrest, fun ha => .inl ?_, fun hmem => ?_⟩
    · exact (List.mem_cons.mp (htoken ha)).resolve_left (Ne.symm hi)
    · exact h.ready (by rw [hrem]; exact List.mem_cons_of_mem _ hmem)

theorem remaining_of_leads (h : v.pc.leads = false) : v.remaining = v.polling.rest :=
  remaining_eq fun idents hpc => by
    rw [hpc] at h
    cases h

theorem back_leads (k : Kind) : k.back.leads = false := leads_of_plain (back_plain k)

theorem user_ne_rearm {p : Pc} (h : p.user = true) : p ≠ .rearm := by
  rintro rfl
  cases h

theorem TokenInv.runsOnce {armed : Bool} {found : List ℕ} (h : TokenInv n v armed) (hp : PollInv v)
    (hpc : v.pc ≠ .rearm) (hl : v.pc.leads = false) (hr : RunsOnce found v v') : TokenInv n v' armed := by
  have hrem := remaining_of_leads hl
  have hkeep {p : Pc} {pol : Polling} {tasks : List ℕ} {o : Wavy.State}
      (hp : ∀ idents, p ≠ .polled idents) (hpol : pol.rest = v.polling.rest)
      (ho : o.interest = v.out.interest) : TokenInv n ⟨p, v.kind, pol, tasks, o⟩ armed := by
    refine h.keep ?_ hpc rfl fun fd hfd => ?_
    · rw [hrem, ← hpol]
      exact remaining_eq hp
    · show o.interest fd = .armed
      rw [ho]
      exact hfd
  cases hr with
  | ended he => exact hkeep (by cases v.kind <;> nofun) rfl rfl
  | @more ident rest _ he hm hproc =>
    cases hproc with
    | out hi ho =>
      have hmore := hp.more
      rw [hm, hi] at hmore
      exact absurd (List.mem_cons_self ..) hmore
    | handler hi => exact hkeep nofun rfl rfl
  | task he hm hf | out he hm hf hq | poll he hm hf hq hn => exact hkeep nofun rfl rfl
  | backlog he hm hf hq hn hb hproc =>
    exact h.take hpc (hrem.trans (rest_take hp.order hn hb)) hproc

theorem remaining_polling (hp : PollInv v) (hpc : v.pc = .polling) : v.remaining = [] := by
  rw [remaining_eq (by rw [hpc]; nofun)]
  exact rest_spent (hp.spent (by rw [hpc]; rfl))

/-- Before a wait nothing is left of the backlog, so the registration is armed. -/
theorem TokenInv.armed {armed : Bool} (h : TokenInv n v armed) (hp : PollInv v) (hpc : v.pc = .polling) :
    armed = true := by
  by_contra hno
  rcases h.token (by simpa using hno) with hmem | hrearm
  · rw [remaining_polling hp hpc] at hmem
    cases hmem
  · rw [hpc] at hrearm
    cases hrearm

theorem TokenInv.lone {x : Solo} (h : TokenInv n x.loop.view x.armed) (hp : PollInv x.loop.view)
    (hw : WatchInv n x.loop.out) (hsole : Sole n m mc x a) (hs : Lone n m mc x.loop.view a v') :
    TokenInv n v' (x.armedAfter a) := by
  have hrun {wake : Option ℕ} {found : List ℕ} (hpc : x.loop.view.pc ≠ .rearm) :
      x.armedAfter (.run 0 wake found) = x.armed := by
    have hne : (x.loop.pc 0 == .rearm) = false := beq_eq_false_iff_ne.mpr hpc
    rw [Solo.armedAfter, hne, Bool.or_false]
  have hrem (hl : x.loop.view.pc.leads = false) := remaining_of_leads hl
  cases hs with
  | @hop wake found p hops =>
    have hsame : View.remaining { x.loop.view with pc := p } = x.loop.view.remaining := by
      rw [hrem hops.source.1]
      exact remaining_of_leads hops.target.1
    by_cases hpc : x.loop.view.pc = .rearm
    · have harm : x.armedAfter (.run 0 wake found) = true := by
        have heq : (x.loop.pc 0 == .rearm) = true := beq_iff_eq.mpr hpc
        rw [Solo.armedAfter, heq, Bool.or_true]
      rw [harm]
      exact ⟨hsame ▸ h.nodup, nofun, fun hmem => h.ready (hsame ▸ hmem)⟩
    · exact h.keep hsame hpc (hrun hpc) fun _ => id
  | once hpc hr =>
    have hne : x.loop.view.pc ≠ .rearm := by
      obtain ⟨hpc, -⟩ | hpc := hpc <;> (rw [hpc]; nofun)
    rw [hrun hne]
    refine h.runsOnce hp hne ?_ hr
    obtain ⟨hpc, -⟩ | hpc := hpc <;> (rw [hpc]; rfl)
  | @polled _ _ idents ident _ hpc hb hproc =>
    have hne : x.loop.view.pc ≠ .rearm := by rw [hpc]; nofun
    rw [hrun hne]
    obtain ⟨hback, -⟩ := hp.polled idents hpc
    refine h.take hne ?_ hproc
    have hidents : x.loop.view.remaining = idents := by simp only [View.remaining, hpc]
    rw [hidents, ← hback]
    exact rest_polled hb
  | @timedOut _ _ p hpc hto =>
    refine h.keep ?_ (by rw [hpc]; nofun) (hrun (by rw [hpc]; nofun)) fun _ => id
    have hlead : p.leads = false := by
      obtain ⟨rfl, -⟩ | ⟨rfl, -⟩ := hto
      · exact back_leads _
      · rfl
    rw [remaining_eq (v := x.loop.view) (by rw [hpc]; nofun)]
    exact remaining_of_leads hlead
  | outPop hpc hq | taskPop hpc hf =>
    refine h.keep ?_ (by rw [hpc]; nofun) (hrun (by rw [hpc]; nofun)) fun _ => id
    rw [hrem (by rw [hpc]; rfl)]
    rfl
  | @writing _ _ e o p hpc ho hto =>
    refine h.keep ?_ (by rw [hpc]; nofun) (hrun (by rw [hpc]; nofun))
      fun fd => stepOut_armed hw (.inr (.inl ⟨e, rfl⟩)) ho
    have hlead : p.leads = false := by
      obtain ⟨-, rfl⟩ | ⟨-, rfl⟩ | ⟨-, rfl | rfl⟩ := hto
      · rfl
      · exact back_leads _
      · exact back_leads _
      · rfl
    rw [hrem (by rw [hpc]; rfl)]
    exact remaining_of_leads hlead
  | call hk hpc =>
    refine h.keep ?_ (by rw [hpc]; nofun) rfl fun _ => id
    rw [hrem (by rw [hpc]; rfl)]
    rfl
  | @waitReturns idents hpc hne =>
    obtain ⟨hnodup, hhonest⟩ := hsole
    refine ⟨hnodup, fun harm => .inl ?_, fun hmem => (hhonest hmem).2⟩
    have harmed := h.armed hp hpc
    by_contra hno
    change ¬ Loop.outIdent ∈ idents at hno
    rw [Solo.armedAfter, if_neg hno, harmed] at harm
    cases harm
  | timeout hpc =>
    refine h.keep ?_ (by rw [hpc]; nofun) rfl fun _ => id
    rw [remaining_eq (v := x.loop.view) (by rw [hpc]; nofun)]
    rfl
  | @writeEvent e as o hpc ho =>
    refine h.keep ?_ (by rw [hpc]; nofun) rfl fun fd => stepOut_armed hw (.inr (.inr ⟨e, as, rfl⟩)) ho
    rw [hrem (by rw [hpc]; rfl)]
    rfl
  | more hpc =>
    refine h.keep ?_ (by rw [hpc]; nofun) rfl fun _ => id
    unfold View.remaining
    simp only [hpc]
    rfl
  | submit => exact h.keep rfl (user_ne_rearm hsole) rfl fun _ => id
  | commit hb ho => exact h.keep rfl (user_ne_rearm hsole.1) rfl fun fd => stepOut_armed hw (.inl hb) ho
  | endBegin => exact h.keep rfl (user_ne_rearm hsole) rfl fun _ => id
  | endReturn => exact h.keep rfl (user_ne_rearm hsole) rfl fun _ => id

/-! ## The sections of `out` -/

/-- A step on the queues of `out` that nobody else has to agree to. -/
def quiet : Wavy.Action → Bool
  | .goOn _ | .pollWait _ | .pollPush | .next | .writeEvent _ _ => true
  | _ => false

theorem regular_of_quiet {o : Wavy.State} {act : Wavy.Action} (h : quiet act = true) :
    Regular m mc o act := by
  cases act with
  | goOn | pollWait | pollPush | next =>
    refine ⟨fun e he => ?_, trivial⟩
    simp only [enter, Option.mem_def, reduceCtorEq] at he
  | writeEvent fd as =>
    refine ⟨fun e he => ?_, trivial⟩
    simp only [enter, Option.mem_def] at he
    split_ifs at he
    obtain rfl := Option.some.inj he
    rfl
  | _ => cases h

/-- What is always true of `out`. No descriptor from `n` on is used. -/
structure Kept (n : ℕ) (o : Wavy.State) : Prop where
  watch : WatchInv n o
  data : DataInv Item.shape n o
  beyond : ∀ fd, n ≤ fd → o.cs fd = .idle ∧ (o.ctx fd).empty = true

theorem stepOut_beyond {o o' : Wavy.State} {act : Wavy.Action} (h : stepOut n m mc o act = some o') {fd : ℕ}
    (hfd : n ≤ fd) : o'.cs fd = o.cs fd ∧ o'.ctx fd = o.ctx fd := by
  cases stepOut_cases h with
  | @entered e he hlt hidle hout =>
    have hne : fd ≠ e.fd := by omega
    exact ⟨Function.update_of_ne hne _ _, Function.update_of_ne hne _ _⟩
  | @goOn e _ hlt hgo =>
    obtain ⟨hctx, hcs, -⟩ := State.goOn_other hgo (show fd ≠ e by omega)
    exact ⟨hcs, hctx⟩
  | _ => exact ⟨rfl, rfl⟩

theorem Kept.step {o o' : Wavy.State} {act : Wavy.Action} (h : Kept n o) (hr : Regular m mc o act)
    (hi : Intact mc o act) (hs : stepOut n m mc o act = some o') : Kept n o' := by
  refine ⟨h.watch.step hs, h.data.step hr unchanged_shape hi hs, fun fd hfd => ?_⟩
  obtain ⟨hcs, hctx⟩ := stepOut_beyond hs hfd
  rw [hcs, hctx]
  exact h.beyond fd hfd

/-- The stages of a commit. -/
def ofCommit : Stage → Bool
  | .idle | .addFd | .incr => true
  | .reactivate | .remove | .clear | .decr => false

/-- How far the section of a descriptor can be. -/
def Pc.allows : Pc → ℕ → Stage → Prop
  | .writing e, fd, stage => if fd = e then ofCommit stage = false else stage = .idle
  | .outside, _, stage | .handler _, _, stage | .task _ _, _, stage => ofCommit stage = true
  | _, _, stage => stage = .idle

structure OutInv (n : ℕ) (v : View) : Prop where
  kept : Kept n v.out
  backlog : v.out.backlog = []
  taken : v.out.taken = v.pc.takes
  spent : v.pc.leads = true → v.out.queue = []
  stage : ∀ fd, v.pc.allows fd (v.out.cs fd)

theorem allows_idle {p : Pc} (hw : ∀ e, p ≠ .writing e) (fd : ℕ) : p.allows fd .idle := by
  cases p with
  | writing e => exact absurd rfl (hw e)
  | outside | handler | task => exact (rfl : ofCommit .idle = true)
  | _ => exact (rfl : Stage.idle = .idle)

/-- Where no code of the user runs and nothing is written, nobody is in a section. -/
theorem OutInv.idle (h : OutInv n v) (hu : v.pc.user = true → ∀ fd, v.out.cs fd = .idle)
    (hw : ∀ e, v.pc ≠ .writing e) (fd : ℕ) : v.out.cs fd = .idle := by
  by_cases huser : v.pc.user = true
  · exact hu huser fd
  · have hst := h.stage fd
    cases hpc : v.pc with
    | writing e => exact absurd hpc (hw e)
    | outside | handler | task =>
      rw [hpc] at huser
      exact absurd rfl huser
    | _ =>
      rw [hpc] at hst
      exact hst

theorem OutInv.move {p : Pc} {k : Kind} {pol : Polling} {tasks : List ℕ} (h : OutInv n v)
    (hidle : ∀ fd, v.out.cs fd = .idle) (htakes : p.takes = v.pc.takes) (hw : ∀ e, p ≠ .writing e)
    (hq : p.leads = true → v.out.queue = []) : OutInv n ⟨p, k, pol, tasks, v.out⟩ := by
  refine ⟨h.kept, h.backlog, h.taken.trans htakes.symm, hq, fun fd => ?_⟩
  show p.allows fd (v.out.cs fd)
  rw [hidle fd]
  exact allows_idle hw fd

theorem back_takes (k : Kind) : k.back.takes = [] := by
  cases k <;> rfl

theorem back_not_writing (k : Kind) (e : ℕ) : k.back ≠ .writing e := by
  cases k <;> nofun

theorem not_leads {p : Pc} (h : p.leads = false) {P : Prop} (hp : p.leads = true) : P := by
  rw [h] at hp
  cases hp

theorem OutInv.next {e : ℕ} {rest : List ℕ} {pol : Polling} {tasks : List ℕ} (h : OutInv n v)
    (hidle : ∀ fd, v.out.cs fd = .idle) (htakes : v.pc.takes = []) (hq : v.out.queue = e :: rest) :
    OutInv n ⟨.outEvent e, v.kind, pol, tasks,
      { v.out with queue := rest, taken := e :: v.out.taken }⟩ := by
  have hs : stepOut n 0 .ascending v.out .next =
      some { v.out with queue := rest, taken := e :: v.out.taken } := by
    simp only [stepOut, enter, hq]
  refine ⟨h.kept.step (regular_of_quiet rfl) (.inr rfl) hs, h.backlog, ?_, not_leads rfl, hidle⟩
  show e :: v.out.taken = [e]
  rw [h.taken, htakes]

theorem OutInv.processes {found : List ℕ} {ident : ℕ} {pol : Polling} (h : OutInv n v)
    (hidle : ∀ fd, v.out.cs fd = .idle) (htakes : v.pc.takes = [])
    (hp : Processes found ident { v with polling := pol } v') : OutInv n v' := by
  cases hp with
  | @out o hi ho =>
    have hwait : stepOut n 0 .ascending v.out (.pollWait found) = some o := ho
    have hpush : stepOut n 0 .ascending o .pollPush =
        some { o with queue := o.queue ++ o.backlog, backlog := [] } := rfl
    have hkept := (h.kept.step (regular_of_quiet rfl) (.inr rfl) hwait).step (regular_of_quiet rfl)
      (.inr rfl) hpush
    unfold State.pollWait at ho
    split_ifs at ho
    obtain rfl := Option.some.inj ho
    exact ⟨hkept, rfl, h.taken.trans htakes, nofun, hidle⟩
  | handler hi => exact h.move hidle htakes.symm nofun nofun

theorem OutInv.runsOnce {found : List ℕ} (h : OutInv n v) (hidle : ∀ fd, v.out.cs fd = .idle)
    (htakes : v.pc.takes = []) (hr : RunsOnce found v v') : OutInv n v' := by
  cases hr with
  | ended he =>
    exact h.move hidle ((back_takes _).trans htakes.symm) (back_not_writing _) (not_leads (back_leads _))
  | more he hm hp => exact h.processes hidle htakes hp
  | task he hm hf => exact h.move hidle htakes.symm nofun nofun
  | out he hm hf hq => exact h.next hidle htakes hq
  | poll he hm hf hq hn => exact h.move hidle htakes.symm nofun fun _ => hq
  | backlog he hm hf hq hn hb hp => exact h.processes hidle htakes hp

/-- The stage after a stage. -/
def nextStage : Stage → Stage
  | .addFd => .incr
  | .remove => .clear
  | .clear => .decr
  | .idle | .incr | .reactivate | .decr => .idle

theorem goOn_own {o o' : Wavy.State} {e : ℕ} (h : o.goOn e = some o') :
    o'.cs e = nextStage (o.cs e) ∧ o'.backlog = o.backlog ∧ o'.taken = o.taken ∧ o'.world = o.world := by
  unfold State.goOn at h
  cases hcs : o.cs e with
  | idle => simp [hcs] at h
  | addFd | incr | reactivate | remove | clear | decr =>
    rw [hcs] at h
    obtain rfl := Option.some.inj h
    exact ⟨Function.update_self .., rfl, rfl, rfl⟩

theorem stepOut_goOn {o o' : Wavy.State} {e : ℕ} (h : stepOut n m mc o (.goOn e) = some o') :
    e < n ∧ o.goOn e = some o' := by
  simp only [stepOut, enter] at h
  split_ifs at h with he
  exact ⟨he, h⟩

/-- What a caller does leaves the events alone and starts no section of `write_event`. -/
theorem stepOut_caller {o o' : Wavy.State} {act : Wavy.Action} (hw : WatchInv n o)
    (hb : byCaller o act = true) (h : stepOut n m mc o act = some o') :
    o'.backlog = o.backlog ∧ o'.taken = o.taken ∧ ∀ fd, ofCommit (o.cs fd) = true → ofCommit (o'.cs fd) = true := by
  have henter {fd : ℕ} {work : Section} {pay : List Item} {xfers : ℕ → Xfer} {given : List Finalizer}
      (he : enter m mc o act = some ⟨fd, work, pay, xfers, o.taken, given⟩) (hc : work.Commits (o.ctx fd)) :
      o'.backlog = o.backlog ∧ o'.taken = o.taken ∧
        ∀ fd, ofCommit (o.cs fd) = true → ofCommit (o'.cs fd) = true := by
    obtain ⟨rfl, -⟩ := stepOut_enter he h
    refine ⟨rfl, rfl, fun fd' hfd' => ?_⟩
    show ofCommit (Function.update o.cs fd work.stage fd') = true
    by_cases hf : fd' = fd
    · subst hf
      rw [Function.update_self]
      obtain ⟨hst, -⟩ | ⟨-, hst, -⟩ := hc.stage <;> (rw [hst]; rfl)
    · rw [Function.update_of_ne hf]
      exact hfd'
  cases act with
  | write fd buf size as junk => exact henter rfl (out.write_commits (hw.ctxSound fd) ..)
  | submit fd call stack as junk => exact henter rfl (out.commitRaw_commits (hw.ctxSound fd) ..)
  | commit fd k as junk =>
    have hk : k < m := by
      by_contra hk
      simp [stepOut, enter, hk] at h
    exact henter (if_pos hk) (out.commit_commits (hw.ctxSound fd) (hw.xferSound k) ..).1
  | goOn e =>
    obtain ⟨-, hgo⟩ := stepOut_goOn h
    obtain ⟨hcs, hback, htaken, -⟩ := goOn_own hgo
    refine ⟨hback, htaken, fun fd hfd => ?_⟩
    by_cases hf : fd = e
    · subst hf
      rw [hcs]
      cases hst : o.cs fd with
      | idle | addFd | incr => rfl
      | reactivate | remove | clear | decr =>
        rw [hst] at hfd
        cases hfd
    · rw [(State.goOn_other hgo hf).2.1]
      exact hfd
  | push | migrate | clearXfer =>
    simp only [stepOut, enter] at h
    split_ifs at h
    obtain rfl := Option.some.inj h
    exact ⟨rfl, rfl, fun _ => id⟩
  | rewrite =>
    obtain rfl := Option.some.inj h
    exact ⟨rfl, rfl, fun _ => id⟩
  | writeEvent | pollWait | pollPush | next => cases hb

theorem allows_user {p : Pc} (h : p.user = true) (fd : ℕ) (stage : Stage) :
    p.allows fd stage ↔ ofCommit stage = true := by
  cases p with
  | outside | handler | task => exact Iff.rfl
  | _ => cases h

theorem user_leads {p : Pc} (h : p.user = true) : p.leads = false := by
  cases p with
  | outside | handler | task => rfl
  | _ => cases h

theorem enter_writeEvent {o : Wavy.State} {e : ℕ} (h : e ∈ o.taken) (as : List Answer) :
    enter m mc o (.writeEvent e as) =
      some ⟨e, out.writeEvent o.world mc (o.ctx e) as, [], o.xfers, o.taken.erase e, []⟩ := if_pos h

theorem OutInv.writeEvent {e : ℕ} {as : List Answer} {o : Wavy.State} (h : OutInv n v)
    (hi : Intact mc v.out (.writeEvent e as)) (hpc : v.pc = .outEvent e)
    (ho : stepOut n m mc v.out (.writeEvent e as) = some o) : OutInv n { v with pc := .writing e, out := o } := by
  have hkept := h.kept.step (regular_of_quiet rfl) hi ho
  have htaken : v.out.taken = [e] := by
    rw [h.taken, hpc]
    rfl
  have hmem : e ∈ v.out.taken := by
    rw [htaken]
    exact List.mem_singleton.mpr rfl
  have hothers (fd : ℕ) : v.out.cs fd = .idle := by
    have hst := h.stage fd
    rw [hpc] at hst
    exact hst
  obtain ⟨rfl, -⟩ := stepOut_enter (enter_writeEvent hmem as) ho
  refine ⟨hkept, h.backlog, ?_, nofun, fun fd => ?_⟩
  · show v.out.taken.erase e = []
    rw [htaken, List.erase_cons_head]
  · show if fd = e then ofCommit (Function.update v.out.cs e _ fd) = false
      else Function.update v.out.cs e _ fd = .idle
    split_ifs with hf
    · subst hf
      rw [Function.update_self]
      obtain ⟨-, ⟨hst, -⟩ | hst⟩ := out.writeEvent_stage (h.kept.watch.ctxSound fd) v.out.world mc as
      all_goals
        rw [hst]
        rfl
    · rw [Function.update_of_ne hf]
      exact hothers fd

/-- The section of `write_event` goes on, and ends when the thread leaves it. -/
theorem OutInv.writing {e : ℕ} {o : Wavy.State} {p : Pc} (h : OutInv n v) (hpc : v.pc = .writing e)
    (ho : stepOut n m mc v.out (.goOn e) = some o) (hl : p.leads = false) (ht : p.takes = [])
    (hp : (v.out.cs e = .remove ∨ v.out.cs e = .clear) ∧ p = .writing e ∨
      (v.out.cs e = .reactivate ∨ v.out.cs e = .decr) ∧ ∀ e, p ≠ .writing e) :
    OutInv n { v with pc := p, out := o } := by
  obtain ⟨-, hgo⟩ := stepOut_goOn ho
  obtain ⟨hcs, hback, htaken, -⟩ := goOn_own hgo
  have hothers (fd : ℕ) (hf : fd ≠ e) : o.cs fd = .idle := by
    have hst := h.stage fd
    rw [hpc] at hst
    rw [(State.goOn_other hgo hf).2.1]
    exact (if_neg hf).mp hst
  refine ⟨h.kept.step (regular_of_quiet rfl) (.inr rfl) ho, hback.trans h.backlog, ?_, not_leads hl,
    fun fd => ?_⟩
  · rw [htaken, h.taken, hpc]
    exact ht.symm
  · show p.allows fd (o.cs fd)
    obtain ⟨hst, rfl⟩ | ⟨hst, hw⟩ := hp
    · show if fd = e then ofCommit (o.cs fd) = false else o.cs fd = .idle
      split_ifs with hf
      · rw [hf, hcs]
        obtain hst | hst := hst <;> (rw [hst]; rfl)
      · exact hothers fd hf
    · have hidle : o.cs fd = .idle := by
        by_cases hf : fd = e
        · rw [hf, hcs]
          obtain hst | hst := hst <;> (rw [hst]; rfl)
        · exact hothers fd hf
      rw [hidle]
      exact allows_idle hw fd

theorem OutInv.lone {x : Solo} (h : OutInv n x.loop.view) (hsole : Sole n m mc x a)
    (hs : Lone n m mc x.loop.view a v') : OutInv n v' := by
  cases hs with
  | hop hops =>
    obtain ⟨-, hst, hsw⟩ := hops.source
    obtain ⟨hl, ht, hw⟩ := hops.target
    exact h.move (h.idle hsole hsw) (ht.trans hst.symm) hw (not_leads hl)
  | once hpc hr =>
    refine h.runsOnce (h.idle hsole ?_) ?_ hr
    all_goals obtain ⟨hpc, -⟩ | hpc := hpc
    all_goals
      rw [hpc]
      first | rfl | nofun
  | polled hpc hb hp =>
    exact h.processes (h.idle hsole (by rw [hpc]; nofun)) (by rw [hpc]; rfl) hp
  | @timedOut _ _ p hpc hto =>
    have hp : p.takes = [] ∧ (∀ e, p ≠ .writing e) ∧ p.leads = false := by
      obtain ⟨rfl, -⟩ | ⟨rfl, -⟩ := hto
      · exact ⟨back_takes _, back_not_writing _, back_leads _⟩
      · exact ⟨rfl, nofun, rfl⟩
    refine h.move (h.idle hsole (by rw [hpc]; nofun)) ?_ hp.2.1 (not_leads hp.2.2)
    rw [hp.1, hpc]
    rfl
  | outPop hpc hq => exact h.next (h.idle hsole (by rw [hpc]; nofun)) (by rw [hpc]; rfl) hq
  | taskPop hpc hf =>
    exact h.move (h.idle hsole (by rw [hpc]; nofun)) (by rw [hpc]; rfl) nofun nofun
  | @writing _ _ e o p hpc ho hto =>
    obtain ⟨hst, rfl⟩ | ⟨hst, rfl⟩ | ⟨hst, rfl | rfl⟩ := hto
    · exact h.writing hpc ho rfl rfl (.inl ⟨hst, rfl⟩)
    · exact h.writing hpc ho (back_leads _) (back_takes _) (.inr ⟨.inl hst, back_not_writing _⟩)
    · exact h.writing hpc ho (back_leads _) (back_takes _) (.inr ⟨.inr hst, back_not_writing _⟩)
    · exact h.writing hpc ho rfl rfl (.inr ⟨.inr hst, nofun⟩)
  | call hk hpc => exact h.move hsole (by rw [hpc]; rfl) nofun nofun
  | waitReturns hpc hne =>
    refine h.move (h.idle ?_ (by rw [hpc]; nofun)) (by rw [hpc]; rfl) nofun fun _ => h.spent (by rw [hpc]; rfl)
    rw [hpc]
    nofun
  | timeout hpc =>
    refine h.move (h.idle ?_ (by rw [hpc]; nofun)) (by rw [hpc]; rfl) nofun fun _ => h.spent (by rw [hpc]; rfl)
    rw [hpc]
    nofun
  | writeEvent hpc ho => exact h.writeEvent (hsole _ hpc) hpc ho
  | @commit act o hb ho =>
    obtain ⟨huser, hreg, hint⟩ := hsole
    obtain ⟨hback, htaken, hstage⟩ := stepOut_caller h.kept.watch hb ho
    have hst (fd : ℕ) := (allows_user huser fd _).mp (h.stage fd)
    refine ⟨h.kept.step hreg hint ho, hback.trans h.backlog, htaken.trans h.taken,
      not_leads (user_leads huser), fun fd => ?_⟩
    exact (allows_user huser fd _).mpr (hstage fd (hst fd))
  | more | submit | endBegin | endReturn => exact ⟨h.kept, h.backlog, h.taken, h.spent, h.stage⟩

/-! ## All of it -/

/-- What holds whenever one thread uses the loop. -/
structure SoloInv (n : ℕ) (x : Solo) : Prop where
  poll : PollInv x.loop.view
  flush : FlushKind x.loop.view
  token : TokenInv n x.loop.view x.armed
  out : OutInv n x.loop.view
  lock : LockInv x.loop
  others : ∀ t, t ≠ 0 → x.loop.pc t = .outside

theorem step_others (h : step 1 n m mc s a = some s') (hstart : a ≠ .start)
    (ho : ∀ t, t ≠ 0 → s.pc t = .outside) (t : ℕ) (ht : t ≠ 0) : s'.pc t = .outside := by
  have hne {u : ℕ} (hu : u < 1) : t ≠ u := by omega
  have hsignal {s₁ : State} (hs : Signalled 1 s₁ s') (hpc : s₁.pc t = s.pc t) : s'.pc t = .outside := by
    obtain heq | ⟨hw, -⟩ := hs.pc t
    · rw [heq, hpc]
      exact ho t ht
    · rw [hpc, ho t ht] at hw
      cases hw
  cases step_cases h with
  | move hlt hm =>
    obtain heq | ⟨hw, -⟩ | ⟨hw, -⟩ := hm.others.pc t (hne hlt)
    · rw [heq]
      exact ho t ht
    all_goals
      rw [ho t ht] at hw
      cases hw
  | call hlt =>
    show (Function.update s.threads _ _ t).pc = .outside
    rw [Function.update_of_ne (hne hlt)]
    exact ho t ht
  | wakeup hlt | waitReturns hlt | timeout hlt | writeEvent hlt =>
    rw [pc_setPc_of_ne (hne hlt)]
    exact ho t ht
  | more hs | submit hs => exact hsignal hs rfl
  | start => exact absurd rfl hstart
  | commit | join | endBegin => exact ho t ht
  | endReturn =>
    rw [pc_wakeAll, ho t ht]
    rfl

theorem SoloInv.step {x x' : Solo} (h : SoloInv n x) (hsole : Sole n m mc x a)
    (hs : soloStep n m mc x a = some x') : Lone n m mc x.loop.view a x'.loop.view ∧ SoloInv n x' := by
  obtain ⟨s', hstep, rfl⟩ := Option.map_eq_some_iff.mp hs
  have hstart : a ≠ .start := by
    rintro rfl
    exact hsole
  have hjoin : a ≠ .join := by
    rintro rfl
    exact hsole
  have hlone := step_alone h.poll.main h.poll.running h.poll.fits hstart hjoin hstep
  refine ⟨hlone, h.poll.lone hsole.user hlone, h.flush.lone hlone, h.token.lone h.poll h.out.kept.watch hsole hlone,
    h.out.lone hsole hlone, (step_cases hstep).lockInv h.lock, step_others hstep hstart h.others⟩

theorem SoloInv.init (world : World) {kinds : ℕ → Kind} (hk : kinds 0 ≠ .main) :
    SoloInv n ⟨.init kinds world, true⟩ where
  poll := ⟨hk, rfl, trivial, rfl, le_rfl, fun _ => le_rfl, fun _ => rfl, nofun, nofun, nofun⟩
  flush := nofun
  token := ⟨List.nodup_nil, nofun, nofun⟩
  out := ⟨⟨.start world, .start world, fun _ _ => ⟨rfl, rfl⟩⟩, rfl, rfl, fun _ => rfl, fun _ => rfl⟩
  lock := .init kinds world
  others _ _ := rfl

theorem reachable_soloInv {x : Solo} (h : (soloSystem n m mc).Reachable (Sole n m mc) x) : SoloInv n x := by
  apply h.invariant
  · rintro x ⟨world, kinds, hk, rfl⟩
    exact .init world hk
  · intro x a x' _ hinv hsole hs
    exact (hinv.step hsole hs).2

theorem SoloInv.mutex {x : Solo} (h : SoloInv n x) : x.loop.mutex = none ∨ x.loop.mutex = some 0 := by
  cases hm : x.loop.mutex with
  | none => exact .inl rfl
  | some t =>
    by_cases ht : t = 0
    · exact .inr (by rw [ht])
    · have hlock := h.lock t
      rw [h.others t ht] at hlock
      exact absurd hm hlock.2

theorem SoloInv.free {x : Solo} (h : SoloInv n x) (hpc : (x.loop.pc 0).lockClass = .free) :
    x.loop.mutex = none ∧ x.loop.owns 0 = false := by
  have hlock := h.lock 0
  rw [hpc] at hlock
  exact ⟨h.mutex.resolve_right hlock.2, hlock.1⟩

end Mpio.Wavy.Mutex
