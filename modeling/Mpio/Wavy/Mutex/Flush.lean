import Mpio.Wavy.Mutex.Step
import Mpio.Wavy.Watch

/-!
# `flush` does not miss its wakeup

A thread in `flush` evaluates its loop condition under `m_mutex`, whichever way `run_once` or the
condition variable have left its scoped lock (`LockInv`). If the condition holds it waits for
`m_flush_cond`. Whoever makes the condition false, by popping the last task or by bringing `m_watching`
to 0, owes a broadcast, and until it has made it the thread is not forgotten: `Owed`. The broadcast
takes `m_mutex`, so it cannot come between the evaluation and the wait.

`m_watching` changes outside `m_mutex`. That it is never negative is the invariant of `Wavy.Watch`,
since every step of the loop is made of steps of `out` (`Move.watch`).
-/

namespace Mpio.Wavy.Mutex

open Lib

variable {N n m t u : ℕ} {mc : Memcpy} {s s' : State} {a : Action}

/-! ## The scoped locks -/

/-- What the place of a thread says about its scoped lock. -/
inductive LockClass
  | free
  | either
  | inside
  | asleep

def Pc.lockClass : Pc → LockClass
  | .flushTop | .flushHold => .inside
  | .waiting | .woken | .flushWaiting | .flushWoken => .asleep
  | .flushBack => .either
  | _ => .free

/-- The lock refers to the mutex, and the thread holds it, or not. Asleep in a condition variable the
lock refers to a mutex that the thread does not hold. -/
def LockOk (owns : Bool) (holds : Prop) : LockClass → Prop
  | .free => owns = false ∧ ¬ holds
  | .either => owns = true ↔ holds
  | .inside => owns = true ∧ holds
  | .asleep => owns = true ∧ ¬ holds

def LockInv (s : State) : Prop := ∀ t, LockOk (s.owns t) (s.mutex = some t) (s.pc t).lockClass

/-- Thread `t` has acted, and the mutex is as before or went between nobody and `t`. -/
theorem LockInv.act (h : LockInv s)
    (hm : s'.mutex = s.mutex ∨
      (s.mutex = none ∨ s.mutex = some t) ∧ (s'.mutex = none ∨ s'.mutex = some t))
    (hother : ∀ u, u ≠ t → s'.owns u = s.owns u ∧ (s'.pc u).lockClass = (s.pc u).lockClass)
    (hself : LockOk (s'.owns t) (s'.mutex = some t) (s'.pc t).lockClass) : LockInv s' := by
  intro u
  by_cases hu : u = t
  · subst hu
    exact hself
  · obtain ⟨ho, hc⟩ := hother u hu
    have hholds : (s'.mutex = some u) = (s.mutex = some u) := by
      rcases hm with hm | ⟨hm, hm'⟩
      · rw [hm]
      · have hno : s.mutex ≠ some u := by rcases hm with hm | hm <;> simp [hm, Ne.symm hu]
        have hno' : s'.mutex ≠ some u := by rcases hm' with hm' | hm' <;> simp [hm', Ne.symm hu]
        simp [hno, hno']
    rw [ho, hc, hholds]
    exact h u

theorem Others.lockClass (h : Others t s s') (hu : u ≠ t) :
    (s'.pc u).lockClass = (s.pc u).lockClass := by
  obtain hpc | ⟨hpc, hpc'⟩ | ⟨hpc, hpc', -⟩ := h.pc u hu
  · rw [hpc]
  · rw [hpc, hpc']
    rfl
  · rw [hpc, hpc']
    rfl

theorem LockInv.of_same (h : LockInv s) (hm : s'.mutex = s.mutex)
    (hsame : ∀ u, s'.owns u = s.owns u ∧ (s'.pc u).lockClass = (s.pc u).lockClass) : LockInv s' := by
  intro u
  rw [hm, (hsame u).1, (hsame u).2]
  exact h u

theorem LockInv.hop (h : LockInv s) (ho : Others t s s') (hm : s'.mutex = s.mutex)
    (hw : s'.owns t = s.owns t) (hc : (s'.pc t).lockClass = (s.pc t).lockClass) : LockInv s' := by
  refine h.of_same hm fun u => ?_
  by_cases hu : u = t
  · subst hu
    exact ⟨hw, hc⟩
  · exact ⟨ho.owns u hu, ho.lockClass hu⟩

theorem LockInv.ret (h : LockInv s) (ho : Others t s s') (hm : s'.mutex = s.mutex)
    (hw : s'.owns t = s.owns t) (hc : (s.pc t).lockClass = .free) : LockInv (s'.ret t) := by
  have hfree := h t
  rw [hc] at hfree
  have hno : s'.owns t = false := hw.trans hfree.1
  have hmutex : (s'.ret t).mutex = s.mutex := by rw [mutex_ret, hno, if_neg (by simp), hm]
  have howns : (s'.ret t).owns t = false := by
    rw [owns_ret]
    split_ifs
    · rfl
    · exact hno
  refine h.act (.inl hmutex) (fun u hu => ⟨ho.ret.owns u hu, ho.ret.lockClass hu⟩) ?_
  rw [howns, hmutex, pc_ret, if_pos rfl]
  cases s'.kind t with
  | main | once | nonblock => exact ⟨rfl, hfree.2⟩
  | flush => exact ⟨fun hf => by simp at hf, fun hmx => absurd hmx hfree.2⟩

theorem Sect.lockOk (h : Sect N t s s') (hm : s.mutex = some t) (ho : s.owns t = true) :
    (s'.mutex = none ∨ s'.mutex = some t) ∧
    LockOk (s'.owns t) (s'.mutex = some t) (s'.pc t).lockClass := by
  have hleave (s₁ : State) (pc : Pc) (ho : s₁.owns t = true) (hpc : pc.lockClass = .free) :
      (((s₁.unlock t).setPc t pc).mutex = none ∨ ((s₁.unlock t).setPc t pc).mutex = some t) ∧
      LockOk (((s₁.unlock t).setPc t pc).owns t) (((s₁.unlock t).setPc t pc).mutex = some t)
        (((s₁.unlock t).setPc t pc).pc t).lockClass := by
    have hmutex : ((s₁.unlock t).setPc t pc).mutex = none := by
      rw [setPc_mutex, mutex_unlock, if_pos ho]
    have howns : ((s₁.unlock t).setPc t pc).owns t = false := by
      rw [owns_setPc, owns_unlock, if_pos rfl]
    refine ⟨.inl hmutex, ?_⟩
    rw [hmutex, howns, pc_setPc_self, hpc]
    exact ⟨rfl, by simp⟩
  cases h with
  | leave hpc =>
    refine hleave _ _ ho ?_
    obtain rfl | rfl | ⟨i, rfl⟩ := hpc <;> rfl
  | pollOut | lastTask | outEvent => exact hleave _ _ ho rfl
  | task hf hrest hs => exact hleave _ _ ((hs.owns t).trans ho) rfl
  | wait =>
    refine ⟨.inl rfl, ?_⟩
    rw [State.wait, owns_setPc, pc_setPc_self]
    exact ⟨ho, by simp⟩
  | ret =>
    rw [mutex_ret, owns_ret, pc_ret, if_pos rfl]
    cases s.kind t with
    | main | once | nonblock => simp [ho, LockOk, Pc.lockClass, Kind.back]
    | flush => simp [ho, hm, LockOk, Pc.lockClass, Kind.back]

theorem Acquires.lock_held {s₀ : State} (h : Acquires t s s₀) (hl : LockInv s) :
    (s.mutex = none ∨ s.mutex = some t) ∧ s₀.mutex = some t ∧ s₀.owns t = true := by
  have ht := hl t
  cases h with
  | lock hpc h =>
    obtain ⟨hm, rfl⟩ := lock_eq h
    refine ⟨.inl hm, rfl, ?_⟩
    rw [owns_setOwns, if_pos rfl]
  | woken hpc hm =>
    rw [hpc] at ht
    exact ⟨.inl hm, rfl, ht.1⟩
  | polled hpc h =>
    rw [hpc] at ht
    obtain ⟨hm, rfl⟩ := lock_eq h
    rw [mutex_unlock, ht.1, if_neg (by simp)] at hm
    refine ⟨.inl hm, rfl, ?_⟩
    rw [owns_setOwns, if_pos rfl]
  | flush hpc =>
    rw [hpc] at ht
    exact ⟨.inr ht.2, ht.2, ht.1⟩

theorem Move.lockInv (h : Move N n m mc t s s') (hl : LockInv s) : LockInv s' := by
  have ht := hl t
  have ho := h.others
  have hother : ∀ u, u ≠ t → s'.owns u = s.owns u ∧ (s'.pc u).lockClass = (s.pc u).lockClass :=
    fun u hu => ⟨ho.owns u hu, ho.lockClass hu⟩
  cases h with
  | sect ha hs h =>
    obtain ⟨-, -, hmutex, howns⟩ := ha.begun hs
    obtain ⟨hm, hm₀, ho₀⟩ := ha.lock_held hl
    obtain ⟨hm', hok⟩ := h.lockOk (hmutex.trans hm₀) (howns.trans ho₀)
    exact hl.act (.inr ⟨hm, hm'⟩) hother hok
  | flushLock hpc h hk =>
    obtain ⟨hm, rfl⟩ := lock_eq h
    refine hl.act (.inr ⟨.inl hm, .inr rfl⟩) hother ?_
    rw [pc_setPc_self, owns_setPc, owns_setOwns, if_pos rfl]
    exact ⟨rfl, rfl⟩
  | flushRelock hpc h =>
    obtain ⟨hm, rfl⟩ := lock_eq h
    rw [hpc] at ht
    have hm' : s.mutex = none ∨ s.mutex = some t := by
      rw [mutex_unlock] at hm
      split_ifs at hm with hown
      · exact .inr (ht.mp hown)
      · exact .inl hm
    refine hl.act (.inr ⟨hm', .inr rfl⟩) hother ?_
    rw [pc_setPc_self, owns_setPc, owns_setOwns, if_pos rfl]
    exact ⟨rfl, rfl⟩
  | flushOwned hpc hown =>
    rw [hpc] at ht
    refine hl.act (.inl rfl) hother ?_
    rw [pc_setPc_self, owns_setPc]
    exact ⟨hown, ht.mp hown⟩
  | flushWoken hpc hm =>
    rw [hpc] at ht
    refine hl.act (.inr ⟨.inl hm, .inr rfl⟩) hother ?_
    rw [pc_setPc_self, owns_setPc]
    exact ⟨ht.1, rfl⟩
  | flushWait hpc =>
    rw [hpc] at ht
    refine hl.act (.inr ⟨.inr ht.2, .inl rfl⟩) hother ?_
    rw [State.wait, pc_setPc_self, owns_setPc]
    exact ⟨ht.1, by simp⟩
  | flushed hpc =>
    rw [hpc] at ht
    have hm' : ((s.unlock t).setPc t .outside).mutex = none := by
      rw [setPc_mutex, mutex_unlock, if_pos ht.1]
    refine hl.act (.inr ⟨.inr ht.2, .inl hm'⟩) hother ?_
    rw [pc_setPc_self, owns_setPc, owns_unlock, if_pos rfl, hm']
    exact ⟨rfl, by simp⟩
  | @broadcast s₀ hpc h =>
    -- the broadcaster had let go of the mutex, and has it now for the rest of its round
    rw [hpc] at ht
    obtain ⟨hm, rfl⟩ := lock_eq h
    rw [mutex_unlock, ht.1, if_neg (by simp)] at hm
    obtain ⟨s₁, hs₁⟩ : ∃ s₁ : State, s₁ =
      State.wakeAll (State.setOwns { s.unlock t with mutex := some t } t true) .flushWaiting .flushWoken :=
      ⟨_, rfl⟩
    have hmutex : s₁.mutex = some t := by rw [hs₁]; rfl
    have howns : s₁.owns t = true := by rw [hs₁, owns_wakeAll, owns_setOwns, if_pos rfl]
    obtain ⟨hm', hok⟩ := Sect.lockOk (N := N) .ret hmutex howns
    rw [← hs₁] at hother ⊢
    exact hl.act (.inr ⟨.inl hm, hm'⟩) hother hok
  | timedOut hpc hto =>
    refine hl.hop ho rfl (owns_setPc _ t t _) ?_
    rw [pc_setPc_self, hpc]
    obtain rfl | rfl | ⟨rfl, -⟩ := hto <;> rfl
  | timedOutRet hpc | executed hpc | written hpc =>
    exact hl.ret (.refl t _ _ _) rfl rfl (by rw [hpc]; rfl)
  | ret hpc =>
    refine hl.ret (.refl t _ _ _) rfl rfl ?_
    obtain hpc | hpc | ⟨i, hpc⟩ := hpc <;> rw [hpc] <;> rfl
  | failOut hpc | failTask hpc =>
    refine hl.hop ho rfl (owns_setPc _ t t _) ?_
    rw [State.fail, pc_setPc_self]
    obtain hpc | ⟨e, hpc⟩ := hpc <;> rw [hpc] <;> rfl
  | taskMore hpc hs =>
    refine hl.hop ho hs.mutex ((owns_setPc _ t t _).trans (hs.owns t)) ?_
    rw [pc_setPc_self, hpc]
    rfl
  | writing => exact hl.hop ho rfl rfl rfl
  | hasQueue hpc | noQueue hpc | outFront hpc | outPop hpc | hasTask hpc | taskFront hpc | taskPop hpc
  | taskLast hpc | executedLast hpc | writtenLast hpc | flushHold hpc =>
    refine hl.hop ho rfl (owns_setPc _ t t _) ?_
    rw [pc_setPc_self, hpc]
    rfl

theorem Nudged.lock_same {θ θ' : Thread} (h : Nudged a u θ θ') :
    θ'.owns = θ.owns ∧ θ'.pc.lockClass = θ.pc.lockClass := by
  cases h <;> exact ⟨rfl, rfl⟩

theorem Step.lockInv (h : Step N n m mc s a s') (hl : LockInv s) : LockInv s' := by
  obtain ⟨t, -, h⟩ | ⟨hm, hn⟩ := h.nudged
  · exact h.lockInv hl
  · exact hl.of_same hm fun u => (hn u).lock_same

theorem LockInv.init (kinds : ℕ → Kind) (world : World) : LockInv (.init kinds world) :=
  fun _ => ⟨rfl, nofun⟩

/-! ## Without `run_nonblock` -/

/-- The places between `hasQueue` and `taskLast`. -/
def Pc.unlocked : Pc → Bool
  | .hasQueue | .outFront | .outPop _ | .tasksEmpty | .taskFront | .taskPop _ | .taskLast _ => true
  | _ => false

/-- In the loop of `flush` with the condition evaluated to true. -/
def Pc.awaits : Pc → Bool
  | .flushHold | .flushWaiting => true
  | _ => false

def Blocking (s : State) : Prop :=
  ∀ t, (s.kind t = .nonblock → s.pc t = .outside) ∧ (s.pc t).unlocked = false

theorem Kind.back_plain (k : Kind) : k.back.unlocked = false ∧ k.back.awaits = false := by
  cases k <;> exact ⟨rfl, rfl⟩

theorem Sect.pc_plain (h : Sect N t s s') :
    (s'.pc t).unlocked = false ∧ (s'.pc t).awaits = false := by
  cases h with
  | leave hpc =>
    rw [pc_setPc_self]
    obtain rfl | rfl | ⟨i, rfl⟩ := hpc <;> exact ⟨rfl, rfl⟩
  | ret =>
    rw [pc_ret, if_pos rfl]
    exact (s.kind t).back_plain
  | wait =>
    rw [State.wait, pc_setPc_self]
    exact ⟨rfl, rfl⟩
  | pollOut | lastTask | task | outEvent =>
    rw [pc_setPc_self]
    exact ⟨rfl, rfl⟩

theorem Acquires.pc_ne_outside {s₀ : State} (h : Acquires t s s₀) : s.pc t ≠ .outside := by
  cases h with
  | lock hpc _ | woken hpc _ | polled hpc _ | flush hpc =>
    rw [hpc]
    exact Pc.noConfusion

theorem Move.blocking (h : Move N n m mc t s s') (hb : Blocking s) :
    s.pc t ≠ .outside ∧ (s'.pc t).unlocked = false := by
  have hkind := (hb t).1
  have ht := (hb t).2
  cases h with
  | sect ha hs h => exact ⟨ha.pc_ne_outside, h.pc_plain.1⟩
  | timedOut hpc hto =>
    have hne : s.pc t ≠ .outside := by rw [hpc]; exact Pc.noConfusion
    refine ⟨hne, ?_⟩
    rw [pc_setPc_self]
    obtain rfl | rfl | ⟨rfl, hk⟩ := hto
    · rfl
    · rfl
    · exact absurd (hkind hk) hne
  | timedOutRet hpc | executed hpc | written hpc =>
    rw [hpc, pc_ret, if_pos rfl]
    exact ⟨Pc.noConfusion, (Kind.back_plain _).1⟩
  | broadcast hpc h =>
    rw [hpc, pc_ret, if_pos rfl]
    exact ⟨Pc.noConfusion, (Kind.back_plain _).1⟩
  | ret hpc =>
    rw [pc_ret, if_pos rfl]
    refine ⟨?_, (Kind.back_plain _).1⟩
    obtain hpc | hpc | ⟨i, hpc⟩ := hpc <;> rw [hpc] <;> exact Pc.noConfusion
  | hasQueue hpc | noQueue hpc | outFront hpc | outPop hpc | hasTask hpc | taskFront hpc | taskPop hpc
  | taskLast hpc | taskMore hpc =>
    rw [hpc] at ht
    cases ht
  | failOut hpc | failTask hpc => obtain hpc | ⟨e, hpc⟩ := hpc <;> rw [hpc] at ht <;> cases ht
  | writing hpc =>
    refine ⟨?_, ht⟩
    rw [hpc]
    exact Pc.noConfusion
  | flushWait hpc =>
    rw [hpc, State.wait, pc_setPc_self]
    exact ⟨Pc.noConfusion, rfl⟩
  | flushLock hpc | executedLast hpc | writtenLast hpc | flushHold hpc | flushed hpc | flushWoken hpc
  | flushOwned hpc | flushRelock hpc =>
    rw [hpc, pc_setPc_self]
    exact ⟨Pc.noConfusion, rfl⟩

theorem Nudged.blocking {θ θ' : Thread} (h : Nudged a u θ θ') (hcall : ∀ t, a ≠ .call t .nonblock)
    (hb : (θ.kind = .nonblock → θ.pc = .outside) ∧ θ.pc.unlocked = false) :
    (θ'.kind = .nonblock → θ'.pc = .outside) ∧ θ'.pc.unlocked = false := by
  cases h with
  | same => exact hb
  | called hk =>
    refine ⟨fun hkind => ?_, rfl⟩
    obtain rfl := hkind
    rcases hk with hk | hk
    · cases hk
    · exact absurd hk (hcall u)
  | woken | flushWoken | polled | timedOut | writing =>
    refine ⟨fun hkind => ?_, rfl⟩
    cases hb.1 hkind

theorem Move.blocking_step (h : Move N n m mc t s s') (hb : Blocking s) : Blocking s' := by
  obtain ⟨hne, hpc⟩ := h.blocking hb
  have ho := h.others
  intro u
  rw [ho.kind]
  by_cases hu : u = t
  · subst hu
    exact ⟨fun hk => absurd ((hb u).1 hk) hne, hpc⟩
  · -- the others are where they were, or were asleep, which `run_nonblock` never is
    have hasleep {p : Pc} (hpc : s.pc u = p) (hp : p ≠ .outside) (hk : s.kind u = .nonblock) : False :=
      hp (hpc ▸ (hb u).1 hk)
    obtain hpc | ⟨hpc, hpc'⟩ | ⟨hpc, hpc', -⟩ := ho.pc u hu
    · rw [hpc]
      exact hb u
    · rw [hpc']
      exact ⟨fun hk => (hasleep hpc Pc.noConfusion hk).elim, rfl⟩
    · rw [hpc']
      exact ⟨fun hk => (hasleep hpc Pc.noConfusion hk).elim, rfl⟩

theorem Step.blocking (h : Step N n m mc s a s') (hb : Blocking s)
    (hcall : ∀ t, a ≠ .call t .nonblock) : Blocking s' := by
  obtain ⟨t, -, h⟩ | ⟨-, hn⟩ := h.nudged
  · exact h.blocking_step hb
  · exact fun u => (hn u).blocking hcall (hb u)

/-! ## `m_watching` -/

theorem Sect.watch (h : Sect N t s s') (hw : WatchInv n s.out) : WatchInv n s'.out := by
  have hstep {o o' : Wavy.State} (act : Wavy.Action) (ho : WatchInv n o)
      (h : stepOut n 0 .ascending o act = some o') : WatchInv n o' := ho.step h
  cases h with
  | @pollOut p found o ho =>
    rw [setPc_toQueues, unlock_toQueues]
    have hpolled : WatchInv n o := hstep (.pollWait found) hw ho
    exact hstep .pollPush hpolled rfl
  | @outEvent e rest hq =>
    rw [setPc_toQueues, unlock_toQueues]
    refine hstep .next hw ?_
    unfold stepOut enter
    simp only [hq]
    rfl
  | task hf hrest hs =>
    rw [setPc_toQueues, unlock_toQueues, hs.toQueues]
    exact hw
  | lastTask | leave =>
    rw [setPc_toQueues, unlock_toQueues]
    exact hw
  | wait => exact hw
  | ret =>
    rw [ret_toQueues]
    exact hw

theorem Move.watch (h : Move N n m mc t s s') (hb : Blocking s) (hw : WatchInv n s.out) :
    WatchInv n s'.out := by
  have ht := (hb t).2
  cases h with
  | sect ha hs h =>
    refine h.watch ?_
    have hq := ha.same.1
    rcases hs with rfl | hs
    · rw [hq]
      exact hw
    · rw [hs.toQueues, hq]
      exact hw
  | outPop hpc hq =>
    rw [hpc] at ht
    cases ht
  | writing hpc ho => exact hw.step ho
  | written hpc ho =>
    rw [ret_toQueues]
    exact hw.step ho
  | writtenLast hpc ho => exact hw.step ho
  | flushLock hpc h =>
    rw [setPc_toQueues, (lock_same h).1]
    exact hw
  | timedOutRet | ret | executed =>
    rw [ret_toQueues]
    exact hw
  | taskMore hpc hs =>
    rw [setPc_toQueues, hs.toQueues]
    exact hw
  | broadcast hpc h =>
    rw [ret_toQueues, wakeAll_toQueues, (relock_same h).1]
    exact hw
  | flushed =>
    rw [setPc_toQueues, unlock_toQueues]
    exact hw
  | flushRelock hpc h =>
    rw [setPc_toQueues, (relock_same h).1]
    exact hw
  | _ => exact hw

theorem Step.watch (h : Step N n m mc s a s') (hb : Blocking s) (hw : WatchInv n s.out) :
    WatchInv n s'.out := by
  cases h with
  | move htN h => exact h.watch hb hw
  | writeEvent htN hpc ho => exact hw.step ho
  | commit hc ho => exact hw.step ho
  | more hs =>
    rw [hs.toQueues]
    exact hw
  | submit hs =>
    rw [hs.toQueues]
    exact hw
  | _ => exact hw

/-! ## The broadcast that is owed -/

/-- The last task was popped, or `m_watching` became 0, and the broadcast has not been made. -/
def Pc.owes : Pc → Bool
  | .task _ true | .broadcast => true
  | _ => false

def Owed (N : ℕ) (s : State) : Prop :=
  0 < s.out.watching ∨ s.tasks ≠ [] ∨ ∃ u < N, (s.pc u).owes = true

theorem Owed.mono (h : Owed N s) (hw : 0 < s.out.watching → 0 < s'.out.watching)
    (hf : s.tasks ≠ [] → s'.tasks ≠ []) (hpc : ∀ u, (s.pc u).owes = true → (s'.pc u).owes = true) :
    Owed N s' := by
  obtain hpos | htasks | ⟨u, huN, hu⟩ := h
  · exact .inl (hw hpos)
  · exact .inr (.inl (hf htasks))
  · exact .inr (.inr ⟨u, huN, hpc u hu⟩)

/-- Thread `t` neither brings `m_watching` to 0 nor empties the queue, and has not broadcast. -/
theorem Owed.keep (h : Owed N s) (ho : Others t s s') (hw : 0 < s.out.watching → 0 < s'.out.watching)
    (hf : s.tasks ≠ [] → s'.tasks ≠ []) (hpc : (s.pc t).owes = true → (s'.pc t).owes = true) :
    Owed N s' := by
  refine h.mono hw hf fun u hu => ?_
  by_cases hut : u = t
  · subst hut
    exact hpc hu
  · obtain hsame | ⟨hwait, -⟩ | ⟨hwait, -⟩ := ho.pc u hut
    · rw [hsame]
      exact hu
    · rw [hwait] at hu
      cases hu
    · rw [hwait] at hu
      cases hu

theorem Owed.self (htN : t < N) (h : (s.pc t).owes = true) : Owed N s := .inr (.inr ⟨t, htN, h⟩)

theorem Sect.owed (h : Sect N t s s') (htN : t < N) (ht : (s.pc t).owes = false) (hw : Owed N s) :
    Owed N s' := by
  have hno {p : Prop} (hc : (s.pc t).owes = true) : p := by
    rw [ht] at hc
    cases hc
  have ho := h.others
  cases h with
  | lastTask hf => exact .self htN (by rw [pc_setPc_self]; rfl)
  | task hf hrest hs =>
    refine hw.keep ho (fun hpos => ?_) (fun _ => ?_) hno
    · rw [setPc_toQueues, unlock_toQueues, hs.toQueues]
      exact hpos
    · rw [setPc_toQueues, unlock_toQueues, hs.toQueues]
      exact hrest
  | @pollOut p found o hpoll =>
    have hwatch : o.watching = s.out.watching := by
      unfold Wavy.State.pollWait at hpoll
      split_ifs at hpoll
      obtain rfl := Option.some.inj hpoll
      rfl
    refine hw.keep ho (fun hpos => ?_) (fun hf => ?_) hno
    · rw [setPc_toQueues, unlock_toQueues]
      exact hwatch ▸ hpos
    · rw [setPc_toQueues, unlock_toQueues]
      exact hf
  | leave | outEvent =>
    refine hw.keep ho (fun hpos => ?_) (fun hf => ?_) hno
    · rw [setPc_toQueues, unlock_toQueues]
      exact hpos
    · rw [setPc_toQueues, unlock_toQueues]
      exact hf
  | wait => exact hw.keep ho id id hno
  | ret =>
    refine hw.keep ho (fun hpos => ?_) (fun hf => ?_) hno
    · rw [ret_toQueues]
      exact hpos
    · rw [ret_toQueues]
      exact hf

/-- What is owed when a section begins was owed before the thread took the lock. -/
theorem Acquires.owed {p : Polling} {s₀ s₁ : State} (ha : Acquires t s s₀)
    (hs : s₁ = s₀ ∨ Signalled N { s₀ with toPolling := p } s₁) (hw : Owed N s) :
    Owed N s₁ ∧ (s₁.pc t).owes = false := by
  have hpc : (s.pc t).owes = false := by
    cases ha with
    | lock hpc _ | woken hpc _ | polled hpc _ | flush hpc =>
      rw [hpc]
      rfl
  have hq : s₁.toQueues = s.toQueues := by
    rcases hs with rfl | hs
    · exact ha.same.1
    · rw [hs.toQueues]
      exact ha.same.1
  have hpc₁ : (s₁.pc t).owes = false := by
    rcases hs with rfl | hs
    · rw [ha.same.2.1]
      exact hpc
    · obtain hsame | ⟨-, hwoken⟩ := hs.pc t
      · rw [hsame]
        show (s₀.pc t).owes = false
        rw [ha.same.2.1]
        exact hpc
      · rw [hwoken]
        rfl
  refine ⟨hw.keep (ha.begun hs).1 (fun hpos => ?_) (fun hf => ?_) (fun hc => ?_), hpc₁⟩
  · rw [hq]
    exact hpos
  · rw [hq]
    exact hf
  · rw [hpc] at hc
    cases hc

theorem Move.owed (h : Move N n m mc t s s') (htN : t < N) (hb : Blocking s) (hw' : WatchInv n s'.out)
    (hbc : s.pc t ≠ .broadcast) (hw : Owed N s) : Owed N s' := by
  have ho := h.others
  have hunlocked := (hb t).2
  -- the thread goes on from a place where it owes nothing, and the queues are as they were
  have hsame {p : Pc} (hpc : s.pc t = p) (hp : p.owes = false) (hq : s'.toQueues = s.toQueues) :
      Owed N s' := by
    refine hw.keep ho (fun hpos => ?_) (fun hf => ?_) (fun hc => ?_)
    · rw [hq]
      exact hpos
    · rw [hq]
      exact hf
    · rw [hpc, hp] at hc
      cases hc
  cases h with
  | sect ha hs h =>
    obtain ⟨hw₁, hpc₁⟩ := ha.owed hs hw
    exact h.owed htN hpc₁ hw₁
  | executedLast hpc => exact .self htN (by rw [pc_setPc_self]; rfl)
  | writtenLast hpc ho => exact .self htN (by rw [pc_setPc_self]; rfl)
  | @executed f hpc =>
    refine hw.keep ho (fun hpos => ?_) (fun hf => ?_) (fun hc => ?_)
    · rw [ret_toQueues]
      exact hpos
    · rw [ret_toQueues]
      exact hf
    · rw [hpc] at hc
      cases hc
  | @writing e o hpc hout hcs =>
    have hwatch : o.watching = s.out.watching := by
      obtain hwatch | ⟨fd, hfd, hstage⟩ := stepOut_watching hout
      · exact hwatch
      · obtain rfl := Wavy.Action.goOn.inj hfd
        rcases hcs with hcs | hcs <;> simp [hcs] at hstage
    exact hw.keep ho (fun hpos => hwatch ▸ hpos) id id
  | @written e o hpc hout hcs =>
    rw [ret_toQueues] at hw'
    -- `m_watching` is as before, or it went down and did not reach 0
    have hpos : 0 < s.out.watching → 0 < o.watching := by
      intro hpos
      have hnonneg : 0 ≤ o.watching := hw'.watching_nonneg
      rcases hcs with hcs | ⟨-, hne⟩
      · obtain hwatch | ⟨fd, hfd, hstage⟩ := stepOut_watching hout
        · rw [hwatch]
          exact hpos
        · obtain rfl := Wavy.Action.goOn.inj hfd
          simp [hcs] at hstage
      · omega
    refine hw.keep ho (fun h => ?_) (fun hf => ?_) (fun hc => ?_)
    · rw [ret_toQueues]
      exact hpos h
    · rw [ret_toQueues]
      exact hf
    · rw [hpc] at hc
      cases hc
  | broadcast hpc => exact absurd hpc hbc
  | hasQueue hpc | noQueue hpc | outFront hpc | outPop hpc | hasTask hpc | taskFront hpc | taskPop hpc
  | taskLast hpc | taskMore hpc =>
    rw [hpc] at hunlocked
    cases hunlocked
  | failOut hpc | failTask hpc =>
    obtain hpc | ⟨e, hpc⟩ := hpc <;> rw [hpc] at hunlocked <;> cases hunlocked
  | ret hpc =>
    obtain hpc | hpc | ⟨i, hpc⟩ := hpc
    · exact hsame hpc rfl (ret_toQueues s t)
    · exact hsame hpc rfl (ret_toQueues s t)
    · exact hsame hpc rfl (ret_toQueues s t)
  | timedOutRet hpc => exact hsame hpc rfl (ret_toQueues _ t)
  | flushLock hpc h => exact hsame hpc rfl (lock_same h).1
  | flushRelock hpc h => exact hsame hpc rfl (relock_same h).1
  | flushed hpc => exact hsame hpc rfl (unlock_toQueues s t)
  | timedOut hpc | flushHold hpc | flushWait hpc | flushWoken hpc | flushOwned hpc =>
    exact hsame hpc rfl rfl

/-- Who awaits the broadcast after a step of `t` did so before it, or has just found the condition true. -/
theorem Move.awaits (h : Move N n m mc t s s') (hu : (s'.pc u).awaits = true) :
    (s.pc u).awaits = true ∨ s.out.watching ≠ 0 ∨ s.tasks ≠ [] := by
  have ho := h.others
  by_cases hut : u = t
  · subst hut
    have hno {p : Prop} {q : Pc} (hq : q.awaits = false) (hpc : s'.pc u = q) : p := by
      rw [hpc, hq] at hu
      cases hu
    cases h with
    | sect ha hs h => exact hno h.pc_plain.2 rfl
    | flushHold hpc hc => exact .inr hc
    | flushWait hpc =>
      refine .inl ?_
      rw [hpc]
      rfl
    | writing => exact .inl hu
    | timedOut hpc hto =>
      obtain rfl | rfl | ⟨rfl, -⟩ := hto
      · exact hno rfl (pc_setPc_self _ _ _)
      · exact hno rfl (pc_setPc_self _ _ _)
      · exact hno rfl (pc_setPc_self _ _ _)
    | timedOutRet | executed | written | broadcast | ret =>
      rw [pc_ret, if_pos rfl, (Kind.back_plain _).2] at hu
      cases hu
    | _ => exact hno rfl (pc_setPc_self _ _ _)
  · obtain hsame | ⟨-, hwoken⟩ | ⟨-, hwoken, -⟩ := ho.pc u hut
    · rw [hsame] at hu
      exact .inl hu
    · rw [hwoken] at hu
      cases hu
    · rw [hwoken] at hu
      cases hu

theorem Move.of_broadcast (h : Move N n m mc t s s') (hbc : s.pc t = .broadcast) :
    ∃ s₀, s.relock t = some s₀ ∧ s' = (s₀.wakeAll .flushWaiting .flushWoken).ret t := by
  cases h with
  | broadcast hpc h => exact ⟨_, h, rfl⟩
  | sect ha hs h => exact absurd hbc ha.not_broadcast
  | ret hpc => obtain hpc | hpc | ⟨i, hpc⟩ := hpc <;> rw [hpc] at hbc <;> cases hbc
  | failOut hpc | failTask hpc => obtain hpc | ⟨e, hpc⟩ := hpc <;> rw [hpc] at hbc <;> cases hbc
  | flushLock hpc | timedOut hpc | timedOutRet hpc | hasQueue hpc | noQueue hpc | outFront hpc
  | outPop hpc | hasTask hpc | taskFront hpc | taskPop hpc | taskLast hpc | taskMore hpc
  | executedLast hpc | executed hpc | writing hpc | written hpc | writtenLast hpc | flushHold hpc
  | flushed hpc | flushWait hpc | flushWoken hpc | flushOwned hpc | flushRelock hpc =>
    rw [hpc] at hbc
    cases hbc

/-- After a broadcast nobody awaits it: who waited is awake, and who is about to wait holds the mutex,
so that the broadcast could not have been made. -/
theorem Move.broadcast_wakes (h : Move N n m mc t s s') (hl : LockInv s) (hbc : s.pc t = .broadcast) :
    (s'.pc u).awaits = false := by
  obtain ⟨s₀, hs₀, rfl⟩ := h.of_broadcast hbc
  have hmutex : s.mutex = none := by
    have ht := hl t
    rw [hbc] at ht
    obtain ⟨hm, -⟩ := lock_eq hs₀
    rwa [mutex_unlock, ht.1, if_neg (by simp)] at hm
  rw [pc_ret]
  split_ifs with hu
  · exact (Kind.back_plain _).2
  · rw [pc_wakeAll, (relock_same hs₀).2.1]
    split_ifs with hw
    · rfl
    · cases hpc : s.pc u with
      | flushHold =>
        have hheld := hl u
        rw [hpc, hmutex] at hheld
        exact absurd hheld.2 (by simp)
      | flushWaiting => exact absurd hpc hw
      | _ => rfl

/-! ## Runs -/

structure FlushInv (N n : ℕ) (s : State) : Prop where
  lock : LockInv s
  blocking : Blocking s
  watch : WatchInv n s.out
  awaited : ∀ t < N, (s.pc t).awaits = true → Owed N s

theorem FlushInv.awaited_mono (h : FlushInv N n s)
    (hpc : ∀ u, s'.pc u = s.pc u ∨ (s.pc u).owes = false ∧ (s'.pc u).awaits = false)
    (hw : s.out.watching ≤ s'.out.watching) (hf : s.tasks ≠ [] → s'.tasks ≠ []) :
    ∀ t < N, (s'.pc t).awaits = true → Owed N s' := by
  intro t htN ht
  have hbefore : (s.pc t).awaits = true := by
    obtain hsame | ⟨-, hno⟩ := hpc t
    · rwa [hsame] at ht
    · rw [hno] at ht
      cases ht
  refine (h.awaited t htN hbefore).mono (fun hpos => by omega) hf fun u hu => ?_
  obtain hsame | ⟨hno, -⟩ := hpc u
  · rw [hsame]
    exact hu
  · rw [hno] at hu
    cases hu

theorem Move.awaited (h : Move N n m mc t s s') (htN : t < N) (hinv : FlushInv N n s) :
    ∀ u < N, (s'.pc u).awaits = true → Owed N s' := by
  intro u huN hu
  by_cases hbc : s.pc t = .broadcast
  · rw [h.broadcast_wakes hinv.lock hbc] at hu
    cases hu
  · refine h.owed htN hinv.blocking (h.watch hinv.blocking hinv.watch) hbc ?_
    obtain hbefore | hne | hf := h.awaits hu
    · exact hinv.awaited u huN hbefore
    · have hnonneg := hinv.watch.watching_nonneg
      exact .inl (by omega)
    · exact .inr (.inl hf)

theorem Nudged.awaits {θ θ' : Thread} (h : Nudged a u θ θ') :
    θ'.pc = θ.pc ∨ θ.pc.owes = false ∧ θ'.pc.awaits = false := by
  cases h with
  | same => exact .inl rfl
  | woken | flushWoken | called | polled | timedOut | writing => exact .inr ⟨rfl, rfl⟩

theorem Step.queues_grow (h : Step N n m mc s a s') :
    (∃ t < N, Move N n m mc t s s') ∨
    s.out.watching ≤ s'.out.watching ∧ (s.tasks ≠ [] → s'.tasks ≠ []) := by
  cases h with
  | @move t _ _ _ htN h => exact .inl ⟨t, htN, h⟩
  | @writeEvent t e as o htN hpc ho =>
    obtain hwatch | ⟨fd, hfd, -⟩ := stepOut_watching ho
    · exact .inr ⟨hwatch.ge, id⟩
    · cases hfd
  | more hs =>
    rw [hs.toQueues]
    exact .inr ⟨le_rfl, id⟩
  | submit hs =>
    rw [hs.toQueues]
    exact .inr ⟨le_rfl, fun _ => by simp⟩
  | @commit act o hc ho =>
    refine .inr ⟨?_, id⟩
    show s.out.watching ≤ o.watching
    obtain hwatch | ⟨fd, rfl, ⟨-, hwatch⟩ | ⟨hcs, -⟩⟩ := stepOut_watching ho
    · omega
    · omega
    · simp [byCaller, hcs] at hc
  | _ => exact .inr ⟨le_rfl, id⟩

theorem Step.awaited (h : Step N n m mc s a s') (hinv : FlushInv N n s) :
    ∀ t < N, (s'.pc t).awaits = true → Owed N s' := by
  obtain ⟨t, htN, h⟩ | ⟨hw, hf⟩ := h.queues_grow
  · exact h.awaited htN hinv
  · obtain ⟨t, htN, h⟩ | ⟨-, hn⟩ := h.nudged
    · exact h.awaited htN hinv
    · exact hinv.awaited_mono (fun u => (hn u).awaits) hw hf

variable {kinds : ℕ → Kind}

theorem reachable_flushInv
    (h : (mutexSystem N n m mc kinds).Reachable (fun _ a => ∀ t, a ≠ .call t .nonblock) s) :
    FlushInv N n s := by
  apply h.invariant
  · rintro s ⟨world, rfl⟩
    refine ⟨.init kinds world, fun t => ⟨fun _ => rfl, rfl⟩, .start world, fun t _ ht => ?_⟩
    simp [State.init, Pc.awaits] at ht
  · intro s a s' _ hinv hcall hs
    have hstep := step_cases hs
    refine ⟨hstep.lockInv hinv.lock, hstep.blocking hinv.blocking hcall, ?_, hstep.awaited hinv⟩
    exact hstep.watch hinv.blocking hinv.watch

/-- `flush` evaluates its loop condition under `m_mutex`, held by its scoped lock, and while a thread
waits for `m_flush_cond` there is something to wait for: a watched descriptor, a queued task, or a
broadcast that another thread is going to make. -/
theorem flush_awaited
    (h : (mutexSystem N n m mc kinds).Reachable (fun _ a => ∀ t, a ≠ .call t .nonblock) s) :
    (∀ t < N, s.pc t = .flushTop → s.owns t = true ∧ s.mutex = some t) ∧
    (∀ t < N, s.pc t = .flushWaiting →
      0 < s.out.watching ∨ s.tasks ≠ [] ∨ ∃ u < N, (s.pc u).owes = true) := by
  have hinv := reachable_flushInv h
  refine ⟨fun t _ ht => ?_, fun t htN ht => ?_⟩
  · have hlock := hinv.lock t
    rwa [ht] at hlock
  · refine hinv.awaited t htN ?_
    rw [ht]
    rfl

/-- Threads 0 and 1 are workers. -/
def twoWorkers (t : ℕ) : Kind := if t < 2 then .main else .once

/-- Thread 2 waits in `flush` for the only task; then a worker pops it while the other polls. -/
def lastTaskPopped : List Action :=
  [.submit 7 none, .start, .call 2 .flush, .run 2 none [], .run 2 none [], .run 2 none [], .run 0 none [],
    .run 1 none []]

instance (a : Action) : Decidable (∀ t, a ≠ .call t .nonblock) :=
  match a with
  | .call t .nonblock => isFalse fun h => h t rfl
  | .call _ .main | .call _ .once | .call _ .flush | .run .. | .wakeup .. | .waitReturns ..
  | .timeout .. | .writeEvent .. | .more .. | .submit .. | .commit .. | .start | .join | .endBegin
  | .endReturn => isTrue nofun

theorem flush_awaited_lastTaskPopped :
    ∃ s, (mutexSystem 3 1 0 .ascending twoWorkers).Reachable (fun _ a => ∀ t, a ≠ .call t .nonblock) s ∧
      s.pc 2 = .flushWaiting ∧ s.out.watching = 0 ∧ s.tasks = [] ∧ ∃ u < 3, (s.pc u).owes = true := by
  obtain ⟨s, hs, hq⟩ := System.exists_reachable_of_exec (S := mutexSystem 3 1 0 .ascending twoWorkers)
    (P := fun _ a => ∀ t, a ≠ .call t .nonblock) (s := .init twoWorkers ⟨fun _ => 0, fun _ _ => 0⟩)
    lastTaskPopped (fun s => decide (s.pc 2 = .flushWaiting ∧ s.out.watching = 0 ∧ s.tasks = []))
    ⟨_, rfl⟩ (by decide +kernel)
  obtain ⟨hpc, hwatch, htasks⟩ := of_decide_eq_true hq
  refine ⟨s, hs, hpc, hwatch, htasks, ?_⟩
  obtain hpos | hne | howes := (flush_awaited hs).2 2 (by omega) hpc
  · omega
  · exact absurd htasks hne
  · exact howes

end Mpio.Wavy.Mutex
