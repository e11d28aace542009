import Mpio.Lib.Run
import Mpio.Wavy.Kqueue

/-!
# The xidents of the kqueue kernel

`alloc_xident` and `free_xident` of `wavy_kernel_kqueue.h`, called by any number of threads. Each
`__sync` operation and each access to `*xv` is a step of its own. An allocation is live from the
`compare_and_swap` that makes it until its owner calls `free_xident`; the flag is reset later, at the end
of that call.
-/

namespace Mpio.Wavy.Xident

open Lib Kqueue

/-- `m_fdmax + x`, a `size_t`, returned as an `int`. -/
def xidentOf (fdmax x : ℕ) : ℤ := ((fdmax + x : ℕ) : ℤ).bmod (2 ^ 32)

/-- `xident - m_fdmax` in `m_xident + (xident - m_fdmax)`, a `size_t`. -/
def slotOf (fdmax : ℕ) (xident : ℤ) : ℕ := ((xident - fdmax) % 2 ^ 64).toNat

/-- Where a thread is: outside, before the `fetch_and_add` or the `compare_and_swap` of a round of
`alloc_xident`, or before reading or resetting `*xv` in `free_xident`. -/
inductive Pc
  | idle
  | probe (i : ℕ)
  | cas (i x : ℕ)
  | read (xident : ℤ)
  | reset (xident : ℤ)
  deriving DecidableEq

/-- What a call has returned. -/
inductive Answer
  | alloc (ret : ℤ)
  | free (ret : Bool)
  deriving DecidableEq

structure State where
  xidentIndex : ℕ
  xident : ℕ → Bool
  pc : ℕ → Pc
  answer : ℕ → Option Answer
  live : List ℤ

inductive Action
  | allocXident (t : ℕ)
  | freeXident (t : ℕ) (xident : ℤ)
  | goOn (t : ℕ)

namespace State

variable (s : State) (t : ℕ)

def goto (pc : Pc) : State := { s with pc := Function.update s.pc t pc }

def answered (a : Answer) : State :=
  { s.goto t .idle with answer := Function.update s.answer t (some a) }

/-- The next step of thread `t`. -/
def goOn (fdmax : ℕ) : Option State :=
  match s.pc t with
  | .idle => none
  | .probe i =>
    some { s.goto t (.cas i (s.xidentIndex % xidentMax)) with
      xidentIndex := (s.xidentIndex + 1) % 2 ^ 32 }
  | .cas i x =>
    if s.xident x then
      some (if i + 1 < xidentMax * 2 then s.goto t (.probe (i + 1)) else s.answered t (.alloc (-1)))
    else
      some { s.answered t (.alloc (xidentOf fdmax x)) with
        xident := Function.update s.xident x true
        live := xidentOf fdmax x :: s.live }
  | .read xident =>
    some (if s.xident (slotOf fdmax xident) then s.goto t (.reset xident) else s.answered t (.free false))
  | .reset xident =>
    some { s.answered t (.free true) with
      xident := Function.update s.xident (slotOf fdmax xident) false }

end State

/-- `free_xident` is called by the owner. -/
def step (fdmax : ℕ) (s : State) : Action → Option State
  | .allocXident t => if s.pc t = .idle then some (s.goto t (.probe 0)) else none
  | .freeXident t xident =>
    if s.pc t = .idle ∧ xident ∈ s.live then
      some { s.goto t (.read xident) with live := s.live.erase xident }
    else none
  | .goOn t => s.goOn t fdmax

def xidentSystem (fdmax : ℕ) : System State Action where
  init s := s = ⟨0, fun _ => false, fun _ => .idle, fun _ => none, []⟩
  step := step fdmax

/-! ## The flags are those of the allocations -/

/-- The xident that a thread is about to free. -/
def Pc.freeing : Pc → Option ℤ
  | read xident | reset xident => some xident
  | idle | probe _ | cas .. => none

/-- A live allocation, or one whose flag is still to be reset. -/
def State.Held (s : State) (xident : ℤ) : Prop := xident ∈ s.live ∨ ∃ t, (s.pc t).freeing = some xident

structure Inv (fdmax : ℕ) (s : State) : Prop where
  nodup : s.live.Nodup
  apart : ∀ t xident, (s.pc t).freeing = some xident → xident ∉ s.live
  single : ∀ t t' xident, (s.pc t).freeing = some xident → (s.pc t').freeing = some xident → t = t'
  range : ∀ xident, s.Held xident → ∃ x < xidentMax, xident = xidentOf fdmax x
  flag : ∀ x < xidentMax, s.xident x = true ↔ s.Held (xidentOf fdmax x)
  slot : ∀ t i x, s.pc t = .cas i x → x < xidentMax

section

variable {fdmax : ℕ} {s : State} {t : ℕ}

theorem xidentOf_eq (hmax : fdmax + xidentMax < 2 ^ 31) {x : ℕ} (hx : x < xidentMax) :
    xidentOf fdmax x = fdmax + x := by
  have hlt : fdmax + x < 2147483648 := by omega
  unfold xidentOf
  rw [Int.bmod_eq_of_le_mul_two]
  · exact Nat.cast_add fdmax x
  · push_cast
    omega
  · push_cast
    omega

theorem slotOf_xidentOf (hmax : fdmax + xidentMax < 2 ^ 31) {x : ℕ} (hx : x < xidentMax) :
    slotOf fdmax (xidentOf fdmax x) = x := by
  unfold xidentMax at hx
  rw [xidentOf_eq hmax hx, slotOf, add_sub_cancel_left, Int.emod_eq_of_lt (by omega) (by omega),
    Int.toNat_natCast]

theorem xidentOf_inj (hmax : fdmax + xidentMax < 2 ^ 31) {x y : ℕ} (hx : x < xidentMax)
    (hy : y < xidentMax) (h : xidentOf fdmax x = xidentOf fdmax y) : x = y := by
  rw [← slotOf_xidentOf hmax hx, h, slotOf_xidentOf hmax hy]

theorem Inv.congr (h : Inv fdmax s) {s' : State} (hflag : s'.xident = s.xident) (hlive : s'.live = s.live)
    (hpc : ∀ u, (s'.pc u).freeing = (s.pc u).freeing)
    (hslot : ∀ u i x, s'.pc u = .cas i x → x < xidentMax) : Inv fdmax s' := by
  have hheld (xident : ℤ) : s'.Held xident ↔ s.Held xident := by simp only [State.Held, hlive, hpc]
  refine ⟨hlive ▸ h.nodup, fun u => ?_, fun u u' => ?_, fun xident => ?_, fun x => ?_, hslot⟩
  · simpa only [hpc, hlive] using h.apart u
  · simpa only [hpc] using h.single u u'
  · simpa only [hheld] using h.range xident
  · simpa only [hheld, hflag] using h.flag x

theorem State.freeing_goto {pc : Pc} (hpc : pc.freeing = (s.pc t).freeing) (u : ℕ) :
    ((s.goto t pc).pc u).freeing = (s.pc u).freeing := by
  by_cases heq : u = t
  · subst heq
    simpa [State.goto] using hpc
  · simp [State.goto, Function.update_of_ne heq]

theorem Inv.slot_goto (h : Inv fdmax s) {pc : Pc} (hpc : ∀ i x, pc = .cas i x → x < xidentMax)
    (u i x : ℕ) (hu : (s.goto t pc).pc u = .cas i x) : x < xidentMax := by
  by_cases heq : u = t
  · subst heq
    exact hpc i x (by simpa [State.goto] using hu)
  · exact h.slot u i x (by simpa [State.goto, Function.update_of_ne heq] using hu)

theorem Inv.free (h : Inv fdmax s) (hpc : s.pc t = .idle) {xident : ℤ} (hx : xident ∈ s.live) :
    Inv fdmax { s.goto t (.read xident) with live := s.live.erase xident } := by
  have hother {u : ℕ} (hu : u ≠ t) : (s.goto t (.read xident)).pc u = s.pc u := Function.update_of_ne hu ..
  have hself : (s.goto t (.read xident)).pc t = .read xident := Function.update_self ..
  have hnone {u : ℕ} : (s.pc u).freeing ≠ some xident := fun hu => h.apart u xident hu hx
  have hidle {u : ℕ} {y : ℤ} (hu : (s.pc u).freeing = some y) : u ≠ t := by
    rintro rfl
    simp [hpc, Pc.freeing] at hu
  have hheld (y : ℤ) : (y ∈ s.live.erase xident ∨
      ∃ u, ((s.goto t (.read xident)).pc u).freeing = some y) ↔ s.Held y := by
    constructor
    · rintro (hy | ⟨u, hu⟩)
      · exact .inl (List.mem_of_mem_erase hy)
      · by_cases heq : u = t
        · rw [heq, hself] at hu
          exact .inl (Option.some.inj hu ▸ hx)
        · exact .inr ⟨u, hother heq ▸ hu⟩
    · rintro (hy | ⟨u, hu⟩)
      · by_cases heq : y = xident
        · exact .inr ⟨t, by rw [hself, heq]; rfl⟩
        · exact .inl ((List.mem_erase_of_ne heq).mpr hy)
      · exact .inr ⟨u, by rwa [hother (hidle hu)]⟩
  refine ⟨h.nodup.erase xident, fun u y hu hy => ?_, fun u u' y hu hu' => ?_,
    fun y hy => h.range y ((hheld y).mp hy), fun x hx => (h.flag x hx).trans (hheld _).symm,
    h.slot_goto (by simp)⟩
  · by_cases heq : u = t
    · rw [heq] at hu
      obtain rfl := Option.some.inj (hself ▸ hu)
      exact h.nodup.not_mem_erase hy
    · exact h.apart u y (hother heq ▸ hu) (List.mem_of_mem_erase hy)
  · by_cases heq : u = t
    · by_cases heq' : u' = t
      · rw [heq, heq']
      · rw [heq] at hu
        obtain rfl := Option.some.inj (hself ▸ hu)
        exact absurd (hother heq' ▸ hu') hnone
    · by_cases heq' : u' = t
      · rw [heq'] at hu'
        obtain rfl := Option.some.inj (hself ▸ hu')
        exact absurd (hother heq ▸ hu) hnone
      · exact h.single u u' y (hother heq ▸ hu) (hother heq' ▸ hu')

theorem Inv.take (h : Inv fdmax s) (hmax : fdmax + xidentMax < 2 ^ 31) {i x : ℕ} (hpc : s.pc t = .cas i x)
    (hflag : s.xident x = false) {a : Answer} :
    Inv fdmax { s.answered t a with
      xident := Function.update s.xident x true
      live := xidentOf fdmax x :: s.live } := by
  have hx : x < xidentMax := h.slot t i x hpc
  have hnot : ¬ s.Held (xidentOf fdmax x) := by simp [← h.flag x hx, hflag]
  have hfreeing (u : ℕ) : ((s.goto t .idle).pc u).freeing = (s.pc u).freeing :=
    State.freeing_goto (by simp [hpc, Pc.freeing]) u
  have hheld (y : ℤ) : (y ∈ xidentOf fdmax x :: s.live ∨
      ∃ u, ((s.goto t .idle).pc u).freeing = some y) ↔ y = xidentOf fdmax x ∨ s.Held y := by
    simp only [State.Held, hfreeing, List.mem_cons, or_assoc]
  refine ⟨List.nodup_cons.mpr ⟨fun hmem => hnot (.inl hmem), h.nodup⟩, fun u y hu hy => ?_,
    fun u u' y hu hu' => ?_, fun y hy => ?_, fun y hy => ?_, h.slot_goto (by simp)⟩
  · obtain heq | hy := List.mem_cons.mp hy
    · exact hnot (.inr ⟨u, heq ▸ hfreeing u ▸ hu⟩)
    · exact h.apart u y (hfreeing u ▸ hu) hy
  · exact h.single u u' y (hfreeing u ▸ hu) (hfreeing u' ▸ hu')
  · obtain heq | hy := (hheld y).mp hy
    · exact ⟨x, hx, heq⟩
    · exact h.range y hy
  · refine Iff.trans ?_ (hheld _).symm
    by_cases heq : y = x
    · simp [heq]
    · have hne : xidentOf fdmax y ≠ xidentOf fdmax x := fun he => heq (xidentOf_inj hmax hy hx he)
      simp [Function.update_of_ne heq, hne, h.flag y hy]

/-- What `alloc_xident` is about to answer is what `Wavy.Kqueue` expects of it, when the xidents in use are
those of the live allocations. -/
theorem Inv.free_of_cas (h : Inv fdmax s) (hmax : fdmax + xidentMax < 2 ^ 31) {i x : ℕ}
    (hpc : s.pc t = .cas i x) (hflag : s.xident x = false) {k : Kqueue.State}
    (hused : ∀ y : ℕ, y ∈ k.used ↔ (y : ℤ) ∈ s.live) : Free fdmax k (fdmax + x) := by
  have hx : x < xidentMax := h.slot t i x hpc
  have hnot : ¬ s.Held (xidentOf fdmax x) := by simp [← h.flag x hx, hflag]
  refine ⟨Nat.le_add_right .., by omega, fun hmem => hnot (.inl ?_)⟩
  rw [xidentOf_eq hmax hx, ← Nat.cast_add]
  exact (hused _).mp hmem

theorem Inv.reset (h : Inv fdmax s) (hmax : fdmax + xidentMax < 2 ^ 31) {xident : ℤ}
    (hpc : s.pc t = .reset xident) {a : Answer} :
    Inv fdmax { s.answered t a with
      xident := Function.update s.xident (slotOf fdmax xident) false } := by
  have hfreeing : (s.pc t).freeing = some xident := by simp [hpc, Pc.freeing]
  obtain ⟨x, hx, hxident⟩ := h.range xident (.inr ⟨t, hfreeing⟩)
  rw [hxident] at hfreeing ⊢
  rw [slotOf_xidentOf hmax hx]
  have hother {u : ℕ} (hu : u ≠ t) : (s.goto t .idle).pc u = s.pc u := Function.update_of_ne hu ..
  have hself : (s.goto t .idle).pc t = .idle := Function.update_self ..
  have hbusy {u : ℕ} {y : ℤ} (hu : ((s.goto t .idle).pc u).freeing = some y) :
      u ≠ t ∧ (s.pc u).freeing = some y := by
    have hne : u ≠ t := by
      rintro rfl
      simp [hself, Pc.freeing] at hu
    exact ⟨hne, hother hne ▸ hu⟩
  have hheld (y : ℤ) : (y ∈ s.live ∨ ∃ u, ((s.goto t .idle).pc u).freeing = some y) ↔
      s.Held y ∧ y ≠ xidentOf fdmax x := by
    constructor
    · rintro (hy | ⟨u, hu⟩)
      · exact ⟨.inl hy, fun heq => h.apart t _ hfreeing (heq ▸ hy)⟩
      · obtain ⟨hne, hu⟩ := hbusy hu
        exact ⟨.inr ⟨u, hu⟩, fun heq => hne (h.single u t _ (heq ▸ hu) hfreeing)⟩
    · rintro ⟨hy | ⟨u, hu⟩, hne⟩
      · exact .inl hy
      · have hut : u ≠ t := by
          rintro rfl
          exact hne (Option.some.inj (hu.symm.trans hfreeing))
        exact .inr ⟨u, by rwa [hother hut]⟩
  refine ⟨h.nodup, fun u y hu => h.apart u y (hbusy hu).2,
    fun u u' y hu hu' => h.single u u' y (hbusy hu).2 (hbusy hu').2,
    fun y hy => h.range y ((hheld y).mp hy).1, fun y hy => ?_, h.slot_goto (by simp)⟩
  refine Iff.trans ?_ (hheld _).symm
  by_cases heq : y = x
  · simp [heq]
  · have hne : xidentOf fdmax y ≠ xidentOf fdmax x := fun he => heq (xidentOf_inj hmax hy hx he)
    simp [Function.update_of_ne heq, hne, h.flag y hy]

theorem Inv.step (h : Inv fdmax s) (hmax : fdmax + xidentMax < 2 ^ 31) {act : Action} {s' : State}
    (hs : Xident.step fdmax s act = some s') : Inv fdmax s' := by
  cases act with
  | allocXident t =>
    simp only [Xident.step] at hs
    split_ifs at hs with hpc
    obtain rfl := Option.some.inj hs
    exact h.congr rfl rfl (State.freeing_goto (by simp [hpc, Pc.freeing])) (h.slot_goto (by simp))
  | freeXident t xident =>
    simp only [Xident.step] at hs
    split_ifs at hs with hc
    obtain rfl := Option.some.inj hs
    exact h.free hc.1 hc.2
  | goOn t =>
    simp only [Xident.step, State.goOn] at hs
    cases hpc : s.pc t with
    | idle => simp [hpc] at hs
    | probe i =>
      rw [hpc] at hs
      obtain rfl := Option.some.inj hs
      refine h.congr rfl rfl (State.freeing_goto (by simp [hpc, Pc.freeing])) (h.slot_goto ?_)
      rintro i x ⟨⟩
      exact Nat.mod_lt _ (by decide)
    | cas i x =>
      rw [hpc] at hs
      simp only at hs
      have hgoto {pc : Pc} (hfree : pc.freeing = none) (hcas : ∀ i x, pc ≠ .cas i x) :
          Inv fdmax (s.goto t pc) :=
        h.congr rfl rfl (State.freeing_goto (by rw [hfree, hpc]; rfl))
          (h.slot_goto fun i x heq => absurd heq (hcas i x))
      by_cases hflag : s.xident x = true
      · rw [if_pos hflag] at hs
        obtain rfl := Option.some.inj hs
        split_ifs
        · exact hgoto rfl (by simp)
        · have hidle := @hgoto .idle rfl (by simp)
          exact hidle.congr rfl rfl (fun _ => rfl) hidle.slot
      · rw [if_neg hflag] at hs
        obtain rfl := Option.some.inj hs
        exact h.take hmax hpc (by simpa using hflag)
    | read xident =>
      rw [hpc] at hs
      obtain rfl := Option.some.inj hs
      have hheld : s.Held xident := .inr ⟨t, by simp [hpc, Pc.freeing]⟩
      obtain ⟨x, hx, hxident⟩ := h.range xident hheld
      -- the owner finds its flag set
      have hflag : s.xident (slotOf fdmax xident) = true := by
        rw [hxident, slotOf_xidentOf hmax hx]
        exact (h.flag x hx).mpr (hxident ▸ hheld)
      rw [if_pos hflag]
      exact h.congr rfl rfl (State.freeing_goto (by simp [hpc, Pc.freeing])) (h.slot_goto (by simp))
    | reset xident =>
      rw [hpc] at hs
      obtain rfl := Option.some.inj hs
      exact h.reset hmax hpc

/-! ## A call on its own -/

/-- `k` steps of thread `t`, with no other in between. -/
def alone (fdmax : ℕ) (s : State) (t k : ℕ) : Option State :=
  (xidentSystem fdmax).exec (fun _ _ => True) s (List.replicate k (.goOn t))

theorem alone_succ {s' : State} (h : s.goOn t fdmax = some s') (k : ℕ) :
    alone fdmax s t (k + 1) = alone fdmax s' t k := by
  simp only [alone, List.replicate_succ, System.exec, if_true]
  show (s.goOn t fdmax).bind _ = _
  rw [h, Option.bind_some]

theorem xidentOf_ne (hmax : fdmax + xidentMax < 2 ^ 31) {x : ℕ} (hx : x < xidentMax) :
    xidentOf fdmax x ≠ -1 := by
  rw [xidentOf_eq hmax hx]
  omega

/-- After the `fetch_and_add` of a round. -/
def State.fetched (s : State) (t i : ℕ) : State :=
  { s.goto t (.cas i (s.xidentIndex % xidentMax)) with xidentIndex := (s.xidentIndex + 1) % 2 ^ 32 }

theorem goOn_probe {i : ℕ} (hpc : s.pc t = .probe i) : s.goOn t fdmax = some (s.fetched t i) := by
  simp only [State.goOn, hpc, State.fetched]

theorem goOn_taken {i : ℕ} (hflag : s.xident (s.xidentIndex % xidentMax) = true) :
    (s.fetched t i).goOn t fdmax = some (if i + 1 < xidentMax * 2 then
      (s.fetched t i).goto t (.probe (i + 1)) else (s.fetched t i).answered t (.alloc (-1))) := by
  have hpc : (s.fetched t i).pc t = .cas i (s.xidentIndex % xidentMax) := Function.update_self ..
  have hflag : (s.fetched t i).xident (s.xidentIndex % xidentMax) = true := hflag
  simp only [State.goOn, hpc, hflag, if_true]

theorem goOn_free {i : ℕ} (hflag : s.xident (s.xidentIndex % xidentMax) = false) :
    ∃ s', (s.fetched t i).goOn t fdmax = some s' ∧ s'.pc t = .idle ∧
      s'.answer t = some (.alloc (xidentOf fdmax (s.xidentIndex % xidentMax))) := by
  have hpc : (s.fetched t i).pc t = .cas i (s.xidentIndex % xidentMax) := Function.update_self ..
  have hflag : (s.fetched t i).xident (s.xidentIndex % xidentMax) = false := hflag
  simp only [State.goOn, hpc, hflag, Bool.false_eq_true, if_false]
  refine ⟨_, rfl, ?_, ?_⟩
  · exact Function.update_self ..
  · exact Function.update_self ..

/-- The call returns, and it returns `-1` exactly when it finds the next `n + 1` flags set. -/
def Returns (fdmax : ℕ) (s : State) (t n : ℕ) : Prop :=
  ∃ k s' ret, alone fdmax s t k = some s' ∧ s'.pc t = .idle ∧ s'.answer t = some (.alloc ret) ∧
    (ret = -1 ↔ ∀ m ≤ n, s.xident ((s.xidentIndex + m) % xidentMax) = true)

theorem returns_of_free (hmax : fdmax + xidentMax < 2 ^ 31) {i : ℕ} (hpc : s.pc t = .probe i)
    (hflag : s.xident (s.xidentIndex % xidentMax) = false) (n : ℕ) : Returns fdmax s t n := by
  obtain ⟨s', hgo, hidle, hret⟩ := @goOn_free fdmax s t i hflag
  refine ⟨2, s', _, ?_, hidle, hret, ?_⟩
  · rw [alone_succ (goOn_probe hpc), alone_succ hgo]
    rfl
  · simp only [xidentOf_ne hmax (Nat.mod_lt _ (by decide)), false_iff, not_forall]
    exact ⟨0, Nat.zero_le _, by simp [hflag]⟩

theorem probe_returns (hmax : fdmax + xidentMax < 2 ^ 31) (n : ℕ) {i : ℕ} (hpc : s.pc t = .probe i)
    (hn : i + n + 1 = xidentMax * 2) : Returns fdmax s t n := by
  induction n generalizing s i with
  | zero =>
    cases hflag : s.xident (s.xidentIndex % xidentMax) with
    | false => exact returns_of_free hmax hpc hflag 0
    | true =>
      have hlast : ¬ i + 1 < xidentMax * 2 := by omega
      refine ⟨2, (s.fetched t i).answered t (.alloc (-1)), -1, ?_, ?_, ?_, ?_⟩
      · rw [alone_succ (goOn_probe hpc), alone_succ (goOn_taken hflag), if_neg hlast]
        rfl
      · exact Function.update_self ..
      · exact Function.update_self ..
      · simp [hflag]
  | succ n ih =>
    cases hflag : s.xident (s.xidentIndex % xidentMax) with
    | false => exact returns_of_free hmax hpc hflag (n + 1)
    | true =>
      have hmore : i + 1 < xidentMax * 2 := by omega
      obtain ⟨k, s', ret, halone, hidle, hret, hiff⟩ :=
        @ih ((s.fetched t i).goto t (.probe (i + 1))) (i + 1) (Function.update_self ..) (by omega)
      refine ⟨k + 2, s', ret, ?_, hidle, hret, hiff.trans ?_⟩
      · rw [alone_succ (goOn_probe hpc), alone_succ (goOn_taken hflag), if_pos hmore]
        exact halone
      · -- the counter wraps at a multiple of the number of flags
        have hwrap (m : ℕ) : ((s.xidentIndex + 1) % 2 ^ 32 + m) % xidentMax =
            (s.xidentIndex + (m + 1)) % xidentMax := by
          unfold xidentMax
          omega
        show (∀ m ≤ n, s.xident (((s.xidentIndex + 1) % 2 ^ 32 + m) % xidentMax) = true) ↔ _
        simp only [hwrap]
        constructor
        · intro hall m hm
          cases m with
          | zero => exact hflag
          | succ m => exact hall m (by omega)
        · intro hall m hm
          exact hall (m + 1) (by omega)

/-- Every flag is looked at. -/
theorem forall_probe_iff (index : ℕ) (flag : ℕ → Bool) :
    (∀ m ≤ xidentMax * 2 - 1, flag ((index + m) % xidentMax) = true) ↔ ∀ x < xidentMax, flag x = true := by
  constructor
  · intro hall x hx
    have hmod : index % xidentMax < xidentMax := Nat.mod_lt _ (by decide)
    have hfind := hall ((x + xidentMax - index % xidentMax) % xidentMax) (by unfold xidentMax; omega)
    have hx' : (index + (x + xidentMax - index % xidentMax) % xidentMax) % xidentMax = x := by
      unfold xidentMax at hx ⊢
      omega
    rwa [hx'] at hfind
  · intro hall m _
    exact hall _ (Nat.mod_lt _ (by decide))

end

/-- In every state of every run: no two live allocations have one xident, and all lie in
`[m_fdmax, m_fdmax + 256)`. An `alloc_xident` that no other call overlaps returns, and it returns `-1`
exactly when all 256 xidents are in use. -/
theorem xidents_exclusive {fdmax : ℕ} (hmax : fdmax + xidentMax < 2 ^ 31) {s : State}
    (hs : (xidentSystem fdmax).Reachable (fun _ _ => True) s) :
    s.live.Nodup ∧
    (∀ xident ∈ s.live, (fdmax : ℤ) ≤ xident ∧ xident < fdmax + xidentMax ∧
      ∀ fd : ℤ, fd < fdmax → fd ≠ xident) ∧
    ∀ t, (∀ u, s.pc u = .idle) → ∃ s₀ k s' ret, step fdmax s (.allocXident t) = some s₀ ∧
      alone fdmax s₀ t k = some s' ∧ s'.pc t = .idle ∧ s'.answer t = some (.alloc ret) ∧
      (ret = -1 ↔ ∀ x < xidentMax, (fdmax + x : ℤ) ∈ s.live) := by
  have hinv : Inv fdmax s := by
    refine hs.invariant ?_ fun s act s' _ h _ hstep => h.step hmax hstep
    rintro s rfl
    exact ⟨by simp, by simp [Pc.freeing], by simp [Pc.freeing], by simp [State.Held, Pc.freeing],
      by simp [State.Held, Pc.freeing], by simp⟩
  refine ⟨hinv.nodup, fun xident hlive => ?_, fun t hidle => ?_⟩
  · obtain ⟨x, hx, hxident⟩ := hinv.range xident (.inl hlive)
    rw [xidentOf_eq hmax hx] at hxident
    refine ⟨by omega, by omega, fun fd hfd heq => ?_⟩
    omega
  · have hheld (x : ℕ) (hx : x < xidentMax) : s.xident x = true ↔ (fdmax + x : ℤ) ∈ s.live := by
      rw [hinv.flag x hx, ← xidentOf_eq hmax hx]
      simp [State.Held, hidle, Pc.freeing]
    obtain ⟨k, s', ret, halone, hdone, hret, hiff⟩ := @probe_returns fdmax (s.goto t (.probe 0)) t hmax
      (xidentMax * 2 - 1) 0 (Function.update_self ..) (by decide)
    refine ⟨_, k, s', ret, if_pos (hidle t), halone, hdone, hret, hiff.trans ?_⟩
    rw [forall_probe_iff]
    exact forall₂_congr hheld

/-- Two threads allocate at the same time, and a third allocates while the first xident is being freed. -/
theorem xidents_exclusive_threeThreads :
    ∃ s, (xidentSystem 1024).Reachable (fun _ _ => True) s ∧ s.live = [1026, 1025] ∧ s.live.Nodup := by
  have hexec : ((xidentSystem 1024).exec (fun _ _ => True)
      ⟨0, fun _ => false, fun _ => .idle, fun _ => none, []⟩
      [.allocXident 0, .allocXident 1, .goOn 0, .goOn 1, .goOn 1, .goOn 0, .freeXident 0 1024, .goOn 0,
        .allocXident 2, .goOn 2, .goOn 0, .goOn 2]).map (fun s => decide (s.live = [1026, 1025])) =
          some true := by
    decide +kernel
  obtain ⟨s, hs, hq⟩ := System.exists_reachable_of_exec _ _ rfl hexec
  exact ⟨s, hs, of_decide_eq_true hq, (xidents_exclusive (by decide) hs).1⟩

end Mpio.Wavy.Xident
