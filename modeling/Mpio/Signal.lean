import Mpio.Lib.Run
import Mpio.Lib.Scope

/-!
# Signal scopes

`scoped_sigprocmask` and `scoped_signal` of `mp/signal.h`, and the two of them that a `signal_handler` of
`wavy_signal.h` holds. `scoped_signal` keeps the action it replaces and puts it back. `scoped_sigprocmask`
keeps the set it blocks, not the mask it finds, and unblocks that set.

Objects are constructed and destroyed in one thread, the last one first. A constructor throws when its
system call fails, and then there is no object.
-/

namespace Mpio.Signal

open Lib

/-- `struct sigaction`. -/
structure Sigaction where
  saHandler : ℕ
  saMask : Finset ℕ
  saFlags : ℕ
  deriving DecidableEq

/-- The signal mask of the thread and the dispositions. -/
structure Signals where
  mask : Finset ℕ
  actions : ℕ → Sigaction

/-- `SIGKILL` and `SIGSTOP`, which the kernel does not block. -/
def unblockable : Finset ℕ := {9, 19}

def SIG_IGN : ℕ := 1

def SA_RESTART : ℕ := 0x10000000

namespace Signals

variable (s : Signals)

/-- `sigprocmask(SIG_BLOCK, set, NULL)`. -/
def block (set : Finset ℕ) : Signals := { s with mask := s.mask ∪ (set \ unblockable) }

/-- `sigprocmask(SIG_UNBLOCK, set, NULL)`. -/
def unblock (set : Finset ℕ) : Signals := { s with mask := s.mask \ set }

def sigaction (signo : ℕ) (act : Sigaction) : Signals :=
  { s with actions := Function.update s.actions signo act }

end Signals

/-! ## The classes -/

/-- The members of the objects. -/
inductive Obj
  | scopedSigprocmask (set : Finset ℕ)
  | scopedSignal (signo : ℕ) (save : Sigaction)
  | signalHandler (signo : ℕ) (save : Sigaction) (set : Finset ℕ)

/-- `scoped_sigprocmask(set)`. -/
def scopedSigprocmask (set : Finset ℕ) (s : Signals) : Obj × Signals :=
  (.scopedSigprocmask set, s.block set)

/-- `scoped_signal(signo, handler)`. -/
def scopedSignal (signo handler : ℕ) (s : Signals) : Obj × Signals :=
  (.scopedSignal signo (s.actions signo), s.sigaction signo ⟨handler, ∅, SA_RESTART⟩)

/-- `m_signal(signo, SIG_IGN)` and `m_sigmask(sigset().add(signo))`. -/
def signalHandler (signo : ℕ) (s : Signals) : Obj × Signals :=
  (.signalHandler signo (s.actions signo) {signo},
    (s.sigaction signo ⟨SIG_IGN, ∅, SA_RESTART⟩).block {signo})

/-- The destructors. -/
def leave : Obj → Signals → Signals
  | .scopedSigprocmask set, s => s.unblock set
  | .scopedSignal signo save, s => s.sigaction signo save
  | .signalHandler signo save set, s => (s.unblock set).sigaction signo save

/-! ## Runs -/

abbrev State := Scopes Signals Obj

/-- Whether the system calls of the constructors succeed is the environment's choice. -/
inductive Action
  | sigprocmask (set : Finset ℕ) (ok : Bool)
  | signal (signo handler : ℕ) (ok : Bool)
  | handler (signo : ℕ) (ok okMask : Bool)
  | destroy

def construct (s : State) (r : Obj × Signals) : State := s.push r.1 r.2

def step (s : State) : Action → Option State
  | .sigprocmask set ok => some (if ok then construct s (scopedSigprocmask set s.cur) else s)
  | .signal signo handler ok => some (if ok then construct s (scopedSignal signo handler s.cur) else s)
  | .handler signo ok okMask =>
    if ok then
      if okMask then some (construct s (signalHandler signo s.cur))
      else (construct s (scopedSignal signo SIG_IGN s.cur)).pop leave
    else some s
  | .destroy => s.pop leave

def signalSystem : System State Action where
  init s := s.frames = []
  step := step

/-- The set that an object blocks. -/
def Obj.blocks : Obj → Finset ℕ
  | .scopedSigprocmask set => set
  | .scopedSignal .. => ∅
  | .signalHandler _ _ set => set

/-- Nothing that the object blocks was blocked when it was constructed. -/
def Apart (f : Frame Signals Obj) : Prop := Disjoint f.before.mask f.obj.blocks

/-- Only objects that are apart are destroyed. -/
def Careful (s : State) : Action → Prop
  | .destroy => ∀ f ∈ s.frames.head?, Apart f
  | _ => True

instance (s : State) : (act : Action) → Decidable (Careful s act)
  | .destroy =>
    match h : s.frames.head? with
    | none => .isTrue (by simp [Careful, h])
    | some f => decidable_of_iff (Disjoint f.before.mask f.obj.blocks) (by simp [Careful, h, Apart])
  | .sigprocmask .. | .signal .. | .handler .. => .isTrue trivial

/-! ## What the destructors undo -/

/-- The object of a frame was constructed in the state before it. -/
def Made (f : Frame Signals Obj) : Prop :=
  (∃ set, (f.obj, f.after) = scopedSigprocmask set f.before) ∨
    (∃ signo handler, (f.obj, f.after) = scopedSignal signo handler f.before) ∨
    ∃ signo, (f.obj, f.after) = signalHandler signo f.before

theorem Signals.block_unblock (s : Signals) (set : Finset ℕ) :
    (s.block set).unblock set = { s with mask := s.mask \ set } := by
  have hmask : (s.mask ∪ (set \ unblockable)) \ set = s.mask \ set := by
    rw [Finset.union_sdiff_distrib, Finset.sdiff_eq_empty_iff_subset.mpr Finset.sdiff_subset,
      Finset.union_empty]
  simp only [Signals.block, Signals.unblock, hmask]

theorem Signals.sigaction_restore (s : Signals) (signo : ℕ) (act : Sigaction) :
    (s.sigaction signo act).sigaction signo (s.actions signo) = s := by
  simp only [Signals.sigaction, Function.update_idem, Function.update_eq_self]

theorem Signals.mask_sdiff_eq_iff (s : Signals) (set : Finset ℕ) :
    ({ s with mask := s.mask \ set } : Signals) = s ↔ Disjoint s.mask set := by
  rw [← Finset.sdiff_eq_self_iff_disjoint]
  constructor
  · exact congrArg Signals.mask
  · intro h
    rw [h]

theorem undoes_iff {f : Frame Signals Obj} (h : Made f) : Scopes.Undoes leave f ↔ Apart f := by
  obtain ⟨set, hmade⟩ | ⟨signo, handler, hmade⟩ | ⟨signo, hmade⟩ := h
  · obtain ⟨hobj, hafter⟩ := Prod.mk.inj hmade
    rw [Scopes.Undoes, Apart, hobj, hafter, leave, Signals.block_unblock, Signals.mask_sdiff_eq_iff]
    rfl
  · obtain ⟨hobj, hafter⟩ := Prod.mk.inj hmade
    rw [Scopes.Undoes, Apart, hobj, hafter, leave, Signals.sigaction_restore]
    simp [Obj.blocks]
  · obtain ⟨hobj, hafter⟩ := Prod.mk.inj hmade
    rw [Scopes.Undoes, Apart, hobj, hafter, leave, Signals.block_unblock]
    -- the disposition is put back whatever becomes of the mask
    simp only [Signals.sigaction, Function.update_idem, Function.update_eq_self]
    exact Signals.mask_sdiff_eq_iff ..

/-! ## Runs -/

section

variable {s s' : State}

/-- The stack is linked, and every frame is of an object that was constructed there. -/
def Inv (s : State) : Prop := s.Linked ∧ ∀ f ∈ s.frames, Made f

theorem Inv.construct (h : Inv s) {r : Obj × Signals} (hr : Made ⟨r.1, s.cur, r.2⟩) :
    Inv (construct s r) := by
  refine ⟨h.1.push r.1 r.2, fun f hf => ?_⟩
  obtain rfl | hf := List.mem_cons.mp hf
  · exact hr
  · exact h.2 f hf

theorem Inv.destroy (h : Inv s) (hc : Careful s .destroy) (hs : s.pop leave = some s') : Inv s' := by
  cases hf : s.frames with
  | nil => simp [Scopes.pop, hf] at hs
  | cons f frames =>
    have hmade : Made f := h.2 f (by simp [hf])
    have hundo := (undoes_iff hmade).mpr (hc f (by simp [hf]))
    refine ⟨h.1.pop hf hundo hs, fun g hg => h.2 g ?_⟩
    simp only [Scopes.pop, hf, Option.some.injEq] at hs
    subst hs
    exact hf ▸ List.mem_cons_of_mem f hg

theorem Inv.step (h : Inv s) {act : Action} (hc : Careful s act) (hs : Signal.step s act = some s') :
    Inv s' := by
  cases act with
  | sigprocmask set ok =>
    obtain rfl := Option.some.inj hs
    cases ok with
    | false => exact h
    | true => exact h.construct (.inl ⟨set, rfl⟩)
  | signal signo handler ok =>
    obtain rfl := Option.some.inj hs
    cases ok with
    | false => exact h
    | true => exact h.construct (.inr (.inl ⟨signo, handler, rfl⟩))
  | handler signo ok okMask =>
    cases ok with
    | false => exact Option.some.inj hs ▸ h
    | true =>
      cases okMask with
      | true => exact Option.some.inj hs ▸ h.construct (.inr (.inr ⟨signo, rfl⟩))
      | false =>
        -- `m_sigmask` throws and `m_signal` is destroyed
        have hsignal := h.construct (r := scopedSignal signo SIG_IGN s.cur) (.inr (.inl ⟨signo, SIG_IGN, rfl⟩))
        refine hsignal.destroy (fun f hf => ?_) hs
        obtain rfl := Option.some.inj hf
        exact Finset.disjoint_empty_right _
  | destroy => exact h.destroy hc hs

end

/-- In every run in which only objects that are apart are destroyed, the next destruction brings back the
mask and the dispositions from just before the matching construction exactly when the object blocks
nothing that was blocked then. -/
theorem destroy_restores_iff {s : State} (hs : signalSystem.Reachable Careful s) {s' : State}
    {f : Frame Signals Obj} {frames : List (Frame Signals Obj)} (hf : s.frames = f :: frames)
    (hd : step s .destroy = some s') : s'.cur = f.before ↔ Apart f := by
  have hinv : Inv s := by
    refine hs.invariant ?_ fun s act s' _ h hc hstep => h.step hc hstep
    intro s hinit
    have hinit : s.frames = [] := hinit
    exact ⟨by simp [Scopes.Linked, hinit, Scopes.LinkedFrom], by simp [hinit]⟩
  rw [hinv.1.pop_iff hf hd, undoes_iff (hinv.2 f (by simp [hf]))]

/-- One blocked signal, and all dispositions the default. -/
def hangupBlocked : Signals := ⟨{1}, fun _ => ⟨0, ∅, 0⟩⟩

/-- A handler for a signal, with a scope of another inside it that has ended, in a thread in which a third
signal is blocked. -/
theorem destroy_restores_iff_nested : ∃ s s' f, signalSystem.Reachable Careful s ∧ s.frames = [f] ∧
    step s .destroy = some s' ∧ f.before.mask = {1} ∧ s'.cur = f.before := by
  have hexec : (signalSystem.exec Careful ⟨hangupBlocked, []⟩
      [.handler 15 true true, .sigprocmask {2} true, .destroy]).map (fun s =>
        match s.frames with
        | [f] => decide (f.before.mask = {1} ∧ Disjoint f.before.mask f.obj.blocks)
        | _ => false) = some true := by
    decide
  have hinit : signalSystem.init ⟨hangupBlocked, []⟩ := rfl
  obtain ⟨s, hs, hq⟩ := System.exists_reachable_of_exec _ _ hinit hexec
  split at hq
  · rename_i f hf
    obtain ⟨hmask, hapart⟩ := of_decide_eq_true hq
    have hd : step s .destroy = some ⟨leave f.obj s.cur, []⟩ := by simp [step, Scopes.pop, hf]
    exact ⟨s, _, f, hs, hf, hd, hmask, (destroy_restores_iff hs hf hd).mpr hapart⟩
  · cases hq

/-- A signal that was blocked outside is not blocked after the scope. -/
theorem destroy_unblocks : ¬ ∀ s, signalSystem.Reachable (fun _ _ => True) s →
    ∀ f frames s', s.frames = f :: frames → step s .destroy = some s' → s'.cur = f.before := by
  intro hall
  have hexec : signalSystem.exec (fun _ _ => True) ⟨hangupBlocked, []⟩ [.sigprocmask {1} true] =
      some (construct ⟨hangupBlocked, []⟩ (scopedSigprocmask {1} hangupBlocked)) := rfl
  have hinit : signalSystem.init ⟨hangupBlocked, []⟩ := rfl
  have hsame := hall _ (System.Reachable.of_exec (.init hinit) hexec) _ _ _ rfl rfl
  have hmask := congrArg Signals.mask hsame
  revert hmask
  decide

end Mpio.Signal
