import Mpio.Wavy.Stream

/-!
# Finalizers

Every finalizer given to `out` or pushed to an `xfer` is called, or is still queued in a `ctx` or in an
`xfer` of a caller: `FinInv` counts each of them. Destructors run what is queued, so after them each
finalizer has been called as often as it was given. The order at one descriptor is that of `DataInv`.

One path breaks the count. `commit_raw` that finds an empty queue executes the stack buffer, and when the
kernel answers with a fatal error the records left in the buffer are dropped with it; `commit` leaves
them in the caller's `xfer`, and `write_event` clears the queue. `finalizer_lost` is such a run.
-/

namespace Mpio.Wavy

open Lib Finset

variable {n m : ℕ} {mc : Memcpy} {s s' : State} {act : Action} {β : Type} {φ : Item → β}

/-- `~xfer`: the finalizers it calls. -/
def Xfer.destroy (x : Xfer) : List Finalizer := if x.block.isSome then x.clear.2 else []

/-- The finalizers called so far and by the destructors of `out` and of the callers' `xfer`s. -/
def calledInAll (n m : ℕ) (s : State) : List Finalizer :=
  s.invoked ++ (List.range n).flatMap (fun fd => (s.ctx fd).destroy) ++
    (List.range m).flatMap (fun k => (s.xfers k).destroy)

/-- Each finalizer given away was called or is queued. -/
def FinInv (n m : ℕ) (s : State) : Prop :=
  ∀ f, s.invoked.count f + ∑ fd ∈ range n, pending f (s.ctx fd) + ∑ k ∈ range m, pending f (s.xfers k) =
    s.handed.count f

/-- No fatal answer for a `commit_raw` that finds its queue empty and carries a finalizer. -/
def NoRawFatal (s : State) : Action → Prop
  | .submit fd call _ as _ =>
    (s.ctx fd).empty = true → finalizers call.recs ≠ [] → ∀ a ∈ as, ¬ a.Fatal
  | _ => True

instance (s : State) (act : Action) : Decidable (NoRawFatal s act) :=
  match act with
  | .submit fd call _ as _ => inferInstanceAs
    (Decidable ((s.ctx fd).empty = true → finalizers call.recs ≠ [] → ∀ a ∈ as, ¬ a.Fatal))
  | .write .. | .commit .. | .writeEvent .. | .goOn .. | .pollWait .. | .pollPush | .next | .push ..
  | .migrate .. | .clearXfer .. | .rewrite .. => inferInstanceAs (Decidable True)

theorem commitRaw_not_fatal {w : World} {ctx : Xfer} {rs new : List Rec} (hx : ctx.Holds rs)
    {xfbuf : List UInt8} (henc : Encodes xfbuf new) (hlen : xfbuf.length < 2 ^ 63) {as : List Answer}
    {junk : Xfer.Junk} (hint : mc.CopiesDown ∨ (ctx.empty && overlapAt 0 new as) = false)
    (hok : (out.commitRaw w mc ctx xfbuf as junk).outcome = .ok)
    (hno : ctx.empty = true → ∀ a ∈ as, ¬ a.Fatal) :
    (out.commitRaw w mc ctx xfbuf as junk).fatal = false := by
  have href := @execute_refines w mc xfbuf xfbuf.length new (by rwa [List.take_length]) le_rfl as
  have hcalls : ctx.empty = true → ∀ c ∈ (execRecs w new as).calls, ¬ c.2.Fatal := by
    intro hemp c hc
    rcases execRecs_answers w new as c hc with h | h
    · exact hno hemp _ h
    · rw [h]
      decide
  apply (out.commitRaw_sends hx henc hlen hint hok).fatal
  intro c hc
  simp only [out.commitRaw] at hc
  split_ifs at hc with hemp hcont
  · rw [href.calls] at hc
    exact hcalls hemp c hc
  · rw [href.calls] at hc
    exact hcalls hemp c hc
  · cases hc

theorem FinInv.entered (h : FinInv n m s) {e : Entry} {lost : Prop} (he : e.Sends m s lost)
    (hfd : e.fd < n) (hl : ¬ lost) : FinInv n m (s.entered e) := by
  intro f
  have hacc := he.account hl f
  have hsum := sum_update hfd (pending f) s.ctx e.work.ctx
  have hf := h f
  simp only [State.entered, List.count_append] at hsum ⊢
  omega

theorem FinInv.goOn (h : FinInv n m s) (hd : DataInv φ n s) {fd : ℕ} (hfd : fd < n)
    (hs : s.goOn fd = some s') : FinInv n m s' := by
  simp only [State.goOn] at hs
  cases hcase : s.cs fd with
  | idle => simp [hcase] at hs
  | addFd | incr | reactivate | remove | decr =>
    rw [hcase] at hs
    obtain rfl := Option.some.inj hs
    exact h
  | clear =>
    rw [hcase] at hs
    obtain rfl := Option.some.inj hs
    intro f
    obtain ⟨hempty, hcalled⟩ := (hd.ctx fd).clear
    have hsum := sum_update hfd (pending f) s.ctx (s.ctx fd).clear.1
    have hnone : pending f (s.ctx fd).clear.1 = 0 := by simp [pending, hempty.recs_eq, finalizers]
    have hself : pending f (s.ctx fd) = (finalizers (s.ctx fd).recs).count f := rfl
    have hf := h f
    simp only [hcalled, List.count_append]
    omega

theorem FinInv.step (h : FinInv n m s) (hd : DataInv φ n s) (hr : Regular m mc s act)
    (hint : Intact mc s act) (hno : NoRawFatal s act) (hs : stepOut n m mc s act = some s') :
    FinInv n m s' := by
  cases stepOut_cases hs with
  | @entered e he hfd _ _ =>
    refine h.entered (enter_sends hd hr hint he) hfd ?_
    rintro ⟨fd, call, stack, as, junk, rfl, hne, hfat⟩
    obtain ⟨henc, hlen⟩ := call.encodes stack hr.small
    have hok := hr.alloc e he
    obtain rfl := Option.some.inj he
    have := commitRaw_not_fatal (hd.ctx fd) henc hlen hint hok fun hemp => hno hemp hne
    simp only at hfat
    rw [this] at hfat
    cases hfat
  | goOn hfd hs' => exact h.goOn hd hfd hs'
  | pollWait | pollPush | next | rewrite => exact h
  | @push k r junk hact hk hok =>
    subst hact
    intro f
    have hp := (hd.xfers k).pushRec_ok hr.small (Prod.ext rfl hok)
    have hsum := sum_update hk (pending f) s.xfers ((s.xfers k).pushRec junk r).1
    have hnew : pending f ((s.xfers k).pushRec junk r).1 =
        pending f (s.xfers k) + (finalizers [r]).count f := by
      simp only [pending, hp.recs_eq, finalizers_append, List.count_append]
    have hf := h f
    simp only [List.count_append]
    omega
  | @migrate k l junk hk hl hkl hok =>
    intro f
    obtain ⟨h1, h2⟩ := (hd.xfers k).migrate (hd.xfers l) (Prod.ext rfl (Prod.ext rfl hok))
    obtain ⟨r, hrdef⟩ : ∃ r, (s.xfers k).migrate (s.xfers l) junk = r := ⟨_, rfl⟩
    rw [hrdef] at h1 h2 ⊢
    have hsum1 := sum_update hk (pending f) s.xfers r.1
    have hsum2 := sum_update hl (pending f) (Function.update s.xfers k r.1) r.2.1
    rw [Function.update_of_ne (Ne.symm hkl)] at hsum2
    have hnone : pending f r.1 = 0 := by simp [pending, h1.recs_eq, finalizers]
    have hall : pending f r.2.1 = pending f (s.xfers l) + pending f (s.xfers k) := by
      simp only [pending, h2.recs_eq, finalizers_append, List.count_append]
    have hf := h f
    simp only
    omega
  | @clearXfer k hk =>
    intro f
    obtain ⟨hempty, hcalled⟩ := (hd.xfers k).clear
    have hsum := sum_update hk (pending f) s.xfers (s.xfers k).clear.1
    have hnone : pending f (s.xfers k).clear.1 = 0 := by simp [pending, hempty.recs_eq, finalizers]
    have hself : pending f (s.xfers k) = (finalizers (s.xfers k).recs).count f := rfl
    have hf := h f
    simp only [hcalled, List.count_append]
    omega

/-! ## Destruction -/

theorem count_destroy {x : Xfer} {rs : List Rec} (h : x.Holds rs) (f : Finalizer) :
    x.destroy.count f = pending f x := by
  have hrs := h.recs_eq
  unfold Xfer.destroy
  split_ifs with hblk
  · rw [h.clear.2, pending, hrs]
  · have hlen := h.length
    have hmem : x.mem = [] := by
      rw [Xfer.mem, Option.not_isSome_iff_eq_none.mp hblk]
      rfl
    rw [hmem, List.length_nil] at hlen
    have hnil : rs = [] := h.empty_iff.mp (by omega)
    simp [pending, hrs, hnil, finalizers]

theorem count_flatMap_destroy {g : ℕ → Xfer} (hg : ∀ i, (g i).Holds (g i).recs) (f : Finalizer) (n : ℕ) :
    ((List.range n).flatMap fun i => (g i).destroy).count f = ∑ i ∈ range n, pending f (g i) := by
  induction n with
  | zero => rfl
  | succ n ih =>
    rw [List.range_succ, List.flatMap_append, List.count_append, ih, sum_range_succ]
    simp [count_destroy (hg n) f]

/-- Once everything is destroyed each finalizer has been called as often as it was given. At a
descriptor whose stream has not ended, the bytes accepted and the finalizers called are, in this order,
the beginning of what was committed; the rest is in its queue. The runs are those in which no
`commit_raw` with an empty queue gets a fatal answer, and no `memcpy` goes wrong. -/
theorem finalizers_once
    (h : (outSystem n m mc).Reachable
      (fun s act => Regular m mc s act ∧ Intact mc s act ∧ NoRawFatal s act) s) :
    (∀ f, (calledInAll n m s).count f = s.handed.count f) ∧
    (∀ fd < n, s.broken fd = false →
      (s.wire fd).map Item.shape ++ (items s.world (s.ctx fd).recs).map Item.shape =
        (s.payload fd).map Item.shape) := by
  have hinv : DataInv Item.shape n s ∧ FinInv n m s := by
    apply h.invariant
    · rintro s ⟨world, rfl⟩
      refine ⟨.start world, fun f => ?_⟩
      simp [State.start, pending, Xfer.holds_new.recs_eq, finalizers]
    · rintro s act s' - ⟨hd, hf⟩ ⟨hr, hint, hno⟩ hs
      exact ⟨hd.step hr unchanged_shape hint hs, hf.step hd hr hint hno hs⟩
  refine ⟨fun f => ?_, hinv.1.stream⟩
  rw [calledInAll, List.count_append, List.count_append, count_flatMap_destroy hinv.1.ctx,
    count_flatMap_destroy hinv.1.xfers]
  exact hinv.2 f

/-- A write with a finalizer that is sent in two pieces, and one whose `xfer` gets a fatal answer. -/
def finalizedWrites : List Action :=
  [.submit 0 (.write 16 4 7 9) (fun _ => 0) [.count 3] (some fun _ => 0), .goOn 0, .goOn 0,
    .pollWait [0], .pollPush, .next, .writeEvent 0 [.count 1], .goOn 0, .goOn 0, .goOn 0,
    .push 0 (.iovec [⟨32, 2⟩]) (some fun _ => 0), .push 0 (.finalize 7 10) (some fun _ => 0),
    .commit 0 0 [.fails .other] (some fun _ => 0)]

theorem finalizers_once_finalizedWrites :
    ∃ s, (outSystem 1 1 .ascending).Reachable
        (fun s act => Regular 1 .ascending s act ∧ Intact .ascending s act ∧ NoRawFatal s act) s ∧
      s.invoked = [(7, 9)] ∧ (calledInAll 1 1 s).count (7, 10) = 1 := by
  obtain ⟨s, hs, hq⟩ := System.exists_reachable_of_exec (S := outSystem 1 1 .ascending)
    (P := fun s act => Regular 1 .ascending s act ∧ overlaps s act = false ∧ NoRawFatal s act)
    (s := .start addressWorld) finalizedWrites
    (fun s => decide (s.invoked = [(7, 9)] ∧ s.handed.count (7, 10) = 1)) ⟨_, rfl⟩ (by decide +kernel)
  obtain ⟨h1, h2⟩ := of_decide_eq_true hq
  have hs' := hs.mono
    (Q := fun s act => Regular 1 .ascending s act ∧ Intact .ascending s act ∧ NoRawFatal s act)
    fun _ _ _ h => ⟨h.1, .inr h.2.1, h.2.2⟩
  exact ⟨s, hs', h1, by rw [(finalizers_once hs').1, h2]⟩

/-- A write with a finalizer on an empty queue, refused by the kernel. -/
def refusedWrite : List Action :=
  [.submit 0 (.write 16 4 7 9) (fun _ => 0) [.fails .other] (some fun _ => 0)]

/-- Its finalizer is never called, not even by the destructors. -/
theorem finalizer_lost :
    ∃ s, (outSystem 1 0 .ascending).Reachable (Regular 0 .ascending) s ∧
      s.handed = [(7, 9)] ∧ calledInAll 1 0 s = [] := by
  obtain ⟨s, hs, hq⟩ := System.exists_reachable_of_exec (S := outSystem 1 0 .ascending)
    (P := Regular 0 .ascending) (s := .start addressWorld) refusedWrite
    (fun s => decide (s.handed = [(7, 9)] ∧ calledInAll 1 0 s = [])) ⟨_, rfl⟩ (by decide +kernel)
  exact ⟨s, hs, of_decide_eq_true hq⟩

end Mpio.Wavy
