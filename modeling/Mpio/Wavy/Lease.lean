import Mathlib.Algebra.Order.BigOperators.Group.Finset
import Mpio.Wavy.Exhausted

/-!
# What a caller may do with its memory

`write`, `writev`, `sendfile` and their variants queue addresses and descriptors, not bytes, so what is
sent is what is there when the kernel takes it. Whether the stream is what was committed is then up to
the caller. Its side of the contract is `Leased`: it gives every call a finalizer of its own, and leaves
the memory and the file of a call alone until that finalizer has been called, or the call has thrown.
Afterwards it may do with them what it likes, at any time.

That this is enough does not follow from the queue alone: a finalizer must not be called while a part of
its call is still queued. `Backed` says that the queue of a descriptor is the rest of the calls whose
finalizers are in it.
-/

namespace Mpio.Wavy

open Lib Finset

variable {n m : ℕ} {mc : Memcpy} {s s' : State} {act : Action} {w : World}

/-! ## Calls and finalizers -/

/-- The finalizer of a call, with its argument. -/
def Call.token : Call → Finalizer
  | .write _ _ fin user | .writev _ fin user | .sendfile _ _ _ fin user
  | .hsendfile _ _ _ _ _ fin user | .hvsendfile _ _ _ _ fin user => (fin, user)

theorem Call.recs_token (call : Call) :
    ∃ rs, call.recs = rs ++ [.finalize call.token.1 call.token.2] ∧ finalizers rs = [] := by
  cases call with
  | write | writev | sendfile => exact ⟨[_], rfl, rfl⟩
  | hsendfile | hvsendfile => exact ⟨[_, _], rfl, rfl⟩

theorem Call.finalizers_eq {call : Call} (h : call.token.1 ≠ 0) : finalizers call.recs = [call.token] := by
  obtain ⟨rs, hrecs, hnone⟩ := call.recs_token
  rw [hrecs, finalizers_append, hnone]
  simp [finalizers, h]

theorem Call.items_last {call : Call} (h : call.token.1 ≠ 0) (w : World) :
    ∃ l, items w call.recs = l ++ [.fin call.token.1 call.token.2] := by
  obtain ⟨rs, hrecs, -⟩ := call.recs_token
  refine ⟨items w rs, ?_⟩
  rw [hrecs, items_append]
  simp [items, Rec.items, finItem, h]

/-- What the calls ask for, one behind the other. -/
def wanted (w : World) (calls : List Call) : List Item := calls.flatMap fun call => items w call.recs

theorem fins_wanted {calls : List Call} (h : ∀ call ∈ calls, call.token.1 ≠ 0) (w : World) :
    fins (wanted w calls) = calls.map Call.token := by
  induction calls with
  | nil => rfl
  | cons call calls ih =>
    rw [wanted, List.flatMap_cons, fins_append, fins_items,
      Call.finalizers_eq (h _ (List.mem_cons_self ..)), List.map_cons]
    exact congrArg _ (ih fun c hc => h c (List.mem_cons_of_mem _ hc))

/-- A rest of what some calls ask for that has only the finalizers of the later ones is a rest of what
these ask for: the last item of a call is its finalizer. -/
theorem suffix_wanted {l : List Item} {gone live : List Call}
    (hne : ∀ call ∈ gone ++ live, call.token.1 ≠ 0)
    (h : l <:+ wanted w (gone ++ live)) (hfins : fins l = live.map Call.token) : l <:+ wanted w live := by
  rcases List.eq_nil_or_concat gone with rfl | ⟨gone, last, rfl⟩
  · exact h
  have hlive : fins (wanted w live) = live.map Call.token :=
    fins_wanted (fun c hc => hne c (List.mem_append_right _ hc)) w
  rw [wanted, List.flatMap_append] at h
  rcases List.suffix_or_suffix_of_suffix h (List.suffix_append ..) with h' | ⟨front, rfl⟩
  · exact h'
  -- what lies in front of `live` has no finalizer, so it is empty
  rw [fins_append, show live.flatMap (fun call => items w call.recs) = wanted w live from rfl, hlive] at hfins
  have hnone : fins front = [] := List.append_left_eq_self.mp hfins
  obtain ⟨body, hbody⟩ := Call.items_last (hne last (by simp)) w
  have hfront := List.suffix_append_self_iff.mp h
  rw [List.concat_eq_append, List.flatMap_append, List.flatMap_singleton, hbody, ← List.append_assoc] at hfront
  rcases List.suffix_concat_iff.mp hfront with rfl | ⟨t, rfl, -⟩
  · exact List.suffix_rfl
  · rw [fins_append] at hnone
    simp [fins] at hnone

/-! ## Queues -/

/-- The queue is a rest of some of the calls, those whose finalizers are in it. -/
def Backed (calls : List Call) (rs : List Rec) : Prop :=
  ∃ live ⊆ calls, finalizers rs = live.map Call.token ∧ ∀ w, items w rs <:+ wanted w live

theorem Backed.nil (calls : List Call) : Backed calls [] :=
  ⟨[], List.nil_subset _, rfl, fun _ => List.nil_suffix⟩

theorem Backed.mono {calls calls' : List Call} {rs : List Rec} (h : Backed calls rs) (hsub : calls ⊆ calls') :
    Backed calls' rs := by
  obtain ⟨live, hlive, hrest⟩ := h
  exact ⟨live, fun c hc => hsub (hlive hc), hrest⟩

theorem Backed.push {calls : List Call} {rs : List Rec} (h : Backed calls rs) {call : Call}
    (hcall : call ∈ calls) (hne : call.token.1 ≠ 0) : Backed calls (rs ++ call.recs) := by
  obtain ⟨live, hlive, hfins, hsuffix⟩ := h
  refine ⟨live ++ [call], ?_, ?_, fun w => ?_⟩
  · exact List.append_subset.mpr ⟨hlive, by simpa using hcall⟩
  · rw [finalizers_append, hfins, Call.finalizers_eq hne, List.map_append, List.map_singleton]
  · rw [items_append, wanted, List.flatMap_append, List.flatMap_singleton]
    exact List.suffix_append_self_iff.mpr (hsuffix w)

theorem execRecs_world (w w' : World) (rs : List Rec) (as : List Answer) :
    (execRecs w rs as).recs = (execRecs w' rs as).recs := by
  induction rs generalizing as with
  | nil => rfl
  | cons r rs ih =>
    cases r with
    | iovec vec =>
      simp only [execRecs]
      split_ifs
      · rfl
      · rcases stopAt vec (answer as).accepted with _ | ⟨i, wl⟩
        · exact ih _
        · rfl
    | sendfile infd off len =>
      simp only [execRecs]
      split_ifs
      · rfl
      · rfl
      · exact ih _
    | finalize fin user => exact ih _

theorem Backed.exec {calls : List Call} (hne : ∀ call ∈ calls, call.token.1 ≠ 0) {rs : List Rec}
    (h : Backed calls rs) (w : World) (as : List Answer) : Backed calls (execRecs w rs as).recs := by
  obtain ⟨live, hlive, hfins, hsuffix⟩ := h
  have hleft : finalizers (execRecs w rs as).recs <:+ live.map Call.token :=
    hfins ▸ ⟨_, execRecs_fins w rs as⟩
  obtain ⟨called, hcalled⟩ := hleft
  obtain ⟨gone, live', rfl, -, hlive'⟩ := List.map_eq_append_iff.mp hcalled.symm
  refine ⟨live', fun c hc => hlive (List.mem_append_right _ hc), hlive'.symm, fun w' => ?_⟩
  have hrest : items w' (execRecs w rs as).recs <:+ wanted w' (gone ++ live') := by
    rw [execRecs_world w w']
    exact List.IsSuffix.trans ⟨_, execRecs_items w' rs as⟩ (hsuffix w')
  apply suffix_wanted (fun c hc => hne c (hlive hc)) hrest
  rw [fins_items, hlive']

theorem length_items (w w' : World) (rs : List Rec) : (items w rs).length = (items w' rs).length := by
  induction rs with
  | nil => rfl
  | cons r rs ih =>
    rw [items_cons, items_cons, List.length_append, List.length_append, ih]
    congr 1
    cases r with
    | iovec vec => simp only [Rec.items, List.length_map, World.length_vec]
    | sendfile infd off len => simp only [Rec.items, List.length_map, length_rangeOf]
    | finalize fin user => rfl

/-- A queue denotes the same as long as the calls whose finalizers are in it do. -/
theorem Backed.items_eq {calls : List Call} {rs : List Rec} (h : Backed calls rs) {w w' : World}
    (hagree : ∀ call ∈ calls, call.token ∈ finalizers rs → items w' call.recs = items w call.recs) :
    items w' rs = items w rs := by
  obtain ⟨live, hlive, hfins, hsuffix⟩ := h
  have hwanted : wanted w' live = wanted w live := by
    refine List.flatMap_congr fun call hcall => hagree call (hlive hcall) ?_
    rw [hfins]
    exact List.mem_map_of_mem hcall
  refine List.IsSuffix.eq_of_length ?_ (length_items w' w rs)
  have h1 := hsuffix w'
  rw [hwanted] at h1
  exact List.suffix_of_suffix_length_le h1 (hsuffix w) (length_items w' w rs).le

theorem out.commitRaw_backed {calls : List Call} (hne : ∀ call ∈ calls, call.token.1 ≠ 0) {ctx : Xfer}
    {rs : List Rec} (hx : ctx.Holds rs) (hb : Backed calls rs) {call : Call} (hcall : call ∈ calls)
    {xfbuf : List UInt8} (henc : Encodes xfbuf call.recs) (hlen : xfbuf.length < 2 ^ 63)
    {as : List Answer} {junk : Xfer.Junk}
    (hint : mc.CopiesDown ∨ (ctx.empty && overlapAt 0 call.recs as) = false) :
    Backed calls (out.commitRaw w mc ctx xfbuf as junk).ctx.recs := by
  have href := @execute_refines w mc xfbuf xfbuf.length call.recs (by rwa [List.take_length]) le_rfl as
  by_cases ho : (out.commitRaw w mc ctx xfbuf as junk).outcome = .ok
  · simp only [out.commitRaw] at ho ⊢
    split_ifs at ho ⊢ with hemp hcont
    · have hnil : rs = [] := hx.empty_iff.mp (Xfer.empty_iff.mp hemp)
      have htail := href.tail
      have hblk := href.length
      have hleft := href.encodes (by simpa [hemp] using hint)
      have hp := hx.pushXfraw hleft (by omega) (by omega) (Prod.ext rfl ho)
      rw [hp.recs_eq, hnil]
      exact ((Backed.nil calls).push hcall (hne _ hcall)).exec hne w as
    · rwa [hx.recs_eq]
    · have hp := hx.pushXfraw (by rwa [List.take_length]) le_rfl hlen (Prod.ext rfl ho)
      rw [hp.recs_eq]
      exact hb.push hcall (hne _ hcall)
  · obtain ⟨hctx, -⟩ := out.commitRaw_drops hx henc hint (.inl ho)
    rwa [hctx, hx.recs_eq]

/-! ## Runs -/

/-- A `Book` with the calls made so far. -/
structure Lender where
  book : Book
  calls : List Call

def Lender.step (n m : ℕ) (mc : Memcpy) (l : Lender) (act : Action) : Option Lender :=
  (l.book.step n m mc act).map fun b =>
    ⟨b, match act with
      | .submit _ call .. => l.calls ++ [call]
      | _ => l.calls⟩

def lenderSystem (n m : ℕ) (mc : Memcpy) : System Lender Action where
  init l := ∃ world, l = ⟨⟨.start world, fun _ => [], [], []⟩, []⟩
  step := Lender.step n m mc

/-- The calls that may still refer to memory and files: those that have not thrown and whose finalizers
have not been called. -/
def Lender.lent (l : Lender) : List Call :=
  l.calls.filter fun call => call.token ∉ l.book.state.invoked ∧ call.token ∉ l.book.thrown

/-- The caller's side: every call has a finalizer of its own, and memory and files are rewritten only
where they are not lent. Data are committed by these calls only. -/
def Leased (l : Lender) : Action → Prop
  | .submit _ call .. => call.token.1 ≠ 0 ∧ call.token ∉ l.calls.map Call.token
  | .rewrite world => ∀ call ∈ l.lent, items world call.recs = items l.book.state.world call.recs
  | .writeEvent .. | .goOn .. | .pollWait .. | .pollPush | .next => True
  | .write .. | .commit .. | .push .. | .migrate .. | .clearXfer .. => False

structure Lender.Inv (n m : ℕ) (l : Lender) : Prop where
  book : ∃ pieces kept, l.book.Inv id n m pieces kept
  named : ∀ call ∈ l.calls, call.token.1 ≠ 0
  once : (l.calls.map Call.token).Nodup
  handed : l.book.state.handed = l.calls.map Call.token
  backed : ∀ fd < n, Backed l.calls (l.book.state.ctx fd).recs

variable {l l' : Lender}

/-- A finalizer that is queued has not been called, and its call has not thrown. -/
theorem Lender.Inv.pending_lent (h : l.Inv n m) {fd : ℕ} (hfd : fd < n) {f : Finalizer}
    (hf : f ∈ finalizers (l.book.state.ctx fd).recs) :
    f ∉ l.book.state.invoked ∧ f ∉ l.book.thrown := by
  obtain ⟨pieces, kept, hi⟩ := h.book
  have hone : l.book.state.handed.count f ≤ 1 := by
    rw [h.handed]
    exact List.nodup_iff_count_le_one.mp h.once f
  have hpending : 0 < pending f (l.book.state.ctx fd) := List.count_pos_iff.mpr hf
  have hle : pending f (l.book.state.ctx fd) ≤ ∑ fd ∈ range n, pending f (l.book.state.ctx fd) :=
    single_le_sum (f := fun fd => pending f (l.book.state.ctx fd)) (fun _ _ => Nat.zero_le _)
      (mem_range.mpr hfd)
  have hfin := hi.fin f
  have hacc := hi.account f
  simp only [State.audited] at hfin
  exact ⟨List.count_eq_zero.mp (by omega), List.count_eq_zero.mp (by omega)⟩

theorem Lender.Inv.unchanged (h : l.Inv n m) (hl : Leased l act) :
    Unchanged id n l.book.state act := by
  cases act with
  | rewrite world =>
    intro fd hfd
    rw [List.map_id, List.map_id]
    refine (h.backed fd hfd).items_eq fun call hcall hf => hl call ?_
    exact List.mem_filter.mpr ⟨hcall, decide_eq_true (h.pending_lent hfd hf)⟩
  | _ => trivial

theorem out.writeEvent_backed {calls : List Call} (hne : ∀ call ∈ calls, call.token.1 ≠ 0) {ctx : Xfer}
    {rs : List Rec} (hx : ctx.Holds rs) (hb : Backed calls rs) {as : List Answer}
    (hint : mc.CopiesDown ∨ overlapAt 0 rs as = false) :
    Backed calls (out.writeEvent w mc ctx as).ctx.recs := by
  have hleft := (hx.tryWrite w mc as).2.2.2 hint
  show Backed calls (ctx.tryWrite w mc as).1.recs
  rw [hleft.recs_eq]
  exact hb.exec hne w as

theorem State.goOn_ctx {fd : ℕ} (hs : s.goOn fd = some s') :
    (s'.handed = s.handed ∧ s'.world = s.world) ∧
      (s'.ctx = s.ctx ∨ s'.ctx = Function.update s.ctx fd (s.ctx fd).clear.1) := by
  unfold State.goOn at hs
  cases hcs : s.cs fd with
  | idle => simp [hcs] at hs
  | addFd | incr | reactivate | remove | decr =>
    rw [hcs] at hs
    obtain rfl := Option.some.inj hs
    exact ⟨⟨rfl, rfl⟩, .inl rfl⟩
  | clear =>
    rw [hcs] at hs
    obtain rfl := Option.some.inj hs
    exact ⟨⟨rfl, rfl⟩, .inr rfl⟩

theorem Book.step_state {b b' : Book} (hs : b.step n m mc act = some b') :
    stepOut n m mc b.state act = some b'.state := by
  obtain ⟨s', hs', rfl⟩ := Option.map_eq_some_iff.mp hs
  rw [hs']
  cases enter m mc b.state act <;> rfl

theorem Book.step_lists {b b' : Book} (hs : b.step n m mc act = some b') :
    b'.commits = (enter m mc b.state act).elim b.commits (fun e =>
      Function.update b.commits e.fd (b.commits e.fd ++ e.commits b.state.world act)) ∧
    b'.thrown = b.thrown ++ (enter m mc b.state act).elim [] Entry.thrown := by
  obtain ⟨s', -, rfl⟩ := Option.map_eq_some_iff.mp hs
  cases enter m mc b.state act with
  | none => exact ⟨rfl, (List.append_nil _).symm⟩
  | some e => exact ⟨rfl, rfl⟩

theorem enter_writeEvent {fd : ℕ} {as : List Answer} (hs : stepOut n m mc s (.writeEvent fd as) = some s') :
    enter m mc s (.writeEvent fd as) =
      some ⟨fd, out.writeEvent s.world mc (s.ctx fd) as, [], s.xfers, s.taken.erase fd, []⟩ := by
  simp only [stepOut, enter] at hs ⊢
  split_ifs at hs ⊢
  rfl

theorem backed_update {calls : List Call} {ctx : ℕ → Xfer} (h : ∀ fd < n, Backed calls (ctx fd).recs)
    {fd : ℕ} {x : Xfer} (hx : fd < n → Backed calls x.recs) :
    ∀ fd' < n, Backed calls (Function.update ctx fd x fd').recs := by
  intro fd' hfd'
  by_cases hf : fd' = fd
  · subst hf
    rw [Function.update_self]
    exact hx hfd'
  · rw [Function.update_of_ne hf]
    exact h fd' hfd'

theorem Lender.Inv.step (h : l.Inv n m) (hp : Exhausting mc l.book act) (hl : Leased l act)
    (hs : l.step n m mc act = some l') : l'.Inv n m := by
  obtain ⟨b', hb', rfl⟩ := Option.map_eq_some_iff.mp hs
  obtain ⟨pieces, kept, hi⟩ := h.book
  have hbook := hi.step hp.1 (h.unchanged hl) hp.2 hb'
  have hctx := hi.data.ctx
  have hstate := Book.step_state hb'
  have hquiet (hhanded : b'.state.handed = l.book.state.handed)
      (hbacked : ∀ fd < n, Backed l.calls (b'.state.ctx fd).recs) : Lender.Inv n m ⟨b', l.calls⟩ :=
    ⟨hbook, h.named, h.once, hhanded.trans h.handed, hbacked⟩
  cases act with
  | submit fd call stack as junk =>
    obtain ⟨hne, hfresh⟩ := hl
    obtain ⟨hentered, -⟩ := stepOut_enter rfl hstate
    have hnamed : ∀ c ∈ l.calls ++ [call], c.token.1 ≠ 0 := by
      intro c hc
      rcases List.mem_append.mp hc with hc | hc
      · exact h.named c hc
      · rwa [List.mem_singleton.mp hc]
    obtain ⟨henc, hlen⟩ := call.encodes stack hp.1
    refine ⟨hbook, hnamed, ?_, ?_, ?_⟩
    · rw [List.map_append, List.map_singleton]
      exact List.concat_eq_append ▸ h.once.concat hfresh
    · rw [hentered, List.map_append, ← h.handed]
      exact congrArg _ (Call.finalizers_eq hne)
    · rw [hentered]
      refine backed_update (fun fd' hfd' => (h.backed fd' hfd').mono (List.subset_append_left ..)) fun hfd => ?_
      exact out.commitRaw_backed hnamed (hctx fd)
        ((h.backed fd hfd).mono (List.subset_append_left ..)) (by simp) henc hlen hp.2
  | writeEvent fd as =>
    obtain ⟨hentered, -⟩ := stepOut_enter (enter_writeEvent hstate) hstate
    refine hquiet (by rw [hentered]; exact List.append_nil _) ?_
    rw [hentered]
    exact backed_update h.backed fun hfd => out.writeEvent_backed h.named (hctx fd) (h.backed fd hfd) hp.2
  | goOn fd =>
    simp only [stepOut, enter] at hstate
    split_ifs at hstate
    obtain ⟨⟨hhanded, -⟩, hsame | hclear⟩ := State.goOn_ctx hstate
    · exact hquiet hhanded (hsame ▸ h.backed)
    · refine hquiet hhanded ?_
      rw [hclear]
      exact backed_update h.backed fun _ => (hctx fd).clear.1.recs_eq ▸ Backed.nil _
  | pollWait fds =>
    simp only [stepOut, enter, State.pollWait] at hstate
    split_ifs at hstate
    rw [← Option.some.inj hstate] at hquiet
    exact hquiet rfl h.backed
  | next =>
    simp only [stepOut, enter] at hstate
    split at hstate
    · cases hstate
    · rw [← Option.some.inj hstate] at hquiet
      exact hquiet rfl h.backed
  | pollPush | rewrite =>
    rw [← Option.some.inj hstate] at hquiet
    exact hquiet rfl h.backed
  | write | commit | push | migrate | clearXfer => exact hl.elim

/-- Callers that give each call a finalizer of its own and leave what is lent alone get streams that are
made of what was there when the calls were made: one piece for each call in their order, all of it when
the call returned and a beginning of it when it threw, whatever is written to the memory and the files
afterwards. -/
theorem leased_pieces {fd : ℕ} (hfd : fd < n)
    (h : (lenderSystem n m mc).Reachable (fun l act => Exhausting mc l.book act ∧ Leased l act) l)
    (hb : l.book.state.broken fd = false) :
    ∃ pieces, List.Forall₂ Commit.Takes (l.book.commits fd) pieces ∧
      l.book.state.wire fd ++ items l.book.state.world (l.book.state.ctx fd).recs = pieces.flatten := by
  have hinv : l.Inv n m := by
    apply h.invariant
    · rintro l ⟨world, rfl⟩
      refine ⟨⟨_, _, .start world⟩, by simp, List.nodup_nil, rfl, fun fd _ => ?_⟩
      rw [State.start, Xfer.holds_new.recs_eq]
      exact Backed.nil _
    · rintro l act l' - hi ⟨hp, hl⟩ hs
      exact hi.step hp hl hs
  obtain ⟨pieces, kept, hi⟩ := hinv.book
  refine ⟨pieces fd, hi.takes fd hb, ?_⟩
  have hstream := hi.data.stream fd hfd hb
  simp only [List.map_id] at hstream
  exact hstream

instance (l : Lender) (act : Action) : Decidable (Leased l act) :=
  match act with
  | .submit _ call _ _ _ =>
    inferInstanceAs (Decidable (call.token.1 ≠ 0 ∧ call.token ∉ l.calls.map Call.token))
  | .rewrite world => inferInstanceAs (Decidable
    (∀ call ∈ l.lent, items world call.recs = items l.book.state.world call.recs))
  | .writeEvent .. | .goOn .. | .pollWait .. | .pollPush | .next => inferInstanceAs (Decidable True)
  | .write .. | .commit .. | .push .. | .migrate .. | .clearXfer .. => inferInstanceAs (Decidable False)

/-- A buffer is written again as soon as its finalizer has been called, while the next is still queued. -/
def reusedBuffer : List Action :=
  [.submit 0 (.write 16 4 7 1) (fun _ => 0) [.count 3] (some fun _ => 0), .goOn 0, .goOn 0,
    .submit 0 (.write 32 2 7 2) (fun _ => 0) [] (some fun _ => 0), .pollWait [0], .pollPush, .next,
    .writeEvent 0 [.count 1], .goOn 0,
    .rewrite ⟨fun a => if a < 20 then 0 else a.toUInt8, fun _ a => a.toUInt8⟩]

theorem leased_pieces_reused : ∃ l, (lenderSystem 1 0 .ascending).Reachable
      (fun l act => Exhausting .ascending l.book act ∧ Leased l act) l ∧
    l.book.state.world.mem 16 = 0 ∧ l.book.state.invoked = [(7, 1)] ∧
    ∃ pieces, List.Forall₂ Commit.Takes (l.book.commits 0) pieces ∧
      l.book.state.wire 0 ++ items l.book.state.world (l.book.state.ctx 0).recs = pieces.flatten := by
  obtain ⟨l, hl, hq⟩ := System.exists_reachable_of_exec (S := lenderSystem 1 0 .ascending)
    (P := fun l act => (act.Small ∧ overlaps l.book.state act = false) ∧ Leased l act)
    (s := ⟨⟨.start addressWorld, fun _ => [], [], []⟩, []⟩) reusedBuffer
    (fun l => decide (l.book.state.world.mem 16 = 0 ∧ l.book.state.invoked = [(7, 1)] ∧
      l.book.state.broken 0 = false)) ⟨_, rfl⟩ (by decide +kernel)
  obtain ⟨hmem, hinvoked, hbroken⟩ := of_decide_eq_true hq
  have hl' := hl.mono (Q := fun l act => Exhausting .ascending l.book act ∧ Leased l act)
    fun _ _ _ h => ⟨⟨h.1.1, .inr h.1.2⟩, h.2⟩
  exact ⟨l, hl', hmem, hinvoked, leased_pieces (by decide) hl' hbroken⟩

end Mpio.Wavy
