import Mpio.Wavy.Paths

/-!
# Empty payloads

A `writev` without bytes, a `sendfile` of length 0 and a `write` of size 0 are answered with 0, and
`wl <= 0` without a retryable `errno` is what `execute` and `write` take for a closed peer. So a record
that offers nothing ends the stream when it reaches the head of the queue.

A `Traffic` is one descriptor with the records asked of it so far. `Harmless` is what a request should
leave, whatever the kernel does within its rules (`Answer.Lawful`) and whatever is requested later:
nothing is discarded, the descriptor is not shut down, and the queue drains. `harmless_iff` says that
this is so just when no record is empty, but for one case: `commit_raw` on an empty queue drops an empty
request without a finalizer, which nobody can see.
-/

namespace Mpio.Wavy

open Lib

variable {w : World} {mc : Memcpy}

/-! ## Records that offer nothing -/

/-- The bytes that a record offers to its system call; a finalizer makes none. -/
def Rec.offers : Rec → Option ℕ
  | .iovec vec => some (vecLen vec)
  | .sendfile _ _ len => some len.toNat
  | .finalize .. => none

def Rec.isEmpty (r : Rec) : Bool := r.offers == some 0

/-- The queue without its empty records. -/
def withoutEmpty (rs : List Rec) : List Rec := rs.filter fun r => !r.isEmpty

/-- No call fails for good and every file is long enough: a call that offers nothing is answered with 0,
another one with a retryable error or some of the bytes. -/
def Answer.Lawful (offered : ℕ) (a : Answer) : Prop :=
  if offered = 0 then a = .count 0 else a.Benign offered

instance (offered : ℕ) (a : Answer) : Decidable (a.Lawful offered) :=
  inferInstanceAs (Decidable (if offered = 0 then a = .count 0 else a.Benign offered))

theorem items_of_isEmpty {r : Rec} (h : r.isEmpty = true) : r.items w = [] := by
  cases r with
  | iovec vec =>
    have hlen : (w.vec vec).length = 0 := by
      rw [w.length_vec]
      simpa [Rec.isEmpty, Rec.offers] using h
    rw [Rec.items, List.eq_nil_of_length_eq_zero hlen]
    rfl
  | sendfile infd off len =>
    have hlen : len.toNat = 0 := by simpa [Rec.isEmpty, Rec.offers] using h
    rw [Rec.items, hlen]
    rfl
  | finalize fin user => cases h

theorem items_withoutEmpty (w : World) (rs : List Rec) : items w (withoutEmpty rs) = items w rs := by
  induction rs with
  | nil => rfl
  | cons r rs ih =>
    rw [items_cons, ← ih, withoutEmpty, List.filter_cons]
    cases hr : r.isEmpty
    · exact items_cons w r _
    · rw [items_of_isEmpty hr]
      rfl

theorem Answer.Lawful.not_fatal {offered : ℕ} {a : Answer} (h : a.Lawful offered) (hne : offered ≠ 0) :
    ¬ a.Fatal := by
  rw [Answer.Lawful, if_neg hne] at h
  exact h.not_fatal

/-! ## A queue without empty records -/

section clean

variable {rs : List Rec}

theorem execRecs_offers (hrs : ∀ r ∈ rs, r.isEmpty = false) (as : List Answer) :
    ∀ c ∈ (execRecs w rs as).calls, c.1 ≠ 0 := by
  have hhead {r : Rec} {rs : List Rec} (h : ∀ x ∈ r :: rs, x.isEmpty = false) {n : ℕ} {a : Answer}
      (hn : r.offers = some n) : ∀ c ∈ [(n, a)], c.1 ≠ 0 := by
    intro c hc
    obtain rfl := List.mem_singleton.mp hc
    have hr := h r (List.mem_cons_self ..)
    rw [Rec.isEmpty, hn] at hr
    simpa using hr
  have htail {r : Rec} {rs : List Rec} (h : ∀ x ∈ r :: rs, x.isEmpty = false) :
      ∀ x ∈ rs, x.isEmpty = false := fun x hx => h x (List.mem_cons_of_mem _ hx)
  fun_induction execRecs w rs as with
  | case1 as => simp
  | case2 infd off len rs as a call h0 | case3 infd off len rs as a call sent h0 hlt wl
  | case6 vec rs as a call h0 | case7 vec rs as a call sent h0 i wl hstop => exact hhead hrs rfl
  | case4 infd off len rs as a call sent h0 hge ih | case8 vec rs as a call sent h0 hstop ih =>
    intro c hc
    rcases List.mem_append.mp hc with hc | hc
    · exact hhead hrs rfl c hc
    · exact ih (htail hrs) c hc
  | case5 fin user rs as ih =>
    intro c hc
    exact ih (htail hrs) c (by simpa [Progress.after] using hc)

theorem execRecs_left (hrs : ∀ r ∈ rs, r.isEmpty = false) (as : List Answer) :
    ∀ r ∈ (execRecs w rs as).recs, r.isEmpty = false := by
  have htail {r : Rec} {rs : List Rec} (h : ∀ x ∈ r :: rs, x.isEmpty = false) :
      ∀ x ∈ rs, x.isEmpty = false := fun x hx => h x (List.mem_cons_of_mem _ hx)
  fun_induction execRecs w rs as with
  | case1 as => simp
  | case2 infd off len rs as a call h0 | case6 vec rs as a call h0 => exact hrs
  | case3 infd off len rs as a call sent h0 hlt wl =>
    intro r hr
    rcases List.mem_cons.mp hr with rfl | hr
    · have hleft : (len - wl).toNat ≠ 0 := by
        rw [toNat_left (Nat.le_of_lt hlt)]
        omega
      simpa [Rec.isEmpty, Rec.offers] using hleft
    · exact htail hrs r hr
  | case7 vec rs as a call sent h0 i wl hstop =>
    intro r hr
    rcases List.mem_cons.mp hr with rfl | hr
    · obtain ⟨v1, v, v2, rfl, rfl, hlt, -⟩ := stopAt_some hstop
      have hleft : (v.skip wl).iovLen.toNat ≠ 0 := by
        show (v.iovLen - UInt64.ofNat wl).toNat ≠ 0
        rw [toNat_left (Nat.le_of_lt hlt)]
        omega
      rw [advance_eq]
      simp only [Rec.isEmpty, Rec.offers, vecLen, List.map_cons, List.sum_cons, beq_eq_false_iff_ne,
        ne_eq, Option.some.injEq]
      omega
    · exact htail hrs r hr
  | case4 infd off len rs as a call sent h0 hge ih | case5 fin user rs as ih
  | case8 vec rs as a call sent h0 hstop ih => exact ih (htail hrs)

theorem execRecs_kept (hrs : ∀ r ∈ rs, r.isEmpty = false) {as : List Answer}
    (hlaw : ∀ c ∈ (execRecs w rs as).calls, c.2.Lawful c.1) (hc : (execRecs w rs as).cont = false) :
    (execRecs w rs as).recs = [] :=
  execRecs_done w rs as (fun c hmem => (hlaw c hmem).not_fatal (execRecs_offers hrs as c hmem)) hc

end clean

/-! ## Requests and events on one descriptor -/

/-- `write`, a function of `loop` that calls `commit_raw`, or `commit` of an `xfer`. -/
inductive Request
  | write (buf size : UInt64)
  | raw (call : Call) (stack : ℕ → UInt8)
  | commit (xf : Xfer)

def Request.recs : Request → List Rec
  | .write buf size => [.iovec [⟨buf, size⟩]]
  | .raw call _ => call.recs
  | .commit xf => xf.recs

def Request.work (w : World) (mc : Memcpy) (ctx : Xfer) (as : List Answer) (junk : Xfer.Junk) :
    Request → Section
  | .write buf size => out.write w ctx buf size as junk
  | .raw call stack => out.commitRaw w mc ctx (call.xfbuf stack) as junk
  | .commit xf => (out.commit w mc ctx xf as junk).1

/-- Vectors fit their tags, and an `xfer` holds what was pushed. -/
def Request.Sound : Request → Prop
  | .write .. => True
  | .raw call _ => ∀ r ∈ call.recs, r.Small
  | .commit xf => xf.Holds xf.recs

/-- Whether a fatal answer to the request itself shuts the descriptor down. -/
def Request.shuts : Request → Bool
  | .raw .. => false
  | .write .. | .commit _ => true

/-- A descriptor, and the records asked of it so far. -/
structure Traffic where
  line : Line
  asked : List Rec

inductive TrafficOp
  | request (q : Request) (as : List Answer) (junk : Xfer.Junk)
  | event (as : List Answer)

def Traffic.start (ctx : Xfer) (watching : ℤ) : Traffic := ⟨.rest ctx watching, ctx.recs⟩

def Traffic.perform (w : World) (mc : Memcpy) (x : Traffic) : TrafficOp → Traffic
  | .request q as junk => ⟨x.line.settle (q.work w mc x.line.ctx as junk), x.asked ++ q.recs⟩
  | .event as => ⟨x.line.event w mc as, x.asked⟩

/-- The system calls of an operation. -/
def Traffic.calls (w : World) (mc : Memcpy) (x : Traffic) : TrafficOp → List (ℕ × Answer)
  | .request q as junk => (q.work w mc x.line.ctx as junk).calls
  | .event as => if x.line.registered then (out.writeEvent w mc x.line.ctx as).calls else []

/-- Whether it compacts a vector onto itself. -/
def Traffic.overlaps (x : Traffic) : TrafficOp → Bool
  | .request q as _ => x.line.ctx.empty && overlapAt 0 q.recs as
  | .event as => overlapAt 0 x.line.ctx.recs as

/-- The kernel keeps to its rules, no `memcpy` goes wrong and no allocation fails. -/
structure Traffic.Admits (w : World) (mc : Memcpy) (x : Traffic) (op : TrafficOp) : Prop where
  lawful : ∀ c ∈ x.calls w mc op, c.2.Lawful c.1
  intact : mc.CopiesDown ∨ x.overlaps op = false
  request : ∀ q as junk, op = .request q as junk →
    q.Sound ∧ (q.work w mc x.line.ctx as junk).outcome = .ok

/-- The operation asks for no empty record. -/
def TrafficOp.Clean : TrafficOp → Prop
  | .request q _ _ => ∀ r ∈ q.recs, r.isEmpty = false
  | .event _ => True

def trafficFrom (w : World) (mc : Memcpy) (x : Traffic) : System Traffic TrafficOp where
  init := (· = x)
  step x op := some (x.perform w mc op)

/-- Write events at which the kernel does not answer the first call with an error. -/
def Traffic.Served (w : World) (mc : Memcpy) : Traffic → List (List Answer) → Prop
  | _, [] => True
  | x, as :: ass =>
    x.Admits w mc (.event as) ∧ (answer as).retry = false ∧ (x.perform w mc (.event as)).Served w mc ass

/-- What should hold at any time: the descriptor is open, what is accepted and called and what is queued
is what was asked for, empty records counting for nothing, and the queue will be worked off. -/
structure Traffic.Fine (w : World) (mc : Memcpy) (x : Traffic) : Prop where
  opened : x.line.shut = false
  kept : x.line.log ++ items w x.line.ctx.recs = items w (withoutEmpty x.asked)
  drains : ∀ ass, x.Served w mc ass → (bytesOf (items w x.line.ctx.recs)).length < ass.length →
    (x.line.events w mc ass).ctx.recs = [] ∧
    (x.line.events w mc ass).log = items w (withoutEmpty x.asked)

/-- The request `q` to a descriptor with the queue `ctx` does no harm, whatever the kernel answers and
whatever follows. -/
def Harmless (w : World) (mc : Memcpy) (ctx : Xfer) (watching : ℤ) (q : Request) (junk : Xfer.Junk) : Prop :=
  ∀ as, (Traffic.start ctx watching).Admits w mc (.request q as junk) →
    ∀ x, (trafficFrom w mc ((Traffic.start ctx watching).perform w mc (.request q as junk))).Reachable
      (fun x op => x.Admits w mc op ∧ op.Clean) x → x.Fine w mc

/-! ## What a request does -/

theorem Line.settle_idle (l : Line) {work : Section} (h : work.stage = .idle) :
    l.settle work = ⟨work.ctx, l.log ++ work.log, l.watching, l.registered, l.shut || work.shut⟩ := by
  simp only [Line.settle, h]

theorem Line.settle_addFd (l : Line) {work : Section} (h : work.stage = .addFd) :
    l.settle work = ⟨work.ctx, l.log ++ work.log, l.watching + 1, true, l.shut || work.shut⟩ := by
  simp only [Line.settle, h]

section request

variable {ctx : Xfer} {rs : List Rec} {q : Request} {as : List Answer} {junk : Xfer.Junk}

theorem Request.submits (w : World) (hx : ctx.Holds rs) (hq : q.Sound)
    (hint : mc.CopiesDown ∨ (ctx.empty && overlapAt 0 q.recs as) = false)
    (hok : (q.work w mc ctx as junk).outcome = .ok) :
    (q.work w mc ctx as junk).Submits w rs q.recs as q.shuts := by
  cases q with
  | write buf size => exact out.write_submits hx hok
  | raw call stack =>
    obtain ⟨henc, hlen⟩ := call.encodes stack hq
    exact out.commitRaw_submits hx henc hlen hint hok
  | commit xf => exact out.commit_submits hx hq hint hok

theorem Request.calls_eq (hx : ctx.Holds rs) (hq : q.Sound) :
    (q.work w mc ctx as junk).calls = if rs = [] then (execRecs w q.recs as).calls else [] := by
  have hemp : ctx.empty = true ↔ rs = [] := by rw [Xfer.empty_iff, hx.empty_iff]
  cases q with
  | write buf size =>
    have hsingle : (execRecs w [.iovec [⟨buf, size⟩]] as).calls = [(size.toNat, answer as)] := by
      rw [execRecs_single]
      simp only
      split_ifs <;> simp [vecLen]
    show (out.write w ctx buf size as junk).calls = if rs = [] then _ else _
    rw [Request.recs, hsingle, out.write]
    simp only [hemp]
    split_ifs <;> rfl
  | raw call stack =>
    obtain ⟨henc, -⟩ := call.encodes stack hq
    have href := @execute_refines w mc _ (call.xfbuf stack).length call.recs
      (by rwa [List.take_length]) le_rfl as
    show (out.commitRaw w mc ctx (call.xfbuf stack) as junk).calls = if rs = [] then _ else _
    rw [Request.recs, ← href.calls, out.commitRaw]
    simp only [hemp]
    split_ifs <;> rfl
  | commit xf =>
    obtain ⟨-, -, hcalls, -⟩ := Xfer.Holds.tryWrite (show xf.Holds xf.recs from hq) w mc as
    show (out.commit w mc ctx xf as junk).1.calls = if rs = [] then _ else _
    rw [Request.recs, ← hcalls, out.commit]
    simp only [hemp]
    split_ifs <;> rfl

end request

/-! ## Without empty records -/

/-- Nothing is lost, the descriptor is open, and no empty record is queued. -/
structure Traffic.Tidy (w : World) (x : Traffic) : Prop where
  holds : x.line.ctx.Holds x.line.ctx.recs
  clean : ∀ r ∈ x.line.ctx.recs, r.isEmpty = false
  registered : x.line.registered = true ↔ x.line.ctx.recs ≠ []
  opened : x.line.shut = false
  kept : x.line.log ++ items w x.line.ctx.recs = items w x.asked

section tidy

variable {x : Traffic} {as : List Answer}

theorem Traffic.Tidy.mk' {x : Traffic} {rs : List Rec} (hx : x.line.ctx.Holds rs)
    (hclean : ∀ r ∈ rs, r.isEmpty = false) (hreg : x.line.registered = true ↔ rs ≠ [])
    (hopen : x.line.shut = false) (hkept : x.line.log ++ items w rs = items w x.asked) : x.Tidy w := by
  refine ⟨hx.self, ?_, ?_, hopen, ?_⟩
  · rwa [hx.recs_eq]
  · rwa [hx.recs_eq]
  · rwa [hx.recs_eq]

theorem Traffic.calls_event (hx : x.line.ctx.Holds x.line.ctx.recs) (hreg : x.line.registered = true) :
    x.calls w mc (.event as) = (execRecs w x.line.ctx.recs as).calls := by
  obtain ⟨-, -, hcalls, -⟩ := hx.tryWrite w mc as
  rw [Traffic.calls, if_pos hreg]
  exact hcalls

theorem Traffic.Tidy.event (hx : x.Tidy w) (ha : x.Admits w mc (.event as)) :
    (x.perform w mc (.event as)).Tidy w := by
  by_cases hreg : x.line.registered = true
  · obtain ⟨hctx, hlog, -, hregd, hshut⟩ := Line.event_eq (w := w) hx.holds hreg ha.intact
    have hlaw := ha.lawful
    rw [Traffic.calls_event hx.holds hreg] at hlaw
    have hitems := execRecs_items w x.line.ctx.recs as
    have hgive := execRecs_kept hx.clean hlaw
    by_cases hc : (execRecs w x.line.ctx.recs as).cont = true
    · rw [eventRecs, if_pos hc] at hctx
      obtain ⟨_, _, _, hp⟩ := execRecs_worksOff w x.line.ctx.recs as
      refine .mk' hctx (execRecs_left hx.clean as) ?_ ?_ ?_
      · show (x.line.event w mc as).registered = true ↔ _
        rw [hregd]
        exact iff_of_true hc (hp.residue hc)
      · show (x.line.event w mc as).shut = false
        rw [hshut, hx.opened, hc]
        rfl
      · show (x.line.event w mc as).log ++ _ = _
        rw [hlog, List.append_assoc, hitems]
        exact hx.kept
    · have hnil := hgive (Bool.eq_false_iff.mpr hc)
      rw [eventRecs, if_neg hc] at hctx
      refine .mk' hctx (by simp) ?_ ?_ ?_
      · show (x.line.event w mc as).registered = true ↔ _
        rw [hregd]
        exact iff_of_false hc (by simp)
      · show (x.line.event w mc as).shut = false
        rw [hshut, hx.opened, hnil]
        simp
      · show (x.line.event w mc as).log ++ _ = _
        rw [hnil] at hitems
        rw [hlog, List.append_assoc, hitems]
        exact hx.kept
  · have hsame : x.line.event w mc as = x.line := by simp [Line.event, hreg]
    rw [Traffic.perform, hsame]
    exact hx

theorem Traffic.Tidy.request {q : Request} {junk : Xfer.Junk} (hx : x.Tidy w)
    (ha : x.Admits w mc (.request q as junk)) (hclean : ∀ r ∈ q.recs, r.isEmpty = false) :
    (x.perform w mc (.request q as junk)).Tidy w := by
  obtain ⟨hq, hok⟩ := ha.request q as junk rfl
  have hsub := q.submits w hx.holds hq ha.intact hok
  have hlaw : ∀ c ∈ (q.work w mc x.line.ctx as junk).calls, c.2.Lawful c.1 := ha.lawful
  rw [Request.calls_eq hx.holds hq] at hlaw
  have hkept := hx.kept
  have hreg := hx.registered
  obtain ⟨work, hwork⟩ : ∃ work, q.work w mc x.line.ctx as junk = work := ⟨_, rfl⟩
  rw [hwork] at hsub
  show Traffic.Tidy w ⟨x.line.settle (q.work w mc x.line.ctx as junk), x.asked ++ q.recs⟩
  rw [hwork]
  by_cases hnil : x.line.ctx.recs = []
  · rw [if_pos hnil] at hlaw
    rw [hnil, items_nil, List.append_nil] at hkept
    have hitems := execRecs_items w q.recs as
    have hlog := hsub.log hnil
    by_cases hc : (execRecs w q.recs as).cont = true
    · obtain ⟨hctx, hst, hsh⟩ := hsub.left hnil hc
      obtain ⟨_, _, _, hp⟩ := execRecs_worksOff w q.recs as
      rw [x.line.settle_addFd hst]
      refine .mk' hctx (execRecs_left hclean as) (iff_of_true rfl (hp.residue hc)) ?_ ?_
      · show (x.line.shut || work.shut) = false
        rw [hx.opened, hsh]
        rfl
      · show x.line.log ++ work.log ++ _ = _
        rw [hlog, List.append_assoc, hitems, items_append, hkept]
    · have hcont : (execRecs w q.recs as).cont = false := Bool.eq_false_iff.mpr hc
      have hdone := execRecs_kept hclean hlaw hcont
      obtain ⟨hctx, hst, hsh⟩ := hsub.ended hnil hcont
      rw [x.line.settle_idle hst]
      refine .mk' hctx (by simp) ?_ ?_ ?_
      · show x.line.registered = true ↔ _
        rw [hreg, hnil]
      · show (x.line.shut || work.shut) = false
        have hnot : work.shut = false := Bool.eq_false_iff.mpr fun h => (hsh.mp h).2 hdone
        rw [hx.opened, hnot]
        rfl
      · show x.line.log ++ work.log ++ _ = _
        rw [hdone] at hitems
        rw [hlog, List.append_assoc, hitems, items_append, hkept]
  · obtain ⟨hlog, hctx, hst, hsh⟩ := hsub.behind hnil
    rw [x.line.settle_idle hst]
    refine .mk' hctx ?_ ?_ ?_ ?_
    · intro r hr
      rcases List.mem_append.mp hr with hr | hr
      · exact hx.clean r hr
      · exact hclean r hr
    · exact hreg.trans (iff_of_true hnil (by simp [hnil]))
    · show (x.line.shut || work.shut) = false
      rw [hx.opened, hsh]
      rfl
    · show x.line.log ++ work.log ++ _ = _
      rw [hlog, List.append_nil, items_append, items_append, ← hkept, List.append_assoc]

theorem bytesOf_sent {r : Rec} {n k : ℕ} (hn : r.offers = some n) (hne : n ≠ 0) (hk : k ≠ 0) :
    bytesOf ((r.items w).take k) ≠ [] := by
  have hbytes : ∃ l : List UInt8, r.items w = l.map .byte ∧ l.length = n := by
    cases r with
    | iovec vec => exact ⟨_, rfl, (w.length_vec vec).trans (Option.some.inj hn)⟩
    | sendfile infd off len => exact ⟨_, rfl, (length_rangeOf _ _ _).trans (Option.some.inj hn)⟩
    | finalize fin user => cases hn
  obtain ⟨l, hl, hlen⟩ := hbytes
  rw [hl, ← List.map_take, bytesOf_map_byte]
  apply List.ne_nil_of_length_pos
  rw [List.length_take]
  omega

/-- A queue without empty records and a first answer that is not an error: a byte is taken, or there is
nothing left to do. -/
theorem execRecs_first {rs : List Rec} (hrs : ∀ r ∈ rs, r.isEmpty = false)
    (hlaw : ∀ c ∈ (execRecs w rs as).calls, c.2.Lawful c.1) (hfirst : (answer as).retry = false) :
    (execRecs w rs as).recs = [] ∨ bytesOf (execRecs w rs as).log ≠ [] := by
  have hoffers := execRecs_offers (w := w) hrs as
  have haccept {n : ℕ} {a : Answer} {calls : List (ℕ × Answer)} (hmem : (n, a) ∈ calls)
      (hlaw : ∀ c ∈ calls, c.2.Lawful c.1) (ho : ∀ c ∈ calls, c.1 ≠ 0) (hr : a.retry = false) :
      n ≠ 0 ∧ a.accepted ≠ 0 := by
    refine ⟨ho _ hmem, fun h0 => ?_⟩
    exact (hlaw _ hmem).not_fatal (ho _ hmem) ⟨h0, hr⟩
  fun_induction execRecs w rs as with
  | case1 as => exact .inl rfl
  | case2 infd off len rs as a call h0 | case6 vec rs as a call h0 =>
    exact absurd h0 (haccept (List.mem_singleton.mpr rfl) hlaw hoffers hfirst).2
  | case3 infd off len rs as a call sent h0 hlt wl | case7 vec rs as a call sent h0 i wl hstop =>
    obtain ⟨hne, hk⟩ := haccept (List.mem_singleton.mpr rfl) hlaw hoffers hfirst
    exact .inr (bytesOf_sent rfl hne hk)
  | case4 infd off len rs as a call sent h0 hge ih | case8 vec rs as a call sent h0 hstop ih =>
    obtain ⟨hne, hk⟩ := haccept (List.mem_append_left _ (List.mem_singleton.mpr rfl)) hlaw hoffers hfirst
    refine .inr ?_
    rw [Progress.after, bytesOf_append]
    exact List.append_ne_nil_of_left_ne_nil (bytesOf_sent rfl hne hk) _
  | case5 fin user rs as ih =>
    have hcalls : (Progress.after (finItem fin user) [] (execRecs w rs as)).calls =
        (execRecs w rs as).calls := List.nil_append _
    rw [hcalls] at hlaw hoffers
    refine (ih (fun r hr => hrs r (List.mem_cons_of_mem _ hr)) hlaw hfirst hoffers).imp_right fun h => ?_
    rw [Progress.after, bytesOf_append]
    exact List.append_ne_nil_of_right_ne_nil _ h

theorem Traffic.Tidy.serve (hx : x.Tidy w) (ha : x.Admits w mc (.event as))
    (hfirst : (answer as).retry = false) :
    (x.perform w mc (.event as)).line.ctx.recs = [] ∨
    (bytesOf (items w (x.perform w mc (.event as)).line.ctx.recs)).length <
      (bytesOf (items w x.line.ctx.recs)).length := by
  by_cases hreg : x.line.registered = true
  · obtain ⟨hctx, -, -, -, -⟩ := Line.event_eq (w := w) hx.holds hreg ha.intact
    have hlaw := ha.lawful
    rw [Traffic.calls_event hx.holds hreg] at hlaw
    have hrecs : (x.perform w mc (.event as)).line.ctx.recs = eventRecs w x.line.ctx.recs as :=
      hctx.recs_eq
    rw [hrecs, eventRecs]
    split_ifs with hc
    · refine (execRecs_first hx.clean hlaw hfirst).imp_right fun hbytes => ?_
      have hlen := congrArg (fun l => (bytesOf l).length) (execRecs_items w x.line.ctx.recs as)
      simp only [bytesOf_append, List.length_append] at hlen
      have hpos := List.length_pos_of_ne_nil hbytes
      omega
    · exact .inl rfl
  · have hsame : x.line.event w mc as = x.line := by simp [Line.event, hreg]
    have hnil : x.line.ctx.recs = [] := by
      by_contra hne
      exact hreg (hx.registered.mpr hne)
    rw [Traffic.perform, hsame]
    exact .inl hnil

theorem Traffic.Tidy.drains {ass : List (List Answer)} (hx : x.Tidy w) (hs : x.Served w mc ass) :
    ((bytesOf (items w x.line.ctx.recs)).length < ass.length ∨ x.line.ctx.recs = [] →
      (x.line.events w mc ass).ctx.recs = []) ∧
    (x.line.events w mc ass).log ++ items w (x.line.events w mc ass).ctx.recs = items w x.asked := by
  induction ass generalizing x with
  | nil =>
    refine ⟨?_, hx.kept⟩
    rintro (hlt | hnil)
    · exact absurd hlt (Nat.not_lt_zero _)
    · exact hnil
  | cons as ass ih =>
    obtain ⟨ha, hfirst, hrest⟩ := hs
    have hnext := hx.event ha
    obtain ⟨hdone, hkept⟩ := ih hnext hrest
    refine ⟨fun h => hdone ?_, hkept⟩
    rcases hx.serve ha hfirst with hnil | hlt
    · exact .inr hnil
    · rcases h with hlen | hnil
      · rw [List.length_cons] at hlen
        exact .inl (by omega)
      · rw [hnil] at hlt
        exact absurd hlt (Nat.not_lt_zero _)

theorem Traffic.Tidy.fine (hx : x.Tidy w) : x.Fine w mc := by
  refine ⟨hx.opened, ?_, fun ass hs hlen => ?_⟩
  · rw [items_withoutEmpty]
    exact hx.kept
  · obtain ⟨hdone, hkept⟩ := hx.drains hs
    have hnil := hdone (.inl hlen)
    rw [hnil, items_nil, List.append_nil] at hkept
    rw [items_withoutEmpty]
    exact ⟨hnil, hkept⟩

/-- In every run that asks for no empty record all is fine. -/
theorem Traffic.Tidy.run {x' : Traffic} (hx : x.Tidy w)
    (hr : (trafficFrom w mc x).Reachable (fun x op => x.Admits w mc op ∧ op.Clean) x') : x'.Tidy w := by
  refine hr.invariant (fun _ h => h ▸ hx) ?_
  rintro y op y' - hy ⟨ha, hc⟩ hs
  obtain rfl := Option.some.inj hs
  cases op with
  | request q as junk => exact hy.request ha hc
  | event as => exact hy.event ha

end tidy

/-! ## With an empty record -/

/-- Answers that take all that is offered. -/
def takeAll (rs : List Rec) : List Answer := rs.filterMap fun r => r.offers.map .count

theorem stopAt_vecLen (vec : List IoVec) : stopAt vec (vecLen vec) = none := by
  cases h : stopAt vec (vecLen vec) with
  | none => rfl
  | some p =>
    obtain ⟨i, wl⟩ := p
    obtain ⟨v1, v, v2, rfl, -, hlt, hn⟩ := stopAt_some h
    simp only [vecLen, List.map_append, List.map_cons, List.sum_append, List.sum_cons] at hn
    omega

theorem lawful_count (n : ℕ) : (Answer.count n).Lawful n := by
  unfold Answer.Lawful Answer.Benign
  split_ifs with h
  · rw [h]
  · exact .inr ⟨Nat.one_le_iff_ne_zero.mpr h, le_rfl⟩

theorem execRecs_takeAll_cons (w : World) (r : Rec) (rs : List Rec) :
    (r.isEmpty = true ∧ execRecs w (r :: rs) (takeAll (r :: rs)) =
      ⟨r :: rs, false, [], [(0, .count 0)]⟩) ∨
    (r.isEmpty = false ∧ ∃ log calls, (∀ c ∈ calls, c.2 = .count c.1) ∧
      execRecs w (r :: rs) (takeAll (r :: rs)) = (execRecs w rs (takeAll rs)).after log calls) := by
  cases r with
  | finalize fin user =>
    exact .inr ⟨rfl, _, [], by simp, rfl⟩
  | sendfile infd off len =>
    by_cases h0 : len.toNat = 0
    · refine .inl ⟨by simp [Rec.isEmpty, Rec.offers, h0], ?_⟩
      simp [takeAll, Rec.offers, execRecs, answer, Answer.accepted, Answer.retry, h0]
    · refine .inr ⟨by simpa [Rec.isEmpty, Rec.offers] using h0,
        ((Rec.sendfile infd off len).items w).take len.toNat, [(len.toNat, .count len.toNat)], ?_, ?_⟩
      · intro c hc
        obtain rfl := List.mem_singleton.mp hc
        rfl
      · have hall : takeAll (.sendfile infd off len :: rs) = .count len.toNat :: takeAll rs := rfl
        have hge : ¬ (answer (.count len.toNat :: takeAll rs)).accepted < len.toNat := lt_irrefl _
        rw [hall, execRecs]
        simp only [if_neg hge]
        exact if_neg h0
  | iovec vec =>
    by_cases h0 : vecLen vec = 0
    · refine .inl ⟨by simp [Rec.isEmpty, Rec.offers, h0], ?_⟩
      simp [takeAll, Rec.offers, execRecs, answer, Answer.accepted, Answer.retry, h0]
    · refine .inr ⟨by simpa [Rec.isEmpty, Rec.offers] using h0,
        ((Rec.iovec vec).items w).take (vecLen vec), [(vecLen vec, .count (vecLen vec))], ?_, ?_⟩
      · intro c hc
        obtain rfl := List.mem_singleton.mp hc
        rfl
      · have hall : takeAll (.iovec vec :: rs) = .count (vecLen vec) :: takeAll rs := rfl
        have hstop : stopAt vec (answer (.count (vecLen vec) :: takeAll rs)).accepted = none :=
          stopAt_vecLen vec
        rw [hall, execRecs]
        simp only [hstop]
        exact if_neg h0

theorem execRecs_takeAll_counts (w : World) (rs : List Rec) :
    ∀ c ∈ (execRecs w rs (takeAll rs)).calls, c.2 = .count c.1 := by
  induction rs with
  | nil => simp [execRecs]
  | cons r rs ih =>
    rcases execRecs_takeAll_cons w r rs with ⟨-, heq⟩ | ⟨-, log, calls, hcalls, heq⟩
    · rw [heq]
      intro c hc
      obtain rfl := List.mem_singleton.mp hc
      rfl
    · rw [heq]
      intro c hc
      rcases List.mem_append.mp hc with hc | hc
      · exact hcalls c hc
      · exact ih c hc

theorem execRecs_takeAll_lawful (w : World) (rs : List Rec) :
    ∀ c ∈ (execRecs w rs (takeAll rs)).calls, c.2.Lawful c.1 := by
  intro c hc
  rw [execRecs_takeAll_counts w rs c hc]
  exact lawful_count c.1

/-- The first empty record ends the stream. -/
theorem execRecs_takeAll_ends (w : World) {rs : List Rec} (h : ∃ r ∈ rs, r.isEmpty = true) :
    (execRecs w rs (takeAll rs)).cont = false ∧ (execRecs w rs (takeAll rs)).recs ≠ [] := by
  induction rs with
  | nil => simp at h
  | cons r rs ih =>
    rcases execRecs_takeAll_cons w r rs with ⟨-, heq⟩ | ⟨hr, log, calls, -, heq⟩
    · rw [heq]
      exact ⟨rfl, List.cons_ne_nil _ _⟩
    · rw [heq]
      obtain ⟨r', hmem, hr'⟩ := h
      rcases List.mem_cons.mp hmem with rfl | hmem
      · rw [hr] at hr'
        cases hr'
      · exact ih ⟨r', hmem, hr'⟩

theorem overlapAt_takeAll (p : ℕ) (rs : List Rec) : overlapAt p rs (takeAll rs) = false := by
  induction rs generalizing p with
  | nil => rfl
  | cons r rs ih =>
    cases r with
    | finalize fin user => exact ih _
    | sendfile infd off len =>
      have hall : takeAll (.sendfile infd off len :: rs) = .count len.toNat :: takeAll rs := rfl
      rw [hall, overlapAt, List.tail_cons, ih, Bool.and_false]
    | iovec vec =>
      have hall : takeAll (.iovec vec :: rs) = .count (vecLen vec) :: takeAll rs := rfl
      have hstop : stopAt vec (answer (.count (vecLen vec) :: takeAll rs)).accepted = none :=
        stopAt_vecLen vec
      rw [hall, overlapAt, hstop]
      simp only [List.tail_cons, ih, Bool.and_false]

/-- A write event can bring an empty record of the queue to its head. -/
theorem Traffic.event_shuts (w : World) (mc : Memcpy) {x : Traffic} {rs : List Rec} (hx : x.line.ctx.Holds rs)
    (hreg : x.line.registered = true) (hempty : ∃ r ∈ rs, r.isEmpty = true) :
    x.Admits w mc (.event (takeAll rs)) ∧ (x.perform w mc (.event (takeAll rs))).line.shut = true := by
  obtain rfl := hx.recs_eq
  have hov : overlapAt 0 x.line.ctx.recs (takeAll x.line.ctx.recs) = false := overlapAt_takeAll 0 _
  obtain ⟨hcont, hne⟩ := execRecs_takeAll_ends w hempty
  obtain ⟨-, -, -, -, hshut⟩ :=
    @Line.event_eq w mc (takeAll x.line.ctx.recs) _ _ hx hreg (.inr hov)
  refine ⟨⟨?_, .inr hov, nofun⟩, ?_⟩
  · rw [Traffic.calls_event hx hreg]
    exact execRecs_takeAll_lawful w _
  · show (x.line.event w mc (takeAll x.line.ctx.recs)).shut = true
    rw [hshut, hcont]
    simpa using .inr hne

theorem Call.recs_head (call : Call) : ∃ r rs n, call.recs = r :: rs ∧ r.offers = some n := by
  cases call <;> exact ⟨_, _, _, rfl, rfl⟩

theorem execRecs_again {r : Rec} {n : ℕ} (hr : r.offers = some n) (rs : List Rec) :
    execRecs w (r :: rs) [] = ⟨r :: rs, true, [], [(n, .fails .EAGAIN)]⟩ ∧
    overlapAt 0 (r :: rs) [] = false := by
  cases r with
  | finalize fin user => cases hr
  | iovec vec | sendfile infd off len =>
    obtain rfl := Option.some.inj hr
    refine ⟨rfl, ?_⟩
    simp [overlapAt, answer, Answer.accepted]

theorem execRecs_zero {r : Rec} (hr : r.offers = some 0) {rs : List Rec} {as : List Answer}
    (hlaw : ∀ c ∈ (execRecs w (r :: rs) as).calls, c.2.Lawful c.1) :
    (execRecs w (r :: rs) as).cont = false ∧ (execRecs w (r :: rs) as).log = [] := by
  have hzero : (0, answer as) ∈ (execRecs w (r :: rs) as).calls → answer as = .count 0 :=
    fun hmem => by simpa [Answer.Lawful] using hlaw _ hmem
  cases r with
  | finalize fin user => cases hr
  | iovec vec =>
    have h0 : vecLen vec = 0 := Option.some.inj hr
    have ha := hzero (by
      simp only [execRecs, h0]
      split_ifs
      · simp
      · split <;> simp [Progress.after])
    simp [execRecs, ha, Answer.accepted, Answer.retry]
  | sendfile infd off len =>
    have h0 : len.toNat = 0 := Option.some.inj hr
    have ha := hzero (by
      simp only [execRecs, h0]
      split_ifs <;> simp [Progress.after])
    simp [execRecs, ha, Answer.accepted, Answer.retry]

/-! ## When a request does no harm -/

section harmless

variable {ctx : Xfer} {rs : List Rec} {q : Request} {junk : Xfer.Junk} {as : List Answer}

theorem start_tidy (hx : ctx.Holds rs) (watching : ℤ) (hclean : ∀ r ∈ rs, r.isEmpty = false) :
    (Traffic.start ctx watching).Tidy w := by
  have hemp : ctx.empty = true ↔ rs = [] := by rw [Xfer.empty_iff, hx.empty_iff]
  refine .mk' hx hclean ?_ rfl ?_
  · show (!ctx.empty) = true ↔ rs ≠ []
    rw [Bool.not_eq_true', ← Bool.not_eq_true, hemp]
  · show [] ++ items w rs = items w ctx.recs
    rw [hx.recs_eq]
    rfl

theorem start_idle (watching : ℤ) (h : (q.work w mc ctx as junk).stage = .idle) :
    ((Traffic.start ctx watching).perform w mc (.request q as junk)).line =
      ⟨(q.work w mc ctx as junk).ctx, (q.work w mc ctx as junk).log, watching, !ctx.empty,
        (q.work w mc ctx as junk).shut⟩ :=
  (Line.settle_idle (.rest ctx watching) h).trans (by simp [Line.rest])

theorem start_addFd (watching : ℤ) (h : (q.work w mc ctx as junk).stage = .addFd) :
    ((Traffic.start ctx watching).perform w mc (.request q as junk)).line =
      ⟨(q.work w mc ctx as junk).ctx, (q.work w mc ctx as junk).log, watching + 1, true,
        (q.work w mc ctx as junk).shut⟩ :=
  (Line.settle_addFd (.rest ctx watching) h).trans (by simp [Line.rest])

theorem unseen_tidy (hx : ctx.Holds []) (watching : ℤ) (hq : q.shuts = false) (hnone : items w q.recs = [])
    (ha : (Traffic.start ctx watching).Admits w mc (.request q as junk)) :
    ((Traffic.start ctx watching).perform w mc (.request q as junk)).Tidy w := by
  obtain ⟨hsound, hok⟩ := ha.request q as junk rfl
  have hsub := q.submits w hx hsound ha.intact hok
  have hlaw : ∀ c ∈ (q.work w mc ctx as junk).calls, c.2.Lawful c.1 := ha.lawful
  rw [Request.calls_eq hx hsound, if_pos rfl] at hlaw
  obtain ⟨r, rs, hrecs, hr⟩ : ∃ r rs, q.recs = r :: rs ∧ r.offers = some 0 := by
    cases q with
    | write buf size | commit xf => cases hq
    | raw call stack =>
      obtain ⟨r, rs, n, hrecs, hr⟩ := call.recs_head
      refine ⟨r, rs, hrecs, ?_⟩
      have hlen : (r.items w).length = n := by
        cases r with
        | iovec vec => simpa [Rec.items, w.length_vec] using Option.some.inj hr
        | sendfile infd off len => simpa [Rec.items, length_rangeOf] using Option.some.inj hr
        | finalize fin user => cases hr
      change items w call.recs = [] at hnone
      rw [hrecs, items_cons] at hnone
      rw [hr, ← hlen, (List.append_eq_nil_iff.mp hnone).1]
      rfl
  rw [hrecs] at hlaw
  obtain ⟨hcont, hlog⟩ := execRecs_zero hr hlaw
  rw [← hrecs] at hcont hlog
  obtain ⟨hctx, hst, hsh⟩ := hsub.ended rfl hcont
  have hwlog := hsub.log rfl
  rw [hlog] at hwlog
  have hopen : (q.work w mc ctx as junk).shut = false := by
    rw [Bool.eq_false_iff]
    intro h
    rw [hq] at hsh
    cases (hsh.mp h).1
  have hemp : ctx.empty = true := Xfer.empty_iff.mpr (hx.empty_iff.mpr rfl)
  have hline := start_idle watching hst
  rw [hwlog, hopen] at hline
  have hctx' : ((Traffic.start ctx watching).perform w mc (.request q as junk)).line.ctx.Holds [] := by
    rw [hline]
    exact hctx
  refine .mk' hctx' (by simp) ?_ ?_ ?_
  · rw [hline, hemp]
    simp
  · rw [hline]
  · show _ = items w (ctx.recs ++ q.recs)
    rw [hline, hx.recs_eq]
    exact hnone.symm

theorem harm_event {watching : ℤ} {rs : List Rec}
    (ha : (Traffic.start ctx watching).Admits w mc (.request q as junk))
    (hx : ((Traffic.start ctx watching).perform w mc (.request q as junk)).line.ctx.Holds rs)
    (hreg : ((Traffic.start ctx watching).perform w mc (.request q as junk)).line.registered = true)
    (hempty : ∃ r ∈ rs, r.isEmpty = true) : ¬ Harmless w mc ctx watching q junk := by
  intro hharm
  obtain ⟨hadm, hshut⟩ := Traffic.event_shuts w mc hx hreg hempty
  have hfine := hharm as ha _ (.step (.init rfl) ⟨hadm, trivial⟩ rfl)
  rw [hfine.opened] at hshut
  cases hshut

theorem harm_behind (hx : ctx.Holds rs) (watching : ℤ) (hq : q.Sound)
    (hok : ∀ as, (q.work w mc ctx as junk).outcome = .ok) (hne : rs ≠ [])
    (hempty : ∃ r ∈ rs ++ q.recs, r.isEmpty = true) : ¬ Harmless w mc ctx watching q junk := by
  intro hharm
  have hemp : ctx.empty = false := by
    rw [Bool.eq_false_iff, ne_eq, Xfer.empty_iff, hx.empty_iff]
    exact hne
  have hsub := q.submits w hx hq (.inr (by rw [hemp, Bool.false_and])) (hok [])
  obtain ⟨-, hctx, hst, -⟩ := hsub.behind hne
  have ha : (Traffic.start ctx watching).Admits w mc (.request q [] junk) := by
    refine ⟨?_, .inr ?_, ?_⟩
    · intro c hc
      change c ∈ (q.work w mc ctx [] junk).calls at hc
      rw [Request.calls_eq hx hq, if_neg hne] at hc
      cases hc
    · show (ctx.empty && _) = false
      rw [hemp, Bool.false_and]
    · rintro _ _ _ ⟨⟩
      exact ⟨hq, hok []⟩
  have hline := start_idle watching hst
  exact harm_event ha (by rw [hline]; exact hctx) (by rw [hline, hemp]; rfl) hempty hharm

theorem harm_first (hx : ctx.Holds []) (watching : ℤ) (hq : q.Sound)
    (hok : ∀ as, (q.work w mc ctx as junk).outcome = .ok) (hempty : ∃ r ∈ q.recs, r.isEmpty = true)
    (hseen : ¬ (q.shuts = false ∧ items w q.recs = [])) : ¬ Harmless w mc ctx watching q junk := by
  intro hharm
  have hadmits {as : List Answer} (hlaw : ∀ c ∈ (execRecs w q.recs as).calls, c.2.Lawful c.1)
      (hov : overlapAt 0 q.recs as = false) :
      (Traffic.start ctx watching).Admits w mc (.request q as junk) := by
    refine ⟨?_, .inr ?_, ?_⟩
    · show ∀ c ∈ (q.work w mc ctx as junk).calls, c.2.Lawful c.1
      rwa [Request.calls_eq hx hq, if_pos rfl]
    · show (ctx.empty && _) = false
      rw [hov, Bool.and_false]
    · rintro _ _ _ ⟨⟩
      exact ⟨hq, hok as⟩
  have hsub {as : List Answer} (hov : overlapAt 0 q.recs as = false) :=
    q.submits w hx hq (.inr (by rw [hov, Bool.and_false])) (hok as)
  have hov := overlapAt_takeAll 0 q.recs
  obtain ⟨hcont, hne⟩ := execRecs_takeAll_ends w hempty
  have hfine := hharm _ (hadmits (execRecs_takeAll_lawful w q.recs) hov) _ (.init rfl)
  obtain ⟨hctx, hst, hsh⟩ := (hsub hov).ended rfl hcont
  have hline := start_idle watching hst
  cases hs : q.shuts with
  | true =>
    have hopen := hfine.opened
    rw [hline] at hopen
    change (q.work w mc ctx (takeAll q.recs) junk).shut = false at hopen
    rw [hsh.mpr ⟨hs, hne⟩] at hopen
    cases hopen
  | false =>
    obtain ⟨r, rest, n, hrecs, hr⟩ : ∃ r rest n, q.recs = r :: rest ∧ r.offers = some n := by
      cases q with
      | write buf size | commit xf => cases hs
      | raw call stack => exact call.recs_head
    by_cases hn : n = 0
    · -- the request is dropped, with all it asked for
      have hkept := hfine.kept
      rw [hline] at hkept
      change (q.work w mc ctx (takeAll q.recs) junk).log ++
        items w (q.work w mc ctx (takeAll q.recs) junk).ctx.recs =
        items w (withoutEmpty (ctx.recs ++ q.recs)) at hkept
      have hlaw := execRecs_takeAll_lawful w q.recs
      rw [hrecs] at hlaw
      obtain ⟨-, hlog⟩ := execRecs_zero (hn ▸ hr) hlaw
      rw [← hrecs] at hlog
      rw [(hsub hov).log rfl, hlog, hctx.recs_eq, items_withoutEmpty, hx.recs_eq] at hkept
      exact hseen ⟨hs, hkept.symm⟩
    · -- the kernel is not ready at first, and the request is queued
      obtain ⟨hagain, hov'⟩ := execRecs_again (w := w) hr rest
      rw [← hrecs] at hagain hov'
      have ha : (Traffic.start ctx watching).Admits w mc (.request q [] junk) := by
        refine hadmits ?_ hov'
        rw [hagain]
        intro c hc
        obtain rfl := List.mem_singleton.mp hc
        rw [Answer.Lawful, if_neg hn]
        exact .inl rfl
      obtain ⟨hctx', hst', -⟩ := (hsub hov').left rfl (by rw [hagain])
      rw [hagain] at hctx'
      have hline' := start_addFd watching hst'
      exact harm_event ha (by rw [hline']; exact hctx') (by rw [hline']) hempty hharm

/-- A request does no harm just when neither the queue nor the request has an empty record, or when it
asks for nothing at all and `commit_raw` finds the queue empty. -/
theorem harmless_iff (hx : ctx.Holds rs) (watching : ℤ) (hq : q.Sound)
    (hok : ∀ as, (q.work w mc ctx as junk).outcome = .ok) :
    Harmless w mc ctx watching q junk ↔
      (∀ r ∈ rs ++ q.recs, r.isEmpty = false) ∨ (rs = [] ∧ q.shuts = false ∧ items w q.recs = []) := by
  constructor
  · intro hharm
    by_contra hno
    rw [not_or] at hno
    obtain ⟨hsome, hseen⟩ := hno
    push Not at hsome
    obtain ⟨r, hmem, hr⟩ := hsome
    have hempty : ∃ r ∈ rs ++ q.recs, r.isEmpty = true := ⟨r, hmem, by simpa using hr⟩
    by_cases hnil : rs = []
    · subst hnil
      exact harm_first hx watching hq hok hempty (fun h => hseen ⟨rfl, h⟩) hharm
    · exact harm_behind hx watching hq hok hnil hempty hharm
  · rintro (hclean | ⟨rfl, hs, hnone⟩) as ha x hr
    · have hrs : ∀ r ∈ rs, r.isEmpty = false := fun r hr => hclean r (List.mem_append_left _ hr)
      have hnew : ∀ r ∈ q.recs, r.isEmpty = false := fun r hr => hclean r (List.mem_append_right _ hr)
      exact (((start_tidy hx watching hrs).request ha hnew).run hr).fine
    · exact ((unseen_tidy hx watching hs hnone ha).run hr).fine

end harmless

/-- A queue of four bytes. -/
def fourQueued : Xfer := (Xfer.new.pushWrite 16 4 (some fun _ => 0)).1

theorem holds_fourQueued : fourQueued.Holds [.iovec [⟨16, 4⟩]] :=
  Xfer.holds_new.pushWrite (Prod.ext rfl (by decide +kernel))

theorem outcome_behind {ctx : Xfer} (call : Call) (hne : ctx.empty = false)
    (hok : (ctx.pushXfraw (call.xfbuf fun _ => 0) (call.xfbuf fun _ => 0).length (some fun _ => 0)).2 = .ok)
    (as : List Answer) :
    (Request.work w mc ctx as (some fun _ => 0) (.raw call fun _ => 0)).outcome = .ok := by
  show (out.commitRaw w mc ctx (call.xfbuf fun _ => 0) as (some fun _ => 0)).outcome = .ok
  rw [out.commitRaw, if_neg (by rw [hne]; exact Bool.false_ne_true)]
  exact hok

/-- Three bytes behind four others, with an entry of no bytes in their vector: all seven are sent. -/
theorem harmless_iff_seven :
    Harmless addressWorld .descending fourQueued 1 (.raw (.writev [⟨8, 0⟩, ⟨32, 3⟩] 7 1) fun _ => 0)
      (some fun _ => 0) ∧
    ((((Traffic.start fourQueued 1).perform addressWorld .descending
      (.request (.raw (.writev [⟨8, 0⟩, ⟨32, 3⟩] 7 1) fun _ => 0) [] (some fun _ => 0))).perform
        addressWorld .descending (.event [.count 4, .count 3])).line.log =
      [.byte 16, .byte 17, .byte 18, .byte 19, .byte 32, .byte 33, .byte 34, .fin 7 1]) := by
  refine ⟨?_, by decide +kernel⟩
  refine (harmless_iff holds_fourQueued 1 ?_ ?_).mpr (.inl (by decide))
  · show ∀ r ∈ (Call.writev [⟨8, 0⟩, ⟨32, 3⟩] 7 1).recs, r.Small
    decide
  · exact outcome_behind _ (by decide +kernel) (by decide +kernel)

/-- `write` of no bytes shuts an idle descriptor down, and behind four bytes a `sendfile` of length 0
does so when it is reached. -/
theorem empty_harms :
    ¬ Harmless addressWorld .descending .new 0 (.write 16 0) (some fun _ => 0) ∧
    ¬ Harmless addressWorld .descending fourQueued 1 (.raw (.sendfile 3 0 0 7 1) fun _ => 0)
      (some fun _ => 0) := by
  constructor
  · intro hharm
    have ha : (Traffic.start .new 0).Admits addressWorld .descending
        (.request (.write 16 0) [.count 0] (some fun _ => 0)) := by
      refine ⟨by decide +kernel, .inr (by decide +kernel), ?_⟩
      rintro _ _ _ ⟨⟩
      exact ⟨trivial, by decide +kernel⟩
    have hopen := (hharm _ ha _ (.init rfl)).opened
    revert hopen
    decide +kernel
  · refine harm_behind holds_fourQueued 1 ?_ ?_ (List.cons_ne_nil _ _) (by decide)
    · show ∀ r ∈ (Call.sendfile 3 0 0 7 1).recs, r.Small
      decide
    · exact outcome_behind _ (by decide +kernel) (by decide +kernel)

end Mpio.Wavy
