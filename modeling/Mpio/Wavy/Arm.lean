import Mpio.Wavy.Kqueue
import Mpio.Wavy.Timer

/-!
# Arming a timer

How the epoll and the kqueue kernel arm the timer that `loop::add_timer` asks for. With epoll the kernel
keeps an `itimerspec`: a timer whose `it_value` is zero is disarmed, and after the first expiry it goes
on by `it_interval` unless that is zero. With kqueue a one-shot filter fires `data` milliseconds after it
is added, and `reactivate` adds it again with its `udata`. A timer handler that is not periodic is not
reactivated.
-/

namespace Mpio.Wavy.Arm

open Connect Timer Kqueue

/-- A time in nanoseconds. -/
def nsec (t : Timespec) : ℕ := t.tvSec * 10 ^ 9 + t.tvNsec

/-- `m_periodic` of `timer_handler`. -/
def periodic : Option Timespec → Bool
  | some interval => interval.tvSec != 0 || interval.tvNsec != 0
  | none => false

/-- What `loop::add_timer` passes down: an interval is longer than nothing, and one of the two is there. -/
def Passed (value interval : Option Timespec) : Prop :=
  (∀ t, interval = some t → nsec t ≠ 0) ∧ (value.isSome ∨ interval.isSome)

/-! ## The two kernels -/

/-- The time to the first expiry of a timerfd, and from one expiry to the next; `none` is never. -/
def epoll.delay (value interval : Option Timespec) : ℕ → Option ℕ
  | 0 =>
    let itimer := itimerspec value interval
    if nsec itimer.itValue = 0 then none else some (nsec itimer.itValue)
  | _ + 1 =>
    let itimer := itimerspec value interval
    if nsec itimer.itValue = 0 ∨ nsec itimer.itInterval = 0 then none else some (nsec itimer.itInterval)

/-- The time to the expiry after so many reactivations, in nanoseconds; `none` is an overflow. -/
def kqueue.delay (value interval : Option Timespec) (n : ℕ) : Option ℕ :=
  (timerData value interval).map fun d => (Knote.rearmed^[n] ⟨d.1, d.2, 0⟩).data * 10 ^ 6

/-- The times that are asked for. -/
def wanted (value interval : Option Timespec) : ℕ → Option Timespec
  | 0 => value <|> interval
  | _ + 1 => interval

/-- Both kernels arm the timer for the times that are asked for, the first and, if it is periodic, all
others: epoll exactly, kqueue less than a millisecond early. -/
def Alike (value interval : Option Timespec) : Prop :=
  ∀ n, n = 0 ∨ periodic interval → ∃ t early, wanted value interval n = some t ∧
    epoll.delay value interval n = some (nsec t) ∧
    kqueue.delay value interval n = some (nsec t - early) ∧ early ≤ nsec t ∧ early < 10 ^ 6

/-- A time in whole milliseconds. -/
def millis (t : Timespec) : ℕ := t.tvSec * 1000 + t.tvNsec / 10 ^ 6

/-- A time whose milliseconds fit in a `time_t`. -/
def Fits (t : Timespec) : Prop := millis t < 2 ^ 63

section

variable {value interval : Option Timespec} {t : Timespec}

theorem msec_eq_some_iff {ms : ℕ} : msec t = some ms ↔ Fits t ∧ millis t = ms := by
  have hdiv : t.tvNsec / 1000 / 1000 = t.tvNsec / 10 ^ 6 := by omega
  rw [msec, hdiv]
  constructor
  · intro h
    split_ifs at h with hfits
    exact ⟨hfits.2, Option.some.inj h⟩
  · rintro ⟨hfits, rfl⟩
    exact if_pos ⟨lt_of_le_of_lt (Nat.le_add_right ..) hfits, hfits⟩

theorem fits_of_lt (h : t.tvSec < 2 ^ 31) : Fits t := by
  have hnsec := t.nsec_lt
  unfold Fits millis
  omega

theorem millis_nsec (t : Timespec) :
    ∃ early, millis t * 10 ^ 6 = nsec t - early ∧ early ≤ nsec t ∧ early < 10 ^ 6 := by
  refine ⟨t.tvNsec % 10 ^ 6, ?_, ?_, Nat.mod_lt _ (by decide)⟩
  · unfold nsec millis
    omega
  · unfold nsec
    have hmod := Nat.mod_le t.tvNsec (10 ^ 6)
    omega

theorem periodic_iff : periodic interval = true ↔ ∃ t, interval = some t ∧ nsec t ≠ 0 := by
  cases interval with
  | none => simp [periodic]
  | some t =>
    simp only [periodic, nsec, Bool.or_eq_true, bne_iff_ne, Option.some.injEq, exists_eq_left']
    omega

theorem iterate_rearmed (note : Knote) (n : ℕ) : Knote.rearmed^[n + 1] note = note.rearmed := by
  induction n with
  | zero => rfl
  | succ n ih =>
    rw [Function.iterate_succ_apply', ih]
    rfl

theorem delay_zero {data udata : ℕ} (h : timerData value interval = some (data, udata)) :
    kqueue.delay value interval 0 = some (data * 10 ^ 6) := by
  rw [kqueue.delay, h]
  rfl

theorem delay_succ {data udata : ℕ} (h : timerData value interval = some (data, udata)) (n : ℕ) :
    kqueue.delay value interval (n + 1) = some (udata * 10 ^ 6) := by
  rw [kqueue.delay, h, Option.map_some, iterate_rearmed]
  rfl

theorem timerData_eq (h : ∀ t, value = some t ∨ interval = some t → Fits t) :
    timerData value interval = some (value.elim (interval.elim 0 millis) millis, interval.elim 0 millis) := by
  have hmsec (t : Timespec) (ht : value = some t ∨ interval = some t) : msec t = some (millis t) :=
    msec_eq_some_iff.mpr ⟨h t ht, rfl⟩
  have hudata : interval.elim (some 0) msec = some (interval.elim 0 millis) := by
    cases interval with
    | none => rfl
    | some i => exact hmsec i (.inr rfl)
  have hdata (udata : ℕ) : value.elim (some udata) msec = some (value.elim udata millis) := by
    cases value with
    | none => rfl
    | some v => exact hmsec v (.inl rfl)
  simp [timerData, hudata, hdata]

/-- A product or a sum that overflows leaves nothing to arm. -/
theorem fits_of_timerData {d : ℕ × ℕ} (h : timerData value interval = some d)
    (ht : value = some t ∨ interval = some t) : Fits t := by
  obtain ⟨udata, hudata, h⟩ := Option.bind_eq_some_iff.mp h
  obtain ⟨data, hdata, -⟩ := Option.bind_eq_some_iff.mp h
  obtain rfl | rfl := ht
  · exact (msec_eq_some_iff.mp hdata).1
  · exact (msec_eq_some_iff.mp hudata).1

theorem alike_first (h : Passed value interval) (hvalue : ∀ t, value = some t → nsec t ≠ 0)
    (hfits : ∀ t, value = some t ∨ interval = some t → Fits t) :
    ∃ t early, wanted value interval 0 = some t ∧ epoll.delay value interval 0 = some (nsec t) ∧
      kqueue.delay value interval 0 = some (nsec t - early) ∧ early ≤ nsec t ∧ early < 10 ^ 6 := by
  have hkqueue := delay_zero (timerData_eq hfits)
  cases value with
  | some v =>
    obtain ⟨early, heq, hle, hlt⟩ := millis_nsec v
    exact ⟨v, early, rfl, if_neg (hvalue v rfl), hkqueue.trans (congrArg some heq), hle, hlt⟩
  | none =>
    obtain ⟨i, rfl⟩ := Option.isSome_iff_exists.mp (h.2.resolve_left Bool.false_ne_true)
    obtain ⟨early, heq, hle, hlt⟩ := millis_nsec i
    exact ⟨i, early, rfl, if_neg (h.1 i rfl), hkqueue.trans (congrArg some heq), hle, hlt⟩

theorem alike_next (hvalue : ∀ t, value = some t → nsec t ≠ 0)
    (hfits : ∀ t, value = some t ∨ interval = some t → Fits t) (hperiodic : periodic interval = true)
    (n : ℕ) : ∃ t early, wanted value interval (n + 1) = some t ∧
      epoll.delay value interval (n + 1) = some (nsec t) ∧
      kqueue.delay value interval (n + 1) = some (nsec t - early) ∧ early ≤ nsec t ∧ early < 10 ^ 6 := by
  have hkqueue := delay_succ (timerData_eq hfits) n
  obtain ⟨i, rfl, hi⟩ := periodic_iff.mp hperiodic
  obtain ⟨early, heq, hle, hlt⟩ := millis_nsec i
  refine ⟨i, early, rfl, if_neg (not_or.mpr ⟨?_, hi⟩), hkqueue.trans (congrArg some heq), hle, hlt⟩
  cases value with
  | some v => exact hvalue v rfl
  | none => exact hi

end

/-- For every pair of times that `loop::add_timer` passes down, the two kernels arm the timer alike exactly
when the value, if there is one, is not zero and the milliseconds of every time fit; those of times
below `2 ^ 31` seconds always do. -/
theorem arm_alike_iff {value interval : Option Timespec} (h : Passed value interval) :
    (Alike value interval ↔ (∀ t, value = some t → nsec t ≠ 0) ∧
      ∀ t, value = some t ∨ interval = some t → Fits t) ∧
    ∀ t : Timespec, t.tvSec < 2 ^ 31 → (msec t).isSome := by
  refine ⟨⟨fun halike => ?_, fun ⟨hvalue, hfits⟩ n hn => ?_⟩, fun t ht => ?_⟩
  · obtain ⟨t, early, -, hepoll, hkqueue, -⟩ := halike 0 (.inl rfl)
    refine ⟨fun v hv hzero => ?_, fun v hv => ?_⟩
    · subst hv
      simp [epoll.delay, itimerspec, hzero] at hepoll
    · obtain ⟨d, hd, -⟩ := Option.map_eq_some_iff.mp hkqueue
      exact fits_of_timerData hd hv
  · cases n with
    | zero => exact alike_first h hvalue hfits
    | succ n => exact alike_next hvalue hfits (hn.resolve_left (Nat.succ_ne_zero n)) n
  · rw [msec_eq_some_iff.mpr ⟨fits_of_lt ht, rfl⟩]
    rfl

/-- A value of one second, and again after each second. -/
theorem arm_alike_iff_second : Passed (some .second) (some .second) ∧ Alike (some .second) (some .second) := by
  have hpassed : Passed (some .second) (some .second) := ⟨by simp [Timespec.second, nsec], by simp⟩
  refine ⟨hpassed, (arm_alike_iff hpassed).1.mpr ⟨by simp [Timespec.second, nsec], fun t ht => ?_⟩⟩
  obtain rfl : Timespec.second = t := by simpa using ht
  exact fits_of_lt (by decide)

/-- A value of zero: epoll does not arm the timer. -/
theorem arm_not_alike : ¬ ∀ value interval, Passed value interval → Alike value interval := by
  intro hall
  obtain ⟨t, early, -, hepoll, -⟩ := hall (some .zero) none ⟨by simp, by simp⟩ 0 (.inl rfl)
  simp [epoll.delay, itimerspec, Timespec.zero, nsec] at hepoll

end Mpio.Wavy.Arm
