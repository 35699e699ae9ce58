import Mathlib.Algebra.Group.Nat.Defs
import Mathlib.Data.List.DropRight
import Xv6.Lib.Run

/-!
# `sleep` counts ticks

`sys_sleep` in `kernel/sysproc.c` and `clockintr` in `kernel/trap.c`, between
one caller of `sys_sleep(n)` and the clock. `ticks` is a 32-bit counter that
wraps, and what the loop compares with `n` is a difference of two of its values,
so the comparison is one of unsigned numbers. It is right as long as the caller
looks again before the difference wraps, for an `n` that is not negative; a
negative one is read as more than `2 ^ 31` ticks.
-/

namespace Xv6

open List BitVec

namespace Ticks

/-- Where the caller of `sys_sleep` is. -/
inductive Place where
  /-- at the test of the loop, holding `tickslock` -/
  | testing
  /-- SLEEPING on `&ticks` -/
  | asleep
  /-- woken up, about to acquire `tickslock` -/
  | woken
  | returned (r : Int)
  deriving DecidableEq

structure State where
  ticks : BitVec 32
  ticks0 : BitVec 32
  n : BitVec 32
  killed : Bool
  place : Place

inductive Event where
  /-- `clockintr` -/
  | tick
  /-- another `wakeup(&ticks)` -/
  | wakeup
  /-- `kill` of the caller -/
  | kill
  /-- the caller acquires `tickslock` at the end of `sleep` -/
  | relock
  /-- the caller tests the condition of the loop -/
  | check
  deriving DecidableEq

/-- `sys_sleep(n)` has acquired `tickslock` and read `ticks`. -/
def enter (n ticks : BitVec 32) : State := ⟨ticks, ticks, n, false, .testing⟩

/-- A SLEEPING caller is made RUNNABLE. -/
def Place.wake : Place → Place
  | asleep => woken
  | l => l

/-- `while (ticks - ticks0 < n)`: the difference is an `uint`, so `n` is
    converted to one. -/
def State.check (s : State) : State :=
  if (s.ticks - s.ticks0).ult s.n then
    if s.killed then { s with place := .returned (-1) } else { s with place := .asleep }
  else { s with place := .returned 0 }

def step (s : State) : Event → Outcome State
  | .tick =>
    if s.place = .testing then .disabled
    else .next { s with ticks := s.ticks + 1, place := s.place.wake }
  | .wakeup => .next { s with place := s.place.wake }
  | .kill => .next { s with killed := true, place := s.place.wake }
  | .relock => if s.place = .woken then .next { s with place := .testing } else .disabled
  | .check => if s.place = .testing then .next s.check else .disabled

/-- The ticks of a run. -/
def ticked (es : List Event) : Nat := es.count .tick

/-- The ticks since the last check. -/
def unchecked (es : List Event) : Nat := ticked (es.rtakeWhile (· ≠ .check))

/-- The caller looks again at least once every `2 ^ 31` ticks. -/
def Rechecks (es : List Event) : Prop := ∀ fs, fs <+: es → unchecked fs ≤ 2 ^ 31

/-- There has been a check at which at least `m` ticks had passed. -/
def Due (m : Int) (es : List Event) : Prop := ∃ fs, fs ++ [.check] <+: es ∧ m ≤ ticked fs

/-- In every run in which the caller is not killed, `sys_sleep(n)` returns 0 at
    the first check at which at least `max n 0` ticks have passed, and it has
    not returned before. -/
def WaitsRight (n : BitVec 32) : Prop :=
  ∀ t es s, Rechecks es → .kill ∉ es → exec step (enter n t) es = .next s →
    (Due (max n.toInt 0) es → s.place = .returned 0) ∧
    (¬ Due (max n.toInt 0) es → ∀ r, s.place ≠ .returned r)

variable {n t : BitVec 32} {es : List Event} {e : Event} {m : Int} {s s' : State}

theorem Due.snoc : Due m (es ++ [e]) ↔ Due m es ∨ e = .check ∧ m ≤ ticked es := by
  constructor
  · rintro ⟨fs, hfs, hm⟩
    rcases prefix_concat_iff.mp hfs with h | h
    · obtain ⟨rfl, hlast⟩ := append_inj' h rfl
      exact .inr ⟨(singleton_inj.mp hlast).symm, hm⟩
    · exact .inl ⟨fs, h, hm⟩
  · rintro (⟨fs, hfs, hm⟩ | ⟨rfl, hm⟩)
    · exact ⟨fs, hfs.trans (prefix_append ..), hm⟩
    · exact ⟨es, prefix_rfl, hm⟩

theorem Rechecks.init (h : Rechecks (es ++ [e])) : Rechecks es :=
  fun fs hfs => h fs (hfs.trans (prefix_append ..))

theorem rechecks_check : Rechecks [.check] := by
  intro fs hfs
  rcases prefix_concat_iff.mp (show fs <+: [] ++ [Event.check] from hfs) with rfl | hfs
  · decide
  · rw [prefix_nil.mp hfs]
    decide

/-- What is known after the events `es`: the counter has moved by the ticks, and
    the caller has returned if it had to; if it has not, what it has missed
    since its last check is all that can have brought the count over `n`. -/
structure Counted (n t : BitVec 32) (es : List Event) (s : State) : Prop where
  arg : s.n = n
  ticks0 : s.ticks0 = t
  ticks : s.ticks = t + BitVec.ofNat 32 (ticked es)
  killed : s.killed = false
  due : Due n.toNat es → s.place = .returned 0
  waits : ¬ Due n.toNat es → (∀ r, s.place ≠ .returned r) ∧ ticked es ≤ unchecked es + n.toNat

theorem Place.wake_returned {l : Place} (r : Int) : l.wake = .returned r ↔ l = .returned r := by
  cases l <;> simp [Place.wake]

/-- **The test is right** as long as the difference has not wrapped. -/
theorem Counted.check (hn : n.toNat < 2 ^ 31) (h : Counted n t es s) (hgap : unchecked es ≤ 2 ^ 31)
    (hp : s.place = .testing) : Counted n t (es ++ [.check]) s.check := by
  have hdue : ¬ Due n.toNat es := fun hd => by rw [h.due hd] at hp; cases hp
  have hle := (h.waits hdue).2
  have hdiff : s.ticks - s.ticks0 = BitVec.ofNat 32 (ticked es) := by
    rw [h.ticks, h.ticks0, BitVec.add_comm, BitVec.add_sub_cancel]
  have htest : (s.ticks - s.ticks0).ult s.n = true ↔ ticked es < n.toNat := by
    rw [hdiff, h.arg, ult_iff_lt, lt_def, toNat_ofNat, Nat.mod_eq_of_lt]
    omega
  have hcount : ticked (es ++ [.check]) = ticked es := by simp [ticked]
  have hgap' : unchecked (es ++ [.check]) = 0 := by
    simp [unchecked, ticked]
  unfold State.check
  by_cases hlt : ticked es < n.toNat
  · rw [if_pos (htest.mpr hlt), if_neg (by simp [h.killed])]
    have hnot : ¬ Due n.toNat (es ++ [.check]) := by
      rw [Due.snoc]
      rintro (hd | ⟨_, hm⟩)
      · exact hdue hd
      · omega
    exact ⟨h.arg, h.ticks0, by rw [hcount]; exact h.ticks, h.killed, fun hd => absurd hd hnot,
      fun _ => ⟨fun _ => nofun, by omega⟩⟩
  · rw [if_neg fun hc => hlt (htest.mp hc)]
    have hd : Due n.toNat (es ++ [.check]) := Due.snoc.mpr (.inr ⟨rfl, by omega⟩)
    exact ⟨h.arg, h.ticks0, by rw [hcount]; exact h.ticks, h.killed, fun _ => rfl,
      fun hnot => absurd hd hnot⟩

theorem Counted.other (h : Counted n t es s) (he : e ≠ .check) (hn : s'.n = s.n)
    (hticks0 : s'.ticks0 = s.ticks0) (hkilled : s'.killed = s.killed)
    (hticks : s'.ticks = s.ticks + BitVec.ofNat 32 (ticked [e]))
    (hplace : ∀ r, s'.place = .returned r ↔ s.place = .returned r) :
    Counted n t (es ++ [e]) s' := by
  have hcount : ticked (es ++ [e]) = ticked es + ticked [e] := count_append
  have hgap : unchecked (es ++ [e]) = unchecked es + ticked [e] := by
    rw [unchecked, rtakeWhile_concat_pos _ _ _ (by simpa using he)]
    exact count_append
  have hdue : Due n.toNat (es ++ [e]) ↔ Due n.toNat es := by simp [Due.snoc, he]
  refine ⟨hn.trans h.arg, hticks0.trans h.ticks0, ?_, hkilled.trans h.killed, ?_, ?_⟩
  · rw [hticks, h.ticks, hcount, ofNat_add, BitVec.add_assoc]
  · rw [hdue, hplace]
    exact h.due
  · rw [hdue, hcount, hgap]
    intro hd
    obtain ⟨hret, hle⟩ := h.waits hd
    exact ⟨fun r hr => hret r ((hplace r).mp hr), by omega⟩

theorem Counted.step (hn : n.toNat < 2 ^ 31) (h : Counted n t es s)
    (hr : Rechecks (es ++ [e])) (hk : e ≠ .kill) (hs : step s e = .next s') :
    Counted n t (es ++ [e]) s' := by
  cases e with
  | kill => exact absurd rfl hk
  | tick =>
    obtain ⟨_, hs⟩ := Outcome.guard_eq_next (c := ¬ s.place = .testing)
      (by simpa [Ticks.step] using hs)
    cases hs
    exact h.other nofun rfl rfl rfl rfl fun r => Place.wake_returned r
  | wakeup =>
    cases hs
    exact h.other nofun rfl rfl rfl (BitVec.add_zero _).symm fun r => Place.wake_returned r
  | relock =>
    obtain ⟨hp, hs⟩ := Outcome.guard_eq_next hs
    cases hs
    exact h.other nofun rfl rfl rfl (BitVec.add_zero _).symm fun r => by simp [hp]
  | check =>
    obtain ⟨hp, hs⟩ := Outcome.guard_eq_next hs
    cases hs
    exact h.check hn (hr es (prefix_append ..)) hp

/-- **When `sleep` waits the right number of ticks**: exactly if `n` is not
    negative. -/
theorem sleep_waits_iff (n : BitVec 32) : WaitsRight n ↔ 0 ≤ n.toInt := by
  constructor
  · -- a negative `n` is not waited for at the first check, where no tick is needed
    intro h
    by_contra hneg
    have hpos : 0 < n.toNat := by
      rcases Nat.eq_zero_or_pos n.toNat with h0 | h0
      · rw [BitVec.eq_of_toNat_eq (y := 0) h0] at hneg
        exact absurd (by decide) hneg
      · exact h0
    have hcheck : (enter n 0).check = { enter n 0 with place := .asleep } := by
      unfold State.check enter
      rw [if_pos (by simpa [BitVec.ult_iff_lt, BitVec.lt_def] using hpos)]
      rfl
    have hrun : exec step (enter n 0) [.check] = .next { enter n 0 with place := .asleep } := by
      rw [← hcheck]
      rfl
    have hret := (h 0 [.check] _ rechecks_check (by simp) hrun).1
      ⟨[], prefix_rfl, by simp [ticked]; omega⟩
    cases hret
  · intro hnn t es s hr hk hrun
    have hn : n.toNat < 2 ^ 31 := by
      by_contra hbig
      rw [BitVec.toInt_eq_toNat_cond] at hnn
      have := n.isLt
      split at hnn <;> omega
    have hmax : max n.toInt 0 = n.toNat := by
      rw [BitVec.toInt_eq_toNat_of_lt (by omega)]
      exact Int.max_eq_left (Int.natCast_nonneg _)
    have h := exec_history (fun es s => Rechecks es → .kill ∉ es → Counted n t es s)
      (fun _ _ => ⟨rfl, rfl, by simp [enter, ticked], rfl, fun hd => ?_, fun _ =>
        ⟨by simp [enter], ?_⟩⟩)
      (fun es s e s' ih hs hr hk => (ih hr.init (by simp_all)).step hn hr
        (by rintro rfl; simp at hk) hs) hrun hr hk
    · rw [hmax]
      exact ⟨h.due, fun hd => (h.waits hd).1⟩
    · obtain ⟨fs, hfs, _⟩ := hd
      simp at hfs
    · exact Nat.zero_le _

/-- `sleep(-1)`: at the first check, with no tick to wait for, the caller goes
    to sleep. -/
theorem sleep_negative : Rechecks [.check] ∧ Due (max ((-1 : BitVec 32).toInt) 0) [.check] ∧
    ∃ s, exec step (enter (-1) 0) [.check] = .next s ∧ s.place = .asleep :=
  ⟨rechecks_check, ⟨[], prefix_rfl, by decide⟩, _, rfl, by decide⟩

end Ticks

end Xv6
