import Xv6.Proc.Cpu

/-!
# The interrupt flag over a thread's nesting

`push_off` keeps the interrupt flag in `struct cpu`, although it is the thread
that wants it back; `sched` carries it from one CPU to another in a local
variable. The threads here are freer than those of `Xv6.Proc.Cpu`: a thread
takes any lock, other processes' `p->lock` included, and drops the locks its CPU
holds in any order. It gives up its CPU in `sched` only, holding `p->lock`
alone, and continues on any CPU whose scheduler holds that lock. `acquire`,
`release` and `sched` are those of `Xv6.Proc.Cpu`, and so is the state; `began`
is no part of it but what a reader of the run would write down.
-/

namespace Xv6

open Function (update)

namespace Cpus

/-- The machine, and what its threads have done. -/
structure Threads (C P L : Type) extends State C P L where
  /-- the interrupt flag when the thread's outermost `push_off` began; none if
      it is yet to do one -/
  began : P → Option Bool

/-- What a CPU does, for the thread it executes or in its scheduler. -/
inductive Act (C P L : Type) where
  | acquire (c : C) (k : Lk P L)
  | release (c : C) (k : Lk P L)
  /-- `intr_on` and `intr_off`, a trap and the return from it -/
  | intr (c : C) (on : Bool)
  | setState (p : P) (x : ProcState)
  | sched (c : C)
  /-- the scheduler's `swtch` to `p`, up to the end of `sched` -/
  | switch (c : C) (p : P)
  /-- `allocproc`: the slot has a new thread, to start at `forkret` -/
  | alloc (p : P)

variable {C P L : Type} [DecidableEq C] [DecidableEq P]

namespace Threads

/-- What is written down when CPU `c` calls `push_off`. -/
def note (s : Threads C P L) (c : C) : P → Option Bool :=
  match (s.cpu c).thread with
  | some p => if (s.cpu c).noff = 0 then update s.began p (some (s.cpu c).intr) else s.began
  | none => s.began

def step [DecidableEq L] (s : Threads C P L) : Act C P L → Outcome (Threads C P L)
  | .acquire c k => (s.toState.acquire c k).bind fun t => .next ⟨t, s.note c⟩
  | .release c k =>
    if s.lock k = some c then (s.toState.release c k).bind fun t => .next ⟨t, s.began⟩
    else .disabled
  | .intr c on =>
    if (s.cpu c).noff = 0 then .next ⟨s.setCpu c { s.cpu c with intr := on }, s.began⟩
    else .disabled
  | .setState p x => .next ⟨s.setState p x, s.began⟩
  | .sched c =>
    match (s.cpu c).thread with
    | some p =>
      if s.lock (.proc p) = some c ∧ (s.cpu c).noff = 1 then
        (s.toState.sched c p .yielded).bind fun t => .next ⟨t, s.began⟩
      else .disabled
    | none => .disabled
  | .switch c p =>
    match s.pc p with
    | .parked a =>
      if (s.cpu c).thread = none ∧ s.lock (.proc p) = some c then
        -- mycpu()->intena = intena, for a thread that called sched
        let intena := if a = .forkret then (s.cpu c).intena else s.intena p
        .next ⟨(s.setCpu c { s.cpu c with thread := some p, intena }).goto p (.kernel []), s.began⟩
      else .disabled
    | _ => .disabled
  | .alloc p =>
    match s.pc p with
    | .parked _ => .next ⟨s.goto p (.parked .forkret), update s.began p none⟩
    | _ => .disabled

/-- Every CPU is about to start its scheduler, no lock is held, and no process
    has run. -/
def Boots (s : Threads C P L) : Prop :=
  (∀ c, s.cpu c = Cpu.boot) ∧ (∀ k, s.lock k = none) ∧ ∀ p, s.pc p = .parked .forkret ∧
    s.began p = none

/-- `noff` counts the locks a CPU holds, and the flag of a thread inside is
    where it will be looked for: in its CPU, or on its stack while it is
    parked. -/
structure Inv (s : Threads C P L) : Prop where
  held : ∀ c, ∃ ks : List (Lk P L), ks.Nodup ∧ (∀ k, k ∈ ks ↔ s.lock k = some c) ∧
    (s.cpu c).noff = ks.length
  off : ∀ c, 0 < (s.cpu c).noff → (s.cpu c).intr = false
  inj : ∀ {c c' p}, (s.cpu c).thread = some p → (s.cpu c').thread = some p → c = c'
  away : ∀ {p a}, s.pc p = .parked a → ∀ c, (s.cpu c).thread ≠ some p
  carried : ∀ {c p b}, (s.cpu c).thread = some p → 0 < (s.cpu c).noff → s.began p = some b →
    (s.cpu c).intena = b
  kept : ∀ {p a b}, s.pc p = .parked a → s.began p = some b → a ≠ .forkret ∧ s.intena p = b

variable {s s' : Threads C P L}

omit [DecidableEq C] [DecidableEq P] in
theorem Inv.of_boots (h : s.Boots) : s.Inv := by
  obtain ⟨hcpu, hlock, hproc⟩ := h
  refine ⟨fun c => ⟨[], ?_⟩, ?_, ?_, ?_, ?_, ?_⟩ <;> simp [hcpu, hlock, hproc, Cpu.boot]

omit [DecidableEq C] in
theorem note_of_ne {c : C} {p : P} (h : (s.cpu c).thread ≠ some p) : s.note c p = s.began p := by
  unfold note
  cases ht : (s.cpu c).thread with
  | none => rfl
  | some q =>
    have hne : p ≠ q := fun e => h (e ▸ ht)
    split <;> simp [hne]

omit [DecidableEq C] in
theorem note_self {c : C} {p : P} (h : (s.cpu c).thread = some p) :
    s.note c p = if (s.cpu c).noff = 0 then some (s.cpu c).intr else s.began p := by
  simp only [note, h]
  split <;> simp

namespace Inv

section

variable (h : s.Inv) {c : C} {u : Cpu P} (hcpu : s'.cpu = update s.cpu c u)
  (hlock : ∀ c' k, c' ≠ c → (s'.lock k = some c' ↔ s.lock k = some c'))
  (hheld : ∃ ks : List (Lk P L), ks.Nodup ∧ (∀ k, k ∈ ks ↔ s'.lock k = some c) ∧
    u.noff = ks.length)
  (hoff : 0 < u.noff → u.intr = false)
  (hcarried : ∀ p b, u.thread = some p → 0 < u.noff → s'.began p = some b → u.intena = b)

include h hcpu hlock hheld hoff hcarried

omit [DecidableEq P] in
/-- A step of one CPU. -/
theorem of_cpu (hinj : ∀ c' p, c' ≠ c → (s.cpu c').thread = some p → u.thread ≠ some p)
    (haway : ∀ p a, s'.pc p = .parked a →
      u.thread ≠ some p ∧ ∀ c', c' ≠ c → (s.cpu c').thread ≠ some p)
    (hbegan : ∀ c' p, c' ≠ c → (s.cpu c').thread = some p → s'.began p = s.began p)
    (hkept : ∀ {p a b}, s'.pc p = .parked a → s'.began p = some b →
      a ≠ .forkret ∧ s'.intena p = b) : s'.Inv := by
  have hself : s'.cpu c = u := by simp [hcpu]
  have hne : ∀ {c'}, c' ≠ c → s'.cpu c' = s.cpu c' := fun hc => by simp [hcpu, hc]
  refine ⟨fun c' => ?_, fun c' => ?_, ?_, ?_, ?_, hkept⟩
  · by_cases hc : c' = c
    · rw [hc, hself]
      exact hheld
    · obtain ⟨ks, hnd, hks, hlen⟩ := h.held c'
      exact ⟨ks, hnd, fun k => (hks k).trans (hlock c' k hc).symm, by rw [hne hc, hlen]⟩
  · by_cases hc : c' = c
    · rw [hc, hself]
      exact hoff
    · rw [hne hc]
      exact h.off c'
  · intro c1 c2 p h1 h2
    by_cases hc1 : c1 = c <;> by_cases hc2 : c2 = c
    · rw [hc1, hc2]
    · rw [hc1, hself] at h1
      exact absurd h1 (hinj c2 p hc2 (hne hc2 ▸ h2))
    · rw [hc2, hself] at h2
      exact absurd h2 (hinj c1 p hc1 (hne hc1 ▸ h1))
    · exact h.inj (hne hc1 ▸ h1) (hne hc2 ▸ h2)
  · intro p a hp c'
    by_cases hc : c' = c
    · rw [hc, hself]
      exact (haway p a hp).1
    · rw [hne hc]
      exact (haway p a hp).2 c' hc
  · intro c' p b hp hpos hb
    by_cases hc : c' = c
    · rw [hc, hself] at hp hpos ⊢
      exact hcarried p b hp hpos hb
    · rw [hne hc] at hp hpos ⊢
      exact h.carried hp hpos (hbegan c' p hc hp ▸ hb)

omit [DecidableEq P] in
/-- The same where the CPU keeps its thread. -/
theorem of_thread (hthread : u.thread = (s.cpu c).thread) (hpc : s'.pc = s.pc)
    (hint : s'.intena = s.intena)
    (hbegan : ∀ p, (s.cpu c).thread ≠ some p → s'.began p = s.began p) : s'.Inv := by
  refine h.of_cpu hcpu hlock hheld hoff hcarried ?_ ?_ ?_ ?_
  · intro c' p hc hp hu
    exact hc (h.inj hp (hthread ▸ hu))
  · intro p a hp
    rw [hpc] at hp
    exact ⟨hthread ▸ h.away hp c, fun c' _ => h.away hp c'⟩
  · intro c' p hc hp
    exact hbegan p fun e => hc (h.inj hp e)
  · intro p a b hp hb
    rw [hpc] at hp
    exact hint ▸ h.kept hp (hbegan p (h.away hp c) ▸ hb)

end

theorem acquire [DecidableEq L] (h : s.Inv) {c : C} {k : Lk P L} (hfree : s.lock k = none) :
    Inv ⟨(s.setLock k (some c)).setCpu c (s.cpu c).pushOff, s.note c⟩ := by
  obtain ⟨ks, hnd, hks, hlen⟩ := h.held c
  have hk : k ∉ ks := by simp [hks, hfree]
  refine h.of_thread (u := (s.cpu c).pushOff) rfl ?_ ?_ ?_ ?_ rfl rfl rfl fun p => note_of_ne
  · intro c' k' hc
    by_cases hkk : k' = k <;> simp [hkk, hfree, Ne.symm hc]
  · refine ⟨k :: ks, List.nodup_cons.mpr ⟨hk, hnd⟩, fun k' => ?_, by simp [Cpu.pushOff, hlen]⟩
    by_cases hkk : k' = k <;> simp [hkk, hks]
  · exact fun _ => rfl
  · intro p b hp _ hb
    have hb := (note_self hp).symm.trans hb
    by_cases h0 : (s.cpu c).noff = 0
    · simpa [Cpu.pushOff, h0] using hb
    · have := h.carried hp (by omega) (by simpa [h0] using hb)
      simpa [Cpu.pushOff, h0] using this

omit [DecidableEq C] [DecidableEq P] in
/-- Neither check of `pop_off` fails. -/
theorem popOff (h : s.Inv) {c : C} {k : Lk P L} (hk : s.lock k = some c) :
    ∃ u, (s.cpu c).popOff = .next u ∧ u.thread = (s.cpu c).thread ∧
      u.intena = (s.cpu c).intena ∧ u.noff = (s.cpu c).noff - 1 ∧
      u.intr = (u.noff = 0 && u.intena) := by
  obtain ⟨ks, -, hks, hlen⟩ := h.held c
  have hpos := List.length_pos_of_mem ((hks k).mpr hk)
  have hintr := h.off c (by omega)
  rw [Cpu.popOff, if_neg (by simp [hintr]), if_neg (by omega)]
  exact ⟨_, rfl, rfl, rfl, rfl, rfl⟩

theorem release [DecidableEq L] (h : s.Inv) {c : C} {k : Lk P L} {u : Cpu P}
    (hk : s.lock k = some c) (hthread : u.thread = (s.cpu c).thread)
    (hintena : u.intena = (s.cpu c).intena) (hnoff : u.noff = (s.cpu c).noff - 1)
    (hintr : u.intr = (u.noff = 0 && u.intena)) :
    Inv ⟨(s.setLock k none).setCpu c u, s.began⟩ := by
  obtain ⟨ks, hnd, hks, hlen⟩ := h.held c
  have hmem := (hks k).mpr hk
  have hlenpos := List.length_pos_of_mem hmem
  refine h.of_thread rfl ?_ ?_ ?_ ?_ hthread rfl rfl fun _ _ => rfl
  · intro c' k' hc
    by_cases hkk : k' = k <;> simp [hkk, hk, Ne.symm hc]
  · refine ⟨ks.erase k, hnd.erase k, fun k' => ?_, ?_⟩
    · by_cases hkk : k' = k <;> simp [hkk, hks, hnd.mem_erase_iff]
    · rw [List.length_erase_of_mem hmem]
      omega
  · intro hpos
    simp [hintr, show u.noff ≠ 0 by omega]
  · intro p b hp hpos hb
    exact hintena.trans (h.carried (hthread ▸ hp) (by omega) hb)

theorem sched (h : s.Inv) {c : C} {p : P} (hp : (s.cpu c).thread = some p)
    (hn : (s.cpu c).noff = 1) :
    Inv ⟨({ s.toState with intena := update s.intena p (s.cpu c).intena }.setCpu c
      { s.cpu c with thread := none }).goto p (.parked .yielded), s.began⟩ := by
  refine h.of_cpu (u := { s.cpu c with thread := none }) rfl (fun _ _ _ => .rfl) (h.held c)
    (h.off c) (by simp) (by simp) ?_
    (fun _ _ _ _ => rfl) ?_ <;> simp only [State.goto_pc, State.setCpu_pc]
  · intro q a hq
    refine ⟨by simp, fun c' hc hc' => ?_⟩
    by_cases hqp : q = p
    · exact hc (h.inj hc' (hqp ▸ hp))
    · exact h.away (by simpa [hqp] using hq) c' hc'
  · intro q a b hq hb
    show a ≠ _ ∧ update s.intena p (s.cpu c).intena q = b
    by_cases hqp : q = p
    · subst hqp
      simp only [if_true, Pc.parked.injEq] at hq
      simp [← hq, h.carried hp (by omega) hb]
    · simpa [hqp] using h.kept (by simpa [hqp] using hq) hb

theorem switch (h : s.Inv) {c : C} {p : P} {a : After} (hp : s.pc p = .parked a) :
    Inv ⟨(s.setCpu c { s.cpu c with
      thread := some p
      intena := if a = .forkret then (s.cpu c).intena else s.intena p }).goto p (.kernel []),
      s.began⟩ := by
  have hparked : ∀ {q a}, (if q = p then Pc.kernel [] else s.pc q) = .parked a →
      q ≠ p ∧ s.pc q = .parked a := by
    intro q a hq
    by_cases hqp : q = p <;> simp_all
  refine h.of_cpu rfl (fun _ _ _ => .rfl) (h.held c) (h.off c) ?_ ?_ ?_
    (fun _ _ _ _ => rfl) ?_ <;> simp only [State.goto_pc, State.setCpu_pc]
  · rintro q b ⟨⟩ _ hb
    obtain ⟨hne, hb⟩ := h.kept hp hb
    exact (if_neg hne).trans hb
  · rintro c' q _ hq ⟨⟩
    exact h.away hp c' hq
  · intro q a hq
    obtain ⟨hqp, hq⟩ := hparked hq
    exact ⟨fun e => hqp (Option.some.inj e).symm, fun c' _ => h.away hq c'⟩
  · intro q a b hq hb
    exact h.kept (hparked hq).2 hb

omit [DecidableEq C] in
theorem alloc (h : s.Inv) {p : P} {a : After} (hp : s.pc p = .parked a) :
    Inv ⟨s.goto p (.parked .forkret), update s.began p none⟩ := by
  have hne : ∀ {q b}, update s.began p none q = some b → q ≠ p ∧ s.began q = some b := by
    intro q b hb
    by_cases hqp : q = p <;> simp_all
  refine ⟨h.held, h.off, h.inj, ?_, fun hq hpos hb => h.carried hq hpos (hne hb).2, ?_⟩ <;>
    simp only [State.goto_pc]
  · intro q a hq
    by_cases hqp : q = p
    · subst hqp
      exact h.away hp
    · exact h.away (by simpa [hqp] using hq)
  · intro q a b hq hb
    obtain ⟨hqp, hb⟩ := hne hb
    exact h.kept (by simpa [hqp] using hq) hb

end Inv

variable [DecidableEq L]

/-- What an event may do: it keeps the invariant; only `release` counts down,
    and it leaves the flag as the CPU has kept it; and it does not panic in
    `pop_off`. -/
def Allowed (s : Threads C P L) : Outcome (Threads C P L) → Prop
  | .next s' => s'.Inv ∧ ∀ c, (s.cpu c).noff ≤ (s'.cpu c).noff ∨
    s'.began = s.began ∧ (s'.cpu c).intr = ((s'.cpu c).noff = 0 && (s.cpu c).intena)
  | .panic m => m ≠ "pop_off - interruptible" ∧ m ≠ "pop_off"
  | .disabled => True

theorem Inv.step (h : s.Inv) (e : Act C P L) : s.Allowed (s.step e) := by
  cases e with
  | acquire c k =>
    simp only [Threads.step, State.acquire]
    split
    · simp [Allowed]
    split
    · rename_i hk
      refine ⟨h.acquire hk, fun c' => .inl ?_⟩
      by_cases hc : c' = c
      · simp only [hc, State.setCpu_cpu, if_true, Cpu.pushOff]
        omega
      · simp [hc]
    · trivial
  | release c k =>
    simp only [Threads.step, State.release]
    split
    · rename_i hk
      obtain ⟨u, hu, hthread, hintena, hnoff, hintr⟩ := h.popOff hk
      simp only [hu, Outcome.bind_next]
      refine ⟨h.release hk hthread hintena hnoff hintr, fun c' => ?_⟩
      by_cases hc : c' = c
      · exact .inr ⟨rfl, by simp [hc, hintr, hintena]⟩
      · simp [hc]
    · trivial
  | intr c on =>
    simp only [Threads.step]
    split
    · rename_i h0
      refine ⟨?_, fun c' => .inl ?_⟩
      · have hz : ¬ 0 < (s.cpu c).noff := by omega
        exact h.of_thread (u := { s.cpu c with intr := on }) rfl (fun _ _ _ => .rfl) (h.held c)
          (fun hpos => absurd hpos hz) (fun p b _ hpos => absurd hpos hz) rfl rfl rfl fun _ _ => rfl
      · by_cases hc : c' = c <;> simp [hc]
    · trivial
  | setState p x =>
    exact ⟨⟨h.held, h.off, h.inj, h.away, h.carried, h.kept⟩, fun c => .inl (Int.le_refl _)⟩
  | sched c =>
    simp only [Threads.step]
    split
    · rename_i p hp
      split
      · rename_i hlock
        rw [State.sched, if_neg (not_not.mpr hlock.1), if_neg (not_not.mpr hlock.2)]
        split
        · simp [Allowed]
        split
        · simp [Allowed]
        · refine ⟨h.sched hp hlock.2, fun c' => .inl ?_⟩
          by_cases hc : c' = c <;> simp [hc]
      · trivial
    · trivial
  | switch c p =>
    simp only [Threads.step]
    split
    · rename_i a hp
      split
      · refine ⟨h.switch hp, fun c' => .inl ?_⟩
        by_cases hc : c' = c <;> simp [hc]
      · trivial
    · trivial
  | alloc p =>
    simp only [Threads.step]
    split
    · rename_i a hp
      exact ⟨h.alloc hp, fun c => .inl (Int.le_refl _)⟩
    · trivial

theorem Inv.reachable (h : Reachable Threads.step Boots s) : s.Inv :=
  h.invariant (fun _ => of_boots) fun _ e _ hi hs => (hs ▸ hi.step e : Allowed _ (.next _)).1

/-- **The interrupt flag comes back.** On any number of CPUs, in every reachable
    state: interrupts are off on a CPU that is in a section, `pop_off` does not
    panic, and the step that takes a thread out of its outermost section leaves
    the flag as it was when the thread's outermost `push_off` began, on
    whichever CPU that was. -/
theorem nesting_restored (s : Threads C P L) (h : Reachable step Boots s) :
    (∀ c, 0 < (s.cpu c).noff → (s.cpu c).intr = false) ∧
    (∀ e, s.step e ≠ .panic "pop_off - interruptible" ∧ s.step e ≠ .panic "pop_off") ∧
    ∀ e s' c p b, s.step e = .next s' → (s.cpu c).thread = some p → 0 < (s.cpu c).noff →
      (s'.cpu c).noff = 0 → s'.began p = some b → (s'.cpu c).intr = b := by
  have hi := Inv.reachable h
  refine ⟨hi.off, fun e => ?_, fun e s' c p b hs hp hpos h0 hb => ?_⟩
  · have hstep := hi.step e
    constructor <;> intro hs <;> rw [hs] at hstep
    · exact hstep.1 rfl
    · exact hstep.2 rfl
  · have hstep := hi.step e
    rw [hs] at hstep
    obtain hle | ⟨hbegan, hintr⟩ := hstep.2 c
    · omega
    · simpa [hintr, h0] using hi.carried hp hpos (hbegan ▸ hb)

/-- Two CPUs, and one process that is yet to run. -/
def boots₁ : Threads Bool Unit Unit :=
  { cpu := fun _ => Cpu.boot
    lock := fun _ => none
    state := fun _ => .RUNNABLE
    pc := fun _ => .parked .forkret
    intena := fun _ => false
    schedPointer := .rr
    began := fun _ => none }

/-- The process turns interrupts on and yields; it continues on the other
    CPU. -/
def moves₁ : List (Act Bool Unit Unit) :=
  [.acquire false (.proc ()), .switch false (), .release false (.proc ()), .intr false true,
   .acquire false (.proc ()), .sched false, .release false (.proc ()), .acquire true (.proc ()),
   .switch true ()]

theorem nesting_restored_moved :
    ∃ s s', exec step boots₁ moves₁ = .next s ∧ s.step (.release true (.proc ())) = .next s' ∧
      (s.cpu true).thread = some () ∧ (s'.cpu true).noff = 0 ∧ (s'.cpu true).intr = true := by
  have hrun : (exec step boots₁ moves₁).check (fun s =>
      (s.step (.release true (.proc ()))).check (fun s' =>
        (s.cpu true).thread == some () && (s.cpu true).noff == 1 && (s'.cpu true).noff == 0 &&
          s'.began () == some true)) = true := by
    decide +kernel
  obtain ⟨s, hs, htest⟩ := Outcome.exists_of_check hrun
  obtain ⟨s', hs', htest⟩ := Outcome.exists_of_check htest
  simp only [Bool.and_eq_true, beq_iff_eq] at htest
  obtain ⟨⟨⟨hthread, hnoff⟩, h0⟩, hb⟩ := htest
  have hboots : Boots boots₁ := ⟨fun _ => rfl, fun _ => rfl, fun _ => ⟨rfl, rfl⟩⟩
  have hreach : Reachable step Boots s := (Reachable.init hboots).of_exec _ hs
  exact ⟨s, s', hs, hs', hthread, h0,
    (nesting_restored s hreach).2.2 _ s' true () true hs' hthread (by omega) h0 hb⟩

end Threads

end Cpus

end Xv6
