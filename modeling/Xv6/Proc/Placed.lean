import Mathlib.Data.List.Perm.Basic
import Xv6.Proc.Cpu

/-!
# What each CPU holds and where each process is

Every lock a CPU holds is held for a reason that can be read off where its
thread and its visit are (`held`). From that reading follow what `noff`, the
interrupt bit and the lock words are, and so that no check of `acquire`,
`release`, `pop_off` or `sched` fails. The handover of `p->lock` through `swtch`
shows in `held` too: the lock of a process that is switched to is first the
scheduler's, at `test`, and then the process's, at `parked`.
-/

namespace Xv6

open List

namespace Cpus

variable {C P L : Type}

/-- The locks the thread of `t` holds. -/
def Pc.held (t : P) : Pc L → List (Lk P L)
  | .kernel ls => ls.map .other
  | .yielding | .dozing | .sched _ | .parked _ => [.proc t]
  | .sleeping l | .exiting l | .exited l => [.proc t, .other l]

/-- The locks a scheduler holds. -/
def SchedPc.held : SchedPc P → List (Lk P L)
  | .start | .loop | .scan _ => []
  | .test p _ | .away p _ | .unlock p _ => [.proc p]

/-- The state of a process whose thread a CPU executes. -/
def Pc.Fits : Pc L → ProcState → Prop
  | .kernel _, x | .yielding, x | .sleeping _, x | .dozing, x | .exiting _, x => x = .RUNNING
  | .exited _, x => x = .ZOMBIE
  | .sched k, x => x ≠ .RUNNING ∧ (k = .gone → x = .ZOMBIE)
  | .parked k, x => x = .RUNNING ∧ k ≠ .gone

namespace State

/-- The locks of the thread a CPU executes. -/
def own (s : State C P L) (c : C) : List (Lk P L) :=
  match (s.cpu c).thread with
  | some t => (s.pc t).held t
  | none => (s.cpu c).spc.held

/-- The locks a CPU holds. -/
def held (s : State C P L) (c : C) : List (Lk P L) :=
  (s.cpu c).visit.toList.map .proc ++ s.own c

/-- The lock words, `noff` and the interrupt bit agree with the locks held. -/
structure Locks (s : State C P L) : Prop where
  owner : ∀ k c, s.lock k = some c ↔ k ∈ s.held c
  nodup : ∀ c, (s.held c).Nodup
  noff : ∀ c, (s.cpu c).noff = (s.held c).length
  intr : ∀ c, s.held c ≠ [] → (s.cpu c).intr = false

/-- Which process is where. -/
structure Placed (s : State C P L) : Prop where
  visit : ∀ c, (s.cpu c).visit ≠ none → s.mayVisit c = true
  thread : ∀ c t, (s.cpu c).thread = some t →
    (s.cpu c).proc = some t ∧ (∃ rest, (s.cpu c).spc = .away t rest) ∧ (s.pc t).Fits (s.state t)
  idle : ∀ c p, (s.cpu c).thread = none → (s.cpu c).proc = some p →
    ∃ rest, (s.cpu c).spc = .away p rest
  inj : ∀ c c' p, (s.cpu c).proc = some p → (s.cpu c').proc = some p → c = c'
  running : ∀ p, s.state p = .RUNNING → ∃ c, (s.cpu c).thread = some p
  parked : ∀ p, (∀ c, (s.cpu c).thread ≠ some p) →
    ∃ k, s.pc p = .parked k ∧ (k = .gone → s.state p = .ZOMBIE ∨ s.state p = .UNUSED)

structure Inv (s : State C P L) : Prop where
  locks : s.Locks
  placed : s.Placed

/-! ## What the steps of one CPU leave alone -/

/-- Nothing of the other CPUs changes. -/
structure Apart (s s' : State C P L) (c : C) : Prop where
  cpu : ∀ c', c' ≠ c → s'.cpu c' = s.cpu c'
  pc : ∀ c' t, c' ≠ c → (s.cpu c').thread = some t → s'.pc t = s.pc t

variable {s s' : State C P L} {c c' : C} {k : Lk P L} {p q t : P}

theorem Apart.held (h : Apart s s' c) (hc : c' ≠ c) : s'.held c' = s.held c' := by
  unfold State.held State.own
  rw [h.cpu c' hc]
  cases ht : (s.cpu c').thread with
  | none => rfl
  | some t => simp only [h.pc c' t hc ht]

theorem Apart.mayVisit (h : Apart s s' c) (hc : c' ≠ c) : s'.mayVisit c' = s.mayVisit c' := by
  unfold State.mayVisit
  rw [h.cpu c' hc]
  cases ht : (s.cpu c').thread with
  | none => rfl
  | some t => simp only [h.pc c' t hc ht]

theorem Placed.thread_inj (h : s.Placed) (ht : (s.cpu c).thread = some t)
    (ht' : (s.cpu c').thread = some t) : c' = c :=
  h.inj c' c t (h.thread c' t ht').1 (h.thread c t ht).1

/-- A step of the thread of `t` changes at most where `t` is. -/
theorem Placed.apart (h : s.Placed) (ht : (s.cpu c).thread = some t)
    (hcpu : ∀ c', c' ≠ c → s'.cpu c' = s.cpu c') (hpc : ∀ q, q ≠ t → s'.pc q = s.pc q) :
    Apart s s' c := by
  refine ⟨hcpu, ?_⟩
  intro c' t' hc ht'
  apply hpc
  intro heq
  subst heq
  exact hc (h.thread_inj ht ht')

theorem apart_of_pc (hcpu : ∀ c', c' ≠ c → s'.cpu c' = s.cpu c') (hpc : s'.pc = s.pc) :
    Apart s s' c :=
  ⟨hcpu, fun _ t _ _ => by rw [hpc]⟩

/-! ## Locks taken and dropped -/

theorem Locks.change (h : s.Locks) (ha : Apart s s' c)
    (hothers : ∀ k c', c' ≠ c → (s'.lock k = some c' ↔ s.lock k = some c'))
    (howner : ∀ k, s'.lock k = some c ↔ k ∈ s'.held c) (hnodup : (s'.held c).Nodup)
    (hnoff : (s'.cpu c).noff = (s'.held c).length)
    (hintr : s'.held c ≠ [] → (s'.cpu c).intr = false) : s'.Locks := by
  refine ⟨fun k c' => ?_, fun c' => ?_, fun c' => ?_, fun c' => ?_⟩ <;> by_cases hc : c' = c
  · exact hc ▸ howner k
  · rw [ha.held hc, hothers k c' hc]
    exact h.owner k c'
  · exact hc ▸ hnodup
  · rw [ha.held hc]
    exact h.nodup c'
  · exact hc ▸ hnoff
  · rw [ha.held hc, ha.cpu c' hc]
    exact h.noff c'
  · exact hc ▸ hintr
  · rw [ha.held hc, ha.cpu c' hc]
    exact h.intr c'

/-- A step that takes and drops no lock. -/
theorem Locks.kept (h : s.Locks) (ha : Apart s s' c) (hlock : s'.lock = s.lock)
    (hnoff : (s'.cpu c).noff = (s.cpu c).noff)
    (hintr : s.held c ≠ [] → (s'.cpu c).intr = (s.cpu c).intr)
    (hheld : s'.held c = s.held c) : s'.Locks := by
  refine h.change ha (fun k c' _ => by rw [hlock]) ?_ ?_ ?_ ?_ <;> rw [hheld]
  · rw [hlock]
    exact fun k => h.owner k c
  · exact h.nodup c
  · rw [hnoff]
    exact h.noff c
  · exact fun hne => (hintr hne).trans (h.intr c hne)

section

variable [DecidableEq P] [DecidableEq L]

theorem Locks.taken (h : s.Locks) (hk : s.lock k = none) (ha : Apart s s' c)
    (hlock : ∀ k', s'.lock k' = if k' = k then some c else s.lock k')
    (hnoff : (s'.cpu c).noff = (s.cpu c).noff + 1) (hintr : (s'.cpu c).intr = false)
    (hheld : (s'.held c).Perm (k :: s.held c)) : s'.Locks := by
  have hfree : k ∉ s.held c := by simp [← h.owner, hk]
  refine h.change ha (fun k' c' hc => ?_) (fun k' => ?_) ?_ ?_ fun _ => hintr
  · by_cases hk' : k' = k <;> simp [hlock, hk', hk, Ne.symm hc]
  · rw [hheld.mem_iff]
    by_cases hk' : k' = k <;> simp [hlock, hk', h.owner]
  · exact hheld.nodup_iff.mpr (nodup_cons.mpr ⟨hfree, h.nodup c⟩)
  · rw [hnoff, h.noff, hheld.length_eq]
    simp

theorem Locks.dropped (h : s.Locks) (ha : Apart s s' c)
    (hlock : ∀ k', s'.lock k' = if k' = k then none else s.lock k')
    (hnoff : (s'.cpu c).noff = (s.cpu c).noff - 1)
    (hintr : (s'.cpu c).intr = true → (s.cpu c).noff - 1 = 0)
    (hheld : (s.held c).Perm (k :: s'.held c)) : s'.Locks := by
  obtain ⟨hout, hnodup⟩ := nodup_cons.mp (hheld.nodup_iff.mp (h.nodup c))
  have hmine : s.lock k = some c := (h.owner k c).mpr (hheld.mem_iff.mpr (by simp))
  have hlen : (s'.cpu c).noff = (s'.held c).length := by
    rw [hnoff, h.noff, hheld.length_eq]
    simp
  refine h.change ha (fun k' c' hc => ?_) (fun k' => ?_) hnodup hlen fun hne => ?_
  · by_cases hk' : k' = k <;> simp [hlock, hk', hmine, Ne.symm hc]
  · by_cases hk' : k' = k
    · simpa [hlock, hk'] using hout
    · simp [hlock, hk', h.owner, hheld.mem_iff]
  · cases hi : (s'.cpu c).intr with
    | false => rfl
    | true =>
      rw [← hnoff, hlen] at hintr
      exact absurd (length_eq_zero_iff.mp (by exact_mod_cast hintr hi)) hne

variable [DecidableEq C]

/-- The state after `acquire`. -/
def take (s : State C P L) (c : C) (k : Lk P L) : State C P L :=
  (s.setLock k (some c)).setCpu c (s.cpu c).pushOff

/-- The state after `release`. -/
def drop (s : State C P L) (c : C) (k : Lk P L) : State C P L :=
  (s.setLock k none).setCpu c
    { s.cpu c with
      noff := (s.cpu c).noff - 1
      intr := (s.cpu c).noff - 1 = 0 && (s.cpu c).intena }

theorem Locks.acquire_safe (h : s.Locks) (hk : k ∉ s.held c)
    {f : State C P L → Outcome (State C P L)} {Q : State C P L → Prop}
    (hf : s.lock k = none → (f (s.take c k)).Safe Q) : ((s.acquire c k).bind f).Safe Q := by
  have hmine : s.lock k ≠ some c := by
    intro heq
    exact hk ((h.owner k c).mp heq)
  unfold acquire
  rw [if_neg hmine]
  by_cases hfree : s.lock k = none
  · rw [if_pos hfree]
    exact hf hfree
  · rw [if_neg hfree]
    trivial

theorem Locks.release_safe (h : s.Locks) (hk : k ∈ s.held c)
    {f : State C P L → Outcome (State C P L)} {Q : State C P L → Prop}
    (hf : (f (s.drop c k)).Safe Q) : ((s.release c k).bind f).Safe Q := by
  have hmine : s.lock k = some c := (h.owner k c).mpr hk
  have hintr : (s.cpu c).intr = false := h.intr c (ne_nil_of_mem hk)
  have hlen : ¬ (s.cpu c).noff < 1 := by
    have := length_pos_of_mem hk
    rw [h.noff c]
    omega
  have hpop : s.release c k = .next (s.drop c k) := by
    simp [release, hmine, Cpu.popOff, hintr, hlen, drop]
  rw [hpop]
  exact hf

end

/-! ## Where the processes are -/

/-- The CPU still executes the same thread for the same process. -/
structure Sits (u u' : Cpu P) : Prop where
  proc : u'.proc = u.proc
  thread : u'.thread = u.thread
  spc : u'.spc = u.spc

/-- How a process is left that no CPU executes. -/
def Off (s : State C P L) (p : P) : Prop :=
  s.state p ≠ .RUNNING ∧
    ∃ k, s.pc p = .parked k ∧ (k = .gone → s.state p = .ZOMBIE ∨ s.state p = .UNUSED)

theorem Placed.off (h : s.Placed) (hp : ∀ c, (s.cpu c).thread ≠ some p) : s.Off p := by
  refine ⟨fun hrun => ?_, h.parked p hp⟩
  obtain ⟨c, hc⟩ := h.running p hrun
  exact hp c hc

theorem Off.congr (h : s.Off p) (hpc : s'.pc p = s.pc p) (hstate : s'.state p = s.state p) :
    s'.Off p := by
  unfold Off
  rw [hpc, hstate]
  exact h

/-- A step of one CPU: what it leaves there and of the processes that no CPU
    executes. -/
theorem Placed.change (h : s.Placed) (ha : Apart s s' c)
    (hvisit : (s'.cpu c).visit ≠ none → s'.mayVisit c = true)
    (hthread : ∀ t, (s'.cpu c).thread = some t → (s'.cpu c).proc = some t ∧
      (∃ rest, (s'.cpu c).spc = .away t rest) ∧ (s'.pc t).Fits (s'.state t))
    (hidle : ∀ p, (s'.cpu c).thread = none → (s'.cpu c).proc = some p →
      ∃ rest, (s'.cpu c).spc = .away p rest)
    (hproc : ∀ p, (s'.cpu c).proc = some p →
      (s.cpu c).proc = some p ∨ ∀ c', (s.cpu c').proc ≠ some p)
    (hstate : ∀ c' t, c' ≠ c → (s.cpu c').thread = some t → s'.state t = s.state t)
    (hoff : ∀ p, (s'.cpu c).thread ≠ some p → (∀ c', c' ≠ c → (s.cpu c').thread ≠ some p) →
      s'.Off p) : s'.Placed := by
  have hoff' : ∀ p, (∀ c', (s'.cpu c').thread ≠ some p) → s'.Off p := fun p hp =>
    hoff p (hp c) fun c' hc hc' => hp c' (ha.cpu c' hc ▸ hc')
  refine ⟨fun c' => ?_, fun c' => ?_, fun c' => ?_, ?_, ?_, fun p hp => (hoff' p hp).2⟩
  · by_cases hc : c' = c
    · exact hc ▸ hvisit
    · rw [ha.cpu c' hc, ha.mayVisit hc]
      exact h.visit c'
  · by_cases hc : c' = c
    · exact hc ▸ hthread
    · intro t ht
      rw [ha.cpu c' hc] at ht ⊢
      rw [ha.pc c' t hc ht, hstate c' t hc ht]
      exact h.thread c' t ht
  · by_cases hc : c' = c
    · exact hc ▸ hidle
    · rw [ha.cpu c' hc]
      exact h.idle c'
  · -- a process that is new on this CPU is on no other
    have hself : ∀ c' p, c' ≠ c → (s'.cpu c).proc = some p → (s'.cpu c').proc ≠ some p := by
      intro c' p hc hp hp'
      rw [ha.cpu c' hc] at hp'
      exact (hproc p hp).elim (fun hp => hc (h.inj c' c p hp' hp)) fun hnone => hnone c' hp'
    intro c1 c2 p h1 h2
    by_cases hc1 : c1 = c <;> by_cases hc2 : c2 = c
    · rw [hc1, hc2]
    · exact absurd h2 (hself c2 p hc2 (hc1 ▸ h1))
    · exact absurd h1 (hself c1 p hc1 (hc2 ▸ h2))
    · rw [ha.cpu _ hc1] at h1
      rw [ha.cpu _ hc2] at h2
      exact h.inj c1 c2 p h1 h2
  · intro p hp
    by_contra hnone
    exact (hoff' p (not_exists.mp hnone)).1 hp

/-- The CPU stays with what it executes. -/
theorem Placed.sits (h : s.Placed) (ha : Apart s s' c) (hsits : Sits (s.cpu c) (s'.cpu c))
    (hvisit : (s'.cpu c).visit ≠ none → s'.mayVisit c = true)
    (hstate : ∀ c' t, c' ≠ c → (s.cpu c').thread = some t → s'.state t = s.state t)
    (hfits : ∀ t, (s.cpu c).thread = some t → (s'.pc t).Fits (s'.state t))
    (hoff : ∀ p, (∀ c, (s.cpu c).thread ≠ some p) → s'.Off p) : s'.Placed := by
  refine h.change ha hvisit (fun t ht => ?_) (fun p => ?_) (fun p hp => .inl (hsits.proc ▸ hp))
    hstate fun p hp hothers => hoff p fun c' => ?_
  · rw [hsits.thread] at ht
    obtain ⟨hproc, hspc, -⟩ := h.thread c t ht
    rw [hsits.proc, hsits.spc]
    exact ⟨hproc, hspc, hfits t ht⟩
  · rw [hsits.thread, hsits.proc, hsits.spc]
    exact h.idle c p
  · by_cases hc : c' = c
    · exact hc ▸ hsits.thread ▸ hp
    · exact hothers c' hc

/-- A step of the thread of `t` that does not leave the CPU. -/
theorem Placed.stay (h : s.Placed) (ht : (s.cpu c).thread = some t) (ha : Apart s s' c)
    (hsits : Sits (s.cpu c) (s'.cpu c)) (hvisit : (s'.cpu c).visit = none)
    (hpc : ∀ q, q ≠ t → s'.pc q = s.pc q) (hstate : ∀ q, q ≠ t → s'.state q = s.state q)
    (hfits : (s'.pc t).Fits (s'.state t)) : s'.Placed := by
  refine h.sits ha hsits (absurd hvisit) (fun c' q hc hq => hstate q ?_) (fun q hq => ?_)
    fun q hq => ?_
  · exact fun e => hc (h.thread_inj ht (e ▸ hq))
  · rw [ht] at hq
    exact Option.some.inj hq ▸ hfits
  · have hne : q ≠ t := fun e => hq c (e ▸ ht)
    exact (h.off hq).congr (hpc q hne) (hstate q hne)

/-- A visit begins or ends. -/
theorem Placed.visits (h : s.Placed) (ha : Apart s s' c) (hsits : Sits (s.cpu c) (s'.cpu c))
    (hmay : (s'.cpu c).visit ≠ none → s.mayVisit c = true)
    (hpc : s'.pc = s.pc) (hstate : s'.state = s.state) : s'.Placed := by
  refine h.sits ha hsits (fun hv => ?_) (fun _ t _ _ => by rw [hstate]) (fun t ht => ?_)
    fun p hp => (h.off hp).congr (by rw [hpc]) (by rw [hstate])
  · rw [← hmay hv]
    unfold mayVisit
    rw [hsits.thread, hsits.spc, hpc]
  · rw [hpc, hstate]
    exact (h.thread c t ht).2.2

/-- A step of a scheduler that runs no process. -/
theorem Placed.loops (h : s.Placed) (ht : (s.cpu c).thread = none) (ha : Apart s s' c)
    (hthread : (s'.cpu c).thread = none) (hproc : (s'.cpu c).proc = none)
    (hvisit : (s'.cpu c).visit = none) (hpc : s'.pc = s.pc) (hstate : s'.state = s.state) :
    s'.Placed := by
  refine h.change ha (absurd hvisit) (by simp [hthread]) (by simp [hproc]) (by simp [hproc])
    (fun _ t _ _ => by rw [hstate]) fun p _ hothers => ?_
  refine (h.off fun c' => ?_).congr (by rw [hpc]) (by rw [hstate])
  by_cases hc : c' = c
  · simp [hc, ht]
  · exact hothers c' hc

end State

end Cpus

end Xv6
