import Xv6.Proc.Calls

/-!
# The partition of physical memory

Every page is free, or it has one owner: a page table, the memory of a process,
a trapframe, a pipe, or something allocated at boot. The owners are read off the
kernel's tables as they are in memory, `Partition` is the ledger of these, and
the theorem is that the calls of the kernel, in any order and with `kalloc`
failing wherever it likes, keep it.
-/

namespace Xv6

open Function List Sys
open PageTree
open Cpus (ProcState)

/-! ## Owners, as memory has them -/

namespace Kernel

/-- What a slot of the process table has: its page table's pages, the pages
    mapped below its size, and its trapframe. -/
def slotPages (k : Kernel) (p : Fin NPROC) : List Nat :=
  let x := k.proc p
  (if x.pagetable = 0 then []
    else tablePages k.phys.kmem.mem 2 x.pagetable ++
      AddrSpace.userPages k.phys.kmem.mem ⟨x.pagetable, x.trapframe, x.sz⟩) ++
  if x.trapframe = 0 then [] else [x.trapframe]

/-- The pages of the pipes that are open. -/
def pipePages (k : Kernel) : List Nat :=
  ((List.finRange NFILE).filterMap fun f => (k.file f).pipeEnd.map Prod.fst).dedup

/-- **The partition**: each page is on the free list with count 0, or has one
    owner and count 1; `F` are the pages allocated at boot. -/
def Partition (E : Env) (F : List Nat) (k : Kernel) : Prop :=
  Acct E k.phys.kmem (gather k.slotPages ++ (k.pipePages ++ F))

end Kernel

section Concrete

variable {E : Env} {F : List Nat} {held held' : List (Fin NFILE)} {k k' : Kernel}
  {g : Spaces NPROC} {pipes : List Nat} {p : Fin NPROC}

theorem Wf.slotPages (hE : E.Ok) (h : Wf E F held k g pipes) (p : Fin NPROC) :
    k.slotPages p = (k.proc p).owned (g p) := by
  unfold Kernel.slotPages Proc.owned
  by_cases hpt : (k.proc p).pagetable = 0
  · have hg := h.slots.ok p
    rw [Proc.Holds, if_pos hpt] at hg
    simp [hpt, hg, pages]
  · obtain ⟨hpa, hsz, _, hsp⟩ := h.space hpt
    have htable := tablePages_eq hsp.ne hsp.rep hsp.pageAddr
    have huser := hsp.userPages (a := ⟨(k.proc p).pagetable, (k.proc p).trapframe, (k.proc p).sz⟩)
      hE hpa hsz
    simp only
    rw [if_neg hpt, huser, hpa, htable, append_assoc]

theorem Wf.pipePages (h : Wf E F held k g pipes) : k.pipePages.Perm pipes := by
  have hnd : pipes.Nodup := (nodup_append.mp h.acct.nodup_owned).1
  refine (perm_ext_iff_of_nodup (nodup_dedup _) hnd).mpr fun pi => ?_
  rw [mem_dedup, mem_filterMap]
  constructor
  · rintro ⟨f, _, hf⟩
    obtain ⟨e, he, rfl⟩ := Option.map_eq_some_iff.mp hf
    exact h.files.pipes.own f e.1 e.2 he
  · intro hpi
    obtain ⟨f, w, hf⟩ := h.files.pipes.used pi hpi
    exact ⟨f, mem_finRange f, Option.map_eq_some_iff.mpr ⟨_, hf, rfl⟩⟩

theorem Wf.partition (hE : E.Ok) (h : Wf E F held k g pipes) : k.Partition E F := by
  unfold Kernel.Partition
  rw [gather_congr (h.slotPages hE)]
  exact h.slots.acct.perm (List.Perm.append_left _ (h.pipePages.symm.append_right F))

/-- How many pages a slot has depends on its memory alone. -/
theorem Wf.owned_length (h : Wf E F held k g pipes) (h' : Wf E F held' k' g pipes) (p : Fin NPROC) :
    ((k.proc p).owned (g p)).length = ((k'.proc p).owned (g p)).length := by
  have hzero : ∀ {k : Kernel} {held}, Wf E F held k g pipes → (g p).1 = absent →
      (k.proc p).trapframe = 0 := by
    intro k held h hg
    by_contra htf
    have hstate : (k.proc p).state ≠ .UNUSED := fun h0 => htf ((h.proc p).unused h0).2.1
    exact (h.space ((h.proc p).used hstate)).2.2.2.ne hg
  have hpos : ∀ {k : Kernel} {held}, Wf E F held k g pipes → (g p).1 ≠ absent →
      (k.proc p).trapframe ≠ 0 := by
    intro k held h hg
    have hpt : (k.proc p).pagetable ≠ 0 := by
      intro h0
      have := h.slots.ok p
      rw [Proc.Holds, if_pos h0] at this
      exact hg (by rw [this])
    exact (h.space hpt).2.2.1
  unfold Proc.owned
  by_cases hg : (g p).1 = absent
  · rw [if_pos (hzero h hg), if_pos (hzero h' hg)]
  · rw [if_neg (hpos h hg), if_neg (hpos h' hg)]
    simp

/-- The number of free pages depends on the processes' memory and the pipes
    alone. -/
theorem Wf.free_eq (h : Wf E F held k g pipes) (h' : Wf E F held' k' g pipes) :
    k.phys.kmem.freelist.length = k'.phys.kmem.freelist.length := by
  have hlen := h.slots.acct.length_eq h'.slots.acct
  have hsame : (k.procPages g).length = (k'.procPages g).length := by
    unfold Kernel.procPages gather
    rw [length_flatMap, length_flatMap]
    exact congrArg List.sum (map_congr_left fun q _ => h.owned_length h' q)
  simp only [length_append] at hlen
  unfold Kernel.procPages at hsame
  omega

end Concrete

/-! ## The scheduler -/

/-- What the scheduler, `yield`, `sleep` and `wakeup` do to a slot. -/
structure Resched (x x' : Proc) : Prop where
  same : { x' with state := x.state, chan := x.chan } = x
  state : x'.state = x.state ∨
    (x.state = .RUNNABLE ∨ x.state = .RUNNING ∨ x.state = .SLEEPING) ∧
      (x'.state = .RUNNABLE ∨ x'.state = .RUNNING ∨ x'.state = .SLEEPING)

namespace Resched

theorem rfl' (x : Proc) : Resched x x := ⟨rfl, .inl rfl⟩

variable {x x' : Proc}

theorem unused_iff (h : Resched x x') : x'.state = .UNUSED ↔ x.state = .UNUSED := by
  rcases h.state with h0 | ⟨h0, h1⟩
  · rw [h0]
  · constructor
    · intro h2
      rw [h2] at h1
      rcases h1 with h1 | h1 | h1 <;> cases h1
    · intro h2
      rw [h2] at h0
      rcases h0 with h0 | h0 | h0 <;> cases h0

theorem ofile (h : Resched x x') : x'.ofile = x.ofile := by rw [← h.same]

theorem ok (h : Resched x x') (hx : x.Ok) : x'.Ok := by
  have hsame := h.same
  have hpt : x'.pagetable = x.pagetable := by rw [← hsame]
  refine ⟨fun h0 => ?_, fun h0 => ?_, fun h0 => ?_⟩
  · have := hx.unused (h.unused_iff.mp h0)
    rw [← hsame] at this
    exact this
  · rw [hpt]
    exact hx.used fun h1 => h0 (h.unused_iff.mpr h1)
  · rw [h.ofile]
    rcases h.state with h1 | ⟨_, h1⟩
    · exact hx.closed (h1 ▸ h0)
    · rcases h1 with h1 | h1 | h1 <;> rw [h1] at h0 <;> rcases h0 with h0 | h0 | h0 <;> cases h0

end Resched

theorem Wf.resched {E : Env} {F : List Nat} {held : List (Fin NFILE)} {k k' : Kernel}
    {g : Spaces NPROC} {pipes : List Nat}
    (h : Wf E F held k g pipes) (hphys : k'.phys = k.phys) (hfile : k'.file = k.file)
    (hw : ∀ q, Resched (k.proc q) (k'.proc q)) : Wf E F held k' g pipes := by
  refine h.quiet hphys hfile (fun q => ?_) (fun q => (hw q).ofile) fun q => (hw q).ok (h.proc q)
  rw [← (hw q).same]
  exact ⟨rfl, rfl, rfl⟩

def Call.isSched : Call → Bool
  | .run _ | .yield _ | .sleep .. | .wakeup .. => true
  | _ => false

/-! ## Every call -/

namespace Machine

variable {E : Env} {F : List Nat} {m m' : Machine}
  {g : Spaces NPROC} {pipes : List Nat}

/-- The partition, and the tables by which the calls find the pages. -/
def WellFormed (E : Env) (F : List Nat) (m : Machine) : Prop :=
  ∃ g pipes, Wf E F m.held m.kernel g pipes

variable {p : Fin NPROC} {α : Type}

theorem resched_set {k : Kernel} {st : ProcState} {chan : Nat}
    (hp : (k.proc p).state = .RUNNABLE ∨ (k.proc p).state = .RUNNING ∨ (k.proc p).state = .SLEEPING)
    (hst : st = .RUNNABLE ∨ st = .RUNNING ∨ st = .SLEEPING) (q : Fin NPROC) :
    Resched (k.proc q) ((k.setProc p { k.proc p with state := st, chan := chan }).proc q) := by
  by_cases hq : q = p
  · rw [hq, Kernel.setProc_proc, update_self]
    exact ⟨rfl, .inr ⟨hp, hst⟩⟩
  · rw [Kernel.setProc_proc, update_of_ne hq]
    exact Resched.rfl' _

/-- **Scheduling moves no page.** -/
theorem sched_cases {c : Call} (hc : c.isSched = true) :
    m.step E c = .disabled ∨ ∃ k', m.step E c = .next { m with kernel := k' } ∧
      k'.phys = m.kernel.phys ∧ k'.file = m.kernel.file ∧
      ∀ q, Resched (m.kernel.proc q) (k'.proc q) := by
  cases c with
  | run p =>
    simp only [step]
    split
    · rename_i hp
      exact .inr ⟨_, rfl, rfl, rfl, resched_set (.inl hp) (.inr (.inl rfl))⟩
    · exact .inl rfl
  | yield p =>
    simp only [step, callBy]
    split
    · rename_i hp
      exact .inr ⟨_, rfl, rfl, rfl, resched_set (.inr (.inl hp)) (.inl rfl)⟩
    · exact .inl rfl
  | sleep p chan =>
    simp only [step, callBy]
    split
    · rename_i hp
      exact .inr ⟨_, rfl, rfl, rfl, resched_set (.inr (.inl hp)) (.inr (.inr rfl))⟩
    · exact .inl rfl
  | wakeup p chan =>
    refine .inr ⟨_, rfl, rfl, rfl, fun q => ?_⟩
    simp only
    split
    · rename_i hq
      exact ⟨rfl, .inr ⟨.inr (.inr hq.2.1), .inl rfl⟩⟩
    · exact Resched.rfl' _
  | allocproc | fork | exit | wait | kill | exec | growproc | ps | pipe | close | dup | pipealloc
  | fileclose => cases hc

/-- What a call from a well-formed state may end in. -/
inductive Kept (E : Env) (F : List Nat) : Outcome Machine → Prop
  | disabled : Kept E F .disabled
  | init : Kept E F (.panic "init exiting")
  | next {m : Machine} : m.WellFormed E F → Kept E F (.next m)

variable {x : Sys Kernel α}

theorem kept_after (h : ∃ r k, x m.kernel = .ok (r, k) ∧ ∃ g pipes, Wf E F m.held k g pipes) :
    Kept E F (m.after x) := by
  obtain ⟨r, k, hrun, g, pipes, hwf⟩ := h
  unfold after
  rw [outcome_of_ok hrun]
  exact .next ⟨g, pipes, hwf⟩

theorem kept_callBy (h : (m.kernel.proc p).state = .RUNNING →
      ∃ r k, x m.kernel = .ok (r, k) ∧ ∃ g pipes, Wf E F m.held k g pipes) :
    Kept E F (m.callBy p x) := by
  unfold callBy
  split
  · rename_i hp
    exact kept_after (h hp)
  · exact .disabled

theorem kept_sched (h : Wf E F m.held m.kernel g pipes) {c : Call} (hc : c.isSched = true) :
    Kept E F (m.step E c) := by
  rcases sched_cases (E := E) (m := m) hc with hd | ⟨k', hn, hphys, hfile, hw⟩
  · rw [hd]
    exact .disabled
  · rw [hn]
    exact .next ⟨g, pipes, h.resched hphys hfile hw⟩

/-- **Every call keeps the partition.** -/
theorem step_kept (hE : E.Ok) (h : Wf E F m.held m.kernel g pipes) (c : Call) :
    Kept E F (m.step E c) := by
  cases c with
  | allocproc =>
    refine kept_after ?_
    obtain ⟨res, k', hrun, _, _, _, hres⟩ := allocproc_spec hE h
    rcases hres with ⟨_, hwf, _⟩ | ⟨i, pid, tf, t, _, _, _, hwf⟩
    · exact ⟨res, k', hrun, g, pipes, hwf⟩
    · exact ⟨res, k', hrun, _, pipes, hwf⟩
  | fork p =>
    refine kept_callBy fun hp => ?_
    obtain ⟨r, k', hrun, _, _, hres⟩ := fork_spec hE h hp
    rcases hres with ⟨_, _, hwf, _⟩ | ⟨i, pid, tf, t, u, _, _, _, hwf⟩
    · exact ⟨r, k', hrun, g, pipes, hwf⟩
    · exact ⟨r, k', hrun, _, pipes, hwf⟩
  | exit p status =>
    simp only [step, callBy]
    split
    · rename_i hp
      by_cases hinit : m.kernel.initproc = some p
      · have hpanic : exit E p status m.kernel = .error (.panic "init exiting") := by
          simp only [exit, reads_bind_run]
          rw [if_pos hinit]
          rfl
        have : m.after (exit E p status) = .panic "init exiting" := by
          unfold after Sys.outcome
          rw [hpanic]
        rw [this]
        exact .init
      · obtain ⟨k', pipes', hrun, hwf, _⟩ := exit_spec hE h hp hinit status
        exact kept_after ⟨(), k', hrun, g, pipes', hwf⟩
    · exact .disabled
  | wait p addr =>
    refine kept_callBy fun hp => ?_
    obtain ⟨r, k', hrun, _, hres⟩ := wait_spec hE h hp addr
    rcases hres with ⟨hwf, _⟩ | ⟨pp, _, _, hwf⟩
    · exact ⟨r, k', hrun, g, pipes, hwf⟩
    · exact ⟨r, k', hrun, _, pipes, hwf⟩
  | kill pid =>
    obtain ⟨r, k', hrun, hwf, _⟩ := kill_spec h pid
    exact kept_after ⟨r, k', hrun, g, pipes, hwf⟩
  | exec p fetchaddr fetchstr prog ustack =>
    refine kept_callBy fun hp => ?_
    obtain ⟨r, k', hrun, _, _, hres⟩ := sysExec_spec hE h hp fetchaddr fetchstr prog ustack
    rcases hres with ⟨_, _, hwf, _⟩ | ⟨_, y, hwf⟩
    · exact ⟨r, k', hrun, g, pipes, hwf⟩
    · exact ⟨r, k', hrun, _, pipes, hwf⟩
  | growproc p n =>
    refine kept_callBy fun hp => ?_
    obtain ⟨r, k', y, hrun, hwf, _⟩ := growprocOf_spec hE h hp n
    exact ⟨r, k', hrun, _, pipes, hwf⟩
  | ps p start count table =>
    simp only [step, callBy]
    split
    · rename_i hp
      rcases psOf_spec hE h hp start count table with hrun | ⟨r, k', y, hrun, hwf⟩
      · unfold after
        rw [outcome_of_overflow hrun]
        exact .disabled
      · exact kept_after ⟨r, k', hrun, _, pipes, hwf⟩
    · exact .disabled
  | pipe p fdarray =>
    refine kept_callBy fun hp => ?_
    obtain ⟨r, k', pipes', hrun, hwf⟩ := sysPipe_spec hE h hp fdarray
    exact ⟨r, k', hrun, g, pipes', hwf⟩
  | close p fd =>
    refine kept_callBy fun hp => ?_
    obtain ⟨r, k', pipes', hrun, hwf⟩ := sysClose_spec hE h hp fd
    exact ⟨r, k', hrun, g, pipes', hwf⟩
  | dup p fd =>
    refine kept_callBy fun hp => ?_
    obtain ⟨r, k', hrun, hwf⟩ := sysDup_spec h hp fd
    exact ⟨r, k', hrun, g, pipes, hwf⟩
  | pipealloc =>
    simp only [step]
    rcases h.pipealloc hE with ⟨s, hrun, _, hwf⟩ | ⟨f0, f1, s, file, pipes', hrun, hwf⟩
    · rw [outcome_of_ok hrun]
      exact .next ⟨g, pipes, hwf⟩
    · rw [outcome_of_ok hrun]
      exact .next ⟨g, pipes', hwf⟩
  | fileclose f =>
    simp only [step]
    split
    · rename_i hf
      obtain ⟨s, file, pipes', hrun, hwf⟩ :=
        (h.held_perm (perm_cons_erase hf)).fileclose_held hE
      rw [outcome_of_ok hrun]
      exact .next ⟨g, pipes', hwf⟩
    · exact .disabled
  | run | yield | sleep | wakeup =>
    exact kept_sched h rfl

theorem exec_kept (hE : E.Ok) : ∀ (calls : List Call) {m : Machine}, m.WellFormed E F →
    Kept E F (exec (step E) m calls) := by
  intro calls
  induction calls with
  | nil => exact fun h => .next h
  | cons c calls ih =>
    intro m h
    obtain ⟨g, pipes, hwf⟩ := h
    rw [exec_cons]
    cases hs : m.step E c with
    | disabled => exact .disabled
    | panic msg =>
      have hk := step_kept hE hwf c
      rw [hs] at hk
      cases hk
      exact .init
    | next m' =>
      have hk := step_kept hE hwf c
      rw [hs] at hk
      cases hk with
      | next h' => exact ih h'

/-! ## A child's life -/

theorem sched_run : ∀ {sched : List Call} {m m' : Machine},
    (∀ c ∈ sched, c.isSched = true) → Wf E F m.held m.kernel g pipes →
    exec (step E) m sched = .next m' →
    Wf E F m'.held m'.kernel g pipes ∧
      (∀ q, (m'.kernel.proc q).ofile = (m.kernel.proc q).ofile) ∧
      ∀ q, (m'.kernel.proc q).state = .UNUSED ↔ (m.kernel.proc q).state = .UNUSED := by
  intro sched
  induction sched with
  | nil =>
    intro m m' _ h hrun
    cases hrun
    exact ⟨h, fun _ => rfl, fun _ => Iff.rfl⟩
  | cons c sched ih =>
    intro m m' hc h hrun
    obtain ⟨m1, hstep, hrest⟩ := Outcome.bind_eq_next hrun
    rcases sched_cases (E := E) (m := m) (hc c mem_cons_self) with hd | ⟨k', hn, hphys, hfile, hw⟩
    · rw [hd] at hstep
      cases hstep
    · rw [hn] at hstep
      cases hstep
      have hwf1 : Wf E F m.held k' g pipes := h.resched hphys hfile hw
      obtain ⟨hwf, hof, hst⟩ := ih (m := { m with kernel := k' })
        (fun c' hc' => hc c' (mem_cons_of_mem _ hc')) hwf1 hrest
      exact ⟨hwf, fun q => (hof q).trans (hw q).ofile, fun q => (hst q).trans (hw q).unused_iff⟩

theorem callBy_eq_next (h : m.callBy p x = .next m') :
    (m.kernel.proc p).state = .RUNNING ∧
      ∃ r, x m.kernel = .ok (r, m'.kernel) ∧ m'.held = m.held := by
  unfold callBy at h
  split at h
  · rename_i hp
    obtain ⟨r, k, hrun, hk⟩ := outcome_eq_next h
    cases hk
    exact ⟨hp, r, hrun, rfl⟩
  · cases h

/-- **`fork`, the child's `exit` and the `wait` that reaps it** leave as many
    free pages as there were. -/
theorem fork_exit_wait_free (hE : E.Ok) (h : m.WellFormed E F) {m1 m2 m3 m4 m5 : Machine}
    {c : Fin NPROC} {status : Int} {addr : Nat} {sched1 sched2 : List Call}
    (hfork : m.step E (.fork p) = .next m1)
    (hnew : (m.kernel.proc c).state = .UNUSED ∧ (m1.kernel.proc c).state ≠ .UNUSED)
    (hs1 : ∀ x ∈ sched1, x.isSched = true) (hrun1 : exec (step E) m1 sched1 = .next m2)
    (hexit : m2.step E (.exit c status) = .next m3)
    (hs2 : ∀ x ∈ sched2, x.isSched = true) (hrun2 : exec (step E) m3 sched2 = .next m4)
    (hwait : m4.step E (.wait p addr) = .next m5) (hreap : (m5.kernel.proc c).state = .UNUSED) :
    m5.kernel.phys.kmem.freelist.length = m.kernel.phys.kmem.freelist.length := by
  obtain ⟨g, pipes, hwf⟩ := h
  obtain ⟨hunused, hlive⟩ := hnew
  -- the child gets its own memory and the parent's files
  obtain ⟨hp, r1, hrun, hheld1⟩ := callBy_eq_next hfork
  obtain ⟨r, k', hspec, _, _, hres⟩ := fork_spec hE hwf hp
  rw [hrun] at hspec
  cases hspec
  rcases hres with ⟨_, _, _, hproc⟩ | ⟨i, pid, tf, t, u, hi, hproc, _, hwf1⟩
  · exfalso
    apply hlive
    rcases hproc with hproc | ⟨i, _, hproc⟩
    · rw [hproc]
      exact hunused
    · rw [hproc]
      by_cases hci : c = i
      · rw [hci, update_self]
        rfl
      · rw [update_of_ne hci]
        exact hunused
  have hci : i = c := by
    by_contra hne
    rw [hproc, update_of_ne (Ne.symm hne)] at hlive
    exact hlive hunused
  subst hci
  have hpi : p ≠ i := by
    rintro rfl
    rw [hp] at hi
    cases hi
  have hshared1 : Shared m1.kernel i := by
    refine ⟨p, hpi, fun fd f hfd => ⟨fd, ?_⟩⟩
    rw [hproc, update_self] at hfd
    rw [hproc, update_of_ne hpi]
    exact hfd
  rw [← hheld1] at hwf1
  obtain ⟨hwf2, hof2, hst2⟩ := sched_run hs1 hwf1 hrun1
  have hshared2 : Shared m2.kernel i := by
    obtain ⟨q, hq, hsh⟩ := hshared1
    refine ⟨q, hq, fun fd f hfd => ?_⟩
    rw [hof2] at hfd
    rw [hof2]
    exact hsh fd f hfd
  -- its files are the parent's too, so no pipe goes with it
  obtain ⟨hpc, r3, hrun3, hheld3⟩ := callBy_eq_next hexit
  have hinit : m2.kernel.initproc ≠ some i := by
    intro hinit
    simp only [exit, reads_bind_run] at hrun3
    rw [if_pos hinit] at hrun3
    cases hrun3
  obtain ⟨k3, pipes3, hspec3, hwf3, _, hz3, hsame⟩ := exit_spec hE hwf2 hpc hinit status
  rw [hrun3] at hspec3
  cases hspec3
  obtain rfl := hsame hshared2
  rw [← hheld3] at hwf3
  obtain ⟨hwf4, _, hst4⟩ := sched_run hs2 hwf3 hrun2
  obtain ⟨hp4, r5, hrun5, hheld5⟩ := callBy_eq_next hwait
  obtain ⟨r, k5, hspec5, _, hres5⟩ := wait_spec hE hwf4 hp4 addr
  rw [hrun5] at hspec5
  cases hspec5
  have hnot : (m4.kernel.proc i).state ≠ .UNUSED := by
    rw [Ne, hst4, hz3]
    decide
  rcases hres5 with ⟨_, hkeep, _⟩ | ⟨pp, _, hproc5, hwf5⟩
  · exact absurd (hkeep i hreap) hnot
  · have hpp : pp = i := by
      by_contra hne
      rw [hproc5, update_of_ne (Ne.symm hne)] at hreap
      exact hnot hreap
    subst hpp
    have hback : update (update g pp (t, u)) pp (absent, []) = g := by
      rw [update_idem, ← (hwf.unused hi).1, update_eq_self]
    rw [hback] at hwf5
    exact hwf5.free_eq hwf

/-! ## The theorem -/

/-- **Physical memory stays partitioned**, whatever calls are made and wherever
    `kalloc` fails; the only panic is that of an exiting `init`. A child that is
    forked, exits and is waited for leaves as many free pages as there were
    before. -/
theorem memory_partitioned {E : Env} (hE : E.Ok) {F : List Nat} {m₀ : Machine}
    (h₀ : m₀.WellFormed E F) (calls : List Call) :
    (∀ msg, exec (step E) m₀ calls = .panic msg → msg = "init exiting") ∧
    ∀ m, exec (step E) m₀ calls = .next m →
      m.WellFormed E F ∧ m.kernel.Partition E F ∧
      ∀ {m₁ m₂ m₃ m₄ m₅ : Machine} {p c : Fin NPROC} {status : Int} {addr : Nat}
        {sched₁ sched₂ : List Call}, m.step E (.fork p) = .next m₁ →
        (m.kernel.proc c).state = .UNUSED ∧ (m₁.kernel.proc c).state ≠ .UNUSED →
        (∀ x ∈ sched₁, x.isSched = true) → exec (step E) m₁ sched₁ = .next m₂ →
        m₂.step E (.exit c status) = .next m₃ →
        (∀ x ∈ sched₂, x.isSched = true) → exec (step E) m₃ sched₂ = .next m₄ →
        m₄.step E (.wait p addr) = .next m₅ → (m₅.kernel.proc c).state = .UNUSED →
        m₅.kernel.phys.kmem.freelist.length = m.kernel.phys.kmem.freelist.length := by
  have hkept := exec_kept hE calls h₀
  refine ⟨fun msg hp => ?_, fun m hm => ?_⟩
  · rw [hp] at hkept
    cases hkept
    rfl
  · rw [hm] at hkept
    cases hkept with
    | next hwf =>
      have ⟨g, pipes, hwf'⟩ := hwf
      exact ⟨hwf, hwf'.partition hE, fun hfork hnew hs1 hrun1 hexit hs2 hrun2 hwait hreap =>
        fork_exit_wait_free hE hwf hfork hnew hs1 hrun1 hexit hs2 hrun2 hwait hreap⟩

end Machine

/-! ## A small machine -/

/-- No process and no open file yet; the last page was allocated at boot. -/
def bareKernel (pages : Nat) : Kernel where
  phys := smallPhys pages
  proc := fun _ =>
    { state := .UNUSED, chan := 0, killed := 0, xstate := 0, pid := 0, parent := none, sz := 0,
      pagetable := 0, trapframe := 0, ofile := fun _ => none }
  file := fun _ => { type := .FD_NONE, ref := 0, readable := false, writable := false, pipe := 0 }
  nextpid := 1
  initproc := none

theorem bareKernel_wf {pages : Nat} (h0 : 0 < pages) (h : pages < 32768) :
    Wf (smallEnv pages) [PHYSTOP - PGSIZE] [] (bareKernel pages) (fun _ => (absent, [])) [] := by
  have hrefs : refs (bareKernel pages).proc [] = fun _ => 0 := by
    funext f
    have : count (fun x : Fin NPROC × Fin NOFILE => ((bareKernel pages).proc x.1).ofile x.2 =
      some f)
        = 0 := count_eq_zero_iff.mpr fun _ h0 => by cases h0
    unfold refs
    rw [this]
    rfl
  refine ⟨⟨?_, fun i => ?_⟩, ⟨fun f => ?_, fun f _ => rfl, ?_⟩, fun i => ?_⟩
  · have hg : gather (fun i => ((bareKernel pages).proc i).owned (absent, [])) = [] := gather_nil
    rw [hg]
    exact smallPhys_acct h0 h
  · exact (if_pos rfl).mpr rfl
  · rw [hrefs]
    rfl
  · refine ⟨fun f pi w hf => ?_, fun f f' e hf => ?_, ?_, ?_⟩
    · cases hf
    · cases hf
    · intro pi hpi
      cases hpi
    · intro pi hpi
      cases hpi
  · exact ⟨fun _ => ⟨rfl, rfl, rfl⟩, fun h0 => absurd rfl h0, fun _ _ => rfl⟩

/-- The first process has been made and runs. -/
def firstMachine (pages : Nat) : Machine :=
  match allocproc (smallEnv pages) (bareKernel pages) with
  | .ok (_, k) => ⟨k.setProc 0 { k.proc 0 with state := .RUNNING }, []⟩
  | .error _ => ⟨bareKernel pages, []⟩

theorem firstMachine_wellFormed {pages : Nat} (h0 : 0 < pages) (h : pages < 32768)
    (hpt : ((firstMachine pages).kernel.proc 0).pagetable ≠ 0) :
    (firstMachine pages).WellFormed (smallEnv pages) [PHYSTOP - PGSIZE] := by
  have hset : ∀ {k g}, Wf (smallEnv pages) [PHYSTOP - PGSIZE] [] k g [] →
      (k.proc 0).pagetable ≠ 0 →
      Wf (smallEnv pages) [PHYSTOP - PGSIZE] []
        (k.setProc 0 { k.proc 0 with state := .RUNNING }) g [] := by
    intro k g hwf hpt
    have hstate : (k.proc 0).state ≠ .UNUSED := fun h0 => hpt ((hwf.proc 0).unused h0).1
    refine hwf.set rfl rfl rfl rfl ((hwf.proc 0).congr ⟨hstate, nofun⟩ rfl ?_)
    rintro (h0 | h0) <;> cases h0
  obtain ⟨res, k, hrun, _, _, _, hres⟩ := allocproc_spec (smallEnv_ok h) (bareKernel_wf h0 h)
  unfold firstMachine at hpt ⊢
  rw [hrun] at hpt ⊢
  have hpt' : (k.proc 0).pagetable ≠ 0 := by
    simpa [Kernel.setProc] using hpt
  rcases hres with ⟨_, hwf, _⟩ | ⟨i, pid, tf, t, _, _, _, hwf⟩
  · exact ⟨_, _, hset hwf hpt'⟩
  · exact ⟨_, _, hset hwf hpt'⟩

theorem firstMachine_twenty : (smallEnv 20).Ok ∧
    (firstMachine 20).WellFormed (smallEnv 20) [PHYSTOP - PGSIZE] :=
  ⟨smallEnv_ok (by decide),
    firstMachine_wellFormed (by decide) (by decide) (by decide +kernel)⟩

namespace Machine

/-- The first process forks, its child exits and is waited for. -/
theorem memory_partitioned_child :
    ∃ m₁ m₂ m₃ m₄, (firstMachine 20).step (smallEnv 20) (.fork 0) = .next m₁ ∧
      m₁.step (smallEnv 20) (.run 1) = .next m₂ ∧ m₂.step (smallEnv 20) (.exit 1 7) = .next m₃ ∧
      m₃.step (smallEnv 20) (.wait 0 0) = .next m₄ ∧
      m₄.kernel.Partition (smallEnv 20) [PHYSTOP - PGSIZE] ∧
      m₄.kernel.phys.kmem.freelist.length
        = (firstMachine 20).kernel.phys.kmem.freelist.length := by
  obtain ⟨hE, hwf⟩ := firstMachine_twenty
  obtain ⟨m₃, hrun, hz⟩ := Outcome.exists_of_check
    (x := exec (step (smallEnv 20)) (firstMachine 20) [.fork 0, .run 1, .exit 1 7])
    (t := fun m => decide ((∀ q, (m.kernel.proc q).state = .ZOMBIE ↔ q = 1) ∧
      (m.kernel.proc 1).parent = some 0 ∧ (m.kernel.proc 0).state = .RUNNING)) (by decide +kernel)
  obtain ⟨hzombie, hparent, hrunning⟩ := of_decide_eq_true hz
  obtain ⟨m₁, hfork, hrest⟩ := Outcome.bind_eq_next hrun
  obtain ⟨m₂, hsched, hrest⟩ := Outcome.bind_eq_next hrest
  obtain ⟨_, hexit, hrest⟩ := Outcome.bind_eq_next hrest
  cases hrest
  have hlive : (m₁.kernel.proc 1).state ≠ .UNUSED := by
    intro h0
    simp only [step] at hsched
    rw [if_neg (by rw [h0]; decide)] at hsched
    cases hsched
  obtain ⟨g, pipes, hwf3⟩ := ((memory_partitioned hE hwf _).2 m₃ hrun).1
  obtain ⟨r, k4, hwait, _, hres⟩ := wait_spec hE hwf3 hrunning 0
  have hstep : m₃.step (smallEnv 20) (.wait 0 0) = .next { m₃ with kernel := k4 } := by
    simp only [step, callBy]
    rw [if_pos hrunning, after, outcome_of_ok hwait]
  have hreap : (k4.proc 1).state = .UNUSED := by
    rcases hres with ⟨_, _, hno⟩ | ⟨pp, hpp, hproc, _⟩
    · exact absurd ((hzombie 1).mpr rfl) (hno rfl 1 hparent)
    · rw [hproc, (hzombie pp).mp hpp, update_self]
      rfl
  have hcalls : exec (step (smallEnv 20)) (firstMachine 20) [.fork 0, .run 1, .exit 1 7, .wait 0 0]
      = .next { m₃ with kernel := k4 } := by
    simp only [exec_cons, exec_nil, hfork, hsched, hexit, hstep, Outcome.bind_next]
  refine ⟨m₁, m₂, m₃, _, hfork, hsched, hexit, hstep,
    ((memory_partitioned hE hwf _).2 _ hcalls).2.1, ?_⟩
  have hsched1 : exec (step (smallEnv 20)) m₁ [.run 1] = .next m₂ := by
    rw [exec_cons, hsched]
    rfl
  have hsched2 : exec (step (smallEnv 20)) m₃ [] = .next m₃ := rfl
  exact ((memory_partitioned hE hwf []).2 (firstMachine 20) rfl).2.2 hfork
    ⟨by decide +kernel, hlive⟩ (by simp [Call.isSched]) hsched1 hexit (by simp) hsched2 hstep hreap

end Machine

end Xv6
