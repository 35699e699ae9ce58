import Xv6.Proc.Lives

/-!
# The other calls

Closing and duplicating files, pipes, `exit`, `wait`, `kill`, `exec` and the
calls that change a process's own memory, each with what it leaves of `Wf`. A
reference to a file that is on its way between the kernel and a process's table
is counted in `held`.
-/

namespace Xv6

open Function List Sys
open PageTree
open Cpus (ProcState)

variable {E : Env} {F : List Nat} {held : List (Fin NFILE)} {k : Kernel}
  {g : Spaces NPROC} {pipes : List Nat} {p : Fin NPROC}
  {fd : Fin NOFILE} {f : Fin NFILE}

/-! ## References on their way -/

theorem Wf.pagetable_ne (h : Wf E F held k g pipes) (hp : (k.proc p).state = .RUNNING) :
    (k.proc p).pagetable ≠ 0 :=
  (h.proc p).used (by rw [hp]; decide)

/-- The kernel with `o` in the descriptor `fd` of `p`. -/
def Kernel.setFd (k : Kernel) (p : Fin NPROC) (fd : Fin NOFILE) (o : Option (Fin NFILE)) : Kernel :=
  k.setProc p { k.proc p with ofile := update (k.proc p).ofile fd o }

section

variable (k p fd) (o : Option (Fin NFILE))

theorem clearFd_run : clearFd p fd k = .ok ((), k.setFd p fd none) := rfl

theorem Kernel.setFd_proc : (k.setFd p fd o).proc = update k.proc p
    { k.proc p with ofile := update (k.proc p).ofile fd o } := rfl

theorem Kernel.setFd_self : (k.setFd p fd o).proc p
    = { k.proc p with ofile := update (k.proc p).ofile fd o } :=
  update_self ..

theorem Kernel.setFd_state : ((k.setFd p fd o).proc p).state = (k.proc p).state := by
  rw [k.setFd_self]

theorem Kernel.setFd_ofile (fd' : Fin NOFILE) :
    ((k.setFd p fd o).proc p).ofile fd' = if fd' = fd then o else (k.proc p).ofile fd' := by
  rw [k.setFd_self, ← update_apply]

end

theorem procPages_mem {q : Nat} (hq : q ∈ k.procPages g) : q ∈ k.procPages g ++ F :=
  mem_append_left _ hq

/-- A descriptor of a running process changes, and with it the counts. -/
theorem Wf.setFd (h : Wf E F held k g pipes) (hp : (k.proc p).state = .RUNNING) {s : Phys}
    {file : Fin NFILE → File} {o : Option (Fin NFILE)} {R : Fin NFILE → Int}
    {held' : List (Fin NFILE)} {pipes' : List Nat}
    (hfiles : FilesOk s.kmem.mem file R pipes')
    (hacct : Acct E s.kmem (pipes' ++ (k.procPages g ++ F)))
    (hmem : ∀ q ∈ k.procPages g, s.kmem.mem q = k.phys.kmem.mem q)
    (hR : ∀ f, R f = refs k.proc held' f - (if (k.proc p).ofile fd = some f then 1 else 0)
      + if o = some f then 1 else 0) :
    Wf E F held' (({ k with phys := s, file := file } : Kernel).setFd p fd o) g pipes' := by
  have hrefs : refs (Kernel.setFd { k with phys := s, file := file } p fd o).proc held' = R :=
    funext fun f => (refs_setFd o _ rfl f).trans (hR f).symm
  refine h.refile hacct hmem (fun q => ?_) (hrefs.symm ▸ hfiles) fun q => ?_ <;>
    rw [Kernel.setFd_proc] <;> by_cases hq : q = p
  · rw [hq, update_self]
    exact ⟨rfl, rfl, rfl⟩
  · rw [update_of_ne hq]
    exact ⟨rfl, rfl, rfl⟩
  · rw [hq, update_self]
    have hstate : (k.proc p).state ≠ .UNUSED := by rw [hp]; decide
    refine (h.proc p).congr ⟨hstate, hstate⟩ rfl fun h0 => ?_
    simp only [hp] at h0
    rcases h0 with h0 | h0 <;> cases h0
  · rw [update_of_ne hq]
    exact h.proc q

/-- **Closing a file the kernel has** outside the processes' tables. -/
theorem Wf.fileclose_held (hE : E.Ok) (h : Wf E F (f :: held) k g pipes) :
    ∃ s file pipes', fileclose E f k = .ok ((), { k with phys := s, file := file }) ∧
      Wf E F held { k with phys := s, file := file } g pipes' := by
  have hone : 1 ≤ refs k.proc (f :: held) f := by
    have := refs_nonneg k.proc held f
    rw [refs_cons, if_pos rfl]
    omega
  obtain ⟨s, file, pipes', hrun, hfiles, hacct, hmem, _⟩ := fileclose_spec hE h.files h.acct hone
  refine ⟨s, file, pipes', hrun, h.refile hacct (fun q hq => hmem q (procPages_mem hq))
    (fun _ => ⟨rfl, rfl, rfl⟩) ?_ h.proc⟩
  have hrefs : update (refs k.proc (f :: held)) f (refs k.proc (f :: held) f - 1)
      = refs k.proc held := by
    funext f'
    by_cases hf : f' = f
    · subst hf
      rw [update_self, refs_cons, if_pos rfl]
      omega
    · rw [update_of_ne hf, refs_cons, if_neg (Ne.symm hf), add_zero]
  rw [← hrefs]
  exact hfiles

/-- A process's reference is gone from its table and from the file's count. -/
theorem Wf.closedFd (h : Wf E F held k g pipes) (hp : (k.proc p).state = .RUNNING)
    (hfd : (k.proc p).ofile fd = some f) {s : Phys} {file : Fin NFILE → File} {pipes' : List Nat}
    (hfiles : FilesOk s.kmem.mem file
      (update (refs k.proc held) f (refs k.proc held f - 1)) pipes')
    (hacct : Acct E s.kmem (pipes' ++ (k.procPages g ++ F)))
    (hmem : ∀ q ∈ k.procPages g ++ F, s.kmem.mem q = k.phys.kmem.mem q) :
    Wf E F held (({ k with phys := s, file := file } : Kernel).setFd p fd none) g pipes' := by
  refine h.setFd hp hfiles hacct (fun q hq => hmem q (procPages_mem hq)) fun f' => ?_
  by_cases hf : f' = f
  · simp [hf, hfd]
  · simp [hf, hfd, Ne.symm hf]

/-- A reference goes from the kernel to a process's table. -/
theorem Wf.giveFd (h : Wf E F (f :: held) k g pipes) (hp : (k.proc p).state = .RUNNING)
    (hfd : (k.proc p).ofile fd = none) : Wf E F held (k.setFd p fd (some f)) g pipes :=
  h.setFd hp h.files h.acct (fun _ _ => rfl) fun f' => by simp [refs_cons, hfd]

/-- And back. -/
theorem Wf.takeFd (h : Wf E F held k g pipes) (hp : (k.proc p).state = .RUNNING)
    (hfd : (k.proc p).ofile fd = some f) : Wf E F (f :: held) (k.setFd p fd none) g pipes :=
  h.setFd hp h.files h.acct (fun _ _ => rfl) fun f' => by simp [refs_cons, hfd]

/-! ## `close`, `dup` and `pipe` -/

theorem fdalloc_cases (p : Fin NPROC) (f : Fin NFILE) (k : Kernel) : fdalloc p f k = .ok (none, k) ∨
    ∃ fd, (k.proc p).ofile fd = none ∧
      fdalloc p f k = .ok (some fd, k.setFd p fd (some f)) := by
  cases hfind : (List.finRange NOFILE).find? (fun fd => (k.proc p).ofile fd = none) with
  | none =>
    refine .inl ?_
    simp only [fdalloc, reads_bind_run, hfind]
    rfl
  | some fd =>
    refine .inr ⟨fd, by simpa using find?_some hfind, ?_⟩
    simp only [fdalloc, reads_bind_run, hfind]
    rfl

theorem sysDup_spec (h : Wf E F held k g pipes) (hp : (k.proc p).state = .RUNNING)
    (fd : Fin NOFILE) : ∃ r k', sysDup p fd k = .ok (r, k') ∧ Wf E F held k' g pipes := by
  simp only [sysDup, reads_bind_run]
  cases hfd : (k.proc p).ofile fd with
  | none => exact ⟨-1, k, rfl, h⟩
  | some f =>
    simp only
    rcases fdalloc_cases p f k with hrun | ⟨fd', hfree, hrun⟩
    · rw [bind_of_ok hrun]
      exact ⟨-1, k, rfl, h⟩
    rw [bind_of_ok hrun]
    obtain ⟨file, hdup, hfiles⟩ := filedup_spec (k := k.setFd p _ _) h.files (refs_pos held hfd)
    simp only
    rw [bind_of_ok hdup]
    refine ⟨_, _, rfl, h.setFd hp hfiles h.acct (fun _ _ => rfl) fun f' => ?_⟩
    by_cases hf : f' = f
    · simp [hf, hfree]
    · simp [hf, hfree, Ne.symm hf]

/-- **`pipealloc`**: the caller gets a reference to each end. -/
theorem Wf.pipealloc (hE : E.Ok) (h : Wf E F held k g pipes) :
    (∃ s, Xv6.pipealloc E k = .ok (none, { k with phys := s }) ∧ s.kmem = k.phys.kmem ∧
      Wf E F held { k with phys := s } g pipes) ∨
    ∃ f0 f1 s file pipes',
      Xv6.pipealloc E k = .ok (some (f0, f1), { k with phys := s, file := file }) ∧
      Wf E F (f0 :: f1 :: held) { k with phys := s, file := file } g pipes' := by
  rcases pipealloc_spec hE h.files h.acct with ⟨s, hrun, hkmem⟩ |
    ⟨f0, f1, s, file, pipes', hrun, hne, h0, h1, hacct, hmem, hfiles⟩
  · refine .inl ⟨s, hrun, hkmem, h.refile (by simpa [hkmem] using h.acct) (fun q _ => by rw [hkmem])
      (fun _ => ⟨rfl, rfl, rfl⟩) ?_ h.proc⟩
    rw [hkmem]
    exact h.files
  · refine .inr ⟨f0, f1, s, file, pipes', hrun, h.refile hacct (fun q hq =>
      hmem q (procPages_mem hq))
      (fun _ => ⟨rfl, rfl, rfl⟩) ?_ h.proc⟩
    have hrefs : refs k.proc (f0 :: f1 :: held)
        = update (update (refs k.proc held) f0 1) f1 1 := by
      funext f
      rw [refs_cons, refs_cons]
      by_cases hf1 : f = f1
      · subst hf1
        simp [hne, h1]
      · by_cases hf0 : f = f0
        · subst hf0
          simp [hf1, Ne.symm hf1, h0]
        · simp [hf0, hf1, Ne.symm hf0, Ne.symm hf1]
    rw [hrefs]
    exact hfiles

theorem Wf.held_perm (h : Wf E F held k g pipes) {held' : List (Fin NFILE)}
    (hperm : held.Perm held') : Wf E F held' k g pipes where
  slots := h.slots
  files := by
    have hrefs : refs k.proc held' = refs k.proc held := by
      funext f
      unfold refs
      rw [hperm.count_eq]
    rw [hrefs]
    exact h.files
  proc := h.proc

theorem Wf.fileclose_both (hE : E.Ok) {f0 f1 : Fin NFILE}
    (h : Wf E F (f0 :: f1 :: held) k g pipes) :
    ∃ k' pipes', (do fileclose E f0; fileclose E f1; pure (-1) : Sys Kernel Int) k = .ok (-1, k') ∧
      Wf E F held k' g pipes' := by
  obtain ⟨s1, file1, pipes1, hrun1, hwf1⟩ := h.fileclose_held hE
  obtain ⟨s2, file2, pipes2, hrun2, hwf2⟩ := hwf1.fileclose_held hE
  refine ⟨_, pipes2, ?_, hwf2⟩
  rw [bind_of_ok hrun1, bind_of_ok hrun2]
  rfl

section

variable (hE : E.Ok) (h : Wf E F held k g pipes) (hp : (k.proc p).state = .RUNNING)

include hE h hp

theorem sysClose_spec (fd : Fin NOFILE) :
    ∃ r k' pipes', sysClose E p fd k = .ok (r, k') ∧ Wf E F held k' g pipes' := by
  simp only [sysClose, reads_bind_run]
  cases hfd : (k.proc p).ofile fd with
  | none => exact ⟨-1, k, pipes, rfl, h⟩
  | some f =>
    obtain ⟨s, file, pipes', hrun, hwf⟩ := (h.takeFd hp hfd).fileclose_held hE
    refine ⟨0, _, pipes', ?_, hwf⟩
    simp only
    rw [bind_of_ok (clearFd_run ..), bind_of_ok hrun]
    rfl

/-- `pipe` after both descriptors were allocated and one could not be copied
    out. -/
theorem Wf.unpipe {rf wf : Fin NFILE} {fd0 fd1 : Fin NOFILE} (hne : fd1 ≠ fd0)
    (h0 : (k.proc p).ofile fd0 = some rf) (h1 : (k.proc p).ofile fd1 = some wf) :
    ∃ k' pipes', (do clearFd p fd0; clearFd p fd1; fileclose E rf; fileclose E wf; pure (-1)
        : Sys Kernel Int) k = .ok (-1, k') ∧ Wf E F held k' g pipes' := by
  rw [bind_of_ok (clearFd_run ..), bind_of_ok (clearFd_run ..)]
  have h1' : ((k.setFd p fd0 none).proc p).ofile fd1 = some wf := by
    rw [k.setFd_ofile, if_neg hne]
    exact h1
  have hwf2 := (h.takeFd hp h0).takeFd ((k.setFd_state ..).trans hp) h1'
  exact (hwf2.held_perm (List.Perm.swap rf wf held)).fileclose_both hE

/-- **`pipe`** keeps the page only if the caller got both descriptors. -/
theorem sysPipe_spec (fdarray : Nat) :
    ∃ r k' pipes', sysPipe E p fdarray k = .ok (r, k') ∧ Wf E F held k' g pipes' := by
  unfold sysPipe
  rcases h.pipealloc hE with ⟨s, hrun, _, hwf⟩ | ⟨rf, wf, s, file, pipes1, hrun, hwf1⟩
  · rw [bind_of_ok hrun]
    exact ⟨-1, _, pipes, rfl, hwf⟩
  rw [bind_of_ok hrun]
  simp only
  generalize hk1 : ({ k with phys := s, file := file } : Kernel) = k1 at hwf1 ⊢
  have hp1 : (k1.proc p).state = .RUNNING := by
    rw [← hk1]
    exact hp
  rcases fdalloc_cases p rf k1 with hfd | ⟨fd0, hfree0, hfd⟩
  · rw [bind_of_ok hfd]
    obtain ⟨k', pipes', hrun', hwf'⟩ := hwf1.fileclose_both hE
    exact ⟨-1, k', pipes', hrun', hwf'⟩
  rw [bind_of_ok hfd]
  simp only
  have hwf2 := hwf1.giveFd hp1 hfree0
  have hp2 := (k1.setFd_state p fd0 (some rf)).trans hp1
  have hof2 : ((k1.setFd p fd0 (some rf)).proc p).ofile fd0 = some rf := by
    rw [k1.setFd_ofile, if_pos rfl]
  generalize k1.setFd p fd0 (some rf) = k2 at hwf2 hp2 hof2 ⊢
  rcases fdalloc_cases p wf k2 with hfd' | ⟨fd1, hfree1, hfd'⟩
  · rw [bind_of_ok hfd']
    simp only
    rw [bind_of_ok (clearFd_run ..)]
    obtain ⟨k', pipes', hrun', hwf'⟩ := (hwf2.takeFd hp2 hof2).fileclose_both hE
    exact ⟨-1, k', pipes', hrun', hwf'⟩
  rw [bind_of_ok hfd']
  simp only
  have hwf3 := hwf2.giveFd hp2 hfree1
  have hp3 := (k2.setFd_state p fd1 (some wf)).trans hp2
  have hof3 := k2.setFd_ofile p fd1 (some wf)
  generalize k2.setFd p fd1 (some wf) = k3 at hwf3 hp3 hof3 ⊢
  have hne : fd1 ≠ fd0 := by
    rintro rfl
    rw [hof2] at hfree1
    cases hfree1
  have hof0 : (k3.proc p).ofile fd0 = some rf := (hof3 fd0).trans ((if_neg hne.symm).trans hof2)
  have hof1 : (k3.proc p).ofile fd1 = some wf := (hof3 fd1).trans (if_pos rfl)
  have hpt := hwf3.pagetable_ne hp3
  obtain ⟨r0, s4, hrun4, hwf4, _⟩ := hwf3.copyoutInt hpt fdarray fd0
  rw [bind_of_ok hrun4]
  by_cases hr0 : r0 < 0
  · rw [if_pos hr0, pure_bind_run, if_pos (by decide)]
    obtain ⟨k', pipes', hrun', hwf'⟩ := hwf4.unpipe hE (p := p) hp3 hne hof0 hof1
    exact ⟨-1, k', pipes', hrun', hwf'⟩
  rw [if_neg hr0]
  obtain ⟨r1, s5, hrun5, hwf5, _⟩ := hwf4.copyoutInt (p := p) hpt ((fdarray + 4) % 2 ^ 64) fd1
  rw [bind_of_ok hrun5]
  by_cases hr1 : r1 < 0
  · rw [if_pos hr1]
    obtain ⟨k', pipes', hrun', hwf'⟩ := hwf5.unpipe hE (p := p) hp3 hne hof0 hof1
    exact ⟨-1, k', pipes', hrun', hwf'⟩
  · rw [if_neg hr1]
    exact ⟨0, _, _, rfl, hwf5⟩

end

/-! ## The parts of `exit` -/

/-- Another process has all of `p`'s open files too. -/
def Shared (k : Kernel) (p : Fin NPROC) : Prop :=
  ∃ q, q ≠ p ∧ ∀ fd f, (k.proc p).ofile fd = some f → ∃ fd', (k.proc q).ofile fd' = some f

theorem Shared.two_refs {k : Kernel} (h : Shared k p) (held : List (Fin NFILE))
    (hfd : (k.proc p).ofile fd = some f) : 2 ≤ refs k.proc held f := by
  obtain ⟨q, hq, hsh⟩ := h
  obtain ⟨fd', hfd'⟩ := hsh fd f hfd
  have hrefs : refs (k.setFd p fd none).proc held f = _ := refs_setFd none _ rfl f
  have hq' : ((k.setFd p fd none).proc q).ofile fd' = some f := by
    rw [k.setFd_proc, update_of_ne hq]
    exact hfd'
  have hpos := refs_pos held hq'
  rw [hfd, if_pos rfl, if_neg (by nofun)] at hrefs
  omega

/-- **The loop of `exit` over the open files**. If another process has them all,
    no pipe goes. -/
theorem closeFiles_spec (hE : E.Ok) : ∀ {fds : List (Fin NOFILE)} {k : Kernel} {pipes : List Nat},
    Wf E F held k g pipes → (k.proc p).state = .RUNNING →
    ∃ k' pipes' of', closeFiles E p fds k = .ok ((), k') ∧ Wf E F held k' g pipes' ∧
      k'.proc = update k.proc p { k.proc p with ofile := of' } ∧
      k'.initproc = k.initproc ∧ (∀ fd ∈ fds, of' fd = none) ∧
      (∀ fd, of' fd = none ∨ of' fd = (k.proc p).ofile fd) ∧ (Shared k p → pipes' = pipes) := by
  intro fds
  induction fds with
  | nil =>
    intro k pipes h _
    refine ⟨k, pipes, (k.proc p).ofile, rfl, h, ?_, rfl, nofun, fun _ => .inr rfl, fun _ => rfl⟩
    exact (update_eq_self _ _).symm
  | cons fd fds ih =>
    intro k pipes h hp
    simp only [closeFiles, reads_bind_run]
    cases hfd : (k.proc p).ofile fd with
    | none =>
      obtain ⟨k', pipes', of', hrun, hwf, hproc, hinit, hnone, hof, hsame⟩ := ih h hp
      refine ⟨k', pipes', of', hrun, hwf, hproc, hinit, fun fd' h' => ?_, hof, hsame⟩
      rcases mem_cons.mp h' with rfl | h'
      · rcases hof fd' with h0 | h0
        · exact h0
        · rw [h0, hfd]
      · exact hnone fd' h'
    | some f =>
      obtain ⟨s, file, pipes1, hrun, hfiles, hacct, hmem, hsame⟩ := fileclose_spec hE h.files h.acct
        (refs_pos held hfd)
      have hwf1 := h.closedFd hp hfd hfiles hacct hmem
      simp only
      rw [bind_of_ok hrun, bind_of_ok (clearFd_run ..)]
      generalize hk1 : Kernel.setFd _ p fd none = k1 at hwf1 ⊢
      have hproc1 : k1.proc = (k.setFd p fd none).proc := hk1 ▸ rfl
      have hx1 := (congrFun hproc1 p).trans (k.setFd_self p fd none)
      obtain ⟨k', pipes', of', hrun', hwf', hproc', hinit', hnone, hof, hsame'⟩ := ih hwf1
        (by rw [hx1]; exact hp)
      have hof1 : ∀ fd', of' fd' = none ∨ of' fd' = (k.proc p).ofile fd' := by
        intro fd'
        rcases hof fd' with h0 | h0
        · exact .inl h0
        · rw [hx1] at h0
          by_cases he : fd' = fd
          · subst he
            exact .inl (h0.trans (update_self ..))
          · exact .inr (h0.trans (update_of_ne he _ _))
      refine ⟨k', pipes', of', hrun', hwf', ?_, ?_, fun fd' h' => ?_, hof1, fun hsh => ?_⟩
      · rw [hproc', hx1, hproc1, k.setFd_proc, update_idem]
      · rw [hinit', ← hk1]
        rfl
      · rcases mem_cons.mp h' with rfl | h'
        · rcases hof fd' with h0 | h0
          · exact h0
          · rw [h0, hx1]
            exact update_self ..
        · exact hnone fd' h'
      · obtain ⟨_, rfl⟩ := hsame (.inl (hsh.two_refs held hfd))
        refine hsame' ?_
        obtain ⟨q, hq, hsh⟩ := hsh
        refine ⟨q, hq, fun fd' f' hfd' => ?_⟩
        rw [hproc1, k.setFd_proc, update_of_ne hq]
        rw [hx1] at hfd'
        by_cases he : fd' = fd
        · subst he
          simp only [update_self] at hfd'
          cases hfd'
        · simp only [update_of_ne he] at hfd'
          exact hsh fd' f' hfd'

/-- What `wakeup` and `reparent` do to a slot: nothing to one that is not asleep
    but give it another parent. -/
structure Woken (x x' : Proc) : Prop where
  same : { x' with parent := x.parent, state := x.state } = x
  state : x'.state = x.state ∨ x.state = .SLEEPING ∧ x'.state = .RUNNABLE

namespace Woken

theorem rfl' (x : Proc) : Woken x x := ⟨rfl, .inl rfl⟩

theorem trans {x x' x'' : Proc} (h : Woken x x') (h' : Woken x' x'') : Woken x x'' where
  same := by
    have h1 := h.same
    rw [← h'.same] at h1
    exact h1
  state := by
    rcases h.state with h1 | ⟨h1, h2⟩
    · rw [← h1]
      exact h'.state
    · rcases h'.state with h3 | ⟨h3, _⟩
      · exact .inr ⟨h1, h3.trans h2⟩
      · rw [h2] at h3
        cases h3

theorem ok {x x' : Proc} (h : Woken x x') (hx : x.Ok) : x'.Ok := by
  have hsame := h.same
  rcases h.state with h1 | ⟨h1, h2⟩
  · refine ⟨fun h0 => ?_, fun h0 => ?_, fun h0 => ?_⟩
    · have := hx.unused (h1 ▸ h0)
      rw [← hsame] at this
      exact this
    · have := hx.used (h1 ▸ h0)
      rw [← hsame] at this
      exact this
    · have := hx.closed (h1 ▸ h0)
      rw [← hsame] at this
      exact this
  · have hpt : x'.pagetable = x.pagetable := by rw [← hsame]
    refine hx.congr ⟨by rw [h1]; decide, by rw [h2]; decide⟩ hpt ?_
    rw [h2]
    rintro (h0 | h0) <;> cases h0

end Woken

theorem Wf.woken (h : Wf E F held k g pipes) {k' : Kernel} (hphys : k'.phys = k.phys)
    (hfile : k'.file = k.file) (hw : ∀ q, Woken (k.proc q) (k'.proc q)) :
    Wf E F held k' g pipes := by
  refine h.quiet hphys hfile (fun q => ?_) (fun q => ?_) fun q => (hw q).ok (h.proc q)
  · rw [← (hw q).same]
    exact ⟨rfl, rfl, rfl⟩
  · rw [← (hw q).same]

theorem wakeup_run (p : Fin NPROC) (chan : Nat) (k : Kernel) :
    ∃ proc', wakeup p chan k = .ok ((), { k with proc := proc' }) ∧
      ∀ q, Woken (k.proc q) (proc' q) := by
  refine ⟨_, rfl, fun q => ?_⟩
  simp only
  split
  · rename_i hq
    refine ⟨?_, .inr ⟨hq.2.1, rfl⟩⟩
    rfl
  · exact Woken.rfl' _

theorem reparent_run (p : Fin NPROC) : ∀ (pps : List (Fin NPROC)) (k : Kernel),
    ∃ proc', reparent p pps k = .ok ((), { k with proc := proc' }) ∧
      ∀ q, Woken (k.proc q) (proc' q) := by
  intro pps
  induction pps with
  | nil => exact fun k => ⟨k.proc, rfl, fun q => Woken.rfl' _⟩
  | cons pp pps ih =>
    intro k
    simp only [reparent, reads_bind_run]
    by_cases hpp : (k.proc pp).parent = some p
    · rw [if_pos hpp, reads_bind_run, updateProc_bind]
      obtain ⟨proc1, hrun1, hw1⟩ := wakeup_run p (procPtr k.initproc)
        (k.setProc pp { k.proc pp with parent := k.initproc })
      obtain ⟨proc2, hrun2, hw2⟩ := ih { k with proc := proc1 }
      refine ⟨proc2, ?_, fun q => ?_⟩
      · rw [bind_of_ok hrun1]
        exact hrun2
      · refine Woken.trans ?_ ((hw1 q).trans (hw2 q))
        by_cases hq : q = pp
        · subst hq
          rw [Kernel.setProc_proc, update_self]
          exact ⟨rfl, .inl rfl⟩
        · rw [Kernel.setProc_proc, update_of_ne hq]
          exact Woken.rfl' _
    · rw [if_neg hpp]
      exact ih k

/-! ## `kill`, and the parts of `exec` -/

theorem kill_spec (h : Wf E F held k g pipes) (pid : BitVec 32) :
    ∃ r k', kill pid k = .ok (r, k') ∧ Wf E F held k' g pipes ∧ k'.initproc = k.initproc := by
  simp only [kill, reads_bind_run]
  cases hfind : (List.finRange NPROC).find? (fun p => (k.proc p).pid = pid) with
  | none => exact ⟨-1, k, rfl, h, rfl⟩
  | some p =>
    simp only
    rw [updateProc_bind]
    refine ⟨0, _, rfl, h.set rfl rfl rfl rfl ?_, rfl⟩
    have hok := h.proc p
    by_cases hs : (k.proc p).state = .SLEEPING
    · refine hok.congr ⟨by rw [hs]; decide, by simp [hs]⟩ rfl ?_
      simp [hs]
    · exact ⟨by simpa [hs] using hok.unused, by simpa [hs] using hok.used,
        by simpa [hs] using hok.closed⟩

/-- Memory that no process and no pipe has is changed. -/
theorem Wf.outside (h : Wf E F held k g pipes) {F' : List Nat} {s : Phys}
    (hacct : Acct E s.kmem (k.procPages g ++ (pipes ++ F')))
    (hmem : ∀ q ∈ k.procPages g ++ pipes, s.kmem.mem q = k.phys.kmem.mem q) :
    Wf E F' held { k with phys := s } g pipes := by
  refine h.refile (hacct.perm ?_) (fun q hq => hmem q (mem_append_left _ hq))
    (fun _ => ⟨rfl, rfl, rfl⟩)
    (h.files.congr fun q hq => hmem q (mem_append_right _ hq)) h.proc
  rw [← append_assoc, ← append_assoc]
  exact perm_append_comm.append_right F'

/-- The trapframe page with the registers that the new program starts with. -/
def Image.regs (im : Image) (page : Bytes) : Bytes :=
  ((page.setLE 120 8 im.sp).setLE 24 8 im.entry).setLE 48 8 im.sp

theorem setRegs_run (tf : Nat) (im : Image) (s : Phys) :
    ∃ s', setRegs tf im.entry im.sp s = .ok ((), s') ∧
      (∀ q, q ≠ tf → s'.kmem.mem q = s.kmem.mem q) ∧
      s'.kmem.mem tf = im.regs (s.kmem.mem tf) ∧
      ∀ {L}, Acct E s.kmem L → Acct E s'.kmem L := by
  refine ⟨_, rfl, fun q hq => ?_, ?_, fun h => h.congr rfl rfl rfl rfl⟩
  · simp only [Phys.setMem, update_of_ne hq]
  · simp only [Phys.setMem, update_self, Image.regs]

theorem ledger_perm (g : Spaces NPROC) (L : List Nat)
    (htf : (k.proc p).trapframe ≠ 0) :
    (k.procPages g ++ L).Perm ((g p).1.pages ++ ((g p).2.map Prod.fst ++
      (k.proc p).trapframe :: k.rest g L p)) := by
  have hledger := Slots.perm_at Proc.owned k.proc g L p
  rwa [Proc.owned_of_trapframe htf] at hledger

/-- What `exec` has done to the kernel when it commits to an image built in
    `s`. -/
structure Committed (k : Kernel) (p : Fin NPROC) (im : Image) (s : Phys) (t : PageTree 2)
    (u : Pages) (k' : Kernel) : Prop where
  init : k'.initproc = k.initproc
  file : k'.file = k.file
  proc : k'.proc = update k.proc p
    { k.proc p with pagetable := im.pagetable, sz := im.sz }
  mem : ∀ q ∈ t.pages ++ u.map Prod.fst, k'.phys.kmem.mem q = s.kmem.mem q
  regs : k'.phys.kmem.mem (k.proc p).trapframe = im.regs (s.kmem.mem (k.proc p).trapframe)

theorem execProg_none (h : Wf E F held k g pipes) {readi : Readi} {argv : Args}
    {ustack : Bytes} {s1 : Phys}
    (hrun : execImage E (k.proc p).trapframe readi argv ustack k.phys = .ok (none, s1))
    (hmem : ∀ q ∈ k.procPages g ++ (pipes ++ F), s1.kmem.mem q = k.phys.kmem.mem q)
    (hacct : Acct E s1.kmem (k.procPages g ++ (pipes ++ F))) :
    execProg E p (some readi) argv ustack k = .ok (-1, { k with phys := s1 }) ∧
      Wf E F held { k with phys := s1 } g pipes := by
  simp only [execProg, reads_bind_run]
  rw [bind_of_ok (onPhys_of_ok hrun)]
  refine ⟨rfl, h.outside hacct fun q hq => hmem q ?_⟩
  rw [← append_assoc]
  exact mem_append_left _ hq

/-! ## `exit`, `wait`, memory and `exec` -/

section

variable (hE : E.Ok) (h : Wf E F held k g pipes) (hp : (k.proc p).state = .RUNNING)

include hE h hp

/-- **`exit`** leaves a zombie with its memory and no open file. -/
theorem exit_spec (hinit : k.initproc ≠ some p) (status : Int) :
    ∃ k' pipes', exit E p status k = .ok ((), k') ∧ Wf E F held k' g pipes' ∧
      k'.initproc = k.initproc ∧ (k'.proc p).state = .ZOMBIE ∧ (Shared k p → pipes' = pipes) := by
  simp only [exit, reads_bind_run]
  rw [if_neg hinit]
  obtain ⟨k1, pipes1, of', hrun1, hwf1, hproc1, hinit1, hnone, _, hsame⟩ := closeFiles_spec hE h hp
  rw [bind_of_ok hrun1]
  obtain ⟨proc2, hrun2, hw2⟩ := reparent_run p (List.finRange NPROC) k1
  rw [bind_of_ok hrun2]
  simp only [reads_bind_run]
  obtain ⟨proc3, hrun3, hw3⟩ := wakeup_run p (procPtr (proc2 p).parent) { k1 with proc := proc2 }
  rw [bind_of_ok hrun3, updateProc_run]
  have hw : ∀ q, Woken (k1.proc q) (proc3 q) := fun q => (hw2 q).trans (hw3 q)
  have hwf3 : Wf E F held { k1 with proc := proc3 } g pipes1 := hwf1.woken rfl rfl hw
  have hof : ∀ fd, (proc3 p).ofile fd = none := by
    intro fd
    have hsame := congrArg Proc.ofile (hw p).same
    simp only at hsame
    rw [hsame, hproc1, update_self]
    exact hnone fd (mem_finRange fd)
  have hstate : (proc3 p).state ≠ .UNUSED := by
    have hrun : (k1.proc p).state = .RUNNING := by
      rw [hproc1, update_self]
      exact hp
    rcases (hw p).state with h0 | ⟨h0, _⟩
    · rw [h0, hrun]
      decide
    · rw [hrun] at h0
      cases h0
  refine ⟨_, pipes1, rfl, hwf3.set rfl rfl rfl rfl ?_, hinit1, ?_, hsame⟩
  · exact (hwf3.proc p).congr ⟨hstate, nofun⟩ rfl fun _ => hof
  · rw [Kernel.setProc_proc, update_self]

/-- **`wait`** frees the memory of the child it reaps, and of no other. If it
    reaps none, then there is none, or the status could not be copied out. -/
theorem wait_spec (addr : Nat) : ∃ r k', wait E p addr k = .ok (r, k') ∧ k'.initproc = k.initproc ∧
      (Wf E F held k' g pipes ∧ (∀ q, (k'.proc q).state = .UNUSED → (k.proc q).state = .UNUSED) ∧
          (addr = 0 → ∀ q, (k.proc q).parent = some p → (k.proc q).state ≠ .ZOMBIE) ∨
        ∃ pp, (k.proc pp).state = .ZOMBIE ∧
          k'.proc = update k.proc pp (k.proc pp).freed ∧
          Wf E F held k' (update g pp (absent, [])) pipes) := by
  have hpt := h.pagetable_ne hp
  cases hfind : (List.finRange NPROC).find? (fun pp =>
      (k.proc pp).parent = some p ∧ (k.proc pp).state = .ZOMBIE) with
  | none =>
    have hno : ∀ q, (k.proc q).parent = some p → (k.proc q).state ≠ .ZOMBIE := by
      intro q hq hz
      have := find?_eq_none.mp hfind q (mem_finRange q)
      simp [hq, hz] at this
    simp only [wait, reads_bind_run, hfind]
    by_cases hk : ((List.finRange NPROC).any fun pp => (k.proc pp).parent = some p) = false ∨
        (k.proc p).killed ≠ 0
    · rw [if_pos hk]
      exact ⟨some (-1), k, rfl, rfl, .inl ⟨h, fun _ h0 => h0, fun _ => hno⟩⟩
    · rw [if_neg hk, updateProc_bind]
      refine ⟨none, _, rfl, rfl, .inl ⟨h.set rfl rfl rfl rfl ?_, fun q h0 => ?_, fun _ => hno⟩⟩
      · refine (h.proc p).congr ⟨by rw [hp]; decide, nofun⟩ rfl ?_
        rintro (h0 | h0) <;> cases h0
      · by_cases hq : q = p
        · rw [hq, Kernel.setProc_proc, update_self] at h0
          cases h0
        · rwa [Kernel.setProc_proc, update_of_ne hq] at h0
  | some pp =>
    obtain ⟨_, hz⟩ : (k.proc pp).parent = some p ∧ (k.proc pp).state = .ZOMBIE := by
      simpa using find?_some hfind
    simp only [wait, reads_bind_run, hfind]
    -- the exit status is copied out before the child is freed
    have hreap : ∀ {s : Phys}, Wf E F held { k with phys := s } g pipes → ∃ r k',
        (do freeproc E pp; pure (some (k.proc pp).pid.toInt) : Sys Kernel (Option Int))
          { k with phys := s } = .ok (r, k') ∧ k'.initproc = k.initproc ∧
        k'.proc = update k.proc pp (k.proc pp).freed ∧
        Wf E F held k' (update g pp (absent, [])) pipes := by
      intro s hwf
      obtain ⟨s', hrun, hacct, hmem⟩ := freeproc_spec hE (hwf.slots.acct_at pp) (hwf.slots.ok pp)
      rw [bind_of_ok hrun]
      exact ⟨_, _, rfl, rfl, rfl, hwf.freed rfl rfl ((h.proc pp).closed (.inr (.inr hz))) hacct
        hmem⟩
    by_cases ha : addr ≠ 0
    · rw [if_pos ha]
      obtain ⟨r, s, hrun, hwf, _⟩ := h.copyoutInt hpt addr ((k.proc pp).xstate % 2 ^ 32).toNat
      rw [bind_of_ok hrun]
      by_cases hr : r < 0
      · rw [if_pos hr]
        exact ⟨_, _, rfl, rfl, .inl ⟨hwf, fun _ h0 => h0, fun h0 => absurd h0 ha⟩⟩
      · rw [if_neg hr]
        obtain ⟨r', k', hrun', hinit, hproc, hwf'⟩ := hreap hwf
        exact ⟨r', k', hrun', hinit, .inr ⟨pp, hz, hproc, hwf'⟩⟩
    · rw [if_neg ha, pure_bind_run, if_neg (by decide)]
      obtain ⟨r', k', hrun', hinit, hproc, hwf'⟩ := hreap (s := k.phys) h
      exact ⟨r', k', hrun', hinit, .inr ⟨pp, hz, hproc, hwf'⟩⟩

theorem growprocOf_spec (n : Int) :
    ∃ r k' y, growprocOf E p n k = .ok (r, k') ∧ Wf E F held k' (update g p y) pipes ∧
      k'.initproc = k.initproc ∧ (r = -1 → k'.proc = k.proc ∧ y.2 = (g p).2 ∧
        (g p).1.pages ⊆ y.1.pages ∧ Kept y.2 k.phys k'.phys) := by
  have hpt := h.pagetable_ne hp
  obtain ⟨hpa, hsz, _, hsp⟩ := h.space hpt
  obtain ⟨r, sz, s, t, u, hrun, hm, hsz', hfail⟩ := growproc_spec hE hsp hsz n
  rw [← hpa] at hrun
  refine ⟨r, _, (t, u), ?_, h.moved hpt hm hsz', rfl, fun hr => ?_⟩
  case refine_2 =>
    obtain ⟨rfl, rfl, hkept⟩ := hfail hr
    exact ⟨update_eq_self _ _, rfl, hm.tables, hkept⟩
  simp only [growprocOf, reads_bind_run]
  rw [bind_of_ok (onPhys_of_ok hrun)]
  rfl

theorem psOf_spec (start count : UInt8) (table : Bytes) :
    psOf E p start count table k = .error .overflow ∨
    ∃ r k' y, psOf E p start count table k = .ok (r, k') ∧ Wf E F held k' (update g p y) pipes := by
  have hpt := h.pagetable_ne hp
  obtain ⟨hpa, hsz, _, hsp⟩ := h.space hpt
  simp only [psOf, reads_bind_run]
  rw [hpa]
  rcases ps_spec hE hsp hsz start count table with hrun | ⟨r, sz, s, t, u, hrun, hm, hsz'⟩
  · exact .inl (bind_of_error (zoom_of_error hrun))
  refine .inr ⟨r, _, (t, u), ?_, h.moved hpt hm hsz'⟩
  rw [bind_of_ok (onPhys_of_ok hrun)]
  rfl

/-- **The commit of `exec`** gives the caller the image's memory and frees the
    memory it had. -/
theorem execProg_commit {readi : Readi} {argv : Args} {ustack : Bytes} {im : Image}
    {s0 s1 : Phys} {t : PageTree 2} {u0 u : Pages} {q : Nat × Nat}
    (hrun1 : execImage E (k.proc p).trapframe readi argv ustack k.phys = .ok (some im, s1))
    (hmem0 : ∀ q ∈ k.procPages g ++ (pipes ++ F), s0.kmem.mem q = k.phys.kmem.mem q)
    (him : ImageAt E (k.proc p).trapframe (k.procPages g ++ (pipes ++ F)) argv ustack s0 s1 t u0 u
      q im) :
    ∃ k', execProg E p (some readi) argv ustack k = .ok ((im.argc : Int), k') ∧
      Committed k p im s1 t u k' ∧ Wf E F held k' (update g p (t, u)) pipes := by
  have hpt := h.pagetable_ne hp
  obtain ⟨hpa, hsz, htf, hsp⟩ := h.space hpt
  have hnew := him.moved.space
  have hmem1 : ∀ q ∈ k.procPages g ++ (pipes ++ F), s1.kmem.mem q = k.phys.kmem.mem q :=
    fun q hq => (him.moved.frame q hq).trans (hmem0 q hq)
  simp only [execProg, reads_bind_run]
  rw [bind_of_ok (onPhys_of_ok hrun1)]
  simp only [execCommit, reads_bind_run]
  rw [updateProc_bind]
  generalize hk2 : Kernel.setProc _ p _ = k2
  have hphys2 : k2.phys = s1 := by
    rw [← hk2]
    rfl
  have hproc2 : k2.proc = update k.proc p
      { k.proc p with pagetable := im.pagetable, sz := im.sz } := by
    rw [← hk2]
    rfl
  obtain ⟨s2, hrun2, hmem2, hregs, hacct2⟩ := setRegs_run (E := E) (k.proc p).trapframe im s1
  rw [← hphys2] at hrun2
  rw [bind_of_ok (onPhys_of_ok hrun2)]
  have hledger := ledger_perm g (pipes ++ F) htf
  have hinL : ∀ {q}, q ∈ (g p).1.pages ++ ((g p).2.map Prod.fst ++ (k.proc p).trapframe
      :: k.rest g (pipes ++ F) p) → q ∈ k.procPages g ++ (pipes ++ F) := fun hq =>
    hledger.mem_iff.mpr hq
  have htfL : (k.proc p).trapframe ∈ k.procPages g ++ (pipes ++ F) :=
    hinL (mem_append_right _ (mem_append_right _ mem_cons_self))
  -- the old space with the new one among the others' pages, then the other way round
  obtain ⟨_, hnd, hdis⟩ := nodup_append.mp hsp.acct.nodup_owned
  obtain ⟨_, hnd, _⟩ := nodup_append.mp hnd
  have hold : Space E s2 (k.proc p).trapframe (g p).1 (g p).2 ((k.proc p).trapframe
      :: (k.rest g (pipes ++ F) p ++ (t.pages ++ u.map Prod.fst))) := by
    refine hsp.congr (fun q hq => ?_) ((hacct2 hnew.acct).perm ?_)
    · have hne : q ≠ (k.proc p).trapframe :=
        hdis q hq _ (mem_append_right _ mem_cons_self)
      rw [hmem2 q hne, hmem1 q (hinL (mem_append_left _ hq))]
    · rw [← append_assoc]
      refine perm_append_comm.trans ((hledger.append_right _).trans ?_)
      simp only [append_assoc, cons_append, List.Perm.refl]
  obtain ⟨s3, hrun3, hfr⟩ := procFreepagetable_spec hE hold hsz
  rw [← hpa] at hrun3
  have hrun3' := onPhys_of_ok (k := { k2 with phys := s2 }) hrun3
  rw [bind_of_ok hrun3']
  have hkept : ∀ q ∈ t.pages ++ u.map Prod.fst, s3.kmem.mem q = s1.kmem.mem q := by
    intro q hq
    have hne : q ≠ (k.proc p).trapframe := by
      have hnd' := hnew.acct.nodup_owned
      rw [← append_assoc] at hnd'
      exact (nodup_append.mp hnd').2.2 q hq _ htfL
    rw [hfr.frame q (mem_cons_of_mem _ (mem_append_right _ hq)), hmem2 q hne]
  have hspace : Space E s3 (k.proc p).trapframe t u
      ((k.proc p).trapframe :: k.rest g (pipes ++ F) p) := by
    refine hnew.congr (fun q hq => hkept q (mem_append_left _ hq)) (hfr.acct.perm ?_)
    have hcomm : ((k.proc p).trapframe :: k.rest g (pipes ++ F) p ++
        (t.pages ++ u.map Prod.fst)).Perm
        (t.pages ++ u.map Prod.fst ++ (k.proc p).trapframe :: k.rest g (pipes ++ F) p) :=
      perm_append_comm
    rwa [append_assoc t.pages] at hcomm
  have hrest : ∀ q ∈ k.rest g (pipes ++ F) p, s3.kmem.mem q = k.phys.kmem.mem q := by
    intro q hq
    have hne : q ≠ (k.proc p).trapframe := fun e => (nodup_cons.mp hnd).1 (e ▸ hq)
    rw [hfr.frame q (mem_cons_of_mem _ (mem_append_left _ hq)), hmem2 q hne,
      hmem1 q (hinL (mem_append_right _ (mem_append_right _
        (mem_cons_of_mem _ hq))))]
  have hpt' : im.pagetable ≠ 0 := by
    rw [him.pagetable]
    exact hspace.pa_ne_zero hE
  have hstate :
      ({ k.proc p with pagetable := im.pagetable, sz := im.sz } : Proc).state = .RUNNING :=
    hp
  refine ⟨_, rfl, ⟨?_, ?_, hproc2, hkept, ?_⟩, ?_⟩
  · rw [← hk2]
    rfl
  · rw [← hk2]
    rfl
  · rw [← hregs]
    exact hfr.frame _ mem_cons_self
  · refine h.put (x := { k.proc p with pagetable := im.pagetable, sz := im.sz }) hproc2
      (by rw [← hk2]; rfl) ?_ hrest ?_ ?_ rfl
    · rw [Proc.owned_of_trapframe
        (x := { k.proc p with pagetable := im.pagetable, sz := im.sz }) htf]
      exact hspace.acct
    · rw [Proc.Holds, if_neg hpt']
      exact ⟨him.pagetable, him.length, htf, hspace⟩
    · refine ⟨fun h0 => ?_, fun _ => hpt', fun h0 => ?_⟩
      · rw [hstate] at h0
        cases h0
      · rw [hstate] at h0
        rcases h0 with h0 | h0 | h0 <;> cases h0

/-- **`exec`** exchanges the caller's memory for the new program's, or leaves it
    as it was. -/
theorem execProg_spec (prog : Option Readi) (argv : Args) (ustack : Bytes) :
    ∃ r k', execProg E p prog argv ustack k = .ok (r, k') ∧ k'.initproc = k.initproc ∧
      k'.file = k.file ∧
      (r = -1 ∧ k'.proc = k.proc ∧ Wf E F held k' g pipes ∧
          (∀ q ∈ k.procPages g ++ (pipes ++ F), k'.phys.kmem.mem q = k.phys.kmem.mem q) ∨
        0 ≤ r ∧ ∃ y, Wf E F held k' (update g p y) pipes) := by
  have hpt := h.pagetable_ne hp
  obtain ⟨_, _, _, hsp⟩ := h.space hpt
  cases prog with
  | none => exact ⟨-1, k, rfl, rfl, rfl, .inl ⟨rfl, rfl, h, fun _ _ => rfl⟩⟩
  | some readi =>
    obtain ⟨res, s1, hrun, hres⟩ := execImage_spec hE h.slots.acct hsp.trapframe readi argv
      ustack
    rcases hres with ⟨rfl, hmem, hacct⟩ | ⟨_, t, _, u, _, im, rfl, him, hmem, _⟩
    · obtain ⟨hexec, hwf⟩ := execProg_none h hrun hmem hacct
      exact ⟨-1, _, hexec, rfl, rfl, .inl ⟨rfl, rfl, hwf, hmem⟩⟩
    · obtain ⟨k', hexec, hk', hwf⟩ := execProg_commit hE h hp hrun hmem him
      exact ⟨im.argc, k', hexec, hk'.init, hk'.file, .inr ⟨Int.natCast_nonneg _, (t, u), hwf⟩⟩

/-- **`exec` with its arguments**: the argument pages go back on every path. -/
theorem sysExec_spec (fetchaddr : Nat → Option Nat) (fetchstr : Nat → Option (Bytes × Nat))
    (prog : Option Readi)
    (ustack : Bytes) :
    ∃ r k', sysExec E p fetchaddr fetchstr prog ustack k = .ok (r, k') ∧
      k'.initproc = k.initproc ∧ k'.file = k.file ∧
      (r = -1 ∧ k'.proc = k.proc ∧ Wf E F held k' g pipes ∧
          (∀ q ∈ k.procPages g ++ (pipes ++ F), k'.phys.kmem.mem q = k.phys.kmem.mem q) ∨
        0 ≤ r ∧ ∃ y, Wf E F held k' (update g p y) pipes) := by
  obtain ⟨ok, argv, s1, hrun1, hacct1, hmem1⟩ := fetchArgs_spec hE fetchaddr
    fetchstr MAXARG 0 [] h.slots.acct
  have hperm : ∀ L : List Nat, (argv.map Prod.fst ++ (L ++ (pipes ++ F))).Perm
      (L ++ (pipes ++ (argv.map Prod.fst ++ F))) := fun L =>
    (perm_append_comm_assoc ..).trans
      (List.Perm.append_left L (perm_append_comm_assoc ..))
  have hsub : ∀ {L : List Nat} {q}, q ∈ L ++ pipes → q ∈ L ++ (pipes ++ F) := fun hq => by
    rw [← append_assoc]
    exact mem_append_left _ hq
  have hwf1 : Wf E (argv.map Prod.fst ++ F) held { k with phys := s1 } g pipes :=
    h.outside (hacct1.perm (hperm _)) fun q hq => hmem1 q (hsub hq)
  unfold sysExec
  rw [bind_of_ok (onPhys_of_ok hrun1)]
  simp only
  by_cases hok : ok = false
  · rw [if_pos hok]
    obtain ⟨s2, hrun2, hacct2, hmem2⟩ := freeArgs_spec hE hacct1
    rw [bind_of_ok (onPhys_of_ok (k := { k with phys := s1 }) hrun2)]
    have hmem : ∀ q ∈ k.procPages g ++ (pipes ++ F), s2.kmem.mem q = k.phys.kmem.mem q :=
      fun q hq => (hmem2 q hq).trans (hmem1 q hq)
    exact ⟨-1, _, rfl, rfl, rfl, .inl ⟨rfl, rfl, h.outside hacct2 fun q hq => hmem q (hsub hq),
      hmem⟩⟩
  · rw [if_neg hok]
    obtain ⟨r, k2, hrun2, hinit2, hfile2, hres⟩ := execProg_spec hE hwf1 hp prog argv ustack
    rw [bind_of_ok hrun2]
    rcases hres with ⟨rfl, hproc2, hwf2, hmem2⟩ | ⟨hr, y, hwf2⟩
    · obtain ⟨s3, hrun3, hacct3, hmem3⟩ := freeArgs_spec hE (hwf2.slots.acct.perm (hperm _).symm)
      rw [bind_of_ok (onPhys_of_ok hrun3)]
      rw [hproc2] at hmem3
      have hmem : ∀ q ∈ k.procPages g ++ (pipes ++ F), s3.kmem.mem q = k.phys.kmem.mem q := by
        intro q hq
        have hq' : q ∈ k.procPages g ++ (pipes ++ (argv.map Prod.fst ++ F)) :=
          (hperm _).mem_iff.mp (mem_append_right _ hq)
        rw [hmem3 q hq, hmem2 q hq', hmem1 q hq]
      refine ⟨-1, _, rfl, hinit2, hfile2, .inl ⟨rfl, hproc2, hwf2.outside hacct3 fun q hq => ?_,
        hmem⟩⟩
      rw [Kernel.procPages, hproc2] at hq
      exact hmem3 q (hsub hq)
    · obtain ⟨s3, hrun3, hacct3, hmem3⟩ := freeArgs_spec hE (hwf2.slots.acct.perm (hperm _).symm)
      rw [bind_of_ok (onPhys_of_ok hrun3)]
      exact ⟨r, _, rfl, hinit2, hfile2, .inr ⟨hr, y, hwf2.outside hacct3 fun q hq =>
        hmem3 q (hsub hq)⟩⟩

end

end Xv6
