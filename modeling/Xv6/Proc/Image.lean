import Xv6.Proc.Partition

/-!
# The program that `exec` loads

`exec` runs on any file: it fails, or its caller's memory is the program's.
Where the segments do not overlap that memory is told by the file alone
(`LoadedImage`): the segments' bytes, zeroes up to the guard page, and a guard
page that the program cannot reach.
-/

namespace Xv6

open Function List
open PageTree

/-- `readi` of a file that holds the bytes `c` -/
def readFile (c : List UInt8) : Readi := fun off n =>
  if off > c.length ∨ (off + n) % 2 ^ 32 < off then (0, Bytes.zero)
  else (min n (c.length - off), fun i => c.getD (off + i) 0)

theorem reads_readFile {c : List UInt8} (hc : c.length < 2 ^ 32) : Reads (readFile c) c := by
  refine ⟨hc, fun off n _ hn hall => ?_⟩
  unfold readFile at hall ⊢
  split at hall
  · exact absurd hall hn.ne
  · rename_i hin
    change min n (c.length - off) = n at hall
    rw [if_neg hin]
    exact ⟨by omega, fun i _ => rfl⟩

/-- Ascending, and without overlap. -/
def Ascending (phs : List Proghdr) : Prop := phs.Pairwise fun a b => a.vaddr + a.memsz ≤ b.vaddr

/-- The address is one that the segment's bytes of the file go to. -/
def Proghdr.Covers (ph : Proghdr) (va : Nat) : Prop :=
  ph.vaddr ≤ va ∧ va < ph.vaddr + ph.filesz

/-- Memory `m` holds the program `prog` at `pagetable`, with `sz` bytes of user
    memory: the program, a guard page and the stack. -/
structure LoadedImage (prog : List UInt8) (m : Nat → Bytes) (pagetable sz : Nat) : Prop where
  below : ∀ ph ∈ segments (readFile prog), ph.vaddr + ph.memsz ≤ sz - 2 * PGSIZE
  file : ∀ ph ∈ segments (readFile prog), ∀ i < ph.filesz, ∃ b,
    prog[ph.off % 2 ^ 32 + i]? = some b ∧
    byteAt m pagetable (ph.vaddr + i) = some b
  zero : ∀ va < sz - 2 * PGSIZE, (∀ ph ∈ segments (readFile prog), ¬ ph.Covers va) →
    byteAt m pagetable va = some 0

/-! ## Segments without overlap -/

section Segments

variable {c : List UInt8} {img : Nat → UInt8} {va : Nat}

theorem putSegments_outside : ∀ {phs : List Proghdr} {img : Nat → UInt8},
    (∀ ph ∈ phs, ¬ ph.Covers va) → phs.foldl (putSegment c) img va = img va
  | [], _, _ => rfl
  | ph :: phs, _, hout => by
    rw [foldl_cons, putSegments_outside fun a ha => hout a (mem_cons_of_mem _ ha)]
    exact if_neg (hout ph mem_cons_self)

/-- The segments after the one that covers an address do not touch it. -/
theorem putSegments_inside {ph : Proghdr} (hva : ph.Covers va) :
    ∀ {phs : List Proghdr} {img : Nat → UInt8}, Ascending phs →
    (∀ a ∈ phs, a.filesz ≤ a.memsz) → ph ∈ phs →
    phs.foldl (putSegment c) img va = c.getD (ph.off % 2 ^ 32 + (va - ph.vaddr)) 0
  | a :: phs, img, hasc, hsize, hmem => by
    obtain ⟨hfirst, hasc⟩ := pairwise_cons.mp hasc
    have hsize' : ∀ b ∈ phs, b.filesz ≤ b.memsz := fun b hb => hsize b (mem_cons_of_mem _ hb)
    rw [foldl_cons]
    rcases mem_cons.mp hmem with rfl | hmem
    · have hout : ∀ b ∈ phs, ¬ b.Covers va := by
        intro b hb hcov
        have hle := hfirst b hb
        have hfs := hsize ph mem_cons_self
        unfold Proghdr.Covers at hva hcov
        omega
      rw [putSegments_outside hout]
      exact if_pos hva
    · exact putSegments_inside hva hasc hsize' hmem

end Segments

/-! ## Loading -/

section Exec

variable {E : Env} {F : List Nat} {held : List (Fin NFILE)} {k k' : Kernel}
  {g : Spaces NPROC} {pipes : List Nat} {p : Fin NPROC}
  {readi : Readi} {argv : Args} {ustack : Bytes}

/-- `exec` has committed: the program was loaded in `s₁`, the arguments were
    pushed in `s₂`, on the page `q` of the stack, and the caller has it all in
    `k'`. -/
structure Executed (E : Env) (L : List Nat) (k : Kernel) (p : Fin NPROC) (readi : Readi)
    (argv : Args) (ustack : Bytes) (s₁ s₂ : Phys) (t : PageTree 2)
    (u u' : Pages) (q : Nat × Nat) (im : Image) (k' : Kernel) : Prop extends
    ImageAt E (k.proc p).trapframe L argv ustack s₁ s₂ t u u' q im where
  program : ProgramAt E (k.proc p).trapframe L readi (segments readi) k.phys s₁ t u u'
  committed : Committed k p im s₂ t u' k'

/-- **`exec` fails and leaves the kernel as it was, or it commits.** -/
theorem execProg_cases (hE : E.Ok) (h : Wf E F held k g pipes) (hp : (k.proc p).state = .RUNNING)
    (readi : Readi) (argv : Args) (ustack : Bytes) :
    (∃ k', execProg E p (some readi) argv ustack k = .ok (-1, k')) ∨
    ∃ s₁ s₂ t u u' q im k', execProg E p (some readi) argv ustack k = .ok ((im.argc : Int), k') ∧
      Executed E (k.procPages g ++ (pipes ++ F)) k p readi argv ustack s₁ s₂ t u u' q im k' ∧
      Wf E F held k' (update g p (t, u')) pipes := by
  have hpt := h.pagetable_ne hp
  obtain ⟨_, _, _, hsp⟩ := h.space hpt
  obtain ⟨res, s₂, hrun, hres⟩ := execImage_spec hE h.slots.acct hsp.trapframe readi argv ustack
  rcases hres with ⟨rfl, hmem, hacct⟩ | ⟨s₁, t, u, u', q, im, rfl, him, hmem, hprog⟩
  · exact .inl ⟨_, (execProg_none h hrun hmem hacct).1⟩
  · obtain ⟨k', hexec, hk', hwf⟩ := execProg_commit hE h hp hrun hmem him
    exact .inr ⟨s₁, s₂, t, u, u', q, im, k', hexec, ⟨him, hprog trivial, hk'⟩, hwf⟩

/-- What a run up to the commit says of the whole call. -/
theorem execProg_of_image (hE : E.Ok) (h : Wf E F held k g pipes)
    (hp : (k.proc p).state = .RUNNING) {im : Image} {s₁ : Phys}
    (hrun : execImage E (k.proc p).trapframe readi argv ustack k.phys = .ok (some im, s₁)) :
    ∃ k', execProg E p (some readi) argv ustack k = .ok ((im.argc : Int), k') ∧
      (k'.proc p).sz = im.sz := by
  have hpt := h.pagetable_ne hp
  obtain ⟨_, _, _, hsp⟩ := h.space hpt
  obtain ⟨res, s', hrun', hres⟩ := execImage_spec hE h.slots.acct hsp.trapframe readi argv ustack
  rw [hrun] at hrun'
  cases hrun'
  obtain ⟨_, t, _, u, _, im', he, him, hmem, _⟩ := hres.resolve_left fun h0 => nomatch h0.1
  cases he
  obtain ⟨k', hexec, hk', _⟩ := execProg_commit hE h hp hrun hmem him
  refine ⟨k', hexec, ?_⟩
  rw [hk'.proc, update_self]

namespace Executed

variable {L : List Nat} {s₁ s₂ : Phys} {t : PageTree 2} {u u' : Pages} {q : Nat × Nat}
  {im : Image}

theorem proc_self (h : Executed E L k p readi argv ustack s₁ s₂ t u u' q im k') :
    k'.proc p = { k.proc p with pagetable := t.pa, sz := (u.length + 2) * PGSIZE } := by
  rw [h.committed.proc, update_self, h.pagetable, h.sz]

/-- What the program finds in its memory is what was pushed and loaded. -/
theorem byteAt (hE : E.Ok) (h : Executed E L k p readi argv ustack s₁ s₂ t u u' q im k')
    (hwf : Wf E F held k' (update g p (t, u')) pipes) (va : Nat) :
    Xv6.byteAt k'.phys.kmem.mem (k'.proc p).pagetable va =
      if va / PGSIZE < u.length + 2 ∧ va / PGSIZE ≠ u.length then some (cell u' s₂.kmem.mem va)
      else none := by
  have hpa : (k'.proc p).pagetable = t.pa := by rw [h.proc_self]
  have hpt : (k'.proc p).pagetable ≠ 0 := hpa ▸ h.program.space.pa_ne_zero hE
  obtain ⟨_, _, _, hspace⟩ := hwf.space hpt
  rw [update_self] at hspace
  have hcell : cell u' k'.phys.kmem.mem = cell u' s₂.kmem.mem :=
    Kept.cell fun a ha => h.committed.mem a (mem_append_right _ ha)
  rw [hpa, hspace.byteAt hE, hcell]
  exact if_congr (h.program.access_iff hE) rfl rfl

/-- Below the guard page the arguments have changed nothing. -/
theorem cell_below (h : Executed E L k p readi argv ustack s₁ s₂ t u u' q im k') {va : Nat}
    (hva : va < u.length * PGSIZE) : cell u' s₂.kmem.mem va = cell u' s₁.kmem.mem va := by
  unfold cell
  cases hx : u'[va / PGSIZE]? with
  | none => rfl
  | some x =>
    have hne : x.1 ≠ q.1 := by
      intro e
      have hidx := h.program.space.index_inj hx h.stack e
      have hlt := (Nat.div_lt_iff_lt_mul (show 0 < PGSIZE by decide)).mpr hva
      omega
    show s₂.kmem.mem x.1 _ = s₁.kmem.mem x.1 _
    rw [h.others x.1 hne]

end Executed

/-- **No executable file stops the kernel.** `exec` returns -1 or the program's
    memory is there, with a guard page it cannot reach; and where the segments
    ascend without overlap, memory below the guard page is what the file
    says. -/
theorem exec_loads_file (hE : E.Ok) (h : Wf E F held k g pipes)
    (hp : (k.proc p).state = .RUNNING) (prog : List UInt8) (hc : prog.length < 2 ^ 32)
    (argv : Args) (ustack : Bytes) :
    ∃ r k', execProg E p (some (readFile prog)) argv ustack k = .ok (r, k') ∧
      (r = -1 ∨ 0 ≤ r ∧ 2 * PGSIZE ≤ (k'.proc p).sz ∧
        (∀ va, (k'.proc p).sz - 2 * PGSIZE ≤ va → va < (k'.proc p).sz - PGSIZE →
          byteAt k'.phys.kmem.mem (k'.proc p).pagetable va = none) ∧
        (Ascending (segments (readFile prog)) →
          LoadedImage prog k'.phys.kmem.mem (k'.proc p).pagetable (k'.proc p).sz)) := by
  rcases execProg_cases hE h hp (readFile prog) argv ustack with
    ⟨k', hrun⟩ | ⟨s₁, s₂, t, u, u', q, im, k', hrun, hex, hwf⟩
  · exact ⟨-1, k', hrun, .inl rfl⟩
  have hbyte := hex.byteAt hE hwf
  have hsz : (k'.proc p).sz = (u.length + 2) * PGSIZE := by rw [hex.proc_self]
  have hread := reads_readFile hc
  -- an address below the guard page is one of the program's, and holds what was loaded
  have hbelow : ∀ va < u.length * PGSIZE,
      byteAt k'.phys.kmem.mem (k'.proc p).pagetable va = some
        ((segments (readFile prog)).foldl (putSegment prog) (fun _ => 0) va) := by
    intro va hva
    have hlt := (Nat.div_lt_iff_lt_mul (show 0 < PGSIZE by decide)).mpr hva
    rw [hbyte, if_pos ⟨by omega, by omega⟩, hex.cell_below hva, hex.program.cells prog hread]
  have hguard : (u.length + 2) * PGSIZE - 2 * PGSIZE = u.length * PGSIZE := by
    simp only [PGSIZE]
    omega
  refine ⟨im.argc, k', hrun, .inr ⟨Int.natCast_nonneg _, ?_, fun va hlo hhi => ?_, fun hasc => ?_⟩⟩
  · rw [hsz]
    simp only [PGSIZE]
    omega
  · rw [hbyte, if_neg]
    rw [hsz] at hlo hhi
    simp only [PGSIZE] at *
    omega
  rw [hsz]
  refine ⟨fun ph hph => ?_, fun ph hph i hi => ?_, fun va hva hout => ?_⟩
  · rw [hguard]
    exact (hex.program.fit ph hph).2
  · have hfit := hex.program.fit ph hph
    have hfile := hex.program.inFile prog hread ph hph (by omega)
    have hlt : ph.off % 2 ^ 32 + i < prog.length := by omega
    refine ⟨prog[ph.off % 2 ^ 32 + i], getElem?_eq_getElem hlt, ?_⟩
    have hcov : ph.Covers (ph.vaddr + i) := ⟨by omega, by omega⟩
    rw [hbelow _ (by omega), putSegments_inside hcov hasc
      (fun a ha => (hex.program.fit a ha).1) hph, Nat.add_sub_cancel_left,
      getD_eq_getElem _ _ hlt]
  · rw [hguard] at hva
    rw [hbelow va hva, putSegments_outside hout]

end Exec

/-- A program of one segment, of three bytes and two zeroes, at address 0. -/
def smallElf : List UInt8 :=
  [0x7F, 0x45, 0x4C, 0x46] ++ List.replicate 28 0 ++ [64] ++ List.replicate 23 0 ++ [1] ++
    List.replicate 7 0 ++
  [1, 0, 0, 0, 5, 0, 0, 0, 120] ++ List.replicate 23 0 ++ [3, 0, 0, 0, 0, 0, 0, 0, 5] ++
    List.replicate 15 0 ++ [7, 8, 9]

/-- The first process executes a small program. -/
theorem exec_loads_file_small : ∃ k',
    execProg (smallEnv 20) 0 (some (readFile smallElf)) [] Bytes.zero (firstMachine 20).kernel
      = .ok (0, k') ∧
    (∀ i < 3, byteAt k'.phys.kmem.mem (k'.proc 0).pagetable i = some (.ofNat (7 + i))) ∧
    byteAt k'.phys.kmem.mem (k'.proc 0).pagetable 3 = some 0 ∧
    byteAt k'.phys.kmem.mem (k'.proc 0).pagetable PGSIZE = none := by
  obtain ⟨hE, g, pipes, hwf⟩ := firstMachine_twenty
  have hp : ((firstMachine 20).kernel.proc 0).state = .RUNNING := by decide +kernel
  obtain ⟨res, s₁, himage, hres⟩ := Sys.exists_of_check
    (x := execImage (smallEnv 20) ((firstMachine 20).kernel.proc 0).trapframe (readFile smallElf) []
      Bytes.zero) (s := (firstMachine 20).kernel.phys)
    (t := fun res _ => res.any fun im => im.argc = 0 ∧ im.sz = 3 * PGSIZE) (by decide +kernel)
  obtain ⟨im, rfl, him⟩ := Option.any_eq_true _ _ |>.mp hres
  obtain ⟨hargc, hsz⟩ := of_decide_eq_true him
  obtain ⟨k', hrun, hsz'⟩ := execProg_of_image hE hwf hp himage
  obtain ⟨r, k'', hrun', hok⟩ := exec_loads_file hE hwf hp smallElf (by decide +kernel) []
    Bytes.zero
  rw [hrun, hargc] at hrun'
  cases hrun'
  obtain ⟨_, _, hguard, hload⟩ := hok.resolve_left (by decide)
  have hsegs : segments (readFile smallElf) = [⟨1, 5, 120, 0, 3, 5⟩] := by decide +kernel
  rw [hsz', hsz] at hguard hload
  rw [hsegs] at hload
  obtain ⟨_, hfile, hzero⟩ := hload (pairwise_singleton _ _)
  rw [hsegs] at hfile hzero
  have hbytes : ∀ i < 3, smallElf[120 % 2 ^ 32 + i]? = some (.ofNat (7 + i)) := by decide +kernel
  rw [hargc] at hrun
  refine ⟨k', hrun, fun i hi => ?_, hzero 3 (by decide) fun ph hph => ?_,
    hguard _ (by decide) (by decide)⟩
  · obtain ⟨b, hb, hat⟩ := hfile _ mem_cons_self i hi
    rw [Nat.zero_add] at hat
    rw [hat, ← hb]
    exact hbytes i hi
  · obtain rfl := mem_singleton.mp hph
    exact fun hcov => absurd hcov.2 (by decide)

end Xv6
