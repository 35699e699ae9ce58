import Xv6.Lib.Wp
import Xv6.Mem.Contents

/-!
# Building a program's memory

The part of `kernel/exec.c` and of `sys_exec` that works on memory: the argument
pages, the new page table with the program's segments and stack, and the way
back out of each failure. What the file holds and what user memory holds are
inputs: `readi` says how many bytes each read gave and which, `fetchaddr` and
`fetchstr` what was found at the user's pointers.
-/

namespace Xv6

open List Sys Nat
open PageTree Vm

/-! ## The code -/

abbrev ELF_MAGIC : Nat := 0x464C457F
abbrev ELF_PROG_LOAD : Nat := 1
/-- `sizeof(struct elfhdr)` -/
abbrev sizeofElfhdr : Nat := 64
/-- `sizeof(struct proghdr)` -/
abbrev sizeofProghdr : Nat := 56

/-- What `readi(ip, 0, dst, off, n)` returns, and the bytes it puts at `dst`. -/
abbrev Readi : Type := Nat → Nat → Nat × Bytes

structure Proghdr where
  type : Nat
  flags : Nat
  off : Nat
  vaddr : Nat
  filesz : Nat
  memsz : Nat
  deriving DecidableEq, Repr

def Proghdr.ofBytes (b : Bytes) : Proghdr where
  type := b.getLE 0 4
  flags := b.getLE 4 4
  off := b.getLE 8 8
  vaddr := b.getLE 16 8
  filesz := b.getLE 32 8
  memsz := b.getLE 40 8

/-- What `exec` has built when it commits. -/
structure Image where
  pagetable : Nat
  sz : Nat
  sp : Nat
  argc : Nat
  entry : Nat

/-- Where `exec` runs: its calls into memory, the reads of its file, and what it
    does when it is done with the file. -/
structure Host (σ : Type) where
  mem : ∀ {α : Type}, Sys Phys α → Sys σ α
  readi : Nat → Nat → Sys σ (Nat × Bytes)
  close : Sys σ Unit

/-- Memory alone, with the reads of the file given. -/
def Host.memory (readi : Readi) : Host Phys where
  mem x := x
  readi off n := pure (readi off n)
  close := pure ()

section Code

variable (E : Env) {σ : Type} (H : Host σ)

def loadsegLoop (pagetable va offset sz : Nat) : Nat → Nat → Sys σ Int
  | 0, _ => Sys.hang
  | fuel + 1, i =>
    if i < sz then do
      let pa ← H.mem (walkaddr E pagetable ((va + i) % 2 ^ 64))
      if pa = 0 then Sys.panic "loadseg: address should exist"
      else do
        let n := if sz - i < PGSIZE then sz - i else PGSIZE
        let r ← H.readi ((offset + i) % 2 ^ 32) n
        H.mem (movePage pa 0 r.2 0 (min r.1 n))
        if r.1 ≠ n then pure (-1)
        else loadsegLoop pagetable va offset sz fuel ((i + PGSIZE) % 2 ^ 32)
    else pure 0

/-- Load a program segment into `pagetable` at virtual address `va`. -/
def loadseg (pagetable va offset sz : Nat) : Sys σ Int :=
  loadsegLoop E H pagetable va offset sz turns 0

/-- The loop over the program headers: whether it got to the end, and the size
    so far. -/
def loadSegments (pagetable : Nat) : Nat → Nat → Nat → Sys σ (Bool × Nat)
  | 0, _, sz => pure (true, sz)
  | left + 1, off, sz => do
    let r ← H.readi off sizeofProghdr
    let ph := Proghdr.ofBytes r.2
    if r.1 ≠ sizeofProghdr then pure (false, sz)
    else if ph.type ≠ ELF_PROG_LOAD then
      loadSegments pagetable left ((off + sizeofProghdr) % 2 ^ 32) sz
    else if ph.memsz < ph.filesz then pure (false, sz)
    else if (ph.vaddr + ph.memsz) % 2 ^ 64 < ph.vaddr then pure (false, sz)
    else if ph.vaddr % PGSIZE ≠ 0 then pure (false, sz)
    else do
      let sz1 ← H.mem (uvmalloc E pagetable sz ((ph.vaddr + ph.memsz) % 2 ^ 64)
        (flags2perm ph.flags))
      if sz1 = 0 then pure (false, sz)
      else do
        let r ← loadseg E H pagetable ph.vaddr (ph.off % 2 ^ 32) (ph.filesz % 2 ^ 32)
        if r < 0 then pure (false, sz1)
        else loadSegments pagetable left ((off + sizeofProghdr) % 2 ^ 32) sz1

/-- `sp -= n; sp -= sp % 16` -/
@[irreducible] def pushDown (sp n : Nat) : Nat :=
  let sp := (sp + 2 ^ 64 - n) % 2 ^ 64
  sp - sp % 16

/-- `copyout(pagetable, dstva, src, len)` with `src` a page of the kernel -/
def copyoutFrom (pagetable dstva src len : Nat) : Sys Phys Int := do
  let str ← Sys.reads fun s => s.kmem.mem src
  copyout E pagetable dstva str len

/-- Argument strings, each as the kernel's page for it and its `strlen`. -/
abbrev Args : Type := List (Nat × Nat)

/-- Push one argument string: the new stack pointer, or none for `bad`. -/
def pushArg (pagetable stackbase : Nat) (arg : Nat × Nat) (sp argc : Nat) :
    Sys Phys (Option Nat) :=
  if argc ≥ MAXARG then pure none
  else if pushDown sp (arg.2 + 1) < stackbase then pure none
  else do
    let r ← copyoutFrom E pagetable (pushDown sp (arg.2 + 1)) arg.1 (arg.2 + 1)
    if r < 0 then pure none else pure (some (pushDown sp (arg.2 + 1)))

/-- The loop that pushes the argument strings. -/
def pushArgs (pagetable stackbase : Nat) :
    Args → Nat → Nat → Bytes → Sys Phys (Option (Nat × Nat × Bytes))
  | [], sp, argc, ustack => pure (some (sp, argc, ustack))
  | arg :: argv, sp, argc, ustack => do
    match ← pushArg E pagetable stackbase arg sp argc with
    | none => pure none
    | some sp => pushArgs pagetable stackbase argv sp (argc + 1) (ustack.setLE (8 * argc) 8 sp)

/-- The argument strings and the array of `argv[]` pointers: the stack pointer
    and `argc`. -/
def pushStack (pagetable sz : Nat) (argv : Args) (ustack : Bytes) :
    Sys Phys (Option (Nat × Nat)) := do
  match ← pushArgs E pagetable (sz - PGSIZE) argv sz 0 ustack with
  | none => pure none
  | some (sp, argc, ustack) =>
    let sp := pushDown sp ((argc + 1) * 8)
    if sp < sz - PGSIZE then pure none
    else do
      let r ← copyout E pagetable sp (ustack.setLE (8 * argc) 8 0) ((argc + 1) * 8)
      if r < 0 then pure none else pure (some (sp, argc))

/-- `if(pagetable) proc_freepagetable(pagetable, sz);` -/
def freeImage (pagetable sz : Nat) : Sys σ Unit :=
  if pagetable ≠ 0 then H.mem (procFreepagetable E pagetable sz) else pure ()

/-- `bad:`; `close` lets go of the file, if that has not been done. -/
def execBad (pagetable sz : Nat) (close : Sys σ Unit) : Sys σ (Option Image) := do
  freeImage E H pagetable sz
  close
  pure none

/-- `exec` from its file up to the commit, or to `bad`. -/
def execFile (trapframe : Nat) (argv : Args) (ustack : Bytes) :
    Sys σ (Option Image) := do
  let elf ← H.readi 0 sizeofElfhdr
  if elf.1 ≠ sizeofElfhdr then execBad E H 0 0 H.close
  else if elf.2.getLE 0 4 ≠ ELF_MAGIC then execBad E H 0 0 H.close
  else do
    match ← H.mem (procPagetable E trapframe) with
    | none => execBad E H 0 0 H.close
    | some pagetable => do
      let (ok, sz) ← loadSegments E H pagetable (elf.2.getLE 56 2) (elf.2.getLE 32 8 % 2 ^ 32) 0
      if ok = false then execBad E H pagetable sz H.close
      else do
        H.close
        let (ok, sz) ← H.mem (execStack E pagetable sz)
        if ok = false then execBad E H pagetable sz (pure ())
        else do
          match ← H.mem (pushStack E pagetable sz argv ustack) with
          | none => execBad E H pagetable sz (pure ())
          | some (sp, argc) => pure (some ⟨pagetable, sz, sp, argc, elf.2.getLE 24 8⟩)

/-- `exec` up to the commit, as far as memory goes. -/
def execImage (trapframe : Nat) (readi : Readi) (argv : Args) (ustack : Bytes) :
    Sys Phys (Option Image) :=
  execFile E (.memory readi) trapframe argv ustack

/-- The loop of `sys_exec` that fetches the arguments: whether it found their
    end, and the pages allocated, each with its `strlen`. -/
def fetchArgs (fetchaddr : Nat → Option Nat) (fetchstr : Nat → Option (Bytes × Nat)) :
    Nat → Nat → Args → Sys Phys (Bool × Args)
  | 0, _, argv => pure (false, argv)
  | left + 1, i, argv =>
    match fetchaddr i with
    | none => pure (false, argv)
    | some uarg =>
      if uarg = 0 then pure (true, argv)
      else do
        match ← kallocPage E with
        | none => pure (false, argv)
        | some pg =>
          match fetchstr uarg with
          | none => pure (false, argv ++ [(pg, 0)])
          | some (str, len) => do
            movePage pg 0 str 0 (len + 1)
            fetchArgs fetchaddr fetchstr left (i + 1) (argv ++ [(pg, len)])

/-- `for(i = 0; i < NELEM(argv) && argv[i] != 0; i++) kfree(argv[i]);` -/
def freeArgs : Args → Sys Phys Unit
  | [] => pure ()
  | arg :: argv => do
    kfreePage E arg.1
    freeArgs argv

end Code

/-! ## What a program's file says -/

/-- `readi` reads the file `c`: a read that gives all it was asked for gives
    bytes of it. -/
structure Reads (readi : Readi) (c : List UInt8) : Prop where
  size : c.length < 2 ^ 32
  get : ∀ off n, off < 2 ^ 32 → 0 < n → (readi off n).1 = n →
    off + n ≤ c.length ∧ ∀ i < n, (readi off n).2 i = c.getD (off + i) 0

/-- The headers of the segments that the loop over the program headers loads. -/
def loads (readi : Readi) : Nat → Nat → List Proghdr
  | 0, _ => []
  | left + 1, off =>
    let ph := Proghdr.ofBytes (readi off sizeofProghdr).2
    let rest := loads readi left ((off + sizeofProghdr) % 2 ^ 32)
    if ph.type ≠ ELF_PROG_LOAD then rest else ph :: rest

/-- The headers of the segments of the program that `readi` reads. -/
def segments (readi : Readi) : List Proghdr :=
  loads readi ((readi 0 sizeofElfhdr).2.getLE 56 2) ((readi 0 sizeofElfhdr).2.getLE 32 8 % 2 ^ 32)

/-- Memory `img` with a segment of the file `c` put in its place. -/
def putSegment (c : List UInt8) (img : Nat → UInt8) (ph : Proghdr) : Nat → UInt8 := fun va =>
  if ph.vaddr ≤ va ∧ va < ph.vaddr + ph.filesz then c.getD (ph.off % 2 ^ 32 + (va - ph.vaddr)) 0
  else img va

/-! ## Segments -/

section Specs

variable {E : Env} {s : Phys} {tf : Nat} {t : PageTree 2} {u : Pages} {F : List Nat}

theorem user_flags2perm (flags : Nat) : (PTE_R ||| PTE_U ||| flags2perm flags) &&& PTE_U ≠ 0 := by
  unfold flags2perm
  split <;> split <;> decide

/-- Every page of user memory is the user's, as it is until `uvmclear`. -/
def AllUser (u : Pages) : Prop := ∀ x ∈ u, x.2 &&& PTE_U ≠ 0

theorem walkaddr_user (hE : E.Ok) (h : Space E s tf t u F) (hu : AllUser u) {k : Nat}
    (hk : k < u.length) :
    ∃ x, u[k]? = some x ∧ walkaddr E t.pa (k * PGSIZE) s = .ok (x.1, s) ∧ x.1 ≠ 0 := by
  obtain ⟨x, hx⟩ := exists_getElem? hk
  have hx' : u[k * PGSIZE / PGSIZE]? = some x := by rwa [Nat.mul_div_cancel _ (by decide)]
  have ha : Access t (k * PGSIZE) :=
    (h.access_iff hE).mpr ⟨x, hx', hu x (mem_of_getElem? hx)⟩
  have hpage := h.user_page hE hx'
  refine ⟨x, hx, ?_, hpage ▸ h.inRam hE _ ha⟩
  rw [walkaddr_eq h.wf, if_pos ha, hpage]

variable {j offset q stackbase sz : Nat}

/-- Inside a segment that is mapped, the addresses of `loadseg` do not wrap. -/
theorem loadseg_addr {v n : Nat} (hfit : v * PGSIZE + sz ≤ n * PGSIZE) (hn : n ≤ 32768)
    (hj : j * PGSIZE < sz) :
    v + j < n ∧ (v * PGSIZE + j * PGSIZE) % 2 ^ 64 = (v + j) * PGSIZE ∧
      (j * PGSIZE + PGSIZE) % 2 ^ 32 = (j + 1) * PGSIZE := by
  simp only [PGSIZE] at *
  omega

/-- A page of the segment that has been read is in the file, so the next one's
    offset is too. -/
theorem loadseg_next {size : Nat}
    (hlen : offset + j * PGSIZE + min (sz - j * PGSIZE) PGSIZE ≤ size) (hsize : size < 2 ^ 32)
    (hj : (j + 1) * PGSIZE < sz) : offset + (j + 1) * PGSIZE < 2 ^ 32 := by
  simp only [PGSIZE] at *
  omega

/-- The last page of the segment that has been read ends the segment, so all of
    it is in the file. -/
theorem loadseg_inFile {size : Nat}
    (hlen : offset + j * PGSIZE + min (sz - j * PGSIZE) PGSIZE ≤ size) (hj : j * PGSIZE < sz)
    (hrest : (j + 1) * PGSIZE < sz → offset + sz ≤ size) : offset + sz ≤ size := by
  simp only [PGSIZE] at *
  omega

/-- A page of a segment and the rest of the segment are the segment from that
    page on. -/
theorem segment_page {base i b : Nat} {c : List UInt8} {page : Bytes} {old : UInt8}
    (hi : i < sz) (hget : ∀ k < min (sz - i) PGSIZE, page k = c.getD (offset + i + k) 0) :
    (if base + i + PGSIZE ≤ b ∧ b < base + sz then c.getD (offset + (b - base)) 0
      else if base + i ≤ b ∧ b < base + i + min (sz - i) PGSIZE then page (b - (base + i))
      else old) =
    if base + i ≤ b ∧ b < base + sz then c.getD (offset + (b - base)) 0 else old := by
  by_cases h1 : base + i + PGSIZE ≤ b ∧ b < base + sz
  · rw [if_pos h1, if_pos (by omega)]
  rw [if_neg h1]
  refine if_ctx_congr (by omega) (fun h2 => ?_) fun _ => rfl
  rw [hget _ (by omega), show offset + i + (b - (base + i)) = offset + (b - base) by omega]

/-- What the proofs need of where `exec` runs. `phys` is its memory, `Opened`
    and `Closed` are what the host keeps while the file is open and after that,
    `X` is how it may stop. If the host is `told` what the file holds, its reads
    are those of `readi`. -/
structure Hosts {σ : Type} (H : Host σ) (phys : σ → Phys) (Opened Closed : σ → Prop)
    (readi : Readi) (told : Prop) (X : Stop → Prop) : Prop where
  mem : ∀ {α : Type} {x : Sys Phys α} {w : σ} {a : α} {s : Phys}, x (phys w) = .ok (a, s) →
    ∃ w', H.mem x w = .ok (a, w') ∧ phys w' = s ∧ (Opened w → Opened w') ∧ (Closed w → Closed w')
  read : ∀ {w : σ}, Opened w → ∀ off n, (H.readi off n).wp w
    (fun r w' => phys w' = phys w ∧ Opened w' ∧ (told → r = readi off n)) X
  close : ∀ {w : σ}, Opened w → H.close.wp w (fun _ w' => phys w' = phys w ∧ Closed w') X

/-- Memory alone is told what the file holds, and does not stop. -/
theorem hosts_memory (readi : Readi) : Hosts (.memory readi) (fun s => s) (fun _ => True)
    (fun _ => True) readi True fun _ => False where
  mem h := ⟨_, h, rfl, fun _ => trivial, fun _ => trivial⟩
  read _ _ _ := wp_pure ⟨rfl, trivial, fun _ => rfl⟩
  close _ := wp_pure ⟨rfl, trivial⟩

section

variable {σ : Type} {H : Host σ} {phys : σ → Phys} {Opened Closed : σ → Prop} {readi : Readi}
  {told : Prop} {X : Stop → Prop} (hH : Hosts H phys Opened Closed readi told X) (hE : E.Ok)

include hH hE

/-- `loadseg` of a segment that is mapped does not reach its panic, and changes
    contents only: from page `j` of the segment on, user memory holds the file's
    bytes. -/
theorem loadsegLoop_wp {v : Nat} (hu : AllUser u) (hfit : v * PGSIZE + sz ≤ u.length * PGSIZE) :
    ∀ {fuel j : Nat} {w : σ}, Space E (phys w) tf t u F → Opened w → j ≤ npages sz →
    npages sz < fuel + j →
    (loadsegLoop E H t.pa (v * PGSIZE) offset sz fuel (j * PGSIZE)).wp w (fun r w' =>
      Moved E (phys w) tf t F (phys w') t u ∧ Opened w' ∧ (told → 0 ≤ r → ∀ c, Reads readi c →
        (j * PGSIZE < sz → offset + j * PGSIZE < 2 ^ 32) →
        (j * PGSIZE < sz → offset + sz ≤ c.length) ∧ ∀ b, cell u (phys w').kmem.mem b =
          if (v + j) * PGSIZE ≤ b ∧ b < v * PGSIZE + sz then c.getD (offset + (b - v * PGSIZE)) 0
          else cell u (phys w).kmem.mem b)) X := by
  intro fuel
  induction fuel with
  | zero =>
    intro j w _ _ hj hfuel
    omega
  | succ fuel ih =>
    intro j w h hw hj hfuel
    have hpage : (v + j) * PGSIZE = v * PGSIZE + j * PGSIZE := Nat.add_mul _ _ _
    refine wp_ite (fun hi => ?_) fun hi => wp_pure ⟨h.moved, hw, fun _ _ c _ _ =>
      ⟨fun hlt => absurd hlt hi, fun b => by rw [if_neg (by omega)]⟩⟩
    obtain ⟨hk, hva, hnext⟩ := loadseg_addr hfit (h.length_le hE) hi
    obtain ⟨x, hx, hrun, hne⟩ := walkaddr_user hE h hu hk
    have hpa : x.1 ∈ u.map Prod.fst := mem_map_of_mem (mem_of_getElem? hx)
    have hn : (if sz - j * PGSIZE < PGSIZE then sz - j * PGSIZE else PGSIZE) =
        min (sz - j * PGSIZE) PGSIZE := by
      split <;> omega
    have hpos : 0 < min (sz - j * PGSIZE) PGSIZE := by
      simp only [PGSIZE] at *
      omega
    obtain ⟨w1, hrun1, hp1, hw1, _⟩ := hH.mem hrun
    rw [hva, hn]
    refine wp_bind (wp_of_ok hrun1 (wp_ite (fun h0 => absurd h0 hne) fun _ => ?_))
    refine (hH.read (hw1 hw) _ _).bind fun r w2 hr2 => ?_
    obtain ⟨hp2, hw2, hread⟩ := hr2
    obtain ⟨s3, hmove, hm⟩ := movePage_spec h hpa 0 r.2 0 (min r.1 (min (sz - j * PGSIZE) PGSIZE))
    rw [← hp1, ← hp2] at hmove
    obtain ⟨w3, hrun3, rfl, hw3, _⟩ := hH.mem hmove
    refine wp_bind (wp_of_ok hrun3 (wp_ite (fun _ => ?_) fun hr => ?_))
    · exact wp_pure ⟨hm, hw3 hw2, fun _ h0 => absurd h0 (by decide)⟩
    rw [not_not] at hr
    rw [hnext]
    have hlt : j < npages sz := lt_npages.mpr hi
    refine (ih (j := j + 1) hm.space (hw3 hw2) (by omega) (by omega)).imp fun r' w4 hr4 => ?_
    obtain ⟨hm', hw4, hrest⟩ := hr4
    refine ⟨hm.trans hm', hw4, fun htold h0 c hc hoff => ?_⟩
    have hmod : (offset + j * PGSIZE) % 2 ^ 32 = offset + j * PGSIZE := mod_eq_of_lt (hoff hi)
    rw [hmod] at hread
    obtain ⟨hlen, hget⟩ := hc.get (offset + j * PGSIZE) _ (hoff hi) hpos
      (by rw [← hread htold]; exact hr)
    rw [← hread htold] at hget
    obtain ⟨hin, hcell⟩ := hrest htold h0 c hc (loadseg_next hlen hc.size)
    refine ⟨fun _ => loadseg_inFile hlen hi hin, fun b => ?_⟩
    have hs3 : (phys w3).kmem.mem = Function.update (phys w).kmem.mem x.1
        (((phys w).kmem.mem x.1).blit 0 r.2 0 (min (sz - j * PGSIZE) PGSIZE)) := by
      rw [hr, Nat.min_self, hp2, hp1] at hmove
      rw [← (Prod.mk.inj (Except.ok.inj hmove)).2]
      rfl
    rw [hcell b, hs3, cell_move h _ _ hx (Nat.min_le_right _ _)]
    have hpage' : (v + (j + 1)) * PGSIZE = v * PGSIZE + j * PGSIZE + PGSIZE := by
      rw [← Nat.add_assoc, Nat.add_mul, hpage, Nat.one_mul]
    rw [hpage', hpage]
    exact segment_page hi hget

theorem loadseg_wp {w : σ} (h : Space E (phys w) tf t u F) (hw : Opened w) {va : Nat} (sz : Nat)
    (hu : AllUser u) (halign : va % PGSIZE = 0) (hfit : va + sz ≤ u.length * PGSIZE)
    (hoff : offset < 2 ^ 32) :
    (loadseg E H t.pa va offset sz).wp w (fun r w' => Moved E (phys w) tf t F (phys w') t u ∧
      Opened w' ∧ (told → 0 ≤ r → ∀ c, Reads readi c → (0 < sz → offset + sz ≤ c.length) ∧
        ∀ b, cell u (phys w').kmem.mem b = if va ≤ b ∧ b < va + sz then
          c.getD (offset + (b - va)) 0 else cell u (phys w).kmem.mem b)) X := by
  obtain ⟨v, rfl⟩ : ∃ v, va = v * PGSIZE := ⟨va / PGSIZE,
    (Nat.div_mul_cancel (dvd_of_mod_eq_zero halign)).symm⟩
  have hsmall : npages sz ≤ u.length := by
    have := npages_mono (show sz ≤ u.length * PGSIZE by omega)
    rwa [npages_mul] at this
  have hfuel : npages sz < turns + 0 := by
    have := h.length_le hE
    unfold turns
    omega
  have hloop : (loadsegLoop E H t.pa (v * PGSIZE) offset sz turns (0 * PGSIZE)).wp w _ X :=
    loadsegLoop_wp hH hE hu hfit h hw (Nat.zero_le _) hfuel
  rw [Nat.zero_mul] at hloop
  refine hloop.imp fun r w' hr => ⟨hr.1, hr.2.1, fun htold h0 c hc => ?_⟩
  simpa using hr.2.2 htold h0 c hc (by simpa using fun _ => hoff)

/-- What the loop over the program headers has done when it gets to the end,
    from user memory `u` of `sz` bytes to `u'` of `sz'`. -/
structure LoadedAll (readi : Readi) (phs : List Proghdr) (s : Phys) (u : Pages)
    (sz : Nat)
    (s' : Phys) (u' : Pages) (sz' : Nat) : Prop where
  user : AllUser u'
  le : sz ≤ sz'
  fit : ∀ ph ∈ phs, ph.filesz ≤ ph.memsz ∧ ph.vaddr + ph.memsz ≤ sz'
  inFile : ∀ c, Reads readi c → ∀ ph ∈ phs, 0 < ph.filesz →
    ph.off % 2 ^ 32 + ph.filesz ≤ c.length
  cells : ∀ c, Reads readi c →
    cell u' s'.kmem.mem = phs.foldl (putSegment c) (cell u s.kmem.mem)

/-- **The loop over the program headers** keeps the size it reports in step with
    what it mapped, also when it gives up. -/
theorem loadSegments_wp : ∀ (left off : Nat) {sz : Nat} {w : σ} {t : PageTree 2}
    {u : Pages}, Space E (phys w) tf t u F → Opened w → u.length = npages sz →
    AllUser u →
    (loadSegments E H t.pa left off sz).wp w (fun r w' => ∃ t' u',
      Moved E (phys w) tf t F (phys w') t' u' ∧ Opened w' ∧ u'.length = npages r.2 ∧
      (told → r.1 = true → LoadedAll readi (loads readi left off) (phys w) u sz (phys w') u' r.2))
      X := by
  intro left
  induction left with
  | zero =>
    intro off sz w t u h hw hsz hu
    exact wp_pure ⟨_, _, h.moved, hw, hsz, fun _ _ => ⟨hu, le_rfl, nofun, nofun, fun _ _ => rfl⟩⟩
  | succ left ih =>
    intro off sz w t u h hw hsz hu
    refine (hH.read hw _ _).bind fun r w1 hr1 => ?_
    obtain ⟨hp1, hw1, hread⟩ := hr1
    rw [← hp1] at h ⊢
    have hmemsz : (Proghdr.ofBytes r.2).memsz < 2 ^ 64 := Bytes.getLE_lt _ _ 8
    have hloads : told → loads readi (left + 1) off =
        if (Proghdr.ofBytes r.2).type ≠ ELF_PROG_LOAD then
          loads readi left ((off + sizeofProghdr) % 2 ^ 32)
        else Proghdr.ofBytes r.2 :: loads readi left ((off + sizeofProghdr) % 2 ^ 32) := by
      intro htold
      rw [hread htold]
      rfl
    generalize Proghdr.ofBytes r.2 = ph at hmemsz hloads ⊢
    generalize loads readi (left + 1) off = phs at hloads ⊢
    have hstop : ∀ P : Bool × Nat → σ → Pages → Prop,
        (pure (false, sz) : Sys σ (Bool × Nat)).wp w1 (fun r w' => ∃ t' u',
          Moved E (phys w1) tf t F (phys w') t' u' ∧ Opened w' ∧ u'.length = npages r.2 ∧
          (told → r.1 = true → P r w' u')) X := fun P =>
      wp_pure ⟨t, u, h.moved, hw1, hsz, fun _ h0 => by cases h0⟩
    refine wp_ite (fun _ => hstop fun _ _ _ => _) fun _ => wp_ite (fun h2 => ?_) fun h2 => ?_
    · refine (ih _ h hw1 hsz hu).imp fun r w' hr => ?_
      obtain ⟨t', u', hm, hw', hlen, hall⟩ := hr
      refine ⟨t', u', hm, hw', hlen, fun htold => ?_⟩
      rw [hloads htold, if_pos h2]
      exact hall htold
    refine wp_ite (fun _ => hstop fun _ _ _ => _) fun h3 => wp_ite (fun _ => hstop fun _ _ _ => _)
      fun h4 => wp_ite (fun _ => hstop fun _ _ _ => _) fun h5 => ?_
    obtain ⟨sz1, s2, t2, new, hrun, hm, hnew, _, hgrow, hres⟩ := uvmalloc_spec hE h hsz
      ((ph.vaddr + ph.memsz) % 2 ^ 64) (flags2perm ph.flags) (leaf_flags2perm ph.flags)
    obtain ⟨w2, hrun2, rfl, hw2, _⟩ := hH.mem hrun
    refine wp_bind (wp_of_ok hrun2 (wp_ite (fun h6 => ?_) fun h6 => ?_))
    · refine wp_pure ⟨t2, _, hm, hw2 hw1, ?_, fun _ h0 => by cases h0⟩
      rcases hres with ⟨_, rfl⟩ | ⟨hmax, hlen⟩
      · rw [append_nil, hsz]
      · rw [hlen, h6, show sz = 0 by omega]
    obtain ⟨hmax, hlen⟩ := hres.resolve_left fun h0 => h6 h0.1
    have hu2 : AllUser (u ++ new) := by
      intro x hx
      rcases mem_append.mp hx with hx | hx
      · exact hu x hx
      · rw [hnew x hx]
        exact user_flags2perm ph.flags
    -- the size fits into memory, so `filesz` has 32 bits
    have hmem : ph.vaddr + ph.memsz ≤ sz1 := by omega
    have hroom := le_npages_mul sz1
    rw [← hlen] at hroom
    have hshort := hm.space.length_le hE
    have hmod : ph.filesz % 2 ^ 32 = ph.filesz := by
      refine mod_eq_of_lt ?_
      simp only [PGSIZE] at *
      omega
    rw [hmod, ← hm.pa]
    refine (loadseg_wp hH hE hm.space (hw2 hw1) ph.filesz hu2 (not_not.mp h5) (by omega)
      (mod_lt ph.off (show 0 < 2 ^ 32 by decide))).bind fun r' w3 hr3 => ?_
    obtain ⟨hm3, hw3, hseg⟩ := hr3
    refine wp_ite (fun _ => wp_pure ⟨t2, _, hm.trans hm3, hw3, hlen, fun _ h0 => by cases h0⟩)
      fun h7 => ?_
    refine (ih ((off + sizeofProghdr) % 2 ^ 32) hm3.space hw3 hlen hu2).imp fun r w' hr => ?_
    obtain ⟨t', u', hm', hw', hlen', hall⟩ := hr
    refine ⟨t', u', (hm.trans hm3).trans hm', hw', hlen', fun htold hr => ?_⟩
    have hl := hall htold hr
    have hle := hl.le
    rw [hloads htold, if_neg h2]
    refine ⟨hl.user, by omega, fun ph' hph' => ?_, fun c hc ph' hph' => ?_, fun c hc => ?_⟩
    · rcases mem_cons.mp hph' with rfl | hph'
      · omega
      · exact hl.fit ph' hph'
    · rcases mem_cons.mp hph' with rfl | hph'
      · exact (hseg htold (by omega) c hc).1
      · exact hl.inFile c hc ph' hph'
    · rw [hl.cells c hc, foldl_cons]
      congr 1
      funext b
      rw [(hseg htold (by omega) c hc).2, hgrow]
      rfl

end

section

variable (hE : E.Ok)

include hE

/-! ## The stack, and `exec` up to the commit -/

/-- From `stackbase` on, the program has access to nothing but the page `q`. -/
def StackPage (t : PageTree 2) (stackbase q : Nat) : Prop :=
  ∀ va, stackbase ≤ va → Access t va → t.page va = q

/-- The last page of user memory is the only one from where it starts on. -/
theorem Space.stackPage (h : Space E s tf t u F) {n : Nat} (hlen : u.length = n + 2) :
    ∃ x, u[n + 1]? = some x ∧ StackPage t ((n + 2) * PGSIZE - PGSIZE) x.1 := by
  obtain ⟨x, hx⟩ : ∃ x, u[n + 1]? = some x := ⟨_, getElem?_eq_getElem (by omega)⟩
  refine ⟨x, hx, fun va hlow ha => ?_⟩
  obtain ⟨y, hy, _⟩ := (h.access_iff hE).mp ha
  have hlt : va / PGSIZE < u.length := (List.getElem?_eq_some_iff.mp hy).1
  have hq : va / PGSIZE = n + 1 := by
    simp only [PGSIZE] at *
    omega
  refine h.user_page hE ?_
  rwa [hq]

theorem copyout_stack (h : Space E s tf t u F) {dstva : Nat}
    (hq : StackPage t stackbase q) (hlow : stackbase ≤ dstva) (src : Bytes) (len : Nat) :
    ∃ r s', copyout E t.pa dstva src len s = .ok (r, s') ∧ Moved E s tf t F s' t u ∧
      ∀ p, p ≠ q → s'.kmem.mem p = s.kmem.mem p := by
  obtain ⟨r, s', j, hrun, hm, hr, _, hother⟩ := copyout_cell hE h dstva src len
  refine ⟨r, s', hrun, hm, fun p hp => hother p fun k hk e => hp ?_⟩
  rw [← e]
  exact hq _ (by omega) (hr.access k hk)

theorem pushArg_spec (h : Space E s tf t u F)
    (hq : StackPage t stackbase q) (arg : Nat × Nat) (sp argc : Nat) :
    ∃ r s', pushArg E t.pa stackbase arg sp argc s = .ok (r, s') ∧ Moved E s tf t F s' t u ∧
      ∀ p, p ≠ q → s'.kmem.mem p = s.kmem.mem p := by
  unfold pushArg
  by_cases h1 : argc ≥ MAXARG
  · rw [if_pos h1]
    exact ⟨none, s, rfl, h.moved, fun _ _ => rfl⟩
  rw [if_neg h1]
  by_cases h2 : pushDown sp (arg.2 + 1) < stackbase
  · rw [if_pos h2]
    exact ⟨none, s, rfl, h.moved, fun _ _ => rfl⟩
  obtain ⟨r, s1, hrun, hm, hother⟩ := copyout_stack hE h hq (Nat.le_of_not_lt h2)
    (s.kmem.mem arg.1) (arg.2 + 1)
  have hfrom : copyoutFrom E t.pa (pushDown sp (arg.2 + 1)) arg.1 (arg.2 + 1) s = .ok (r, s1) :=
    hrun
  rw [if_neg h2, bind_of_ok hfrom]
  by_cases h3 : r < 0
  · rw [if_pos h3]
    exact ⟨none, s1, rfl, hm, hother⟩
  · rw [if_neg h3]
    exact ⟨some _, s1, rfl, hm, hother⟩

theorem pushArgs_spec (hq : StackPage t stackbase q) :
    ∀ (argv : Args) {sp argc : Nat} {ustack : Bytes} {s : Phys}, Space E s tf t u F →
    ∃ r s', pushArgs E t.pa stackbase argv sp argc ustack s = .ok (r, s') ∧
      Moved E s tf t F s' t u ∧ ∀ p, p ≠ q → s'.kmem.mem p = s.kmem.mem p := by
  intro argv
  induction argv with
  | nil => exact fun h => ⟨_, _, rfl, h.moved, fun _ _ => rfl⟩
  | cons arg argv ih =>
    intro sp argc ustack s h
    obtain ⟨r, s1, hrun, hm, hother⟩ := pushArg_spec hE h hq arg sp argc
    rw [pushArgs, bind_of_ok hrun]
    cases r with
    | none => exact ⟨none, s1, rfl, hm, hother⟩
    | some sp' =>
      obtain ⟨r', s2, hrun', hm', hother'⟩ := ih hm.space
      exact ⟨r', s2, hrun', hm.trans hm', fun p hp => (hother' p hp).trans (hother p hp)⟩

/-- **Pushing the arguments** writes to the stack's page and nowhere else. -/
theorem pushStack_spec (h : Space E s tf t u F)
    (hq : StackPage t (sz - PGSIZE) q) (argv : Args) (ustack : Bytes) :
    ∃ r s', pushStack E t.pa sz argv ustack s = .ok (r, s') ∧ Moved E s tf t F s' t u ∧
      ∀ p, p ≠ q → s'.kmem.mem p = s.kmem.mem p := by
  obtain ⟨r, s1, hrun, hm, hother⟩ := pushArgs_spec hE hq argv h
  unfold pushStack
  rw [bind_of_ok hrun]
  cases r with
  | none => exact ⟨none, s1, rfl, hm, hother⟩
  | some x =>
    obtain ⟨sp, argc, ustack'⟩ := x
    simp only
    by_cases hlow : pushDown sp ((argc + 1) * 8) < sz - PGSIZE
    · rw [if_pos hlow]
      exact ⟨none, s1, rfl, hm, hother⟩
    obtain ⟨r', s2, hrun', hm', hother'⟩ := copyout_stack hE hm.space hq (Nat.le_of_not_lt hlow)
      (ustack'.setLE (8 * argc) 8 0) ((argc + 1) * 8)
    have hboth : ∀ p, p ≠ q → s2.kmem.mem p = s.kmem.mem p := fun p hp =>
      (hother' p hp).trans (hother p hp)
    rw [if_neg hlow, bind_of_ok hrun']
    split
    · exact ⟨none, s2, rfl, hm.trans hm', hboth⟩
    · exact ⟨_, s2, rfl, hm.trans hm', hboth⟩

end

/-- The program is loaded: `u` holds its segments, from memory of zeroes, and
    `u'` has the stack too. `phs` are the headers of the segments, `s₀` the
    state before. -/
structure ProgramAt (E : Env) (tf : Nat) (F : List Nat) (readi : Readi) (phs : List Proghdr)
    (s₀ s : Phys) (t : PageTree 2) (u u' : Pages) : Prop where
  space : Space E s tf t u' F
  frame : ∀ p ∈ F, s.kmem.mem p = s₀.kmem.mem p
  user : AllUser u
  stacked : Stacked u u'
  fit : ∀ ph ∈ phs, ph.filesz ≤ ph.memsz ∧ ph.vaddr + ph.memsz ≤ u.length * PGSIZE
  inFile : ∀ c, Reads readi c → ∀ ph ∈ phs, 0 < ph.filesz →
    ph.off % 2 ^ 32 + ph.filesz ≤ c.length
  cells : ∀ c, Reads readi c → cell u' s.kmem.mem = phs.foldl (putSegment c) fun _ => 0

namespace ProgramAt

variable {readi : Readi} {phs : List Proghdr} {s₀ : Phys} {u' : Pages}

/-- A loaded program can use its memory, but for the guard page. -/
theorem access_iff (hE : E.Ok) (h : ProgramAt E tf F readi phs s₀ s t u u') {va : Nat} :
    Access t va ↔ va / PGSIZE < u.length + 2 ∧ va / PGSIZE ≠ u.length := by
  rw [h.space.access_iff hE]
  have hlen := h.stacked.length
  constructor
  · rintro ⟨x, hx, hu⟩
    have hlt := (List.getElem?_eq_some_iff.mp hx).1
    refine ⟨by omega, fun e => hu (h.stacked.guard x ?_)⟩
    rwa [← e]
  · rintro ⟨hlt, hne⟩
    obtain ⟨x, hx⟩ : ∃ x, u'[va / PGSIZE]? = some x := ⟨_, getElem?_eq_getElem (by omega)⟩
    refine ⟨x, hx, ?_⟩
    by_cases hlow : va / PGSIZE < u.length
    · rw [h.stacked.below _ hlow] at hx
      exact h.user x (mem_of_getElem? hx)
    · rw [show va / PGSIZE = u.length + 1 by omega] at hx
      exact h.stacked.stack x hx

theorem stackPage (hE : E.Ok) (h : ProgramAt E tf F readi phs s₀ s t u u') :
    ∃ x, u'[u.length + 1]? = some x ∧ StackPage t ((u.length + 2) * PGSIZE - PGSIZE) x.1 :=
  h.space.stackPage hE h.stacked.length

end ProgramAt

/-- The image that `exec` has at its commit: `s₁` is where the program was
    loaded, `s₂` where the arguments are on the page `q` of the stack. -/
structure ImageAt (E : Env) (tf : Nat) (F : List Nat) (argv : Args) (ustack : Bytes)
    (s₁ s₂ : Phys) (t : PageTree 2) (u u' : Pages) (q : Nat × Nat) (im : Image) :
    Prop where
  stacked : Stacked u u'
  stack : u'[u.length + 1]? = some q
  pushed : pushStack E t.pa ((u.length + 2) * PGSIZE) argv ustack s₁
    = .ok (some (im.sp, im.argc), s₂)
  moved : Moved E s₁ tf t F s₂ t u'
  others : ∀ a, a ≠ q.1 → s₂.kmem.mem a = s₁.kmem.mem a
  pagetable : im.pagetable = t.pa
  sz : im.sz = (u.length + 2) * PGSIZE

theorem ImageAt.length {argv : Args} {ustack : Bytes} {s₁ s₂ : Phys}
    {u' : Pages} {q : Nat × Nat} {im : Image}
    (h : ImageAt E tf F argv ustack s₁ s₂ t u u' q im) : u'.length = npages im.sz := by
  rw [h.sz, npages_mul, h.stacked.length]

/-- What `exec` has at its commit or after `bad`: an image, or nothing. `told`
    is as in `Hosts`. -/
def Built (E : Env) (tf : Nat) (F : List Nat) (argv : Args) (ustack : Bytes)
    (readi : Readi) (told : Prop) (s : Phys) (res : Option Image) (s' : Phys) : Prop :=
  res = none ∧ (∀ p ∈ F, s'.kmem.mem p = s.kmem.mem p) ∧ Acct E s'.kmem F ∨
  ∃ s₁ t u u' q im, res = some im ∧ ImageAt E tf F argv ustack s₁ s' t u u' q im ∧
    (∀ p ∈ F, s₁.kmem.mem p = s.kmem.mem p) ∧
    (told → ProgramAt E tf F readi (segments readi) s s₁ t u u')

section

variable {σ : Type} {H : Host σ} {phys : σ → Phys} {Opened Closed : σ → Prop} {readi : Readi}
  {told : Prop} {X : Stop → Prop} (hH : Hosts H phys Opened Closed readi told X) (hE : E.Ok)
  {argv : Args} {ustack : Bytes} {w : σ} {s₀ : Phys}

include hH hE

/-- **`bad:`** gives back all that was taken. -/
theorem execBad_wp (h : Space E (phys w) tf t u F) (hsz : u.length = npages sz)
    (hframe : ∀ p ∈ F, (phys w).kmem.mem p = s₀.kmem.mem p) {close : Sys σ Unit}
    (hclose : ∀ w', (Opened w → Opened w') → (Closed w → Closed w') →
      close.wp w' (fun _ w'' => phys w'' = phys w' ∧ Closed w'') X) :
    (execBad E H t.pa sz close).wp w (fun res w' => Closed w' ∧
      Built E tf F argv ustack readi told s₀ res (phys w')) X := by
  obtain ⟨s', hrun, hfr⟩ := procFreepagetable_spec hE h hsz
  obtain ⟨w', hrun', rfl, ho, hc⟩ := hH.mem hrun
  unfold execBad freeImage
  rw [if_pos (h.pa_ne_zero hE)]
  refine wp_bind (wp_of_ok hrun' ((hclose w' ho hc).bind fun _ w'' hw => wp_pure ⟨hw.2, .inl ?_⟩))
  rw [hw.1]
  exact ⟨rfl, fun p hp => (hfr.frame p hp).trans (hframe p hp), hfr.acct⟩

/-- **`exec` from its file up to the commit** has built an image, or given back
    all it took. -/
theorem execFile_wp (hacct : Acct E (phys w).kmem F) (hw : Opened w) (htf : PageAddr tf)
    (argv : Args) (ustack : Bytes) :
    (execFile E H tf argv ustack).wp w (fun res w' => Closed w' ∧
      Built E tf F argv ustack readi told (phys w) res (phys w')) X := by
  have hbad : ∀ {w1 : σ}, Acct E (phys w1).kmem F →
      (∀ p ∈ F, (phys w1).kmem.mem p = (phys w).kmem.mem p) → Opened w1 →
      (execBad E H 0 0 H.close).wp w1 (fun res w' => Closed w' ∧
        Built E tf F argv ustack readi told (phys w) res (phys w')) X := by
    intro w1 hacct1 hframe hw1
    refine (hH.close hw1).bind fun _ w' hw' => wp_pure ⟨hw'.2, .inl ?_⟩
    rw [hw'.1]
    exact ⟨rfl, hframe, hacct1⟩
  refine (hH.read hw 0 sizeofElfhdr).bind fun elf w1 hr1 => ?_
  obtain ⟨hp1, hw1, helf⟩ := hr1
  rw [← hp1] at hacct hbad ⊢
  refine wp_ite (fun _ => hbad hacct (fun _ _ => rfl) hw1) fun _ => ?_
  refine wp_ite (fun _ => hbad hacct (fun _ _ => rfl) hw1) fun _ => ?_
  obtain ⟨res, s2, hrun2, hframe2, hres⟩ := procPagetable_spec hE hacct htf
  obtain ⟨w2, hrun2', rfl, hw2, _⟩ := hH.mem hrun2
  refine wp_bind (wp_of_ok hrun2' ?_)
  rcases hres with ⟨rfl, hacct2⟩ | ⟨t2, rfl, hsp2⟩
  · exact hbad hacct2 hframe2 (hw2 hw1)
  refine (loadSegments_wp hH hE _ _ hsp2 (hw2 hw1) npages_zero.symm
    fun _ h => by cases h).bind fun r3 w3 hr3 => ?_
  obtain ⟨ok3, sz3⟩ := r3
  obtain ⟨t3, u3, hm3, hw3, hsz3, hload⟩ := hr3
  have hframe3 : ∀ p ∈ F, (phys w3).kmem.mem p = (phys w1).kmem.mem p := fun p hp =>
    (hm3.frame p hp).trans (hframe2 p hp)
  rw [← hm3.pa]
  refine wp_ite (fun _ => execBad_wp hH hE hm3.space hsz3 hframe3 fun w' ho _ =>
    hH.close (ho hw3)) fun hok3 => ?_
  refine (hH.close hw3).bind fun _ w4 hr4 => ?_
  obtain ⟨hp4, hw4⟩ := hr4
  obtain ⟨⟨ok5, sz5⟩, s5, t5, u5, hrun5, hm5, hsz5, hstack⟩ := execStack_spec hE hm3.space hsz3
  rw [← hp4] at hrun5
  obtain ⟨w5, hrun5', rfl, _, hw5⟩ := hH.mem hrun5
  have hframe5 : ∀ p ∈ F, (phys w5).kmem.mem p = (phys w1).kmem.mem p := fun p hp =>
    (hm5.frame p hp).trans (hframe3 p hp)
  refine wp_bind (wp_of_ok hrun5' ?_)
  rw [← hm5.pa]
  have hdone : ∀ w', Closed w' → (pure () : Sys σ Unit).wp w'
      (fun _ w'' => phys w'' = phys w' ∧ Closed w'') X := fun _ h => wp_pure ⟨rfl, h⟩
  refine wp_ite (fun _ => execBad_wp hH hE hm5.space hsz5 hframe5 fun w' _ hc =>
    hdone w' (hc (hw5 hw4))) fun hok5 => ?_
  obtain ⟨hsz, hst, hcell⟩ := hstack (by simpa using hok5)
  change sz5 = _ at hsz
  subst hsz
  obtain ⟨q, hq, hpage⟩ := hm5.space.stackPage hE hst.length
  obtain ⟨r, s6, hpush, hm6, hother⟩ := pushStack_spec hE hm5.space hpage argv ustack
  obtain ⟨w6, hrun6, rfl, _, hw6⟩ := hH.mem hpush
  refine wp_bind (wp_of_ok hrun6 ?_)
  cases r with
  | none => exact execBad_wp hH hE hm6.space hsz5 (fun p hp => (hm6.frame p hp).trans
      (hframe5 p hp)) fun w' _ hc => hdone w' (hc (hw6 (hw5 hw4)))
  | some y =>
    refine wp_pure ⟨hw6 (hw5 hw4), .inr ⟨_, t5, u3, u5, q, _, rfl,
      ⟨hst, hq, hpush, hm6, hother, rfl, rfl⟩, hframe5, fun htold => ?_⟩⟩
    have hl := hload htold (by simpa using hok3)
    rw [helf htold] at hl
    refine ⟨hm5.space, hframe5, hl.user, hst, fun ph hph => ?_, hl.inFile, fun c hc => ?_⟩
    · rw [hsz3]
      exact ⟨(hl.fit ph hph).1, (hl.fit ph hph).2.trans (le_npages_mul sz3)⟩
    · rw [hcell, hl.cells c hc]
      rfl

end

/-- **`exec` up to its commit**, as far as memory goes. -/
theorem execImage_spec (hE : E.Ok) (hacct : Acct E s.kmem F) (htf : PageAddr tf) (readi : Readi)
    (argv : Args) (ustack : Bytes) :
    ∃ res s', execImage E tf readi argv ustack s = .ok (res, s') ∧
      Built E tf F argv ustack readi True s res s' := by
  obtain ⟨res, s', hrun, _, hb⟩ := (execFile_wp (hosts_memory readi) hE hacct trivial htf argv
    ustack).returns
  exact ⟨res, s', hrun, hb⟩

/-! ## The argument pages -/

theorem fetchArgs_spec (hE : E.Ok) (fetchaddr : Nat → Option Nat)
    (fetchstr : Nat → Option (Bytes × Nat)) : ∀ (left i : Nat) (argv : Args) {s : Phys},
    Acct E s.kmem (argv.map Prod.fst ++ F) →
    ∃ ok argv' s', fetchArgs E fetchaddr fetchstr left i argv s = .ok ((ok, argv'), s') ∧
      Acct E s'.kmem (argv'.map Prod.fst ++ F) ∧ ∀ p ∈ F, s'.kmem.mem p = s.kmem.mem p := by
  intro left
  induction left with
  | zero => exact fun _ _ _ h => ⟨false, _, _, rfl, h, fun _ _ => rfl⟩
  | succ left ih =>
    intro i argv s h
    simp only [fetchArgs]
    cases fetchaddr i with
    | none => exact ⟨false, argv, s, rfl, h, fun _ _ => rfl⟩
    | some uarg =>
      simp only
      by_cases h0 : uarg = 0
      · rw [if_pos h0]
        exact ⟨true, argv, s, rfl, h, fun _ _ => rfl⟩
      rw [if_neg h0]
      cases hka : E.kalloc s.calls s.kmem with
      | none =>
        rw [bind_of_ok (kallocPage_none hE hka)]
        exact ⟨false, argv, _, rfl, h, fun _ _ => rfl⟩
      | some pg =>
        obtain ⟨s1, hrun, hacct1, hfresh, _, hmem, _, _⟩ := kallocPage_some hE h hka
        have hpg : ∀ p ∈ F, p ≠ pg := fun p hp e => hfresh (mem_append_right _ (e ▸ hp))
        have hacct' : ∀ len, Acct E s1.kmem ((argv ++ [(pg, len)]).map Prod.fst ++ F) := by
          intro len
          refine hacct1.perm ?_
          simp only [map_append, map_cons, map_nil, append_assoc,
            cons_append, nil_append]
          exact perm_middle.symm
        rw [bind_of_ok hrun]
        cases fetchstr uarg with
        | none => exact ⟨false, _, s1, rfl, hacct' 0, fun p hp => hmem p (hpg p hp)⟩
        | some x =>
          obtain ⟨str, len⟩ := x
          simp only [movePage, modify_bind_run]
          generalize hs2 : s1.setMem _ = s2
          have hacct2 : Acct E s2.kmem ((argv ++ [(pg, len)]).map Prod.fst ++ F) :=
            hs2 ▸ (hacct' len).congr rfl rfl rfl rfl
          obtain ⟨ok, argv', s', hrun', hacct'', hframe⟩ := ih _ _ hacct2
          refine ⟨ok, argv', s', hrun', hacct'', fun p hp => ?_⟩
          rw [hframe p hp, ← hs2]
          exact (Function.update_of_ne (hpg p hp) _ _).trans (hmem p (hpg p hp))

theorem freeArgs_spec (hE : E.Ok) : ∀ {argv : Args} {s : Phys},
    Acct E s.kmem (argv.map Prod.fst ++ F) →
    ∃ s', freeArgs E argv s = .ok ((), s') ∧ Acct E s'.kmem F ∧
      ∀ p ∈ F, s'.kmem.mem p = s.kmem.mem p := by
  intro argv
  induction argv with
  | nil => exact fun h => ⟨_, rfl, h, fun _ _ => rfl⟩
  | cons arg argv ih =>
    intro s h
    obtain ⟨s1, hrun, hacct, hmem, _, _⟩ := kfreePage_spec hE h
    obtain ⟨s2, hrun2, hacct2, hframe⟩ := ih hacct
    refine ⟨s2, ?_, hacct2, fun p hp => ?_⟩
    · rw [freeArgs, bind_of_ok hrun, hrun2]
    · have hne : p ≠ arg.1 := fun e =>
        (nodup_cons.mp h.nodup_owned).1 (mem_append_right _ (e ▸ hp))
      rw [hframe p hp, hmem p hne]

end Specs

end Xv6
