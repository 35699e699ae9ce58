import Xv6.Mem.Phys
import Xv6.Mem.Tree

/-!
# Address spaces

The part of `kernel/vm.c` and `kernel/proc.c` that builds, changes and frees
page tables. A `pte_t *` is a table page and an index; a loop whose number of
turns the code does not say carries a bound on them and hangs when it runs out,
so a theorem that the call returns also says that the bound is enough. Sizes and
addresses are 64-bit and wrap.
-/

namespace Xv6

open Function

def Phys.setMem (s : Phys) (m : Nat → Bytes) : Phys := { s with kmem := { s.kmem with mem := m } }

/-- `*pte` -/
def loadPte (pg : Nat) (i : Fin 512) : Sys Phys Nat := Sys.reads fun s => pteAt s.kmem.mem pg i

/-- `*pte = v` -/
def storePte (pg : Nat) (i : Fin 512) (v : Nat) : Sys Phys Unit :=
  Sys.modify fun s => s.setMem (setPte s.kmem.mem pg i v)

/-- `memset(pa, c, PGSIZE)` -/
def memsetPage (pa : Nat) (c : UInt8) : Sys Phys Unit :=
  Sys.modify fun s => s.setKmem (s.kmem.memset pa c)

/-- `memmove(pa + off, src + so, n)` inside one page -/
def movePage (pa off : Nat) (src : Bytes) (so n : Nat) : Sys Phys Unit :=
  Sys.modify fun s =>
    s.setMem (update s.kmem.mem pa ((s.kmem.mem pa).blit off src so n))

/-- More turns than any loop over 64-bit page addresses can take. -/
def turns : Nat := 2 ^ 52 + 1

section Code

variable (E : Env)

/-! ## Walking a page table -/

/-- The loop of `walk`, at `level` with `pagetable` the table of that level. -/
def walkFrom (va : Nat) (alloc : Bool) : Nat → Nat → Sys Phys (Option (Nat × Fin 512))
  | 0, pagetable => pure (some (pagetable, px 0 va))
  | level + 1, pagetable => do
    let pte ← loadPte pagetable (px (level + 1) va)
    if pte &&& PTE_V ≠ 0 then walkFrom va alloc level (PTE2PA pte)
    else if alloc then do
      match ← kallocPage E with
      | none => pure none
      | some pg => do
        memsetPage pg 0
        storePte pagetable (px (level + 1) va) (PA2PTE pg ||| PTE_V)
        walkFrom va alloc level pg
    else pure none

/-- The address of the PTE for `va`; with `alloc`, creates any required
    page-table pages. -/
def walk (pagetable va : Nat) (alloc : Bool) : Sys Phys (Option (Nat × Fin 512)) :=
  if va ≥ MAXVA then Sys.panic "walk" else walkFrom E va alloc 2 pagetable

/-- The physical address of a user page, or 0 if not mapped. -/
def walkaddr (pagetable va : Nat) : Sys Phys Nat :=
  if va ≥ MAXVA then pure 0
  else do
    match ← walk E pagetable va false with
    | none => pure 0
    | some (pg, i) => do
      let pte ← loadPte pg i
      if pte &&& PTE_V = 0 then pure 0
      else if pte &&& PTE_U = 0 then pure 0
      else pure (PTE2PA pte)

def mappagesLoop (pagetable last perm : Nat) : Nat → Nat → Nat → Sys Phys Int
  | 0, _, _ => Sys.hang
  | fuel + 1, a, pa => do
    match ← walk E pagetable a true with
    | none => pure (-1)
    | some (pg, i) => do
      let pte ← loadPte pg i
      if pte &&& PTE_V ≠ 0 then Sys.panic "mappages: remap"
      else do
        storePte pg i (mkPte pa perm)
        if a = last then pure 0
        else mappagesLoop pagetable last perm fuel ((a + PGSIZE) % 2 ^ 64) ((pa + PGSIZE) % 2 ^ 64)

/-- Create PTEs for virtual addresses starting at `va` that refer to physical
    addresses starting at `pa`; -1 if `walk` couldn't allocate a needed
    page-table page. -/
def mappages (pagetable va size pa perm : Nat) : Sys Phys Int :=
  if size = 0 then Sys.panic "mappages: size"
  else mappagesLoop E pagetable (PGROUNDDOWN ((va + size - 1) % 2 ^ 64)) perm turns
    (PGROUNDDOWN va) pa

def uvmunmapLoop (pagetable : Nat) (doFree : Bool) : Nat → Nat → Sys Phys Unit
  | 0, _ => pure ()
  | npages + 1, a => do
    match ← walk E pagetable a false with
    | none => Sys.panic "uvmunmap: walk"
    | some (pg, i) => do
      let pte ← loadPte pg i
      if pte &&& PTE_V = 0 then Sys.panic "uvmunmap: not mapped"
      else if PTE_FLAGS pte = PTE_V then Sys.panic "uvmunmap: not a leaf"
      else do
        if doFree then kfreePage E (PTE2PA pte) else pure ()
        storePte pg i 0
        uvmunmapLoop pagetable doFree npages (a + PGSIZE)

/-- Remove `npages` of mappings starting from `va`; optionally free the physical
    memory. The loop runs while `a < va + npages*PGSIZE`, where the sum has 64
    bits. -/
def uvmunmap (pagetable va npages : Nat) (doFree : Bool) : Sys Phys Unit :=
  if va % PGSIZE ≠ 0 then Sys.panic "uvmunmap: not aligned"
  else uvmunmapLoop E pagetable doFree (((va + npages * PGSIZE) % 2 ^ 64 - va) / PGSIZE) va

/-! ## Growing and shrinking user memory -/

/-- An empty user page table. -/
def uvmcreate : Sys Phys (Option Nat) := do
  match ← kallocPage E with
  | none => pure none
  | some pagetable => do
    memsetPage pagetable 0
    pure (some pagetable)

/-- Deallocate user pages to bring the process size from `oldsz` to `newsz`. -/
def uvmdealloc (pagetable oldsz newsz : Nat) : Sys Phys Nat :=
  if newsz ≥ oldsz then pure oldsz
  else do
    if PGROUNDUP newsz < PGROUNDUP oldsz then
      uvmunmap E pagetable (PGROUNDUP newsz) ((PGROUNDUP oldsz - PGROUNDUP newsz) / PGSIZE) true
    else pure ()
    pure newsz

def uvmallocLoop (pagetable oldsz newsz xperm : Nat) : Nat → Nat → Sys Phys Nat
  | 0, _ => Sys.hang
  | fuel + 1, a =>
    if a < newsz then do
      match ← kallocPage E with
      | none => do
        let _ ← uvmdealloc E pagetable a oldsz
        pure 0
      | some mem => do
        memsetPage mem 0
        let r ← mappages E pagetable a PGSIZE mem (PTE_R ||| PTE_U ||| xperm)
        if r ≠ 0 then do
          kfreePage E mem
          let _ ← uvmdealloc E pagetable a oldsz
          pure 0
        else uvmallocLoop pagetable oldsz newsz xperm fuel ((a + PGSIZE) % 2 ^ 64)
    else pure newsz

/-- Allocate PTEs and physical memory to grow a process from `oldsz` to `newsz`;
    the new size, or 0 on error. -/
def uvmalloc (pagetable oldsz newsz xperm : Nat) : Sys Phys Nat :=
  if newsz < oldsz then pure oldsz
  else uvmallocLoop E pagetable (PGROUNDUP oldsz) newsz xperm turns (PGROUNDUP oldsz)

/-! ## Freeing -/

/-- `0 .. 511` -/
@[irreducible] def entries : List (Fin 512) := List.finRange 512

/-- The loop of `freewalk` over the entries `is`, with `rec` for the recursive
    call. -/
def freeEntries (rec : Nat → Sys Phys Unit) (pagetable : Nat) : List (Fin 512) → Sys Phys Unit
  | [] => pure ()
  | i :: is => do
    let pte ← loadPte pagetable i
    if pte &&& PTE_V ≠ 0 ∧ pte &&& (PTE_R ||| PTE_W ||| PTE_X) = 0 then do
      -- this PTE points to a lower-level page table
      rec (PTE2PA pte)
      storePte pagetable i 0
      freeEntries rec pagetable is
    else if pte &&& PTE_V ≠ 0 then Sys.panic "freewalk: leaf"
    else freeEntries rec pagetable is

/-- Recursively free page-table pages; the first argument bounds the depth. -/
def freewalk : Nat → Nat → Sys Phys Unit
  | 0, _ => Sys.hang
  | depth + 1, pagetable => do
    freeEntries (freewalk depth) pagetable entries
    kfreePage E pagetable

/-- Free user memory pages, then free page-table pages. -/
def uvmfree (pagetable sz : Nat) : Sys Phys Unit := do
  if sz > 0 then uvmunmap E pagetable 0 (PGROUNDUP sz / PGSIZE) true else pure ()
  freewalk E 3 pagetable

/-! ## Copying -/

def uvmcopyLoop (old new sz : Nat) : Nat → Nat → Sys Phys Int
  | 0, _ => Sys.hang
  | fuel + 1, i =>
    if i < sz then do
      match ← walk E old i false with
      | none => Sys.panic "uvmcopy: pte should exist"
      | some (pg, j) => do
        let pte ← loadPte pg j
        if pte &&& PTE_V = 0 then Sys.panic "uvmcopy: page not present"
        else do
          match ← kallocPage E with
          | none => do
            uvmunmap E new 0 (i / PGSIZE) true
            pure (-1)
          | some mem => do
            let page ← Sys.reads fun s => s.kmem.mem (PTE2PA pte)
            movePage mem 0 page 0 PGSIZE
            let r ← mappages E new i PGSIZE mem (PTE_FLAGS pte)
            if r ≠ 0 then do
              kfreePage E mem
              uvmunmap E new 0 (i / PGSIZE) true
              pure (-1)
            else uvmcopyLoop old new sz fuel ((i + PGSIZE) % 2 ^ 64)
    else pure 0

/-- Given a parent process's page table, copy its memory into a child's page
    table. -/
def uvmcopy (old new sz : Nat) : Sys Phys Int := uvmcopyLoop E old new sz turns 0

/-- Mark a PTE invalid for user access. -/
def uvmclear (pagetable va : Nat) : Sys Phys Unit := do
  match ← walk E pagetable va false with
  | none => Sys.panic "uvmclear"
  | some (pg, i) => do
    let pte ← loadPte pg i
    storePte pg i (clearUser pte)

/-- The loop of `copyout`; every turn copies at least a byte, so `len` bounds
    the turns. -/
def copyoutLoop (pagetable : Nat) (src : Bytes) : Nat → Nat → Nat → Nat → Sys Phys Int
  | 0, _, _, _ => pure 0
  | fuel + 1, dstva, off, len =>
    if len > 0 then do
      let va0 := PGROUNDDOWN dstva
      let pa0 ← walkaddr E pagetable va0
      if pa0 = 0 then pure (-1)
      else do
        let n := min (PGSIZE - (dstva - va0)) len
        movePage pa0 (dstva - va0) src off n
        copyoutLoop pagetable src fuel ((va0 + PGSIZE) % 2 ^ 64) (off + n) (len - n)
    else pure 0

/-- Copy `len` bytes from `src` to virtual address `dstva` in a given page
    table. -/
def copyout (pagetable dstva : Nat) (src : Bytes) (len : Nat) : Sys Phys Int :=
  copyoutLoop E pagetable src len dstva 0 len

/-- The loop of `copyin`, which has filled `dst` up to `off`. -/
def copyinLoop (pagetable : Nat) : Nat → Bytes → Nat → Nat → Nat → Sys Phys (Int × Bytes)
  | 0, dst, _, _, _ => pure (0, dst)
  | fuel + 1, dst, off, srcva, len =>
    if len > 0 then do
      let va0 := PGROUNDDOWN srcva
      let pa0 ← walkaddr E pagetable va0
      if pa0 = 0 then pure (-1, dst)
      else do
        let n := min (PGSIZE - (srcva - va0)) len
        let page ← Sys.reads fun s => s.kmem.mem pa0
        copyinLoop pagetable fuel (dst.blit off page (srcva - va0) n) (off + n)
          ((va0 + PGSIZE) % 2 ^ 64) (len - n)
    else pure (0, dst)

/-- Copy `len` bytes to `dst` from virtual address `srcva` in a given page
    table. -/
def copyin (pagetable : Nat) (dst : Bytes) (srcva len : Nat) : Sys Phys (Int × Bytes) :=
  copyinLoop E pagetable len dst 0 srcva len

/-- The inner loop of `copyinstr`: at most `n` bytes of a page, from `p` on, up
    to a NUL. -/
def scanPage (page : Bytes) : Nat → Nat → Bytes → Nat → Bool × Bytes
  | 0, _, dst, _ => (false, dst)
  | n + 1, p, dst, off =>
    if page p = 0 then (true, update dst off 0)
    else scanPage page n (p + 1) (update dst off (page p)) (off + 1)

/-- The loop of `copyinstr`; every turn that goes on has used a byte of
    `max`. -/
def copyinstrLoop (pagetable : Nat) : Nat → Bytes → Nat → Nat → Nat → Sys Phys (Int × Bytes)
  | 0, _, _, _, _ => Sys.hang
  | fuel + 1, dst, off, srcva, max =>
    if max > 0 then do
      let va0 := PGROUNDDOWN srcva
      let pa0 ← walkaddr E pagetable va0
      if pa0 = 0 then pure (-1, dst)
      else do
        let n := min (PGSIZE - (srcva - va0)) max
        let page ← Sys.reads fun s => s.kmem.mem pa0
        let scanned := scanPage page n (srcva - va0) dst off
        if scanned.1 then pure (0, scanned.2)
        else copyinstrLoop pagetable fuel scanned.2 (off + n) ((va0 + PGSIZE) % 2 ^ 64) (max - n)
    else pure (-1, dst)

/-- Copy a null-terminated string of at most `max` bytes from user to kernel. -/
def copyinstr (pagetable : Nat) (dst : Bytes) (srcva max : Nat) : Sys Phys (Int × Bytes) :=
  copyinstrLoop E pagetable (max + 1) dst 0 srcva max

/-! ## A process's page table -/

/-- A user page table with no user memory, but with trampoline and trapframe
    pages. -/
def procPagetable (trapframe : Nat) : Sys Phys (Option Nat) := do
  match ← uvmcreate E with
  | none => pure none
  | some pagetable => do
    let r ← mappages E pagetable TRAMPOLINE PGSIZE E.trampoline (PTE_R ||| PTE_X)
    if r < 0 then do
      uvmfree E pagetable 0
      pure none
    else do
      let r ← mappages E pagetable TRAPFRAME PGSIZE trapframe (PTE_R ||| PTE_W)
      if r < 0 then do
        uvmunmap E pagetable TRAMPOLINE 1 false
        uvmfree E pagetable 0
        pure none
      else pure (some pagetable)

/-- Free a process's page table, and free the physical memory it refers to. -/
def procFreepagetable (pagetable sz : Nat) : Sys Phys Unit := do
  uvmunmap E pagetable TRAMPOLINE 1 false
  uvmunmap E pagetable TRAPFRAME 1 false
  uvmfree E pagetable sz

/-- Grow or shrink user memory by `n` bytes: the return value and the new
    `p->sz`. -/
def growproc (pagetable sz : Nat) (n : Int) : Sys Phys (Int × Nat) :=
  if n > 0 then do
    let sz' ← uvmalloc E pagetable sz ((sz + n) % 2 ^ 64).toNat PTE_W
    if sz' = 0 then pure (-1, sz) else pure (0, sz')
  else if n < 0 then do
    let sz' ← uvmdealloc E pagetable sz ((sz + n) % 2 ^ 64).toNat
    pure (0, sz')
  else pure (0, sz)

/-- `sizeof(struct user_proc)` -/
abbrev sizeofUserProc : Nat := 36

/-- The stack has room for `struct user_proc loc_result[count]`, which is laid
    out in units of 16 bytes. -/
def Env.Fits (count : UInt8) : Prop := (count.toNat * sizeofUserProc + 15) / 16 * 16 ≤ E.stackRoom

instance (count : UInt8) : Decidable (E.Fits count) := inferInstanceAs (Decidable (_ ≤ _))

/-- `ps(start, count)` on the caller's address space: what it returns, and the
    new `p->sz`. The table it copies out is `table`;
    `proc + start * sizeof(proc)` is beyond the process table for every `start`
    but 0. The array on the stack is not used before that is known. -/
def ps (pagetable sz : Nat) (start count : UInt8) (table : Bytes) : Sys Phys (Nat × Nat) :=
  if count = 0 then pure (0, sz)
  else do
    let (r, sz') ← growproc E pagetable sz (count.toNat * sizeofUserProc : Nat)
    if r < 0 then pure (0, sz')
    else if start ≠ 0 then pure (0, sz')
    else if ¬ E.Fits count then Sys.overflow
    else do
      let _ ← copyout E pagetable sz table (count.toNat * sizeofUserProc)
      pure (sz, sz')

end Code

end Xv6
