import Mathlib.Data.List.Nodup
import Mathlib.Tactic.NormNum
import Xv6.Lib.Bytes
import Xv6.Lib.Sys
import Xv6.Param

/-!
# The physical page allocator

`kernel/kalloc.c`. A page of this kernel has a reference count: `kalloc` raises
it, `kfree` lowers it and puts the page on the free list when it reaches zero.
The counts are 32-bit and wrap.

The free list is the list of page addresses that `kmem.freelist` threads through
the pages themselves; the contents of memory are kept page by page, because
every access of the allocator and of the page tables stays inside one page.
`end` is the kernel's first free address and `PGNUM`, which the sources use
without defining, is a parameter.

What boot does with this is the last section: `kfree` is the only way onto the
free list, boot calls it on pages nobody counted, and `0 - 1` is not zero.
-/

namespace Xv6

/-- `((sz)+PGSIZE-1) & ~(PGSIZE-1)` on 64 bits -/
def PGROUNDUP (sz : Nat) : Nat := (sz + (PGSIZE - 1)) % 2 ^ 64 / PGSIZE * PGSIZE

/-- The allocator's globals, and memory. -/
structure Kmem where
  /-- the pages on `kmem.freelist`, first to last -/
  freelist : List Nat
  /-- `static uint32 ref_count[32768]` -/
  refCount : Nat → UInt32
  freePages : UInt64
  maxPages : UInt64
  /-- what each page of memory holds, by its address -/
  mem : Nat → Bytes

namespace Kmem

/-- The globals as the loader leaves them. -/
def boot (mem : Nat → Bytes) : Kmem :=
  { freelist := [], refCount := fun _ => 0, freePages := 0, maxPages := 0, mem := mem }

/-- `memset(pa, c, PGSIZE)` -/
def memset (k : Kmem) (pa : Nat) (c : UInt8) : Kmem :=
  { k with mem := Function.update k.mem pa ((k.mem pa).fill 0 PGSIZE c) }

/-- `ref_count[i] = v` -/
def setRef (k : Kmem) (i : Nat) (v : UInt32) : Kmem :=
  { k with refCount := Function.update k.refCount i v }

@[simp] theorem setRef_self (k : Kmem) (i : Nat) (v : UInt32) : (k.setRef i v).refCount i = v := by
  simp [setRef]

theorem setRef_ne (k : Kmem) {i j : Nat} (v : UInt32) (h : j ≠ i) :
    (k.setRef i v).refCount j = k.refCount j := by
  simp [setRef, h]

end Kmem

section Code

variable (PGNUM : Nat → Nat) (kend : Nat)

/-- Free the page of physical memory pointed at by `pa`. -/
def kfree (pa : Nat) : Sys Kmem Unit := do
  let k ← Sys.reads id
  if k.maxPages ≠ 0 ∧ ¬ k.freePages < k.maxPages then Sys.panic "assert failed"
  else if pa % PGSIZE ≠ 0 ∨ pa < kend ∨ pa ≥ PHYSTOP then Sys.panic "kfree"
  else do
    -- fill with junk to catch dangling refs
    Sys.modify fun k => k.memset pa 1
    Sys.modify fun k => k.setRef (PGNUM pa) (k.refCount (PGNUM pa) - 1)
    let k ← Sys.reads id
    if k.refCount (PGNUM pa) = 0 then
      Sys.modify fun k => { k with freelist := pa :: k.freelist, freePages := k.freePages + 1 }
    else pure ()

/-- Allocate one 4096-byte page of physical memory; 0 if the memory cannot be
    allocated. -/
def kalloc : Sys Kmem Nat := do
  let k ← Sys.reads id
  if ¬ k.freePages > 0 then Sys.panic "assert failed"
  else match k.freelist with
    | [] => do
      Sys.modify fun k => { k with freePages := k.freePages - 1 }
      pure 0
    | r :: rest => do
      Sys.modify fun k => k.setRef (PGNUM r) (k.refCount (PGNUM r) + 1)
      Sys.modify fun k => { k with freelist := rest }
      Sys.modify fun k => k.memset r 5
      Sys.modify fun k => { k with freePages := k.freePages - 1 }
      pure r

/-- The loop of `freerange`; the first argument bounds the number of turns. -/
def freerangeLoop (paEnd : Nat) : Nat → Nat → Sys Kmem Unit
  | 0, _ => pure ()
  | turns + 1, p =>
    if p + PGSIZE ≤ paEnd then do
      kfree PGNUM kend p
      freerangeLoop paEnd turns (p + PGSIZE)
    else pure ()

/-- `freerange(pa_start, pa_end)`: every turn moves a page up, so `pa_end`
    bounds the turns. -/
def freerange (paStart paEnd : Nat) : Sys Kmem Unit :=
  freerangeLoop PGNUM kend paEnd (paEnd / PGSIZE + 1) (PGROUNDUP paStart)

/-- `kinit()` -/
def kinit : Sys Kmem Unit := do
  freerange PGNUM kend kend PHYSTOP
  Sys.modify fun k => { k with maxPages := k.freePages }
  -- for (int i = 0; i < MAX_PAGES; i++) ref_count[i] = 0;
  Sys.modify fun k =>
    { k with refCount := fun i => if i < k.maxPages.toNat then 0 else k.refCount i }

end Code

end Xv6
