import Mathlib.Algebra.Group.Nat.Defs

/-!
# The kernel's constants

`kernel/param.h`, `kernel/fs.h`, `kernel/riscv.h`, `kernel/memlayout.h` and the
`nlog` of `mkfs/mkfs.c`, under their C names. They are plain numbers here; what
the code does with them at a given width is said where it does it.
-/

namespace Xv6

/-! ## `param.h` -/

/-- maximum number of processes -/
abbrev NPROC : Nat := 64
/-- open files per process -/
abbrev NOFILE : Nat := 16
/-- open files per system -/
abbrev NFILE : Nat := 100
/-- maximum number of active i-nodes -/
abbrev NINODE : Nat := 50
/-- maximum major device number -/
abbrev NDEV : Nat := 10
/-- device number of file system root disk -/
abbrev ROOTDEV : Nat := 1
/-- max exec arguments -/
abbrev MAXARG : Nat := 32
/-- max # of blocks any FS op writes -/
abbrev MAXOPBLOCKS : Nat := 10
/-- max data blocks in on-disk log -/
abbrev LOGSIZE : Nat := MAXOPBLOCKS * 3
/-- size of disk block cache -/
abbrev NBUF : Nat := MAXOPBLOCKS * 3

-- for the numerals of `Fin NPROC` and `Fin NINODE`
instance nprocPos : @NeZero Nat .ofOfNat0 NPROC := ⟨by decide⟩
instance ninodePos : @NeZero Nat .ofOfNat0 NINODE := ⟨by decide⟩

/-! ## `riscv.h` and `memlayout.h` -/

/-- bytes per page -/
abbrev PGSIZE : Nat := 4096
/-- one beyond the highest possible virtual address -/
abbrev MAXVA : Nat := 2 ^ 38
/-- where RAM starts -/
abbrev KERNBASE : Nat := 0x80000000
/-- where the RAM the kernel uses ends -/
abbrev PHYSTOP : Nat := KERNBASE + 128 * 1024 * 1024
/-- the page of the trap entry code, in every address space -/
abbrev TRAMPOLINE : Nat := MAXVA - PGSIZE
/-- the page of the process's trap frame, just below it -/
abbrev TRAPFRAME : Nat := TRAMPOLINE - PGSIZE

/-! ## `mkfs.c` -/

/-- The number of log blocks `mkfs` writes into the superblock; the log header
    is one of them. -/
abbrev nlog : Nat := LOGSIZE

end Xv6
