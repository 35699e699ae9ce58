import Mathlib.Data.List.OfFn
import Xv6.Lib.Fields
import Xv6.Param

/-!
# The on-disk format

`kernel/fs.h`: blocks of 1024 bytes, inodes of 64 bytes, sixteen to a block,
directory entries of 16 bytes, and a bitmap with a bit for every block. A
`Dinode` is a `struct dinode` as numbers; the 16-bit fields are kept as the
patterns on the disk, and `Bytes.toInt 16` gives the `short`.
-/

namespace Xv6

open Bytes Nat
namespace Fs

/-! ## Constants of `fs.h` and `stat.h` -/

/-- root i-number -/
abbrev ROOTINO : Nat := 1
/-- block size -/
abbrev BSIZE : Nat := 1024
abbrev NDIRECT : Nat := 12
instance addrsPos : NeZero 13 := ⟨by decide⟩
abbrev NINDIRECT : Nat := BSIZE / 4
abbrev MAXFILE : Nat := NDIRECT + NINDIRECT
/-- Inodes per block. -/
abbrev IPB : Nat := BSIZE / 64
/-- Bitmap bits per block -/
abbrev BPB : Nat := BSIZE * 8
abbrev DIRSIZ : Nat := 14
/-- `sizeof(struct dirent)` -/
abbrev DESIZE : Nat := 16

/-- Directory -/
abbrev T_DIR : Nat := 1
/-- File -/
abbrev T_FILE : Nat := 2

/-! ## The super block -/

structure Superblock where
  magic : Nat
  /-- Size of file system image (blocks) -/
  size : Nat
  /-- Number of data blocks -/
  nblocks : Nat
  /-- Number of inodes. -/
  ninodes : Nat
  /-- Number of log blocks -/
  nlog : Nat
  logstart : Nat
  inodestart : Nat
  bmapstart : Nat
  deriving DecidableEq

abbrev FSMAGIC : Nat := 0x10203040

/-- Block containing inode `i` -/
def Superblock.IBLOCK (sb : Superblock) (i : Nat) : Nat := i / IPB + sb.inodestart

/-- Block of free map containing bit for block `b` -/
def Superblock.BBLOCK (sb : Superblock) (b : Nat) : Nat := b / BPB + sb.bmapstart

/-- The first of the data blocks, which are the last `nblocks` of the image. -/
def Superblock.dataStart (sb : Superblock) : Nat := sb.size - sb.nblocks

/-- The regions that the super block names: inode blocks and bitmap blocks are
    different and before the data. Block numbers are `int`s in `balloc`. -/
structure Superblock.Ok (sb : Superblock) : Prop where
  small : sb.size < 2 ^ 31
  boot : 0 < sb.dataStart
  inodes : ∀ i < sb.ninodes, sb.IBLOCK i < sb.dataStart
  bitmap : ∀ b < sb.size, sb.BBLOCK b < sb.dataStart
  apart : ∀ i < sb.ninodes, ∀ b < sb.size, sb.IBLOCK i ≠ sb.BBLOCK b

/-! ## Inodes -/

/-- On-disk inode structure -/
structure Dinode where
  /-- File type -/
  type : Nat
  /-- Major device number (T_DEVICE only) -/
  major : Nat
  /-- Minor device number (T_DEVICE only) -/
  minor : Nat
  /-- Number of links to inode in file system -/
  nlink : Nat
  /-- Size of file (bytes) -/
  size : Nat
  /-- Data block addresses: `NDIRECT` of data blocks and one of the indirect
      block -/
  addrs : Fin 13 → Nat

/-- The fields fit their width. -/
structure Dinode.Ok (d : Dinode) : Prop where
  type : d.type < 2 ^ 16
  major : d.major < 2 ^ 16
  minor : d.minor < 2 ^ 16
  nlink : d.nlink < 2 ^ 16
  size : d.size < 2 ^ 32
  addrs : ∀ k, d.addrs k < 2 ^ 32

/-- The `struct dinode` at offset `o` of a block. -/
def getDinode (b : Bytes) (o : Nat) : Dinode where
  type := b.getLE o 2
  major := b.getLE (o + 2) 2
  minor := b.getLE (o + 4) 2
  nlink := b.getLE (o + 6) 2
  size := b.getLE (o + 8) 4
  addrs := fun k => b.getLE (o + 12 + 4 * k) 4

/-- The stores of `iupdate` into a block. -/
def putDinode (b : Bytes) (o : Nat) (d : Dinode) : Bytes :=
  (((((b.setLE o 2 d.type).setLE (o + 2) 2 d.major).setLE (o + 4) 2 d.minor).setLE
    (o + 6) 2 d.nlink).setLE (o + 8) 4 d.size).setWords (o + 12) (List.ofFn d.addrs)

theorem getDinode_ok (b : Bytes) (o : Nat) : (getDinode b o).Ok where
  type := getLE_lt b o 2
  major := getLE_lt b _ 2
  minor := getLE_lt b _ 2
  nlink := getLE_lt b _ 2
  size := getLE_lt b _ 4
  addrs := fun _ => getLE_lt b _ 4

theorem getDinode_congr {b b' : Bytes} {o : Nat} (h : ∀ a, o ≤ a → a < o + 64 → b a = b' a) :
    getDinode b o = getDinode b' o := by
  have hf : ∀ j k, j + k ≤ 64 → b.getLE (o + j) k = b'.getLE (o + j) k := fun j k hjk =>
    getLE_congr fun a h1 h2 => h a (by omega) (by omega)
  unfold getDinode
  congr 1
  · exact hf 0 2 (by decide)
  · exact hf 2 2 (by decide)
  · exact hf 4 2 (by decide)
  · exact hf 6 2 (by decide)
  · exact hf 8 4 (by decide)
  · funext k
    rw [Nat.add_assoc]
    exact hf (12 + 4 * k) 4 (by omega)

theorem putDinode_outside {b : Bytes} {o a : Nat} {d : Dinode} (h : a < o ∨ o + 64 ≤ a) :
    putDinode b o d a = b a := by
  unfold putDinode
  rw [setWords_outside (by rw [List.length_ofFn]; omega)]
  simp (disch := omega) only [setLE_outside]

theorem getDinode_putDinode_other {b : Bytes} {o o' : Nat} {d : Dinode}
    (h : o' + 64 ≤ o ∨ o + 64 ≤ o') : getDinode (putDinode b o d) o' = getDinode b o' :=
  getDinode_congr fun _ _ _ => putDinode_outside (by omega)

/-- **Reading an inode back.** -/
theorem getDinode_putDinode {d : Dinode} (h : d.Ok) (b : Bytes) (o : Nat) :
    getDinode (putDinode b o d) o = d := by
  unfold getDinode putDinode
  congr 1
  · rw [getLE_setWords_disjoint (by omega)]
    simp (disch := omega) only [getLE_setLE_disjoint, getLE_setLE_same]
    exact mod_eq_of_lt h.type
  · rw [getLE_setWords_disjoint (by omega)]
    simp (disch := omega) only [getLE_setLE_disjoint, getLE_setLE_same]
    exact mod_eq_of_lt h.major
  · rw [getLE_setWords_disjoint (by omega)]
    simp (disch := omega) only [getLE_setLE_disjoint, getLE_setLE_same]
    exact mod_eq_of_lt h.minor
  · rw [getLE_setWords_disjoint (by omega)]
    simp (disch := omega) only [getLE_setLE_disjoint, getLE_setLE_same]
    exact mod_eq_of_lt h.nlink
  · rw [getLE_setWords_disjoint (by omega), getLE_setLE_same]
    exact mod_eq_of_lt h.size
  · funext k
    have hk : (k : Nat) < (List.ofFn d.addrs).length := by rw [List.length_ofFn]; exact k.isLt
    rw [getLE_setWords hk, List.getElem_ofFn]
    exact mod_eq_of_lt (h.addrs k)

/-- `memset(dip, 0, sizeof(*dip)); dip->type = type` -/
def clearDinode (b : Bytes) (o type : Nat) : Bytes := (b.fill o 64 0).setLE o 2 type

/-- An inode with nothing but a type. -/
def Dinode.fresh (type : Nat) : Dinode where
  type := type
  major := 0
  minor := 0
  nlink := 0
  size := 0
  addrs := fun _ => 0

/-! ## Directory entries -/

/-- A file name as the kernel passes it on: at most `DIRSIZ` bytes, none of them
    0. -/
abbrev Name := List UInt8

/-- `de.inum` -/
def deInum (de : Bytes) (o : Nat) : Nat := de.getLE o 2

/-- The name in an entry: the bytes before the first 0, at most `DIRSIZ`. -/
def deName (de : Bytes) (o : Nat) : Name := (de.slice (o + 2) DIRSIZ).takeWhile (· != 0)

/-- `strncpy(de.name, name, DIRSIZ); de.inum = inum` -/
def mkDirent (name : Name) (inum : Nat) : Bytes :=
  (Bytes.zero.blit 2 (Bytes.ofList name) 0 DIRSIZ).setLE 0 2 inum

/-- `strncmp(p, q, n)`, from position `i` on. -/
def strncmp (p q : Bytes) : Nat → Nat → Int
  | 0, _ => 0
  | n + 1, i =>
    if p i ≠ 0 ∧ p i = q i then strncmp p q n (i + 1) else (p i).toNat - (q i).toNat

/-- `namecmp(name, de.name)` -/
def namecmp (name : Name) (de : Bytes) (o : Nat) : Int :=
  strncmp (Bytes.ofList name) (fun i => de (o + 2 + i)) DIRSIZ 0

end Fs
end Xv6
