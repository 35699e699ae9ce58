import Xv6.Fs.Code
import Xv6.Lib.Ownership

/-!
# Files and the blocks they own

What the blocks of a disk mean. `I` gives the inodes; most of the time that is
what the inode blocks hold (`diskInode`), but while a function is changing an
inode in memory its copy counts. An inode refers to blocks from its addresses
and, if it has an indirect block, from the entries of that block. A volume is
consistent if the bitmap and these references agree (`Owned`), and a file is
dense if every block below its size is there.
-/

namespace Xv6
namespace Fs

open Function

/-! ## References -/

/-- A place for the address of a block: in the inode, or in its indirect
    block. -/
inductive Site where
  | addr (k : Fin 13)
  | entry (j : Fin 256)
  deriving DecidableEq

/-- The address at a site, 0 if there is none. -/
def Dinode.ref (d : Dinode) (data : Nat → Bytes) : Site → Nat
  | .addr k => d.addrs k
  | .entry j => if d.addrs 12 = 0 then 0 else (data (d.addrs 12)).getLE (4 * j) 4

/-- Where the address of a file's `bn`-th block is. -/
def siteOf (bn : Nat) : Option Site :=
  if h : bn < NDIRECT then some (.addr ⟨bn, h.trans (by decide)⟩)
  else if h : bn - NDIRECT < NINDIRECT then some (.entry ⟨bn - NDIRECT, h⟩)
  else none

/-- The address of a file's `bn`-th block, 0 if there is none. -/
def Dinode.block (d : Dinode) (data : Nat → Bytes) (bn : Nat) : Nat :=
  match siteOf bn with
  | none => 0
  | some x => d.ref data x

/-- The byte of a file at an offset. -/
def Dinode.byte (d : Dinode) (data : Nat → Bytes) (off : Nat) : UInt8 :=
  data (d.block data (off / BSIZE)) (off % BSIZE)

variable {bn : Nat}

theorem siteOf_of_lt (h : bn < MAXFILE) : ∃ x, siteOf bn = some x := by
  unfold siteOf
  by_cases h1 : bn < NDIRECT
  · exact ⟨_, dif_pos h1⟩
  · have h2 : bn - NDIRECT < NINDIRECT := by
      simp only [MAXFILE, NDIRECT, NINDIRECT, BSIZE] at *
      omega
    exact ⟨_, (dif_neg h1).trans (dif_pos h2)⟩

/-- The index of the block whose address is at a site, if it is a block of the
    file's contents. -/
theorem siteOf_eq_addr {k : Fin 13} : siteOf bn = some (.addr k) ↔ bn < NDIRECT ∧ bn = k := by
  unfold siteOf
  by_cases h1 : bn < NDIRECT
  · rw [dif_pos h1, Option.some.injEq, Site.addr.injEq, Fin.ext_iff]
    exact (and_iff_right h1).symm
  · rw [dif_neg h1]
    refine iff_of_false ?_ fun h => h1 h.1
    split_ifs
    · exact nofun
    · exact nofun

theorem siteOf_eq_entry {j : Fin 256} : siteOf bn = some (.entry j) ↔ bn = j + NDIRECT := by
  unfold siteOf
  have hj := j.isLt
  simp only [NDIRECT, NINDIRECT, BSIZE]
  by_cases h1 : bn < 12
  · rw [dif_pos h1]
    exact iff_of_false nofun (by omega)
  · rw [dif_neg h1]
    by_cases h2 : bn - 12 < 1024 / 4
    · rw [dif_pos h2, Option.some.injEq, Site.entry.injEq, Fin.ext_iff]
      show bn - 12 = j ↔ _
      omega
    · rw [dif_neg h2]
      exact iff_of_false nofun (by omega)

theorem siteOf_inj {bn bn' : Nat} {x : Site} (h : siteOf bn = some x) (h' : siteOf bn' = some x) :
    bn = bn' := by
  cases x with
  | addr k => rw [(siteOf_eq_addr.mp h).2, (siteOf_eq_addr.mp h').2]
  | entry j => rw [siteOf_eq_entry.mp h, siteOf_eq_entry.mp h']

theorem siteOf_ne_indirect : siteOf bn ≠ some (.addr 12) := by
  intro h
  obtain ⟨h1, h2⟩ := siteOf_eq_addr.mp h
  rw [h2] at h1
  exact absurd h1 (by decide)

variable {d : Dinode}

theorem Dinode.block_of_site {data : Nat → Bytes} {x : Site}
    (h : siteOf bn = some x) : d.block data bn = d.ref data x := by
  unfold block
  rw [h]

theorem Dinode.site_of_block {data : Nat → Bytes} (h : d.block data bn ≠ 0) :
    ∃ x, siteOf bn = some x ∧ d.ref data x = d.block data bn := by
  cases hx : siteOf bn with
  | none =>
    unfold block at h
    rw [hx] at h
    exact absurd rfl h
  | some x => exact ⟨x, rfl, (block_of_site hx).symm⟩

theorem Dinode.ref_entry {data : Nat → Bytes} {j : Fin 256} (h : d.addrs 12 ≠ 0) :
    d.ref data (.entry j) = (data (d.addrs 12)).getLE (4 * j) 4 := if_neg h

theorem Dinode.ref_entry_of_none {data : Nat → Bytes} {j : Fin 256}
    (h : d.addrs 12 = 0) : d.ref data (.entry j) = 0 := if_pos h

theorem Dinode.ref_congr {data data' : Nat → Bytes}
    (h : d.addrs 12 ≠ 0 → data' (d.addrs 12) = data (d.addrs 12)) (x : Site) :
    d.ref data' x = d.ref data x := by
  cases x with
  | addr k => rfl
  | entry j =>
    by_cases h0 : d.addrs 12 = 0
    · rw [ref_entry_of_none h0, ref_entry_of_none h0]
    · rw [ref_entry h0, ref_entry h0, h h0]

theorem Dinode.block_congr {d d' : Dinode} {data data' : Nat → Bytes}
    (h : ∀ x, d'.ref data' x = d.ref data x) (bn : Nat) : d'.block data' bn = d.block data bn := by
  unfold block
  split
  · rfl
  · exact h _

/-- The blocks of a file, its indirect block among them, have stayed as they
    are. -/
def Dinode.Kept (d : Dinode) (data data' : Nat → Bytes) : Prop :=
  ∀ x, d.ref data x ≠ 0 → data' (d.ref data x) = data (d.ref data x)

section Kept

variable {d : Dinode} {data data' data'' : Nat → Bytes}

theorem Dinode.Kept.refl (d : Dinode) (data : Nat → Bytes) : d.Kept data data := fun _ _ => rfl

theorem Dinode.Kept.ref (h : d.Kept data data') (x : Site) : d.ref data' x = d.ref data x :=
  Dinode.ref_congr (fun h0 => h (.addr 12) h0) x

theorem Dinode.Kept.block (h : d.Kept data data') (bn : Nat) : d.block data' bn = d.block data bn :=
  Dinode.block_congr h.ref bn

/-- **A file depends on its own blocks only.** -/
theorem Dinode.Kept.byte (h : d.Kept data data') {off : Nat}
    (hoff : d.block data (off / BSIZE) ≠ 0) : d.byte data' off = d.byte data off := by
  obtain ⟨x, _, hx⟩ := Dinode.site_of_block hoff
  unfold Dinode.byte
  rw [h.block, ← hx, h x (hx ▸ hoff)]

theorem Dinode.Kept.trans (h : d.Kept data data') (h' : d.Kept data' data'') :
    d.Kept data data'' := by
  intro x hx
  have := h' x (by rw [h.ref]; exact hx)
  rw [h.ref] at this
  rw [this, h x hx]

end Kept

/-! ## Volumes -/

section Volume

variable (sb : Superblock)

/-- The inode as its block has it. -/
def diskInode (data : Nat → Bytes) (inum : Nat) : Dinode :=
  getDinode (data (sb.IBLOCK inum)) (slot inum)

/-- An allocated inode. -/
def Live (I : Nat → Dinode) (inum : Nat) : Prop :=
  0 < inum ∧ inum < sb.ninodes ∧ (I inum).type ≠ 0

instance (I : Nat → Dinode) : DecidablePred (Live sb I) := fun _ =>
  inferInstanceAs (Decidable (_ ∧ _))

/-- All references of the volume. -/
def refsOf (data : Nat → Bytes) (I : Nat → Dinode) (p : Nat × Site) : Nat :=
  if Live sb I p.1 then (I p.1).ref data p.2 else 0

/-- The bitmap. -/
def bitOf (data : Nat → Bytes) (b : Nat) : Bool := (data (sb.BBLOCK b)).testBit (b % BPB)

/-- Every block is in the bitmap if and only if it is metadata or some inode
    refers to it, and then just one does; the references are to data blocks. -/
def Owned (data : Nat → Bytes) (I : Nat → Dinode) : Prop :=
  Owns sb.dataStart sb.size (bitOf sb data) (refsOf sb data I) none

/-- Every block below the size is there. -/
def Dense (data : Nat → Bytes) (I : Nat → Dinode) : Prop :=
  ∀ inum, Live sb I inum → ∀ bn, bn * BSIZE < (I inum).size → (I inum).block data bn ≠ 0

end Volume

section Facts

variable {sb : Superblock} {data data' : Nat → Bytes} {I I' : Nat → Dinode} {inum : Nat}

theorem refsOf_live (h : Live sb I inum) (x : Site) :
    refsOf sb data I (inum, x) = (I inum).ref data x := if_pos h

theorem Owned.range (h : Owned sb data I) (hl : Live sb I inum) {x : Site}
    (hx : (I inum).ref data x ≠ 0) :
    sb.dataStart ≤ (I inum).ref data x ∧ (I inum).ref data x < sb.size := by
  rw [← refsOf_live hl x] at hx ⊢
  exact Owns.range h _ hx

theorem Owned.inj (h : Owned sb data I) {inum' : Nat} (hl : Live sb I inum) (hl' : Live sb I inum')
    {x x' : Site} (hx : (I inum).ref data x ≠ 0)
    (he : (I inum).ref data x = (I inum').ref data x') : inum = inum' ∧ x = x' := by
  rw [← refsOf_live hl x] at hx he
  rw [← refsOf_live hl' x'] at he
  have := Owns.inj h _ _ hx he
  exact ⟨congrArg Prod.fst this, congrArg Prod.snd this⟩

theorem refsOf_congr (h : ∀ inum, Live sb I inum → (I inum).addrs 12 ≠ 0 →
    data' ((I inum).addrs 12) = data ((I inum).addrs 12)) (p : Nat × Site) :
    refsOf sb data' I p = refsOf sb data I p := by
  unfold refsOf
  by_cases hl : Live sb I p.1
  · rw [if_pos hl, if_pos hl]
    exact Dinode.ref_congr (h p.1 hl) p.2
  · rw [if_neg hl, if_neg hl]

/-! ## Blocks of the three kinds -/

theorem Superblock.Ok.ne_inode (hsb : sb.Ok) {b : Nat} (hb : sb.dataStart ≤ b)
    (hi : inum < sb.ninodes) : sb.IBLOCK inum ≠ b := by
  have := hsb.inodes inum hi
  omega

theorem Superblock.Ok.ne_bitmap (hsb : sb.Ok) {b c : Nat} (hb : sb.dataStart ≤ b)
    (hc : c < sb.size) : sb.BBLOCK c ≠ b := by
  have := hsb.bitmap c hc
  omega

theorem bitOf_congr (hd : ∀ c < sb.size, data' (sb.BBLOCK c) = data (sb.BBLOCK c)) {b : Nat}
    (hb : b < sb.size) : bitOf sb data' b = bitOf sb data b := by
  unfold bitOf
  rw [hd b hb]

/-- Which numbers beyond the last inode get does not matter. -/
theorem Owned.congr (h : Owned sb data I) (hI : ∀ j < sb.ninodes, I' j = I j) :
    Owned sb data I' := by
  refine Owns.congr h (fun _ _ => rfl) ?_
  rintro ⟨j, x⟩
  by_cases hj : j < sb.ninodes
  · have hlive : Live sb I' j ↔ Live sb I j := by
      unfold Live
      rw [hI j hj]
    unfold refsOf
    by_cases hl : Live sb I j
    · rw [if_pos hl, if_pos (hlive.mpr hl), hI j hj]
    · rw [if_neg hl, if_neg fun h => hl (hlive.mp h)]
  · unfold refsOf
    rw [if_neg fun h => hj h.2.1, if_neg fun h => hj h.2.1]

theorem slot_disjoint {i j : Nat} (hne : i ≠ j) (hb : sb.IBLOCK i = sb.IBLOCK j) :
    slot j + 64 ≤ slot i ∨ slot i + 64 ≤ slot j := by
  simp only [Superblock.IBLOCK, slot, IPB, BSIZE] at *
  omega

/-- **Storing one inode changes no other.** -/
theorem diskInode_put (hd : d.Ok) (j : Nat) : diskInode sb (update data (sb.IBLOCK inum)
        (putDinode (data (sb.IBLOCK inum)) (slot inum) d)) j =
      if j = inum then d else diskInode sb data j := by
  unfold diskInode
  by_cases hj : j = inum
  · subst hj
    rw [if_pos rfl, update_self, getDinode_putDinode hd]
  · rw [if_neg hj]
    by_cases hb : sb.IBLOCK j = sb.IBLOCK inum
    · rw [hb, update_self, getDinode_putDinode_other (slot_disjoint
        (Ne.symm hj) hb.symm)]
    · rw [update_of_ne hb]

open Bytes in
/-- **Clearing one**, likewise. -/
theorem diskInode_clear {type : Nat} (ht : type < 2 ^ 16) (j : Nat) :
    diskInode sb (update data (sb.IBLOCK inum)
        (clearDinode (data (sb.IBLOCK inum)) (slot inum) type)) j =
      if j = inum then .fresh type else diskInode sb data j := by
  unfold diskInode
  by_cases hb : sb.IBLOCK j = sb.IBLOCK inum
  · rw [hb, update_self]
    split_ifs with hj
    · subst hj
      unfold getDinode clearDinode
      simp (disch := omega) only [getLE_setLE_same, getLE_setLE_disjoint, getLE_fill_zero]
      exact congrArg Dinode.fresh (Nat.mod_eq_of_lt ht)
    · have := slot_disjoint (Ne.symm hj) hb.symm
      exact getDinode_congr fun a _ _ =>
        (setLE_outside (by omega)).trans (fill_outside (by omega))
  · rw [update_of_ne hb, if_neg fun hj => hb (congrArg _ hj)]

end Facts

/-! ## A small volume

A root directory with one file, on a disk of forty blocks. -/

namespace Sample

def sb : Superblock where
  magic := FSMAGIC
  size := 40
  nblocks := 6
  ninodes := 3
  nlog := 30
  logstart := 2
  inodestart := 32
  bmapstart := 33

def root : Dinode where
  type := T_DIR
  major := 0
  minor := 0
  nlink := 1
  size := 48
  addrs := fun k => if k = 0 then 34 else 0

def file : Dinode where
  type := T_FILE
  major := 0
  minor := 0
  nlink := 1
  size := 2
  addrs := fun k => if k = 0 then 35 else 0

/-- `.`, `..` and `f` -/
def rootBlock : Bytes :=
  ((Bytes.zero.blit 0 (mkDirent [46] 1) 0 DESIZE).blit 16 (mkDirent [46, 46] 1) 0 DESIZE).blit 32
    (mkDirent [102] 2) 0 DESIZE

def data (b : Nat) : Bytes :=
  if b = 32 then putDinode (putDinode Bytes.zero 64 root) 128 file
  else if b = 33 then fun a => if a < 4 then 255 else if a = 4 then 15 else 0
  else if b = 34 then rootBlock
  else if b = 35 then Bytes.ofList [7, 8]
  else Bytes.zero

theorem sb_ok : sb.Ok where
  small := by decide
  boot := by decide
  inodes := by decide
  bitmap := by decide
  apart := by decide

theorem root_ok : root.Ok := ⟨by decide, by decide, by decide, by decide, by decide, by decide⟩

theorem file_ok : file.Ok := ⟨by decide, by decide, by decide, by decide, by decide, by decide⟩

theorem diskInode_one : diskInode sb data 1 = root := by
  show getDinode (putDinode (putDinode Bytes.zero 64 root) 128 file) 64 = root
  rw [getDinode_putDinode_other (by decide), getDinode_putDinode root_ok]

theorem diskInode_two : diskInode sb data 2 = file := by
  show getDinode (putDinode (putDinode Bytes.zero 64 root) 128 file) 128 = file
  rw [getDinode_putDinode file_ok]

theorem live {j : Nat} (h : Live sb (diskInode sb data) j) : j = 1 ∨ j = 2 := by
  have h1 := h.1
  have h2 : j < 3 := h.2.1
  omega

theorem refs {p : Nat × Site} (h : refsOf sb data (diskInode sb data) p ≠ 0) :
    p = (1, .addr 0) ∧ refsOf sb data (diskInode sb data) p = 34 ∨
      p = (2, .addr 0) ∧ refsOf sb data (diskInode sb data) p = 35 := by
  obtain ⟨j, x⟩ := p
  have hl : Live sb (diskInode sb data) j := by
    by_contra hl
    exact h (if_neg hl)
  rw [refsOf_live hl] at h ⊢
  rcases live hl with rfl | rfl
  · rw [diskInode_one] at h ⊢
    cases x with
    | addr k =>
      by_cases hk : k = 0
      · subst hk
        exact .inl ⟨rfl, rfl⟩
      · exact absurd (if_neg hk) h
    | entry j => exact absurd (Dinode.ref_entry_of_none rfl) h
  · rw [diskInode_two] at h ⊢
    cases x with
    | addr k =>
      by_cases hk : k = 0
      · subst hk
        exact .inr ⟨rfl, rfl⟩
      · exact absurd (if_neg hk) h
    | entry j => exact absurd (Dinode.ref_entry_of_none rfl) h

theorem owned : Owned sb data (diskInode sb data) := by
  have hbit : ∀ b < 40, bitOf sb data b = decide (b < 36) := by decide
  have h1 : refsOf sb data (diskInode sb data) (1, .addr 0) = 34 := by
    have hl : Live sb (diskInode sb data) 1 := ⟨by decide, by decide, by rw [diskInode_one]; decide⟩
    rw [refsOf_live hl, diskInode_one]
    rfl
  have h2 : refsOf sb data (diskInode sb data) (2, .addr 0) = 35 := by
    have hl : Live sb (diskInode sb data) 2 := ⟨by decide, by decide, by rw [diskInode_two]; decide⟩
    rw [refsOf_live hl, diskInode_two]
    rfl
  refine ⟨fun p hp => ?_, fun p q hp hpq => ?_, fun b hb => ?_, nofun⟩
  · rcases refs hp with ⟨_, h⟩ | ⟨_, h⟩ <;> rw [h] <;> decide
  · have hq : refsOf sb data (diskInode sb data) q ≠ 0 := hpq ▸ hp
    rcases refs hp with ⟨rfl, hp'⟩ | ⟨rfl, hp'⟩ <;> rcases refs hq with ⟨rfl, hq'⟩ | ⟨rfl, hq'⟩
    · rfl
    · rw [hp', hq'] at hpq
      exact absurd hpq (by decide)
    · rw [hp', hq'] at hpq
      exact absurd hpq (by decide)
    · rfl
  · rw [hbit b hb, decide_eq_true_iff]
    have hstart : sb.dataStart = 34 := rfl
    rw [hstart]
    constructor
    · intro hlt
      by_cases h34 : b < 34
      · exact .inl h34
      · rcases (show b = 34 ∨ b = 35 by omega) with rfl | rfl
        · exact .inr (.inl ⟨_, by rw [h1]; decide, h1⟩)
        · exact .inr (.inl ⟨_, by rw [h2]; decide, h2⟩)
    · rintro (h | ⟨p, hp, rfl⟩ | h)
      · omega
      · rcases refs hp with ⟨_, h⟩ | ⟨_, h⟩ <;> rw [h] <;> decide
      · cases h

/-- The file's inode is in the first entry of the table, locked. -/
def itable (i : Fin NINODE) : Inode where
  dev := ROOTDEV
  inum := if i = 0 then 2 else 0
  ref := if i = 0 then 1 else 0
  locked := decide (i = 0)
  valid := decide (i = 0)
  din := if i = 0 then file else .fresh 0

/-- A transaction has just begun. -/
def state : State where
  data := data
  home := data
  lh := []
  outstanding := 1
  itable := itable

theorem file_inode : diskInode sb data (state.itable 0).inum = (state.itable 0).din := by
  have hinum : (state.itable 0).inum = 2 := rfl
  rw [hinum, diskInode_two]
  rfl

theorem file_live : Live sb (diskInode sb data) (state.itable 0).inum := by
  refine ⟨by decide, by decide, ?_⟩
  rw [file_inode]
  decide

end Sample

end Fs
end Xv6
