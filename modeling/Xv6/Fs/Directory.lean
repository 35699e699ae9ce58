import Xv6.Fs.Consistent
import Xv6.Fs.Dirent
import Xv6.Lib.Guard

/-!
# Directories

`dirlookup`, `dirlink`, `isdirempty` and the entry removal of `sys_unlink` on a
directory, as a table of slots. The three loops over a directory find the first
slot with a name, the first free slot, and whether all slots from the third on
are free; a write of one entry stays within a block, so it sets its slot or,
without a block for it, does nothing.
-/

namespace Xv6
namespace Fs

open List
open Sys

/-- `'.'` -/
abbrev DOT : UInt8 := 46

/-! ## Code of `sysfile.c` -/

section Code

variable (sb : Superblock)

def isdiremptyLoop (i : Fin NINODE) : Nat → Nat → Sys State Bool
  | 0, _ => Sys.hang
  | fuel + 1, off => do
    let dp ← inode i
    if off < dp.din.size then do
      match ← readDirent sb i off with
      | none => Sys.panic "isdirempty: readi"
      | some de => if deInum de 0 ≠ 0 then pure false else isdiremptyLoop i fuel (off + DESIZE)
    else pure true

/-- Is the directory `dp` empty except for "." and ".." ? -/
def isdirempty (i : Fin NINODE) : Sys State Bool := do
  let dp ← inode i
  isdiremptyLoop sb i (dp.din.size / DESIZE + 2) (2 * DESIZE)

/-- The entry removal of `sys_unlink`: an empty entry is written at `off`. -/
def removeDirent (i : Fin NINODE) (off : Nat) : Sys State Unit := do
  let r ← writei sb i (.kernel Bytes.zero) off DESIZE
  if r ≠ DESIZE then Sys.panic "unlink: writei" else pure ()

/-- `sys_unlink` from where it holds the lock of the parent `dp` up to the
    removal: the inode whose entry has been removed, or `none` for `goto
    bad`. -/
def unlinkEntry (dp : Fin NINODE) (name : Name) : Sys State (Option (Fin NINODE)) :=
  if strncmp (Bytes.ofList name) (Bytes.ofList [DOT]) DIRSIZ 0 = 0 ∨
      strncmp (Bytes.ofList name) (Bytes.ofList [DOT, DOT]) DIRSIZ 0 = 0 then pure none
  else do
    match ← dirlookup sb dp name with
    | none => pure none
    | some (ip, off) => do
      ilock sb ip
      let p ← inode ip
      if Bytes.toInt 16 p.din.nlink < 1 then Sys.panic "unlink: nlink < 1"
      else if p.din.type = T_DIR then do
        let empty ← isdirempty sb ip
        if empty = false then do
          iunlockput sb ip
          pure none
        else do
          removeDirent sb dp off
          pure (some ip)
      else do
        removeDirent sb dp off
        pure (some ip)

end Code

/-! ## Slots of a directory -/

/-- The slots of the directory `dir`. -/
def dirOf (sb : Superblock) (s : State) (dir : Nat) : List (Option (Name × Nat)) :=
  dirSlots (fileOf sb s dir)

/-- The inode `dir` of a consistent file system is a directory. -/
structure IsDir (sb : Superblock) (s : State) (dir : Nat) : Prop where
  con : Consistent sb s
  live : Live sb (diskInode sb s.data) dir
  type : (diskInode sb s.data dir).type = T_DIR
  aligned : (diskInode sb s.data dir).size % DESIZE = 0

section Scan

variable {sb : Superblock} {s s' : State} {i : Fin NINODE} {dir : Nat} {name : Name}

theorem length_dirOf (sb : Superblock) (s : State) (dir : Nat) :
    (dirOf sb s dir).length = (diskInode sb s.data dir).size / DESIZE := by
  unfold dirOf
  rw [length_dirSlots, length_fileOf]

theorem scan_fuel (sb : Superblock) (s : State) (dir k : Nat) :
    (dirOf sb s dir).length - k < (diskInode sb s.data dir).size / DESIZE + 2 := by
  rw [← length_dirOf]
  omega

theorem IsDir.of_data (h : IsDir sb s dir) (hc : Consistent sb s') (hdata : s'.data = s.data) :
    IsDir sb s' dir ∧ dirOf sb s' dir = dirOf sb s dir := by
  refine ⟨⟨hc, ?_, ?_, ?_⟩, ?_⟩
  · rw [hdata]
    exact h.live
  · rw [hdata]
    exact h.type
  · rw [hdata]
    exact h.aligned
  · unfold dirOf fileOf
    rw [hdata]

theorem IsDir.din (h : IsDir sb s dir) (ho : Opened s i dir) :
    (s.itable i).din = diskInode sb s.data dir := h.con.din ho h.live.2.1

theorem IsDir.size_le (h : IsDir sb s dir) : (diskInode sb s.data dir).size ≤ MAXFILE * BSIZE :=
  (h.con.full h.live).size_le

theorem IsDir.size_eq (h : IsDir sb s dir) :
    (diskInode sb s.data dir).size = DESIZE * (dirOf sb s dir).length := by
  have := h.aligned
  rw [length_dirOf]
  simp only [DESIZE] at *
  omega

theorem ofList_contents {d : Dinode} {data : Nat → Bytes} {a : Nat} (h : a < d.size) :
    Bytes.ofList (contents d data) a = d.byte data a := by
  have hlen : a < (contents d data).length := by
    rw [length_contents]
    exact h
  unfold Bytes.ofList
  rw [getD_eq_getElem?_getD, getElem?_eq_getElem hlen, Option.getD_some,
    getElem_contents]

theorem readi_kernel (i : Fin NINODE) (buf : Bytes) (off n : Nat) :
    Always (fun r => ∃ b, r.2 = .kernel b) (readi sb i (.kernel buf) off n) := by
  have hloop : ∀ (n fuel tot off : Nat) (buf : Bytes),
      Always (fun r => ∃ b, r.2 = .kernel b) (readiLoop sb i n fuel tot off (.kernel buf)) := by
    intro n fuel
    induction fuel with
    | zero => exact fun _ _ _ => nofun
    | succ fuel ih =>
      intro tot off buf
      unfold readiLoop
      refine .ite (fun _ => .bind fun addr => ?_) fun _ => .pure ⟨_, rfl⟩
      refine .ite (fun _ => .pure ⟨_, rfl⟩) fun _ => .bind fun b => ?_
      exact .ite (fun _ => .pure ⟨_, rfl⟩) fun _ => ih _ _ _
  refine .bind fun ip => .ite (fun _ => .pure ⟨_, rfl⟩) fun _ => ?_
  exact .ite (fun _ => hloop _ _ _ _ _) fun _ => hloop _ _ _ _ _

/-- What `dirlookup` does once it knows the slot. -/
def fetch : Option (Nat × Nat) → Sys State (Option (Fin NINODE × Nat))
  | none => pure none
  | some (k, inum) => do
    let ip ← iget ROOTDEV inum
    pure (some (ip, DESIZE * k))

section Opened

variable (h : IsDir sb s dir) (ho : Opened s i dir)

include h ho

/-- **Reading a slot.** -/
theorem readDirent_ok {k : Nat} (hk : k < (dirOf sb s dir).length) :
    ∃ de, readDirent sb i (DESIZE * k) s = .ok (some de, s) ∧
      (dirOf sb s dir)[k]? = some (slotAt de 0) := by
  have hsize := h.size_eq
  have hmax := h.size_le
  have hend : DESIZE * k + DESIZE ≤ (diskInode sb s.data dir).size := by
    simp only [DESIZE] at *
    omega
  have hno : DESIZE * k + DESIZE < 2 ^ 32 := by
    simp only [MAXFILE, NDIRECT, NINDIRECT, BSIZE] at hmax
    omega
  have hlen : readLen (diskInode sb s.data dir).size (DESIZE * k) DESIZE = DESIZE := by
    unfold readLen
    omega
  obtain ⟨r, hrun, hread⟩ : ∃ r, readi sb i (.kernel Bytes.zero) (DESIZE * k) DESIZE s =
      .ok (r, s) ∧ _ :=
    readi_ok (h.din ho) (h.con.full h.live) (getDinode_ok _ _).size hno (.kernel Bytes.zero)
  obtain ⟨b, hb⟩ := readi_kernel i Bytes.zero _ _ s r s hrun
  obtain ⟨hr, hget⟩ := hread fun _ _ => nofun
  rw [hlen] at hr hget
  have hr' : r = (16, .kernel b) := Prod.ext hr hb
  refine ⟨b, ?_, ?_⟩
  · unfold readDirent
    rw [bind_of_ok hrun, hr']
    rfl
  · unfold dirOf
    rw [getElem?_dirSlots (by rw [← length_dirSlots]; exact hk)]
    refine congrArg some (slotAt_congr fun j hj => ?_)
    have hbyte := hget j (by simp only [DESIZE] at hj; omega)
    rw [if_pos hj, hb] at hbyte
    unfold fileOf
    rw [ofList_contents (by omega), Nat.zero_add]
    exact (Option.some.inj hbyte).symm

/-- A turn of a loop over the slots reads the next one, or there is none. -/
theorem scan_slot (k : Nat) : (k < (dirOf sb s dir).length ∧ DESIZE * k < (s.itable i).din.size ∧
      ∃ de, readDirent sb i (DESIZE * k) s = .ok (some de, s) ∧
        (dirOf sb s dir).drop k = slotAt de 0 :: (dirOf sb s dir).drop (k + 1)) ∨
    (¬ DESIZE * k < (s.itable i).din.size ∧ (dirOf sb s dir).drop k = []) := by
  have hsize := h.size_eq
  rw [h.din ho]
  by_cases hlt : k < (dirOf sb s dir).length
  · obtain ⟨de, hrun, hslot⟩ := readDirent_ok h ho hlt
    refine .inl ⟨hlt, ?_, de, hrun, ?_⟩
    · simp only [DESIZE] at *
      omega
    · rw [getElem?_eq_getElem hlt] at hslot
      rw [drop_eq_getElem_cons hlt, Option.some.inj hslot]
  · refine .inr ⟨?_, drop_eq_nil_of_le (by omega)⟩
    simp only [DESIZE] at *
    omega

theorem dirlookupLoop_eq (hname : 0 ∉ name) (fuel k : Nat)
    (hfuel : (dirOf sb s dir).length - k < fuel) :
    dirlookupLoop sb i name fuel (DESIZE * k) s =
      fetch ((SlotMap.find (name.take DIRSIZ) ((dirOf sb s dir).drop k)).map
        fun p => (k + p.1, p.2)) s := by
  -- on the number of turns left
  induction fuel generalizing k with
  | zero => exact absurd hfuel (Nat.not_lt_zero _)
  | succ fuel ih =>
    have hnext : ∀ q : Option (Nat × Nat),
        (q.map fun p => (p.1 + 1, p.2)).map (fun p => (k + p.1, p.2)) =
          q.map fun p => (k + 1 + p.1, p.2) := by
      intro q
      rw [Option.map_map]
      congr 1
      funext p
      exact Prod.ext (by show k + (p.1 + 1) = k + 1 + p.1; omega) rfl
    unfold dirlookupLoop
    rw [inode, reads_bind_run]
    rcases scan_slot h ho k with ⟨hlt, hin, de, hrun, hdrop⟩ | ⟨hin, hdrop⟩
    · have hrest := ih (k + 1) (by omega)
      rw [if_pos hin, bind_of_ok hrun, hdrop]
      dsimp only
      unfold slotAt
      by_cases h0 : deInum de 0 = 0
      · rw [if_pos h0, if_pos h0, SlotMap.find, hnext]
        exact hrest
      · rw [if_neg h0, if_neg h0, SlotMap.find]
        by_cases hcmp : namecmp name de 0 = 0
        · rw [if_pos hcmp, if_pos ((namecmp_eq_zero hname de 0).mp hcmp), h.con.dev i ho.ref]
          rfl
        · rw [if_neg hcmp, if_neg fun he => hcmp ((namecmp_eq_zero hname de 0).mpr he), hnext]
          exact hrest
    · rw [if_neg hin, hdrop]
      rfl

/-- **`dirlookup`** finds the first slot with the name, and gets its inode. -/
theorem dirlookup_eq (hname : 0 ∉ name) :
    dirlookup sb i name s = fetch (SlotMap.find (name.take DIRSIZ) (dirOf sb s dir)) s := by
  have hloop := dirlookupLoop_eq h ho hname ((diskInode sb s.data dir).size / DESIZE + 2) 0
    (scan_fuel sb s dir 0)
  unfold dirlookup
  rw [inode, reads_bind_run, h.din ho, if_neg (not_not_intro h.type)]
  refine hloop.trans ?_
  rw [drop_zero]
  congr 1
  cases SlotMap.find (name.take DIRSIZ) (dirOf sb s dir) with
  | none => rfl
  | some p => exact congrArg some (Prod.ext (Nat.zero_add p.1) rfl)

theorem emptyDirent_eq (fuel k : Nat)
    (hk : k ≤ (dirOf sb s dir).length) (hfuel : (dirOf sb s dir).length - k < fuel) :
    emptyDirent sb i fuel (DESIZE * k) s =
      .ok (DESIZE * (k + SlotMap.vacant ((dirOf sb s dir).drop k)), s) := by
  induction fuel generalizing k with
  | zero => exact absurd hfuel (Nat.not_lt_zero _)
  | succ fuel ih =>
    unfold emptyDirent
    rw [inode, reads_bind_run]
    rcases scan_slot h ho k with ⟨hlt, hin, de, hrun, hdrop⟩ | ⟨hin, hdrop⟩
    · have hrest := ih (k + 1) hlt (by omega)
      rw [if_pos hin, bind_of_ok hrun, hdrop]
      dsimp only
      unfold slotAt
      by_cases h0 : deInum de 0 = 0
      · rw [if_pos h0, if_pos h0]
        rfl
      · rw [if_neg h0, if_neg h0, SlotMap.vacant, Nat.add_comm (SlotMap.vacant _), ← Nat.add_assoc]
        exact hrest
    · rw [if_neg hin, hdrop]
      rfl

theorem isdiremptyLoop_eq (fuel k : Nat) (hfuel : (dirOf sb s dir).length - k < fuel) :
    isdiremptyLoop sb i fuel (DESIZE * k) s =
      .ok (((dirOf sb s dir).drop k).all Option.isNone, s) := by
  induction fuel generalizing k with
  | zero => exact absurd hfuel (Nat.not_lt_zero _)
  | succ fuel ih =>
    unfold isdiremptyLoop
    rw [inode, reads_bind_run]
    rcases scan_slot h ho k with ⟨hlt, hin, de, hrun, hdrop⟩ | ⟨hin, hdrop⟩
    · rw [if_pos hin, bind_of_ok hrun, hdrop]
      dsimp only
      unfold slotAt
      by_cases h0 : deInum de 0 = 0
      · rw [if_neg (not_not_intro h0), if_pos h0]
        exact ih (k + 1) (by omega)
      · rw [if_pos h0, if_neg h0]
        rfl
    · rw [if_neg hin, hdrop]
      rfl

/-- **`isdirempty`** looks at the slots from the third on. -/
theorem isdirempty_eq :
    isdirempty sb i s = .ok (((dirOf sb s dir).drop 2).all Option.isNone, s) := by
  unfold isdirempty
  rw [inode, reads_bind_run, h.din ho]
  exact isdiremptyLoop_eq h ho _ 2 (scan_fuel sb s dir 2)

end Opened

/-- `isdirempty` of any inode changes nothing. -/
theorem isdirempty_quiet (hc : Consistent sb s) (ho : Opened s i dir)
    (hl : Live sb (diskInode sb s.data) dir) : (isdirempty sb i).post s fun _ s' => s' = s := by
  have hdin := hc.din ho hl.2.1
  have hmax := (hc.full hl).size_le
  have hread : ∀ off < (diskInode sb s.data dir).size,
      (readDirent sb i off).post s fun _ s' => s' = s := by
    intro off hoff
    have hno : off + DESIZE < 2 ^ 32 := by
      simp only [DESIZE, MAXFILE, NDIRECT, NINDIRECT, BSIZE] at *
      omega
    obtain ⟨r, hrun, _⟩ : ∃ r, readi sb i (.kernel Bytes.zero) off DESIZE s = .ok (r, s) ∧ _ :=
      readi_ok hdin (hc.full hl) (getDinode_ok _ _).size hno (.kernel Bytes.zero)
    refine wp_bind (wp_of_ok hrun ?_)
    split
    · exact wp_pure rfl
    · exact wp_pure rfl
  have hloop : ∀ fuel off, (isdiremptyLoop sb i fuel off).post s fun _ s' => s' = s := by
    intro fuel
    induction fuel with
    | zero => exact fun _ => wp_hang trivial
    | succ fuel ih =>
      intro off
      unfold isdiremptyLoop
      refine wp_bind (wp_reads (wp_ite (fun hoff => ?_) fun _ => wp_pure rfl))
      rw [hdin] at hoff
      refine (hread off hoff).bind fun r s1 hs1 => ?_
      subst hs1
      cases r with
      | none => exact wp_panic trivial
      | some de => exact wp_ite (fun _ => wp_pure rfl) fun _ => ih _
  exact wp_bind (wp_reads (hloop _ _))

/-- **`dirlookup`**, without the room for the inode it finds. -/
theorem dirlookup_wp (h : IsDir sb s dir) (ho : Opened s i dir) (hname : 0 ∉ name)
    {X : Stop → Prop} (hX : X (.panic "iget: no inodes") ∨
      ∀ n, SlotMap.get (dirOf sb s dir) (name.take DIRSIZ) = some n → Gettable s n) :
    (dirlookup sb i name).wp s (fun r s' =>
      (r = none ∧ s' = s ∧ SlotMap.find (name.take DIRSIZ) (dirOf sb s dir) = none) ∨
      ∃ ip k n, r = some (ip, DESIZE * k) ∧ Igot s ROOTDEV n ip s' ∧
        SlotMap.find (name.take DIRSIZ) (dirOf sb s dir) = some (k, n)) X := by
  unfold wp
  rw [dirlookup_eq h ho hname]
  cases hfind : SlotMap.find (name.take DIRSIZ) (dirOf sb s dir) with
  | none => exact .inl ⟨rfl, rfl, rfl⟩
  | some p =>
    obtain ⟨k, n⟩ := p
    have hroom : X (.panic "iget: no inodes") ∨ Gettable s n := by
      refine hX.imp_right fun hg => hg n ?_
      unfold SlotMap.get
      rw [hfind]
      rfl
    exact (iget_room hroom).bind fun ip s' hg => wp_pure (.inr ⟨ip, k, n, rfl, hg, rfl⟩)

end Scan

/-! ## Writing an entry -/

section Write

variable {sb : Superblock} {X : Stop → Prop} {s s' : State} {i : Fin NINODE} {dir : Nat}
variable {name : Name}

theorem spanned_one {off n : Nat} (hn : 0 < n) (hone : off % BSIZE + n ≤ BSIZE) :
    spanned off n = [off / BSIZE] := by
  have hchunk : chunk off n = n := Nat.min_eq_left (by omega)
  rw [spanned_step off hn, hchunk, Nat.sub_self]
  rfl

theorem need_singleton (d : Dinode) (data : Nat → Bytes) (bn : Nat) :
    need d data {bn} = bmapCost d data bn := by
  unfold need bmapCost
  rw [Finset.filter_singleton]
  by_cases h0 : d.block data bn = 0
  · simp [h0]
  · simp [h0]

/-- **A write within one block** happens as a whole or not at all, and it takes
    the blocks it needs from the free ones. -/
theorem writei_once (hsb : sb.Ok) {I : Nat → Dinode} (hown : Owned sb s.data I)
    (hl : Live sb I (s.itable i).inum) (hI : I (s.itable i).inum = (s.itable i).din)
    (hok : (s.itable i).din.Ok) (b : Bytes) {off n : Nat} (hn : 0 < n)
    (hone : off % BSIZE + n ≤ BSIZE) (hno : off + n < 2 ^ 32) :
    (writei sb i (.kernel b) off n).post s fun r _ => r = -1 ∨ r = 0 ∨ r = n ∧
      off + n ≤ MAXFILE * BSIZE ∧
      bmapCost (s.itable i).din s.data (off / BSIZE) ≤ freeBlocks sb s := by
  have htrivial : ∀ {α : Type} (x : Sys State α) (s : State), x.post s fun _ _ => True :=
    fun _ _ => post_of_forall fun _ _ _ => trivial
  have hmin : min (n - 0) (BSIZE - off % BSIZE) = n := by omega
  unfold writei
  refine wp_bind (wp_reads (wp_ite (fun _ => wp_pure (.inl rfl)) fun hbad => ?_))
  rw [Nat.mod_eq_of_lt hno]
  refine wp_ite (fun _ => wp_pure (.inl rfl)) fun hbig => ?_
  have hbn : off / BSIZE < MAXFILE := by
    simp only [MAXFILE, NDIRECT, NINDIRECT, BSIZE] at *
    omega
  have hloop : (writeiLoop sb i (.kernel b) n (n + 1) 0 off).post s fun r _ =>
      r.1 = 0 ∨ r.1 = n ∧ bmapCost (s.itable i).din s.data (off / BSIZE) ≤ freeBlocks sb s := by
    unfold writeiLoop
    rw [if_pos hn]
    refine (bmap_wp (k := 0) hsb hown hl hI hok hbn Finset.Subset.rfl (.any _ s _)).bind ?_
    rintro r s2 ⟨d2, ⟨_, _, hr⟩, _⟩
    refine wp_ite (fun _ => wp_pure (.inl rfl)) fun hr0 => ?_
    have hcost : bmapCost (s.itable i).din s.data (off / BSIZE) ≤ freeBlocks sb s := by
      rcases hr with ⟨h0, _⟩ | ⟨_, _, hfree⟩
      · exact absurd h0 hr0
      · omega
    refine wp_bind (wp_reads (wp_bind (wp_modify ?_)))
    have hret : (0 : Int) ≠ -1 := by decide
    refine wp_ite (fun h => absurd h hret) fun _ => ?_
    refine (htrivial _ _).bind fun _ s3 _ => ?_
    rw [hmin, Nat.zero_add]
    obtain ⟨m, rfl⟩ := Nat.exists_eq_succ_of_ne_zero (by omega : n ≠ 0)
    unfold writeiLoop
    rw [if_neg (Nat.lt_irrefl _)]
    exact wp_pure (.inr ⟨rfl, hcost⟩)
  refine hloop.bind fun r s2 hr => wp_bind (wp_reads (wp_bind (wp_modify ?_)))
  refine (htrivial _ _).bind fun _ s3 _ => wp_pure (.inr ?_)
  rcases hr with h0 | ⟨h1, hcost⟩
  · exact .inl (by rw [h0]; rfl)
  · exact .inr ⟨by rw [h1], by omega, hcost⟩

/-- There is room for slot `k`: the directory does not get too large, and its
    block is there or can be allocated. -/
def Writable (sb : Superblock) (s : State) (dir k : Nat) : Prop :=
  DESIZE * k + DESIZE ≤ MAXFILE * BSIZE ∧
    bmapCost (diskInode sb s.data dir) s.data (DESIZE * k / BSIZE) ≤ freeBlocks sb s

theorem IsDir.writable (h : IsDir sb s dir) {k : Nat} (hk : k < (dirOf sb s dir).length) :
    Writable sb s dir k := by
  have hsize := h.size_eq
  have hmax := h.size_le
  have hend : DESIZE * k + DESIZE ≤ (diskInode sb s.data dir).size := by
    simp only [DESIZE] at *
    omega
  refine ⟨by omega, ?_⟩
  rw [bmapCost_eq_zero ((h.con.full h.live).block (by simp only [DESIZE] at *; omega))]
  exact Nat.zero_le _

theorem Wrote.contents_none {L : Finset Nat} {I : Nat → Dinode} {d d' : Dinode} {src : Ptr}
    {off n inum : Nat} {bad : Option Nat} (h : Wrote sb L I inum d s src off n d' s' 0 0 bad)
    (hfull : d.Full s.data) : d'.size = d.size ∧
      Fs.contents d' s'.data = Fs.contents d s.data := by
  have hsize : d'.size = d.size := by
    have := h.inside
    rw [h.fields]
    exact Nat.max_eq_left (by omega)
  refine ⟨hsize, ?_⟩
  unfold Fs.contents
  rw [hsize]
  refine map_congr_left fun a ha => ?_
  exact h.bytes a (by omega) (hfull.block (mem_range.mp ha))

/-- What a write of slot `k` logs can be logged, or the slot is beyond the
    largest directory. -/
def CanLogSlot (sb : Superblock) (X : Stop → Prop) (s : State) (dir k : Nat) : Prop :=
  DESIZE * k + DESIZE ≤ MAXFILE * BSIZE →
    CanLog sb X (toLog sb (diskInode sb s.data dir) s.data {DESIZE * k / BSIZE}) s 0

theorem CanLogSlot.any (s : State) (dir k : Nat) : CanLogSlot sb (fun _ => True) s dir k := fun _ =>
  .any _ s 0

/-- **Writing an entry** sets its slot if there is room for it, and changes
    nothing otherwise. -/
theorem writeDirent_wp (hsb : sb.Ok) (h : IsDir sb s dir) (ho : Opened s i dir) {k : Nat}
    (hk : k ≤ (dirOf sb s dir).length) (b : Bytes)
    (hlog : CanLogSlot sb X s dir k) :
    (writei sb i (.kernel b) (DESIZE * k) DESIZE).wp s (fun r s' =>
      (IsDir sb s' dir ∧ Opened s' i dir) ∧
      (r = DESIZE ∧ Writable sb s dir k ∧
          dirOf sb s' dir = SlotMap.put (dirOf sb s dir) k (slotAt b 0) ∨
        r ≠ DESIZE ∧ ¬ Writable sb s dir k ∧ dirOf sb s' dir = dirOf sb s dir)) X := by
  have hdin := h.din ho
  have hok : (diskInode sb s.data dir).Ok := getDinode_ok _ _
  have hsize := h.size_eq
  have hmax := h.size_le
  have hoff : DESIZE * k ≤ (diskInode sb s.data dir).size := by
    simp only [DESIZE] at *
    omega
  have hno : DESIZE * k + DESIZE < 2 ^ 32 := by
    simp only [DESIZE, MAXFILE, NDIRECT, NINDIRECT, BSIZE] at *
    omega
  have hone : DESIZE * k % BSIZE + DESIZE ≤ BSIZE := by
    simp only [DESIZE, BSIZE]
    omega
  have hspan := spanned_one (by decide : 0 < DESIZE) hone
  have hwrite : (writei sb i (.kernel b) (DESIZE * k) DESIZE).wp s _ X :=
    writei_wp (k := 0) (L := {DESIZE * k / BSIZE}) hsb h.con.own
    (by rw [ho.number]; exact h.live) (by rw [ho.number, hdin]) (by rw [hdin]; exact hok)
    (by omega) (by omega) (fun bn hbn => by rw [hspan] at hbn; simpa using hbn)
    (by
      rw [hdin]
      refine fun hgood => hlog ?_
      unfold BadWrite at hgood
      rw [Nat.mod_eq_of_lt hno] at hgood
      omega)
  rw [ho.number, hdin] at hwrite
  have honce := writei_once (i := i) hsb h.con.own (by rw [ho.number]; exact h.live)
    (by rw [ho.number, hdin]) (by rw [hdin]; exact hok) b (by decide : 0 < DESIZE) hone hno
  rw [hdin] at honce
  refine (hwrite.and honce).mono ?_ fun _ he => he.1
  rintro r s' ⟨⟨rfl, rfl, hbad⟩ | ⟨d', tot, p, bad, rfl, hw, ht⟩, hcount⟩
  · refine ⟨⟨h, ho⟩, .inr ⟨by decide, fun hroom => ?_, rfl⟩⟩
    have := hroom.1
    unfold BadWrite at hbad
    rw [Nat.mod_eq_of_lt hno] at hbad
    omega
  · obtain ⟨hcon, hself, hlive⟩ := hw.consistent h.con ho h.live ht
    have hty : d'.type = T_DIR := by
      rw [hw.fields]
      exact h.type
    have hfile : fileOf sb s' dir = contents d' s'.data := by
      unfold fileOf
      rw [hself]
    have hdir : d'.size % DESIZE = 0 → IsDir sb s' dir := fun ha =>
      ⟨hcon, hlive, by rw [hself]; exact hty, by rw [hself]; exact ha⟩
    have hend := hw.ended
    cases hend with
    | done h1 h2 _ =>
      subst h1 h2
      obtain ⟨_, hroom⟩ : (DESIZE : Int) = DESIZE ∧ Writable sb s dir k := by
        rcases hcount with h1 | h1 | h1
        · exact absurd h1 (by decide)
        · exact absurd h1 (by decide)
        · exact h1
      have hd' : d'.size = max (diskInode sb s.data dir).size (DESIZE * k + DESIZE) := by
        rw [hw.fields]
      have hslot : slotAt (Bytes.ofList (b.slice 0 DESIZE)) 0 = slotAt b 0 :=
        slotAt_congr fun j hj => by rw [Nat.zero_add, ofList_slice hj]
      refine ⟨⟨hdir ?_, ho.setDin ht⟩, .inl ⟨rfl, hroom, ?_⟩⟩
      · have := h.aligned
        rw [hd']
        simp only [DESIZE] at *
        omega
      · unfold dirOf
        rw [hfile, hw.contents (h.con.full h.live) (Bytes.length_slice b 0 DESIZE)
          (holds_slice b DESIZE), dirSlots_splice _ _ (Bytes.length_slice b 0 DESIZE), hslot]
        · rfl
        · rw [length_contents]
          exact h.aligned
        · rw [length_contents]
          exact hoff
    | noSpace h1 h2 _ h4 =>
      subst h2
      have h0 : tot = 0 := by
        rcases hcount with h | h | ⟨h, _⟩
        · omega
        · omega
        · omega
      subst h0
      obtain ⟨hd', hsame⟩ := hw.contents_none (h.con.full h.live)
      refine ⟨⟨hdir (by rw [hd']; exact h.aligned), ho.setDin ht⟩, .inr ⟨by decide, fun hroom => ?_,
        ?_⟩⟩
      · have := hroom.2
        rw [need_singleton] at h4
        omega
      · unfold dirOf
        rw [hfile, hsame]
        rfl
    | noSource _ _ h3 _ _ => cases h3

end Write

end Fs
end Xv6
