import Xv6.Fs.Blocks

/-!
# From a file's blocks to the disk's

`bmap` with the blocks it allocates. An address that `bmap` takes from `balloc`
is recorded in the inode, or in the indirect block; in between, the block is
allocated and owned by nobody.

What a write will allocate can be said beforehand: `balloc` takes the free
blocks in the order of the bitmap, so `newBlocks` are the first `need` of them,
and `toLog` is what the transaction logs besides the inode. Both only get
smaller while `bmap` goes on (`Spent`), so room for them at the start is enough.
-/

namespace Xv6
namespace Fs

open Function Dinode Finset
open Sys

variable {sb : Superblock} {X : Stop → Prop} {P : Finset Nat} {s s' : State} {k : Nat}

/-! ## One reference changes -/

/-- An inode with another address. -/
def Dinode.setAddr (d : Dinode) (k : Fin 13) (b : Nat) : Dinode :=
  { d with addrs := update d.addrs k b }

theorem Dinode.setAddr_self (d : Dinode) (k : Fin 13) (b : Nat) : (d.setAddr k b).addrs k = b := by
  show update d.addrs k b k = b
  rw [update_self]

theorem Dinode.setAddr_ne (d : Dinode) {k j : Fin 13} (b : Nat) (h : j ≠ k) :
    (d.setAddr k b).addrs j = d.addrs j := by
  show update d.addrs k b j = d.addrs j
  rw [update_of_ne h]

variable {b : Nat} {d : Dinode} {data : Nat → Bytes}

theorem Dinode.Ok.setAddr (h : d.Ok) (k : Fin 13) (hb : b < 2 ^ 32) : (d.setAddr k b).Ok where
  type := h.type
  major := h.major
  minor := h.minor
  nlink := h.nlink
  size := h.size
  addrs := fun j => by
    by_cases hj : j = k
    · subst hj
      rw [setAddr_self]
      exact hb
    · rw [setAddr_ne d b hj]
      exact h.addrs j

theorem Dinode.ref_setAddr {k : Fin 13} (hk : k ≠ 12)
    (x : Site) : (d.setAddr k b).ref data x = if x = .addr k then b else d.ref data x := by
  cases x with
  | addr k' =>
    by_cases hkk : k' = k
    · subst hkk
      rw [if_pos rfl]
      exact d.setAddr_self k' b
    · rw [if_neg fun h => hkk (Site.addr.inj h)]
      exact d.setAddr_ne b hkk
  | entry j =>
    have h12 : (d.setAddr k b).addrs 12 = d.addrs 12 := d.setAddr_ne b hk.symm
    rw [if_neg nofun]
    by_cases h0 : d.addrs 12 = 0
    · rw [ref_entry_of_none (h12.trans h0), ref_entry_of_none h0]
    · rw [ref_entry (h12 ▸ h0), ref_entry h0, h12]

theorem Dinode.ref_setIndirect (hd : d.addrs 12 = 0)
    (hb : b ≠ 0) (hz : ∀ j : Fin 256, (data b).getLE (4 * j) 4 = 0) (x : Site) :
    (d.setAddr 12 b).ref data x = if x = .addr 12 then b else d.ref data x := by
  have h12 := d.setAddr_self 12 b
  cases x with
  | addr k' =>
    by_cases hkk : k' = 12
    · subst hkk
      rw [if_pos rfl]
      exact h12
    · rw [if_neg fun h => hkk (Site.addr.inj h)]
      exact d.setAddr_ne b hkk
  | entry j =>
    rw [if_neg nofun, ref_entry_of_none hd, ref_entry (by rw [h12]; exact hb), h12, hz]

theorem Dinode.ref_setEntry {j : Fin 256} (hd : d.addrs 12 ≠ 0) (hb : b < 2 ^ 32) (x : Site) :
    d.ref (update data (d.addrs 12) ((data (d.addrs 12)).setLE (4 * j) 4 b)) x =
      if x = .entry j then b else d.ref data x := by
  cases x with
  | addr k' =>
    rw [if_neg nofun]
    rfl
  | entry j' =>
    rw [ref_entry hd, update_self]
    by_cases hj : j' = j
    · subst hj
      rw [if_pos rfl, Bytes.getLE_setLE_same]
      exact Nat.mod_eq_of_lt hb
    · have hne : (j' : Nat) ≠ j := fun h => hj (Fin.ext h)
      rw [if_neg fun h => hj (Site.entry.inj h), ref_entry hd,
        Bytes.getLE_setLE_disjoint (by omega)]

section Change

variable {data data' : Nat → Bytes} {I : Nat → Dinode} {inum : Nat} {d' : Dinode}

theorem live_update (ht : d'.type ≠ 0) (hl : Live sb I inum) (j : Nat) :
    Live sb (update I inum d') j ↔ Live sb I j := by
  unfold Live
  by_cases hj : j = inum
  · subst hj
    rw [update_self]
    exact ⟨fun h => hl, fun h => ⟨h.1, h.2.1, ht⟩⟩
  · rw [update_of_ne hj]

theorem refsOf_update {x0 : Site} {b : Nat} (hl : Live sb I inum) (ht : d'.type ≠ 0)
    (hx : ∀ x, d'.ref data' x = if x = x0 then b else (I inum).ref data x)
    (ho : ∀ j, Live sb I j → j ≠ inum → ∀ x, (I j).ref data' x = (I j).ref data x)
    (p : Nat × Site) :
    refsOf sb data' (update I inum d') p =
      update (refsOf sb data I) (inum, x0) b p := by
  obtain ⟨j, x⟩ := p
  have hlive := live_update ht hl j
  by_cases hj : j = inum
  · subst hj
    rw [refsOf_live (hlive.mpr hl), update_self, hx]
    by_cases hxx : x = x0
    · subst hxx
      rw [if_pos rfl, update_self]
    · rw [if_neg hxx, update_of_ne fun h => hxx (congrArg Prod.snd h), refsOf_live hl]
  · rw [update_of_ne fun h => hj (congrArg Prod.fst h)]
    unfold refsOf
    by_cases hlj : Live sb I j
    · rw [if_pos (hlive.mpr hlj), if_pos hlj, update_of_ne hj]
      exact ho j hlj hj x
    · rw [if_neg (fun h => hlj (hlive.mp h)), if_neg hlj]

end Change

/-! ## A block is recorded -/

/-- From `s` to `s'`, the inode `inum`, which was `d`, has got a reference to
    the new block `b` at the site `x₀` and is `d'` now. Nothing else has
    happened to a file. -/
structure Recorded (sb : Superblock) (I : Nat → Dinode) (inum : Nat) (d : Dinode) (s : State)
    (d' : Dinode) (s' : State) (x₀ : Site) (b : Nat) : Prop where
  ne : b ≠ 0
  was : d.ref s.data x₀ = 0
  refs : ∀ x, d'.ref s'.data x = if x = x₀ then b else d.ref s.data x
  own : Owned sb s'.data (update I inum d')
  first : FirstFree sb s.data b
  bits : ∀ c < sb.size, bitOf sb s'.data c = update (bitOf sb s.data) b true c
  addrs : d' = { d with addrs := d'.addrs }
  ok : d'.Ok
  others : ∀ j, Live sb I j → j ≠ inum → (I j).Kept s.data s'.data
  inodes : ∀ j < sb.ninodes, s'.data (sb.IBLOCK j) = s.data (sb.IBLOCK j)
  blocks : ∀ x, x ≠ .addr 12 → d.ref s.data x ≠ 0 →
    s'.data (d.ref s.data x) = s.data (d.ref s.data x)

section Record

variable {I : Nat → Dinode} {inum b : Nat} {d : Dinode} {s1 : State}

theorem Took.entries_zero (h : Took sb s s1 b) (j : Fin 256) : (s1.data b).getLE (4 * j) 4 = 0 := by
  rw [h.zero]
  apply Bytes.getLE_fill_zero (by omega)
  have := j.isLt
  simp only [BSIZE]
  omega

section

variable (h : Took sb s s1 b) (hsb : sb.Ok) (hown : Owned sb s.data I)

include h hsb hown

theorem Took.ne_zero : b ≠ 0 := by
  have := h.ge hown
  have := hsb.boot
  omega

omit h hsb hown in
theorem Took.lt_word (h : Took sb s s1 b) (hsb : sb.Ok) : b < 2 ^ 32 := by
  have := h.first.1
  have := hsb.small
  omega

theorem Took.recordAddr
    (hl : Live sb I inum) (hI : I inum = d) (hok : d.Ok) {k : Fin 13} (hk : d.addrs k = 0)
    (i : Fin NINODE) :
    Recorded sb I inum d s (d.setAddr k b) (s1.setDin i (d.setAddr k b)) (.addr k) b := by
  have hne := h.ne_zero hsb hown
  have hkept : d.Kept s.data s1.data := hI ▸ h.kept hsb hown hl
  have href : ∀ x, (d.setAddr k b).ref s1.data x = if x = .addr k then b else d.ref s1.data x := by
    by_cases h12 : k = 12
    · subst h12
      exact ref_setIndirect hk hne h.entries_zero
    · exact ref_setAddr h12
  have hty : (d.setAddr k b).type ≠ 0 := hI ▸ hl.2.2
  refine ⟨hne, hk, fun x => ?_, ?_, h.first, h.bits, rfl, hok.setAddr k (h.lt_word hsb), ?_, ?_, ?_⟩
  · refine (href x).trans ?_
    rw [hkept.ref]
  · have hx : refsOf sb s1.data I (inum, .addr k) = 0 := by
      rw [refsOf_live hl, hI]
      exact hk
    refine (Owns.record hsb.boot (h.pending hsb hown) hx).congr (fun _ _ => rfl) ?_
    exact refsOf_update hl hty (hI ▸ href) fun _ _ _ _ => rfl
  · exact fun j hj _ => h.kept hsb hown hj
  · exact fun j hj => h.inode hsb hown hj
  · exact fun x _ hx => hkept x hx

theorem Took.recordEntry
    (hl : Live sb I inum) (hI : I inum = d) (hok : d.Ok) (h12 : d.addrs 12 ≠ 0) {j : Fin 256}
    (hj : d.ref s.data (.entry j) = 0) :
    Recorded sb I inum d s d
      (s1.logBlock (d.addrs 12) ((s1.data (d.addrs 12)).setLE (4 * j) 4 b)) (.entry j) b := by
  have hne := h.ne_zero hsb hown
  have hkept : d.Kept s.data s1.data := hI ▸ h.kept hsb hown hl
  have href : ∀ x, d.ref (update s1.data (d.addrs 12)
      ((s1.data (d.addrs 12)).setLE (4 * j) 4 b)) x = if x = .entry j then b else d.ref s1.data x :=
    ref_setEntry h12 (h.lt_word hsb)
  have h12' : (I inum).ref s.data (.addr 12) ≠ 0 := by
    rw [hI]
    exact h12
  have hge : sb.dataStart ≤ d.addrs 12 := by
    have := (hown.range hl h12').1
    rw [hI] at this
    exact this
  -- the indirect block is no other block of a file
  have hfar : ∀ j x, Live sb I j → (I j).ref s.data x ≠ 0 → (j, x) ≠ (inum, .addr 12) →
      (I j).ref s.data x ≠ d.addrs 12 := by
    intro j x hlj hx hp he
    have heq : (I j).ref s.data x = (I inum).ref s.data (.addr 12) := by
      rw [he, hI]
      rfl
    obtain ⟨rfl, rfl⟩ := hown.inj hlj hl hx heq
    exact hp rfl
  have hothers : ∀ j', Live sb I j' → j' ≠ inum → (I j').Kept s.data
      (update s1.data (d.addrs 12) ((s1.data (d.addrs 12)).setLE (4 * j) 4 b)) := by
    intro j' hj' hne' x hx
    rw [update_of_ne (hfar j' x hj' hx fun e => hne' (congrArg Prod.fst e))]
    exact h.kept hsb hown hj' x hx
  have hbits : ∀ c < sb.size, bitOf sb (update s1.data (d.addrs 12)
      ((s1.data (d.addrs 12)).setLE (4 * j) 4 b)) c = bitOf sb s1.data c := fun c hc =>
    bitOf_congr (fun e he => update_of_ne (hsb.ne_bitmap hge he) _ _) hc
  refine ⟨hne, hj, fun x => ?_, ?_, h.first, fun c hc => (hbits c hc).trans (h.bits c hc), rfl, hok,
    hothers, ?_, ?_⟩
  · refine (href x).trans ?_
    rw [hkept.ref]
  · have hx : refsOf sb s1.data I (inum, .entry j) = 0 := by
      rw [refsOf_live hl, hI, hkept.ref]
      exact hj
    refine (Owns.record hsb.boot (h.pending hsb hown) hx).congr hbits ?_
    refine refsOf_update hl (hI ▸ hl.2.2) (hI ▸ href) fun j' hj' hne' x => ?_
    exact ((hothers j' hj' hne').ref x).trans ((h.kept hsb hown hj').ref x).symm
  · exact fun j' hj' => (update_of_ne (hsb.ne_inode hge hj') _ _).trans
      (h.inode hsb hown hj')
  · intro x hx12 hx
    have hx' : (I inum).ref s.data x ≠ 0 := by
      rw [hI]
      exact hx
    have hfar' := hfar inum x hl hx' fun e => hx12 (congrArg Prod.snd e)
    rw [hI] at hfar'
    exact (update_of_ne hfar' _ _).trans (hkept x hx)

end

end Record

/-! ## What a write takes and logs -/

/-- How many blocks have to be allocated for the blocks `L` of a file to be
    there. -/
def need (d : Dinode) (data : Nat → Bytes) (L : Finset Nat) : Nat :=
  (L.filter fun bn => d.block data bn = 0).card +
    if (∃ bn ∈ L, NDIRECT ≤ bn) ∧ d.addrs 12 = 0 then 1 else 0

/-- The blocks that `balloc` finds for them. -/
def newBlocks (sb : Superblock) (d : Dinode) (data : Nat → Bytes) (L : Finset Nat) : Finset Nat :=
  ((freeList sb.size (bitOf sb data)).take (need d data L)).toFinset

/-- The indirect block gets an entry for one of them. -/
def SetsEntry (sb : Superblock) (d : Dinode) (data : Nat → Bytes) (L : Finset Nat) : Prop :=
  newBlocks sb d data L ≠ ∅ ∧ ∃ bn ∈ L, NDIRECT ≤ bn ∧ d.block data bn = 0

instance (sb : Superblock) (d : Dinode) (data : Nat → Bytes) (L : Finset Nat) :
    Decidable (SetsEntry sb d data L) := inferInstanceAs (Decidable (_ ∧ _))

/-- What goes into the log when the blocks `L` of a file are written, besides
    the inode: the blocks that the file has, those that are allocated with their
    bitmap blocks, and the indirect block if it gets an entry. -/
def toLog (sb : Superblock) (d : Dinode) (data : Nat → Bytes) (L : Finset Nat) : Finset Nat :=
  (L.image (d.block data) ∪ if SetsEntry sb d data L then {d.addrs 12} else ∅).erase 0 ∪
    (newBlocks sb d data L ∪ (newBlocks sb d data L).image sb.BBLOCK)

section Taking

variable {d d1 : Dinode} {data data' : Nat → Bytes} {L : Finset Nat} {b bn : Nat}

theorem mem_toLog {c : Nat} : c ∈ toLog sb d data L ↔
    (c ≠ 0 ∧ ((∃ bn ∈ L, d.block data bn = c) ∨ SetsEntry sb d data L ∧ c = d.addrs 12)) ∨
      c ∈ newBlocks sb d data L ∨ ∃ b ∈ newBlocks sb d data L, sb.BBLOCK b = c := by
  unfold toLog
  rw [mem_union, mem_erase, mem_union, mem_image, mem_union, mem_image]
  by_cases h : SetsEntry sb d data L
  · rw [if_pos h, mem_singleton, and_iff_right h]
  · simp [h]

theorem need_congr (hblock : ∀ bn, d1.block data' bn = d.block data bn)
    (haddrs : d1.addrs = d.addrs) (L : Finset Nat) : need d1 data' L = need d data L := by
  unfold need
  simp only [hblock, haddrs]

theorem toLog_congr (hblock : ∀ bn, d1.block data' bn = d.block data bn)
    (haddrs : d1.addrs = d.addrs) (hbits : ∀ c < sb.size, bitOf sb data' c = bitOf sb data c)
    (L : Finset Nat) : toLog sb d1 data' L = toLog sb d data L := by
  have hnew : newBlocks sb d1 data' L = newBlocks sb d data L := by
    unfold newBlocks
    rw [need_congr hblock haddrs, freeList_congr hbits]
  ext c
  simp only [mem_toLog, SetsEntry, hnew, hblock, haddrs]

theorem need_ne_zero (hbn : bn ∈ L) (h : d.block data bn = 0) : need d data L ≠ 0 := by
  have hmem : bn ∈ L.filter fun bn => d.block data bn = 0 := mem_filter.mpr ⟨hbn, h⟩
  have := card_pos.mpr ⟨bn, hmem⟩
  unfold need
  omega

theorem FirstFree.mem_newBlocks (h : FirstFree sb data b) (hneed : need d data L ≠ 0) :
    b ∈ newBlocks sb d data L := by
  obtain ⟨m, hm⟩ := Nat.exists_eq_succ_of_ne_zero hneed
  unfold newBlocks
  rw [freeList_take h.1 h.2.1 h.2.2, hm, List.take_succ_cons]
  exact List.mem_toFinset.mpr List.mem_cons_self

theorem FirstFree.mem_toLog (h : FirstFree sb data b) (hneed : need d data L ≠ 0) :
    b ∈ toLog sb d data L ∧ sb.BBLOCK b ∈ toLog sb d data L :=
  ⟨Fs.mem_toLog.mpr (.inr (.inl (h.mem_newBlocks hneed))),
    Fs.mem_toLog.mpr (.inr (.inr ⟨b, h.mem_newBlocks hneed, rfl⟩))⟩

theorem need_mono {L' : Finset Nat} (h : L ⊆ L') : need d data L ≤ need d data L' := by
  have h1 : (L.filter fun bn => d.block data bn = 0).card ≤
      (L'.filter fun bn => d.block data bn = 0).card :=
    card_le_card (filter_subset_filter _ h)
  have h2 : (if (∃ bn ∈ L, NDIRECT ≤ bn) ∧ d.addrs 12 = 0 then 1 else 0) ≤
      if (∃ bn ∈ L', NDIRECT ≤ bn) ∧ d.addrs 12 = 0 then 1 else 0 := by
    by_cases hc : (∃ bn ∈ L, NDIRECT ≤ bn) ∧ d.addrs 12 = 0
    · obtain ⟨⟨bn, hbn, hle⟩, h12⟩ := hc
      rw [if_pos ⟨⟨bn, hbn, hle⟩, h12⟩, if_pos ⟨⟨bn, h hbn, hle⟩, h12⟩]
    · rw [if_neg hc]
      exact Nat.zero_le _
  unfold need
  omega

theorem toLog_mono {L' : Finset Nat} (h : L ⊆ L') : toLog sb d data L ⊆ toLog sb d data L' := by
  have hnew : newBlocks sb d data L ⊆ newBlocks sb d data L' := fun c hc =>
    List.mem_toFinset.mpr (List.take_subset_take_left _ (need_mono h) (List.mem_toFinset.mp hc))
  intro c hc
  rw [mem_toLog] at hc ⊢
  rcases hc with ⟨h0, ⟨bn, hbn, hc⟩ | ⟨⟨hne, bn, hbn, hz⟩, hc⟩⟩ | hc | ⟨b, hb, hc⟩
  · exact .inl ⟨h0, .inl ⟨bn, h hbn, hc⟩⟩
  · have hne' : newBlocks sb d data L' ≠ ∅ := fun he => hne (subset_empty.mp (he ▸ hnew))
    exact .inl ⟨h0, .inr ⟨⟨hne', bn, h hbn, hz⟩, hc⟩⟩
  · exact .inr (.inl (hnew hc))
  · exact .inr (.inr ⟨b, hnew hb, hc⟩)

end Taking

/-- What has been allocated from `s` to `s'` is not needed any more for the
    blocks `L`, and nothing else will be logged for them. -/
structure Spent (sb : Superblock) (L : Finset Nat) (d : Dinode) (s : State) (d' : Dinode)
    (s' : State) : Prop where
  free : freeBlocks sb s + need d' s'.data L ≤ freeBlocks sb s' + need d s.data L
  log : toLog sb d' s'.data L ⊆ toLog sb d s.data L

section Spending

variable {I : Nat → Dinode} {inum b bn : Nat} {d d' : Dinode} {L : Finset Nat} {x₀ : Site}

theorem Recorded.free (h : Recorded sb I inum d s d' s' x₀ b) :
    freeBlocks sb s' + 1 = freeBlocks sb s := by
  unfold freeBlocks freeCells
  rw [h.first.freeList h.bits]
  rfl

theorem Recorded.block (h : Recorded sb I inum d s d' s' x₀ b) (bn : Nat) :
    d'.block s'.data bn = if siteOf bn = some x₀ then b else d.block s.data bn := by
  cases hs : siteOf bn with
  | none =>
    unfold Dinode.block
    rw [hs, if_neg nofun]
  | some x => simp only [block_of_site hs, h.refs, Option.some.injEq]

theorem Recorded.need (h : Recorded sb I inum d s d' s' x₀ b) (hbn : bn ∈ L)
    (hx : x₀ = .addr 12 ∧ NDIRECT ≤ bn ∨ siteOf bn = some x₀) :
    Fs.need d' s'.data L + 1 = Fs.need d s.data L := by
  have h12 : d'.addrs 12 = if .addr 12 = x₀ then b else d.addrs 12 := h.refs (.addr 12)
  unfold Fs.need
  rcases hx with ⟨rfl, hle⟩ | hx
  · -- the indirect block: no block of the file changes
    have hblock : ∀ bn, d'.block s'.data bn = d.block s.data bn := fun bn => by
      rw [h.block, if_neg siteOf_ne_indirect]
    rw [if_pos rfl] at h12
    rw [if_neg fun hc => h.ne (h12.symm.trans hc.2), if_pos ⟨⟨bn, hbn, hle⟩, h.was⟩]
    simp only [hblock, Nat.add_zero]
  · have hne : Site.addr 12 ≠ x₀ := by
      rintro rfl
      exact siteOf_ne_indirect hx
    rw [if_neg hne] at h12
    have hwas : d.block s.data bn = 0 := (block_of_site hx).trans h.was
    have hset : (L.filter fun bn' => d'.block s'.data bn' = 0) =
        (L.filter fun bn' => d.block s.data bn' = 0).erase bn := by
      ext bn'
      rw [mem_erase, mem_filter, mem_filter, h.block]
      by_cases he : bn' = bn
      · subst he
        simp [hx, h.ne]
      · rw [if_neg fun hs => he (siteOf_inj hs hx)]
        simp [he]
    have hmem : bn ∈ L.filter fun bn' => d.block s.data bn' = 0 := mem_filter.mpr ⟨hbn, hwas⟩
    have := card_pos.mpr ⟨bn, hmem⟩
    rw [h12, hset, card_erase_of_mem hmem]
    omega

theorem Recorded.spent (h : Recorded sb I inum d s d' s' x₀ b) (hbn : bn ∈ L)
    (hx : x₀ = .addr 12 ∧ NDIRECT ≤ bn ∨ siteOf bn = some x₀) : Spent sb L d s d' s' := by
  have hneed := h.need hbn hx
  have hfree := h.free
  refine ⟨by omega, fun c hc => ?_⟩
  -- one of the new blocks has been recorded, the others are still to come
  have hnew : newBlocks sb d s.data L = insert b (newBlocks sb d' s'.data L) := by
    unfold newBlocks
    rw [h.first.freeList h.bits, ← hneed, List.take_succ_cons, List.toFinset_cons]
  have hb : b ∈ newBlocks sb d s.data L := by
    rw [hnew]
    exact mem_insert_self _ _
  have hsub : newBlocks sb d' s'.data L ⊆ newBlocks sb d s.data L := by
    rw [hnew]
    exact subset_insert _ _
  rw [mem_toLog] at hc ⊢
  rcases hc with ⟨h0, ⟨bn', hbn', rfl⟩ | ⟨⟨_, bn', hbn', hle, hz⟩, rfl⟩⟩ | hc | ⟨c', hc, rfl⟩
  · rw [h.block] at h0 ⊢
    split_ifs at h0 ⊢ with hs
    · exact .inr (.inl hb)
    · exact .inl ⟨h0, .inl ⟨bn', hbn', rfl⟩⟩
  · have h12 : d'.addrs 12 = if .addr 12 = x₀ then b else d.addrs 12 := h.refs (.addr 12)
    rw [h12] at h0 ⊢
    split_ifs at h0 ⊢ with hs
    · exact .inr (.inl hb)
    · rw [h.block] at hz
      split_ifs at hz with hs'
      · exact absurd hz h.ne
      · exact .inl ⟨h0, .inr ⟨⟨ne_empty_of_mem hb, bn', hbn', hle, hz⟩, rfl⟩⟩
  · exact .inr (.inl (hsub hc))
  · exact .inr (.inr ⟨c', hsub hc, rfl⟩)

end Spending

/-! ## `bmap` -/

/-- From `s` to `s'`, the inode `inum` has changed from `d` to `d'` by what
    `bmap` does for its block `bn`: the blocks it had are the same and have the
    same contents. -/
structure Grown (sb : Superblock) (I : Nat → Dinode) (inum : Nat) (d : Dinode) (s : State)
    (d' : Dinode) (s' : State) (bn : Nat) : Prop where
  own : Owned sb s'.data (update I inum d')
  addrs : d' = { d with addrs := d'.addrs }
  ok : d'.Ok
  others : ∀ j, Live sb I j → j ≠ inum → (I j).Kept s.data s'.data
  inodes : ∀ j < sb.ninodes, s'.data (sb.IBLOCK j) = s.data (sb.IBLOCK j)
  grows : ∀ x, d.ref s.data x ≠ 0 → d'.ref s'.data x = d.ref s.data x
  blocks : ∀ x, x ≠ .addr 12 → d.ref s.data x ≠ 0 →
    s'.data (d.ref s.data x) = s.data (d.ref s.data x)
  rest : ∀ bn', bn' ≠ bn → d'.block s'.data bn' = d.block s.data bn'
  spent : ∀ L, bn ∈ L → Spent sb L d s d' s'

section Bmap

variable {I : Nat → Dinode} {inum b bn : Nat} {d d' d'' : Dinode} {s'' : State}

theorem Grown.refl (hown : Owned sb s.data I) (hI : I inum = d) (hok : d.Ok) :
    Grown sb I inum d s d s bn where
  own := by
    rw [← hI, update_eq_self]
    exact hown
  addrs := rfl
  ok := hok
  others := fun j _ _ => .refl _ _
  inodes := fun _ _ => rfl
  grows := fun _ _ => rfl
  blocks := fun _ _ _ => rfl
  rest := fun _ _ => rfl
  spent := fun _ _ => ⟨le_rfl, Subset.rfl⟩

theorem Recorded.grown {x0 : Site} (h : Recorded sb I inum d s d' s' x0 b)
    (hx : x0 = .addr 12 ∧ NDIRECT ≤ bn ∨ siteOf bn = some x0) : Grown sb I inum d s d' s' bn where
  own := h.own
  addrs := h.addrs
  ok := h.ok
  others := h.others
  inodes := h.inodes
  grows := fun x hne => by
    rw [h.refs, if_neg]
    rintro rfl
    exact hne h.was
  blocks := h.blocks
  rest := fun bn' hbn => by
    rw [h.block, if_neg]
    intro hs
    rcases hx with ⟨rfl, _⟩ | hx
    · exact siteOf_ne_indirect hs
    · exact hbn (siteOf_inj hs hx)
  spent := fun _ hbn => h.spent hbn hx

theorem Grown.trans (hl : Live sb I inum) (hI : I inum = d) (h : Grown sb I inum d s d' s' bn)
    (h' : Grown sb (update I inum d') inum d' s' d'' s'' bn) :
    Grown sb I inum d s d'' s'' bn where
  own := by
    have := h'.own
    rw [update_idem] at this
    exact this
  addrs := by
    rw [h'.addrs, h.addrs]
  ok := h'.ok
  others := fun j hj hne => by
    have hty : d'.type ≠ 0 := by
      rw [h.addrs, ← hI]
      exact hl.2.2
    have h2 := h'.others j ((live_update hty hl j).mpr hj) hne
    rw [update_of_ne hne] at h2
    exact (h.others j hj hne).trans h2
  inodes := fun j hj => (h'.inodes j hj).trans (h.inodes j hj)
  grows := fun x hx => by
    have h1 := h.grows x hx
    rw [h'.grows x (by rw [h1]; exact hx), h1]
  blocks := fun x hx12 hx => by
    have h1 := h.grows x hx
    have h2 := h'.blocks x hx12 (by rw [h1]; exact hx)
    rw [h1] at h2
    rw [h2, h.blocks x hx12 hx]
  rest := fun bn' hbn => (h'.rest bn' hbn).trans (h.rest bn' hbn)
  spent := fun L hbn => by
    have h1 := h.spent L hbn
    have h2 := h'.spent L hbn
    have hf1 := h1.free
    have hf2 := h2.free
    exact ⟨by omega, h2.log.trans h1.log⟩

/-- How many blocks `bmap` has to allocate. -/
def bmapCost (d : Dinode) (data : Nat → Bytes) (bn : Nat) : Nat :=
  (if d.block data bn = 0 then 1 else 0) + if NDIRECT ≤ bn ∧ d.addrs 12 = 0 then 1 else 0

theorem bmapCost_eq_zero {data : Nat → Bytes} (h : d.block data bn ≠ 0) :
    bmapCost d data bn = 0 := by
  have hind : ¬ (NDIRECT ≤ bn ∧ d.addrs 12 = 0) := by
    rintro ⟨hle, h12⟩
    obtain ⟨x, hx, href⟩ := site_of_block h
    cases x with
    | addr k => exact absurd (siteOf_eq_addr.mp hx).1 (by omega)
    | entry j => exact h (href ▸ ref_entry_of_none h12)
  unfold bmapCost
  rw [if_neg h, if_neg hind]

/-- What `bmap` returns: the address of the block, or 0 if there were not enough
    blocks. -/
def Bmapped (sb : Superblock) (s s' : State) (cost r block : Nat) : Prop :=
  (r = 0 ∧ freeBlocks sb s < cost) ∨
    (r ≠ 0 ∧ block = r ∧ freeBlocks sb s' + cost = freeBlocks sb s)

theorem bmapEntry_wp (hsb : sb.Ok) (hown : Owned sb s.data I) (hl : Live sb I inum)
    (hI : I inum = d) (hok : d.Ok) (h12 : d.addrs 12 ≠ 0) (j : Fin 256)
    (hP : toLog sb d s.data {j + NDIRECT} ⊆ P) (hlog : CanLog sb X P s k) :
    (bmapEntry sb (d.addrs 12) j).wp s
      (fun r s' => (Grown sb I inum d s d s' (j + NDIRECT) ∧ s'.itable = s.itable ∧
        Bmapped sb s s' (if d.ref s.data (.entry j) = 0 then 1 else 0) r
          (d.ref s'.data (.entry j))) ∧
        Logs s s' ∧ CanLog sb X P s' k) X := by
  have hsite : siteOf (j + NDIRECT) = some (.entry j) := siteOf_eq_entry.mpr rfl
  have href : ∀ data : Nat → Bytes,
      d.ref data (.entry j) = (data (d.addrs 12)).getLE (4 * j) 4 := fun _ => ref_entry h12
  unfold bmapEntry
  apply wp_bind
  apply wp_reads
  apply wp_ite
  · intro hz
    rw [← href] at hz
    rw [if_pos hz]
    have hblock : d.block s.data (j + NDIRECT) = 0 := (block_of_site hsite).trans hz
    have hneed : need d s.data {j + NDIRECT} ≠ 0 := need_ne_zero (mem_singleton_self _) hblock
    refine (balloc_wp hsb hown (fun b hb => (hb.mem_toLog hneed).imp (@hP b) (@hP _)) hlog).bind ?_
    rintro b s1 ⟨⟨rfl, rfl, hfree⟩ | ⟨hb, htook⟩, hlogs, hlog1⟩
    · -- out of blocks: nothing has changed
      rw [if_neg (not_not_intro rfl)]
      apply wp_pure
      exact ⟨⟨.refl hown hI hok, rfl, .inl ⟨rfl, by omega⟩⟩, hlogs, hlog1⟩
    · rw [if_pos hb]
      apply wp_bind
      apply wp_reads
      have hrec := htook.recordEntry hsb hown hl hI hok h12 hz
      have h12P : d.addrs 12 ∈ P := hP (mem_toLog.mpr (.inl ⟨h12, .inr
        ⟨⟨ne_empty_of_mem (htook.first.mem_newBlocks hneed), _, mem_singleton_self _,
          Nat.le_add_left _ _, hblock⟩, rfl⟩⟩))
      apply store_bind_wp hlog1 h12P
      intro hlog2
      apply wp_pure
      refine ⟨⟨hrec.grown (.inr hsite), htook.table,
        .inr ⟨hb, ?_, hrec.free⟩⟩, hlogs.trans (Logs.logBlock s1 _ _), hlog2⟩
      exact (hrec.refs (.entry j)).trans (if_pos rfl)
  · intro hz
    rw [← href] at hz ⊢
    rw [if_neg hz]
    apply wp_pure
    exact ⟨⟨.refl hown hI hok, rfl, .inr ⟨hz, rfl, rfl⟩⟩, .refl s, hlog⟩

theorem setDin_self (s : State) (i : Fin NINODE) :
    (s.setDin i (s.itable i).din).itable = s.itable :=
  update_eq_self i s.itable

variable {i : Fin NINODE}

theorem setDin_congr {s1 : State} (h : s1.itable = s.itable) (d : Dinode) :
    (s1.setDin i d).itable = (s.setDin i d).itable := by
  show update s1.itable i _ = update s.itable i _
  rw [h]

/-- **`bmap`** of a block that is there. -/
theorem bmap_present (h : (s.itable i).din.block s.data bn ≠ 0) :
    bmap sb i bn s = .ok ((s.itable i).din.block s.data bn, s) := by
  obtain ⟨x, hx, href⟩ := site_of_block h
  rw [← href] at h ⊢
  unfold bmap
  cases x with
  | addr k =>
    obtain ⟨hlt, hk⟩ := siteOf_eq_addr.mp hx
    have hfin : (⟨bn, Nat.lt_succ_of_lt hlt⟩ : Fin 13) = k := Fin.ext hk
    have h0 : (s.itable i).din.addrs k ≠ 0 := h
    rw [inode, reads_bind_run, dif_pos hlt, hfin, if_neg h0]
    rfl
  | entry j =>
    have hbn := siteOf_eq_entry.mp hx
    have hj := j.isLt
    have hnd : ¬ bn < NDIRECT := by
      simp only [NDIRECT] at *
      omega
    have hni : bn - NDIRECT = j := by omega
    have h12 : (s.itable i).din.addrs 12 ≠ 0 := fun e => h (ref_entry_of_none e)
    rw [ref_entry h12] at h ⊢
    rw [inode, reads_bind_run, dif_neg hnd, hni, if_pos (show (j : Nat) < NINDIRECT from hj),
      if_neg h12]
    unfold bmapEntry
    rw [bread, reads_bind_run, if_neg h]
    rfl

/-- **`bmap`** allocates the block if it is not there, and the indirect
    block. -/
theorem bmap_wp (hsb : sb.Ok) (hown : Owned sb s.data I) (hl : Live sb I inum)
    (hI : I inum = (s.itable i).din) (hok : (s.itable i).din.Ok) (hbn : bn < MAXFILE)
    (hP : toLog sb (s.itable i).din s.data {bn} ⊆ P) (hlog : CanLog sb X P s k) :
    (bmap sb i bn).wp s
      (fun r s' => ∃ d', (Grown sb I inum (s.itable i).din s d' s' bn ∧
        s'.itable = (s.setDin i d').itable ∧
        Bmapped sb s s' (bmapCost (s.itable i).din s.data bn) r (d'.block s'.data bn)) ∧
        Logs s s' ∧ CanLog sb X P s' k) X := by
  obtain ⟨x, hx⟩ := siteOf_of_lt hbn
  have hblock : ∀ (d : Dinode) data, d.block data bn = d.ref data x := fun _ _ =>
    block_of_site hx
  -- a block that is taken is logged, with its bitmap block
  have hfirst : (s.itable i).din.ref s.data x = 0 → ∀ b, FirstFree sb s.data b →
      b ∈ P ∧ sb.BBLOCK b ∈ P := fun hz b hb => (hb.mem_toLog (need_ne_zero (mem_singleton_self bn)
        ((hblock _ _).trans hz))).imp (@hP b) (@hP _)
  unfold bmap
  apply wp_bind
  apply wp_reads
  cases x with
  | addr a =>
    obtain ⟨hlt, ha⟩ := siteOf_eq_addr.mp hx
    have hfin : (⟨bn, Nat.lt_succ_of_lt hlt⟩ : Fin 13) = a := Fin.ext ha
    have hnd : ¬ (NDIRECT ≤ bn ∧ (s.itable i).din.addrs 12 = 0) := fun h => by omega
    rw [dif_pos hlt, hfin]
    apply wp_ite
    · intro hz
      have hcost : bmapCost (s.itable i).din s.data bn = 1 := by
        unfold bmapCost
        rw [if_pos ((hblock _ _).trans hz), if_neg hnd]
      rw [hcost]
      refine (balloc_wp hsb hown (hfirst hz) hlog).bind ?_
      rintro b s1 ⟨⟨rfl, rfl, hfree⟩ | ⟨hb, htook⟩, hlogs, hlog1⟩
      · rw [if_pos rfl]
        apply wp_pure
        exact ⟨_, ⟨.refl hown hI hok, (setDin_self _ _).symm, .inl ⟨rfl, by omega⟩⟩, hlogs, hlog1⟩
      · rw [if_neg hb]
        apply wp_bind
        apply wp_modify
        apply wp_pure
        have hrec := htook.recordAddr hsb hown hl hI hok hz i
        refine ⟨_, ⟨hrec.grown (.inr hx), setDin_congr htook.table _, .inr ⟨hb, ?_, hrec.free⟩⟩,
          hlogs.setInode _ _, hlog1.congr rfl rfl⟩
        rw [hblock]
        exact (hrec.refs _).trans (if_pos rfl)
    · intro hz
      have hcost : bmapCost (s.itable i).din s.data bn = 0 := by
        unfold bmapCost
        rw [if_neg (fun h => hz ((hblock _ _).symm.trans h)), if_neg hnd]
      rw [hcost]
      apply wp_pure
      exact ⟨_, ⟨.refl hown hI hok, (setDin_self _ _).symm, .inr ⟨hz, hblock _ _, rfl⟩⟩, .refl s,
        hlog⟩
  | entry j =>
    have hj : bn = j + NDIRECT := siteOf_eq_entry.mp hx
    have hnd : ¬ bn < NDIRECT := by omega
    have hni : bn - NDIRECT = j := by omega
    rw [dif_neg hnd, hni, if_pos (show (j : Nat) < NINDIRECT from j.isLt)]
    apply wp_ite
    · -- the indirect block first
      intro h12
      have hz : (s.itable i).din.ref s.data (.entry j) = 0 := ref_entry_of_none h12
      have hcost : bmapCost (s.itable i).din s.data bn = 2 := by
        unfold bmapCost
        rw [if_pos ((hblock _ _).trans hz), if_pos ⟨by omega, h12⟩]
      rw [hcost]
      refine (balloc_wp hsb hown (hfirst hz) hlog).bind ?_
      rintro b s1 ⟨⟨rfl, rfl, hfree⟩ | ⟨hb, htook⟩, hlogs, hlog1⟩
      · rw [if_pos rfl]
        apply wp_pure
        exact ⟨_, ⟨.refl hown hI hok, (setDin_self _ _).symm, .inl ⟨rfl, by omega⟩⟩, hlogs, hlog1⟩
      · rw [if_neg hb]
        apply wp_bind
        apply wp_modify
        have hrec := htook.recordAddr hsb hown hl hI hok h12 i
        have hgrown : Grown sb I inum _ s _ _ bn := hrec.grown (.inl ⟨rfl, by omega⟩)
        have hP1 := (hgrown.spent {bn} (mem_singleton_self bn)).log.trans hP
        have hty : ((s.itable i).din.setAddr 12 b).type ≠ 0 := hI ▸ hl.2.2
        have haddr := (s.itable i).din.setAddr_self 12 b
        have hentry := bmapEntry_wp (X := X) (P := P) (k := k)
          (I := update I inum _) hsb hrec.own
          ((live_update hty hl inum).mpr hl) (update_self _ _ _) hrec.ok
          (by rw [haddr]; exact hb) j (hj ▸ hP1) (hlog1.congr rfl rfl)
        rw [haddr] at hentry
        refine hentry.imp ?_
        rintro r s2 ⟨⟨hg, ht, hr⟩, hlogs2, hlog2⟩
        have hz1 : ((s.itable i).din.setAddr 12 b).ref
            (s1.setDin i ((s.itable i).din.setAddr 12 b)).data (.entry j) = 0 := by
          rw [hrec.refs, if_neg nofun, hz]
        have hfree := hrec.free
        rw [if_pos hz1] at hr
        refine ⟨_, ⟨hgrown.trans hl hI (hj ▸ hg), ht.trans (setDin_congr htook.table _), ?_⟩,
          (hlogs.setInode _ _).trans hlogs2, hlog2⟩
        rw [hblock]
        rcases hr with ⟨hr0, hlt⟩ | ⟨hr0, hb', hfree2⟩
        · exact .inl ⟨hr0, by omega⟩
        · exact .inr ⟨hr0, hb', by omega⟩
    · intro h12
      have hcost : bmapCost (s.itable i).din s.data bn =
          if (s.itable i).din.ref s.data (.entry j) = 0 then 1 else 0 := by
        unfold bmapCost
        rw [hblock, if_neg (c := NDIRECT ≤ bn ∧ _) fun h => h12 h.2, Nat.add_zero]
      rw [hcost]
      refine (bmapEntry_wp hsb hown hl hI hok h12 j (hj ▸ hP) hlog).imp ?_
      rintro r s2 ⟨⟨hg, ht, hr⟩, hlogs2, hlog2⟩
      refine ⟨_, ⟨hj ▸ hg, ht.trans (setDin_self _ _).symm, ?_⟩, hlogs2, hlog2⟩
      rw [hblock]
      exact hr

end Bmap

end Fs
end Xv6
