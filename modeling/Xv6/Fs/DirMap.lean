import Xv6.Fs.Directory

/-!
# A directory is a finite map

From the two entries that `mkdir` makes, or from the root directory that `mkfs`
makes, any sequence of `dirlookup`, `dirlink` and removals of entries, with
whatever happens to other files in between, keeps a directory a finite map from
names of at most `DIRSIZ` bytes to inode numbers, with `.` and `..` in the first
two slots.
-/

namespace Xv6
namespace Fs

open Function List
open Sys

section Map

variable {sb : Superblock} {X : Stop → Prop} {s s' : State} {i : Fin NINODE} {dir parent : Nat}
variable {name : Name} {inum : Nat}

/-! ## The operations -/

/-- A new entry has a slot, or one can be added. -/
def Available (sb : Superblock) (s : State) (dir : Nat) : Prop :=
  none ∈ dirOf sb s dir ∨ Writable sb s dir (dirOf sb s dir).length

theorem IsDir.writable_vacant (h : IsDir sb s dir) :
    Writable sb s dir (SlotMap.vacant (dirOf sb s dir)) ↔ Available sb s dir := by
  unfold Available
  by_cases hlt : SlotMap.vacant (dirOf sb s dir) < (dirOf sb s dir).length
  · exact iff_of_true (h.writable hlt) (.inl ((SlotMap.vacant_lt_iff _).mp hlt))
  · have hend : SlotMap.vacant (dirOf sb s dir) = (dirOf sb s dir).length :=
      Nat.le_antisymm (SlotMap.vacant_le _) (by omega)
    rw [hend, or_iff_right fun hmem => hlt ((SlotMap.vacant_lt_iff _).mpr hmem)]

/-- What `dirlink` has done when it returns `r`: it has bound a name that is
    new, in the first free slot or in a new one. -/
def Linked (sb : Superblock) (dir : Nat) (name : Name) (inum : Nat) (s : State) (r : Int)
    (s' : State) : Prop :=
  r = 0 ∧ (SlotMap.get (dirOf sb s dir) (name.take DIRSIZ) = none ∧ Available sb s dir) ∧
      dirOf sb s' dir = SlotMap.put (dirOf sb s dir) (SlotMap.vacant (dirOf sb s dir))
        (some (name.take DIRSIZ, inum)) ∨
    r = -1 ∧ ¬ (SlotMap.get (dirOf sb s dir) (name.take DIRSIZ) = none ∧ Available sb s dir) ∧
      dirOf sb s' dir = dirOf sb s dir

/-- **`dirlink`**. -/
theorem dirlink_wp (hsb : sb.Ok) (h : IsDir sb s dir) (ho : Opened s i dir) (hname : 0 ∉ name)
    (h0 : inum ≠ 0) (hlt : inum < 2 ^ 16) (hX : X (.panic "iget: no inodes") ∨
      ∀ n, SlotMap.get (dirOf sb s dir) (name.take DIRSIZ) = some n → Gettable s n)
    (hlog : SlotMap.get (dirOf sb s dir) (name.take DIRSIZ) = none →
      CanLogSlot sb X s dir (SlotMap.vacant (dirOf sb s dir))) :
    (dirlink sb i name inum).wp s (fun r s' => (IsDir sb s' dir ∧ Opened s' i dir) ∧
      Linked sb dir name inum s r s') X := by
  unfold dirlink
  refine (dirlookup_wp h ho hname hX).bind ?_
  rintro r s1 (⟨rfl, rfl, hnone⟩ | ⟨ip, k, n, rfl, hg, hfind⟩)
  · have hnew : SlotMap.get (dirOf sb s1 dir) (name.take DIRSIZ) = none := by
      unfold SlotMap.get
      rw [hnone]
      rfl
    have hfree := emptyDirent_eq h ho _ 0 (Nat.zero_le _) (scan_fuel sb s1 dir 0)
    rw [Nat.mul_zero, drop_zero, Nat.zero_add] at hfree
    dsimp only
    refine wp_bind (wp_reads ?_)
    rw [h.din ho]
    refine wp_bind (wp_of_ok hfree ?_)
    refine (writeDirent_wp hsb h ho (SlotMap.vacant_le _) (mkDirent name inum) (hlog hnew)).bind ?_
    rintro r s2 ⟨hstate, ⟨rfl, hw, hput⟩ | ⟨hr, hw, hsame⟩⟩
    · rw [if_neg (not_not_intro rfl)]
      refine wp_pure ⟨hstate, .inl ⟨rfl, ⟨hnew, h.writable_vacant.mp hw⟩, ?_⟩⟩
      rw [hput, slotAt_mkDirent hname h0 hlt]
    · rw [if_pos hr]
      exact wp_pure ⟨hstate, .inr ⟨rfl, fun hav => hw (h.writable_vacant.mpr hav.2), hsame⟩⟩
  · -- the name is taken: its inode is got and put back
    obtain ⟨s2, hput, hc, hdata, _, _, hopen⟩ := hg.iput h.con
    obtain ⟨hdir, hsame⟩ := h.of_data hc hdata
    refine wp_bind (wp_of_ok hput (wp_pure ⟨⟨hdir, hopen i dir ho⟩, .inr ⟨rfl, fun hav => ?_,
      hsame⟩⟩))
    have hget := hav.1
    unfold SlotMap.get at hget
    rw [hfind] at hget
    cases hget

theorem dirlink_post (hsb : sb.Ok) (h : IsDir sb s dir) (ho : Opened s i dir) (hname : 0 ∉ name)
    (h0 : inum ≠ 0) (hlt : inum < 2 ^ 16) : (dirlink sb i name inum).post s fun r s' =>
      (IsDir sb s' dir ∧ Opened s' i dir) ∧ Linked sb dir name inum s r s' :=
  dirlink_wp hsb h ho hname h0 hlt (.inl trivial) fun _ => .any s _ _

/-- **The entry removal of `sys_unlink`** frees the slot. -/
theorem removeDirent_wp (hsb : sb.Ok) (h : IsDir sb s dir) (ho : Opened s i dir) {k : Nat}
    (hk : k < (dirOf sb s dir).length) (hlog : CanLogSlot sb X s dir k) :
    (removeDirent sb i (DESIZE * k)).wp s (fun _ s' => (IsDir sb s' dir ∧ Opened s' i dir) ∧
      dirOf sb s' dir = SlotMap.put (dirOf sb s dir) k none) X := by
  refine (writeDirent_wp hsb h ho hk.le Bytes.zero hlog).bind ?_
  rintro r s1 ⟨hstate, ⟨rfl, _, hput⟩ | ⟨_, hw, _⟩⟩
  · rw [if_neg (not_not_intro rfl)]
    rw [slotAt_zero] at hput
    exact wp_pure ⟨hstate, hput⟩
  · exact absurd (h.writable hk) hw

/-! ## How a directory comes about -/

/-- The entries that `mkfs` makes: `.`, `..`, and the files in the order of its
    arguments. -/
def mkfsEntries (files : List Name) : List (Name × Nat) :=
  ([DOT], ROOTINO) :: ([DOT, DOT], ROOTINO) :: files.zipIdx 2

/-- The contents of a directory that is nothing but these entries. -/
def dirents (es : List (Name × Nat)) : List UInt8 :=
  es.flatMap fun e => (mkDirent e.1 e.2).slice 0 DESIZE

/-- The contents of the root directory of `mkfs`, whose size is rounded up. -/
def mkfsRoot (files : List Name) : List UInt8 :=
  dirents (mkfsEntries files) ++ List.replicate
    (((dirents (mkfsEntries files)).length / BSIZE + 1) * BSIZE -
      (dirents (mkfsEntries files)).length) 0

/-- The arguments of `mkfs`: different names, not too many. -/
structure MkfsFiles (files : List Name) : Prop where
  nodup : (files.map (List.take DIRSIZ)).Nodup
  dot : ∀ f ∈ files, f.take DIRSIZ ≠ [DOT] ∧ f.take DIRSIZ ≠ [DOT, DOT]
  string : ∀ f ∈ files, 0 ∉ f
  few : files.length + 2 ≤ 2 ^ 16

/-- **The directory `dir` after any sequence of operations on it.** Between two
    of them anything may happen that leaves it alone (`elsewhere`): the lock is
    released and taken again, a transaction is committed, other files are
    changed. -/
inductive Reached (sb : Superblock) (dir parent : Nat) : State → Prop
  /-- `create` makes the first two entries of a new directory. -/
  | mkdir {s₀ s₁ s : State} {i : Fin NINODE} (h : IsDir sb s₀ dir) (ho : Opened s₀ i dir)
      (hnew : (diskInode sb s₀.data dir).size = 0) (hdir : dir < 2 ^ 16) (hp : parent ≠ 0)
      (hparent : parent < 2 ^ 16) (hdot : dirlink sb i [DOT] dir s₀ = .ok (0, s₁))
      (hdotdot : dirlink sb i [DOT, DOT] parent s₁ = .ok (0, s)) : Reached sb dir parent s
  | mkfs {s : State} {files : List Name} (hroot : dir = ROOTINO) (hparent : parent = ROOTINO)
      (h : IsDir sb s dir) (hfiles : MkfsFiles files) (hfile : fileOf sb s dir = mkfsRoot files) :
      Reached sb dir parent s
  | lookup {s s' : State} {i : Fin NINODE} {name : Name} {r : Option (Fin NINODE × Nat)}
      (h : Reached sb dir parent s) (ho : Opened s i dir) (hname : 0 ∉ name)
      (hrun : dirlookup sb i name s = .ok (r, s')) : Reached sb dir parent s'
  | link {s s' : State} {i : Fin NINODE} {name : Name} {inum : Nat} {r : Int}
      (h : Reached sb dir parent s) (ho : Opened s i dir) (hname : 0 ∉ name) (h0 : inum ≠ 0)
      (hlt : inum < 2 ^ 16) (hrun : dirlink sb i name inum s = .ok (r, s')) :
      Reached sb dir parent s'
  /-- `sys_unlink` removes the entry at the offset that `dirlookup` has found,
      but not that of `.` or `..`. -/
  | remove {s s₁ s₂ s' : State} {i ip : Fin NINODE} {name : Name} {off : Nat}
      (h : Reached sb dir parent s) (ho : Opened s i dir) (hname : 0 ∉ name)
      (hdot : name.take DIRSIZ ≠ [DOT]) (hdotdot : name.take DIRSIZ ≠ [DOT, DOT])
      (hfound : dirlookup sb i name s = .ok (some (ip, off), s₁)) (h₂ : IsDir sb s₂ dir)
      (ho₂ : Opened s₂ i dir) (hsame : fileOf sb s₂ dir = fileOf sb s₁ dir)
      (hrun : removeDirent sb i off s₂ = .ok ((), s')) : Reached sb dir parent s'
  | elsewhere {s s' : State} (h : Reached sb dir parent s) (h' : IsDir sb s' dir)
      (hsame : fileOf sb s' dir = fileOf sb s dir) : Reached sb dir parent s'

/-- What holds all along. -/
structure DirInv (sb : Superblock) (s : State) (dir parent : Nat) : Prop where
  isDir : IsDir sb s dir
  uniq : SlotMap.Uniq (dirOf sb s dir)
  dot : (dirOf sb s dir)[0]? = some (some ([DOT], dir))
  dotdot : (dirOf sb s dir)[1]? = some (some ([DOT, DOT], parent))

theorem DirInv.congr (h : DirInv sb s dir parent) (hd : IsDir sb s' dir)
    (hsame : dirOf sb s' dir = dirOf sb s dir) : DirInv sb s' dir parent := by
  refine ⟨hd, ?_, ?_, ?_⟩
  · rw [hsame]
    exact h.uniq
  · rw [hsame]
    exact h.dot
  · rw [hsame]
    exact h.dotdot

/-- Any other slot may change. -/
theorem DirInv.put (h : DirInv sb s dir parent) (hd : IsDir sb s' dir) {k : Nat}
    {e : Option (Name × Nat)} (hk : k ≤ (dirOf sb s dir).length) (h0 : k ≠ 0) (h1 : k ≠ 1)
    (hsame : dirOf sb s' dir = SlotMap.put (dirOf sb s dir) k e)
    (huniq : SlotMap.Uniq (SlotMap.put (dirOf sb s dir) k e)) : DirInv sb s' dir parent := by
  refine ⟨hd, ?_, ?_, ?_⟩
  · rw [hsame]
    exact huniq
  · rw [hsame, SlotMap.getElem?_put hk, if_neg h0.symm]
    exact h.dot
  · rw [hsame, SlotMap.getElem?_put hk, if_neg h1.symm]
    exact h.dotdot

/-- A slot for a new entry is not one of the first two. -/
theorem DirInv.vacant_free (h : DirInv sb s dir parent) :
    (∀ e, (dirOf sb s dir)[SlotMap.vacant (dirOf sb s dir)]? ≠ some (some e)) ∧
      SlotMap.vacant (dirOf sb s dir) ≠ 0 ∧ SlotMap.vacant (dirOf sb s dir) ≠ 1 := by
  have hfree : ∀ e, (dirOf sb s dir)[SlotMap.vacant (dirOf sb s dir)]? ≠ some (some e) := by
    intro e he
    rcases SlotMap.getElem?_vacant (dirOf sb s dir) with hv | ⟨hv, _⟩
    · rw [hv] at he
      cases he
    · rw [hv, getElem?_eq_none (le_refl _)] at he
      cases he
  refine ⟨hfree, fun h0 => ?_, fun h1 => ?_⟩
  · have := h.dot
    rw [← h0] at this
    exact hfree _ this
  · have := h.dotdot
    rw [← h1] at this
    exact hfree _ this

/-! ## The step lemmas -/

theorem DirInv.lookup (h : DirInv sb s dir parent) (ho : Opened s i dir) (hname : 0 ∉ name)
    {r : Option (Fin NINODE × Nat)} (hrun : dirlookup sb i name s = .ok (r, s')) :
    DirInv sb s' dir parent ∧ fileOf sb s' dir = fileOf sb s dir ∧
      ∀ ip off, r = some (ip, off) → ∃ k n, off = DESIZE * k ∧
        (dirOf sb s dir)[k]? = some (some (name.take DIRSIZ, n)) := by
  have hwp := dirlookup_wp (X := fun _ => True) h.isDir ho hname (.inl trivial)
  rcases hwp.ok hrun with ⟨rfl, rfl, _⟩ | ⟨ip, k, n, rfl, hg, hfind⟩
  · exact ⟨h, rfl, nofun⟩
  · obtain ⟨hd, hsame⟩ := h.isDir.of_data (hg.consistent h.isDir.con) hg.data
    refine ⟨h.congr hd hsame, ?_, ?_⟩
    · unfold fileOf
      rw [hg.data]
    · rintro _ _ ⟨⟩
      exact ⟨k, n, rfl, SlotMap.getElem?_of_find hfind⟩

theorem DirInv.link (hsb : sb.Ok) (h : DirInv sb s dir parent) (ho : Opened s i dir)
    (hname : 0 ∉ name) (h0 : inum ≠ 0) (hlt : inum < 2 ^ 16) {r : Int}
    (hrun : dirlink sb i name inum s = .ok (r, s')) : DirInv sb s' dir parent := by
  obtain ⟨⟨hd, _⟩, ⟨_, ⟨hnew, _⟩, hput⟩ | ⟨_, _, hsame⟩⟩ :=
    (dirlink_post hsb h.isDir ho hname h0 hlt).ok hrun
  · obtain ⟨hfree, hv0, hv1⟩ := h.vacant_free
    have hk := SlotMap.vacant_le (dirOf sb s dir)
    exact h.put hd hk hv0 hv1 hput (h.uniq.insert hk hfree hnew inum).1
  · exact h.congr hd hsame

theorem DirInv.remove (hsb : sb.Ok) (h : DirInv sb s dir parent) (ho : Opened s i dir) {k n : Nat}
    (hdot : name.take DIRSIZ ≠ [DOT]) (hdotdot : name.take DIRSIZ ≠ [DOT, DOT])
    (hk : (dirOf sb s dir)[k]? = some (some (name.take DIRSIZ, n)))
    (hrun : removeDirent sb i (DESIZE * k) s = .ok ((), s')) : DirInv sb s' dir parent := by
  have hlt := (List.getElem?_eq_some_iff.mp hk).1
  have hwp := removeDirent_wp (X := fun _ => True) hsb h.isDir ho hlt (.any s _ _)
  obtain ⟨⟨hd, _⟩, hput⟩ := hwp.ok hrun
  refine h.put hd hlt.le ?_ ?_ hput (h.uniq.delete hk).1
  · rintro rfl
    rw [h.dot] at hk
    exact hdot (congrArg Prod.fst (Option.some.inj (Option.some.inj hk))).symm
  · rintro rfl
    rw [h.dotdot] at hk
    exact hdotdot (congrArg Prod.fst (Option.some.inj (Option.some.inj hk))).symm

theorem DirInv.mkdir (hsb : sb.Ok) {s₀ s1 : State} (h : IsDir sb s₀ dir) (ho : Opened s₀ i dir)
    (hnew : (diskInode sb s₀.data dir).size = 0) (hdir : dir < 2 ^ 16) (hp : parent ≠ 0)
    (hparent : parent < 2 ^ 16) (hdot : dirlink sb i [DOT] dir s₀ = .ok (0, s1))
    (hdotdot : dirlink sb i [DOT, DOT] parent s1 = .ok (0, s)) : DirInv sb s dir parent := by
  have hempty : dirOf sb s₀ dir = [] := by
    apply eq_nil_of_length_eq_zero
    rw [length_dirOf, hnew]
    rfl
  have hpos := h.live.1
  obtain ⟨⟨hd1, ho1⟩, ⟨_, _, hput⟩ | ⟨hr, _⟩⟩ :=
    (dirlink_post hsb h ho (by decide) (by omega) hdir).ok hdot
  · rw [hempty] at hput
    have hone : dirOf sb s1 dir = [some ([DOT], dir)] := hput
    obtain ⟨⟨hd, _⟩, ⟨_, _, hput1⟩ | ⟨hr, _⟩⟩ :=
      (dirlink_post hsb hd1 ho1 (by decide) hp hparent).ok hdotdot
    · rw [hone] at hput1
      have htwo : dirOf sb s dir = [some ([DOT], dir), some ([DOT, DOT], parent)] := hput1
      refine ⟨hd, ?_, ?_, ?_⟩
      · rw [htwo]
        have hkeys : ([([DOT], dir), ([DOT, DOT], parent)].map Prod.fst).Nodup :=
          (by decide : ([[DOT], [DOT, DOT]] : List Name).Nodup)
        exact SlotMap.Uniq.of_nodup hkeys 0
      · rw [htwo]
        rfl
      · rw [htwo]
        rfl
    · exact absurd hr (by decide)
  · exact absurd hr (by decide)

theorem dirSlots_append {a : List UInt8} (ha : a.length % DESIZE = 0) (b : List UInt8) :
    dirSlots (a ++ b) = dirSlots a ++ dirSlots b := by
  have hlen : (a ++ b).length / DESIZE = a.length / DESIZE + b.length / DESIZE := by
    rw [length_append]
    simp only [DESIZE] at *
    omega
  have hbyte : ∀ c, Bytes.ofList (a ++ b) c =
      if c < a.length then Bytes.ofList a c else Bytes.ofList b (c - a.length) := by
    intro c
    unfold Bytes.ofList
    simp only [getD_eq_getElem?_getD, getElem?_append]
    split_ifs
    · rfl
    · rfl
  apply ext_getElem?
  intro k
  by_cases hk : k < a.length / DESIZE
  · rw [getElem?_append_left (by rw [length_dirSlots]; exact hk), getElem?_dirSlots hk,
      getElem?_dirSlots (by rw [hlen]; exact Nat.lt_add_right _ hk)]
    refine congrArg some (slotAt_congr fun j hj => ?_)
    rw [hbyte, if_pos]
    simp only [DESIZE] at *
    omega
  · rw [getElem?_append_right (by rw [length_dirSlots]; omega), length_dirSlots]
    by_cases hk' : k < a.length / DESIZE + b.length / DESIZE
    · rw [getElem?_dirSlots (by omega), getElem?_dirSlots (by omega)]
      refine congrArg some (slotAt_congr fun j hj => ?_)
      rw [hbyte, if_neg]
      · congr 1
        simp only [DESIZE] at *
        omega
      · simp only [DESIZE] at *
        omega
    · rw [getElem?_eq_none (by rw [length_dirSlots]; omega),
        getElem?_eq_none (by rw [length_dirSlots]; omega)]

theorem dirSlots_zero (n : Nat) :
    dirSlots (List.replicate n 0) = List.replicate (n / DESIZE) none := by
  have hzero : Bytes.ofList (List.replicate n 0) = Bytes.zero := by
    funext a
    unfold Bytes.ofList
    rw [getD_eq_getElem?_getD, getElem?_replicate]
    split_ifs
    · rfl
    · rfl
  unfold dirSlots
  rw [hzero, length_replicate]
  simp [slotAt_zero]

theorem dirSlots_dirents {es : List (Name × Nat)} (h : ∀ e ∈ es, 0 ∉ e.1 ∧ e.2 ≠ 0 ∧ e.2 < 2 ^ 16) :
    (dirents es).length % DESIZE = 0 ∧
      dirSlots (dirents es) = (es.map fun e => (e.1.take DIRSIZ, e.2)).map some := by
  induction es with
  | nil => exact ⟨rfl, rfl⟩
  | cons e es ih =>
    obtain ⟨h1, h2, h3⟩ := h e mem_cons_self
    obtain ⟨hlen, hslots⟩ := ih fun x hx => h x (mem_cons_of_mem _ hx)
    have hcons : dirents (e :: es) = (mkDirent e.1 e.2).slice 0 DESIZE ++ dirents es := rfl
    have hsixteen : ((mkDirent e.1 e.2).slice 0 DESIZE).length = DESIZE := Bytes.length_slice _ _ _
    have hone : dirSlots ((mkDirent e.1 e.2).slice 0 DESIZE) = [some (e.1.take DIRSIZ, e.2)] := by
      unfold dirSlots
      rw [hsixteen, ← slotAt_mkDirent h1 h2 h3]
      refine congrArg (fun x => [x]) (slotAt_congr fun j hj => ?_)
      rw [Nat.mul_zero, Nat.zero_add, ofList_slice hj]
    refine ⟨?_, ?_⟩
    · rw [hcons, length_append, hsixteen]
      simp only [DESIZE] at *
      omega
    · rw [hcons, dirSlots_append (by rw [hsixteen, Nat.mod_self]), hone, hslots]
      rfl

theorem DirInv.mkfs {files : List Name} (h : IsDir sb s ROOTINO) (hf : MkfsFiles files)
    (hfile : fileOf sb s ROOTINO = mkfsRoot files) : DirInv sb s ROOTINO ROOTINO := by
  have hentries : ∀ e ∈ mkfsEntries files, 0 ∉ e.1 ∧ e.2 ≠ 0 ∧ e.2 < 2 ^ 16 := by
    intro e he
    rcases mem_cons.mp he with rfl | he
    · exact ⟨by decide, by decide, by decide⟩
    rcases mem_cons.mp he with rfl | he
    · exact ⟨by decide, by decide, by decide⟩
    · obtain ⟨h1, h2, h3⟩ := mem_zipIdx he
      have hfew := hf.few
      refine ⟨hf.string e.1 ?_, by omega, by omega⟩
      rw [h3]
      exact getElem_mem _
  obtain ⟨hlen, hslots⟩ := dirSlots_dirents hentries
  have hdir : dirOf sb s ROOTINO =
      ((mkfsEntries files).map fun e => (e.1.take DIRSIZ, e.2)).map some ++
        List.replicate ((((dirents (mkfsEntries files)).length / BSIZE + 1) * BSIZE -
          (dirents (mkfsEntries files)).length) / DESIZE) none := by
    unfold dirOf
    rw [hfile, mkfsRoot, dirSlots_append hlen, dirSlots_zero, hslots]
  have hkeys : (((mkfsEntries files).map fun e => (e.1.take DIRSIZ, e.2)).map Prod.fst).Nodup := by
    have hmap : ((mkfsEntries files).map fun e => (e.1.take DIRSIZ, e.2)).map Prod.fst =
        [DOT] :: [DOT, DOT] :: files.map (List.take DIRSIZ) := by
      rw [map_map]
      show [DOT] :: [DOT, DOT] :: (files.zipIdx 2).map (List.take DIRSIZ ∘ Prod.fst) = _
      rw [← map_map, zipIdx_map_fst]
    rw [hmap, nodup_cons, nodup_cons]
    refine ⟨?_, ?_, hf.nodup⟩
    · rw [mem_cons, not_or]
      refine ⟨by decide, fun hmem => ?_⟩
      obtain ⟨f, hf', he⟩ := mem_map.mp hmem
      exact (hf.dot f hf').1 he
    · intro hmem
      obtain ⟨f, hf', he⟩ := mem_map.mp hmem
      exact (hf.dot f hf').2 he
  refine ⟨h, ?_, ?_, ?_⟩
  · rw [hdir]
    exact SlotMap.Uniq.of_nodup hkeys _
  · rw [hdir]
    rfl
  · rw [hdir]
    rfl

/-- **Any sequence of operations.** -/
theorem Reached.inv (hsb : sb.Ok) (h : Reached sb dir parent s) : DirInv sb s dir parent := by
  induction h with
  | mkdir h ho hnew hdir hp hparent hdot hdotdot =>
    exact .mkdir hsb h ho hnew hdir hp hparent hdot hdotdot
  | mkfs hroot hparent h hfiles hfile =>
    subst hroot hparent
    exact .mkfs h hfiles hfile
  | lookup _ ho hname hrun ih => exact (ih.lookup ho hname hrun).1
  | link _ ho hname h0 hlt hrun ih => exact ih.link hsb ho hname h0 hlt hrun
  | remove _ ho hname hdot hdotdot hfound h2 ho₂ hsame hrun ih =>
    obtain ⟨hinv1, hsame1, hoff⟩ := ih.lookup ho hname hfound
    obtain ⟨k, n, rfl, hk⟩ := hoff _ _ rfl
    have hdir := congrArg dirSlots (hsame.trans hsame1)
    have hinv2 := ih.congr h2 hdir
    refine hinv2.remove hsb ho₂ hdot hdotdot (n := n) ?_ hrun
    exact (congrArg (·[k]?) hdir).trans hk
  | elsewhere _ h' hsame ih => exact ih.congr h' (congrArg dirSlots hsame)

/-! ## `sys_unlink` -/

theorem strncmp_literal {name lit : Name} (hname : 0 ∉ name) (hlit : 0 ∉ lit)
    (hlen : lit.length ≤ DIRSIZ) :
    strncmp (Bytes.ofList name) (Bytes.ofList lit) DIRSIZ 0 = 0 ↔ name.take DIRSIZ = lit := by
  rw [strncmp_eq_zero, cstr_ofList hname, cstr_ofList hlit, take_of_length_le hlen]

/-- **`sys_unlink`**, on a name whose inode is allocated, is such a removal if
    it returns, or it leaves the directory as it is. -/
theorem unlinkEntry_reached (hsb : sb.Ok) (h : Reached sb dir parent s) (ho : Opened s i dir)
    (hname : 0 ∉ name) (hlive : ∀ n, SlotMap.get (dirOf sb s dir) (name.take DIRSIZ) = some n →
      Live sb (diskInode sb s.data) n) :
    (unlinkEntry sb i name).post s fun r s' => Reached sb dir parent s' ∧ Opened s' i dir ∧
      SlotMap.get (dirOf sb s' dir) = if r = none then SlotMap.get (dirOf sb s dir) else
        update (SlotMap.get (dirOf sb s dir)) (name.take DIRSIZ) none := by
  have hinv := h.inv hsb
  refine wp_ite (fun _ => wp_pure ⟨h, ho, (if_pos rfl).symm⟩) fun hlit => ?_
  rw [strncmp_literal hname (by decide) (by decide), strncmp_literal hname (by decide) (by decide),
    not_or] at hlit
  refine wp_bind (post_of_forall fun r s1 hfound => ?_)
  have hwp := dirlookup_wp (X := fun _ => True) hinv.isDir ho hname (.inl trivial)
  rcases hwp.ok hfound with ⟨rfl, rfl, _⟩ | ⟨ip, k, n, rfl, hg, hfind⟩
  · exact wp_pure ⟨h, ho, (if_pos rfl).symm⟩
  have hk := SlotMap.getElem?_of_find hfind
  have hln := hlive n (hinv.uniq.get_iff.mpr ⟨k, hk⟩)
  have hc1 := hg.consistent hinv.isDir.con
  have ho1 := hg.opened ho
  have hpos := hg.ref_pos
  -- the inode is locked, and it is not the directory itself
  refine (ilock_post hc1 (by rw [hg.number]; exact hln.2.1)).bind ?_
  rintro _ s2 ⟨hc2, hfree, hs2⟩
  have hne : i ≠ ip := by
    rintro rfl
    rw [ho1.locked] at hfree
    cases hfree
  have hdata : s2.data = s.data := by
    rw [hs2]
    exact hg.data
  have ho₂ : Opened s2 i dir := by
    rw [hs2]
    exact ho1.other hne _
  have hentry := congrFun (congrArg State.itable hs2) ip
  rw [lock_self] at hentry
  have hopen : Opened s2 ip n :=
    ⟨by rw [hentry]; exact hg.number, by rw [hentry]; exact hpos, by rw [hentry], by rw [hentry]⟩
  obtain ⟨hd2, hsame2⟩ := hinv.isDir.of_data hc2 hdata
  have hremove : (do removeDirent sb i (DESIZE * k); pure (some ip)).post s2 fun r s' =>
      Reached sb dir parent s' ∧ Opened s' i dir ∧ SlotMap.get (dirOf sb s' dir) =
        if r = none then SlotMap.get (dirOf sb s dir) else
          update (SlotMap.get (dirOf sb s dir)) (name.take DIRSIZ) none := by
    refine wp_bind (post_of_forall fun _ s3 hrun => wp_pure ?_)
    have hlt : k < (dirOf sb s2 dir).length := by
      rw [hsame2]
      exact (List.getElem?_eq_some_iff.mp hk).1
    have hrem := removeDirent_wp (X := fun _ => True) hsb hd2 ho₂ hlt (.any s2 _ _)
    obtain ⟨⟨_, ho3⟩, hput⟩ := hrem.ok hrun
    refine ⟨.remove h ho hname hlit.1 hlit.2 hfound hd2 ho₂ ?_ hrun, ho3, ?_⟩
    · unfold fileOf
      rw [hdata, hg.data]
    · rw [if_neg nofun, hput, hsame2]
      exact (hinv.uniq.delete hk).2
  refine wp_bind (wp_reads (wp_ite (fun _ => wp_panic trivial) fun hlinks => ?_))
  refine wp_ite (fun _ => ?_) fun _ => hremove
  refine (isdirempty_quiet hc2 hopen (by rw [hdata]; exact hln)).bind fun empty s3 hs3 => ?_
  subst hs3
  refine wp_ite (fun _ => ?_) fun _ => hremove
  -- a directory that is not empty is let go
  have hnlink : (s3.itable ip).din.nlink ≠ 0 := by
    intro h0
    rw [h0] at hlinks
    exact hlinks (by decide)
  have hunlock := iunlock_ok hopen.locked (show 1 ≤ (s3.itable ip).ref from hopen.ref)
  have hc4 : Consistent sb (s3.setInode ip { s3.itable ip with locked := false }) :=
    hc2.touch hopen.ref rfl rfl (hc2.nonneg ip) (hc2.coherent ip hopen.ref)
  have ho4 := ho₂.other hne { s3.itable ip with locked := false }
  have hentry4 := setInode_self s3 ip { s3.itable ip with locked := false }
  have hdata4 : (s3.setInode ip { s3.itable ip with locked := false }).data = s3.data := rfl
  generalize s3.setInode ip { s3.itable ip with locked := false } = s4 at *
  have hpos4 : 0 < (s4.itable ip).ref := by
    rw [hentry4]
    exact hopen.ref
  have hput : iput sb ip s4 =
      .ok ((), s4.setInode ip { s4.itable ip with ref := (s4.itable ip).ref - 1 }) := by
    refine iput_keeps fun hbad => hnlink ?_
    rw [hentry4] at hbad
    exact hbad.2.2
  have hc5 : Consistent sb (s4.setInode ip { s4.itable ip with ref := (s4.itable ip).ref - 1 }) :=
    hc4.touch hpos4 rfl rfl (show 0 ≤ (s4.itable ip).ref - 1 by omega) (hc4.coherent ip hpos4)
  refine wp_bind (wp_bind (wp_of_ok hunlock (wp_of_ok hput (wp_pure ?_))))
  obtain ⟨hd5, hsame5⟩ := hd2.of_data hc5 hdata4
  refine ⟨.elsewhere h hd5 ?_, ho4.other hne _, ?_⟩
  · show contents (diskInode sb s4.data dir) s4.data = fileOf sb s dir
    unfold fileOf
    rw [hdata4, hdata]
  · rw [if_pos rfl, hsame5, hsame2]

/-! ## The map -/

/-- The slots from the third on are free if only `.` and `..` are bound. -/
theorem DirInv.empty_iff (h : DirInv sb s dir parent) :
    ((dirOf sb s dir).drop 2).all Option.isNone = true ↔
      ∀ name inum, SlotMap.get (dirOf sb s dir) name = some inum →
        name = [DOT] ∨ name = [DOT, DOT] := by
  rw [all_eq_true]
  constructor
  · intro hfree name inum hget
    obtain ⟨k, hk⟩ := h.uniq.get_iff.mp hget
    match k, hk with
    | 0, hk =>
      rw [h.dot] at hk
      cases hk
      exact .inl rfl
    | 1, hk =>
      rw [h.dotdot] at hk
      cases hk
      exact .inr rfl
    | k + 2, hk =>
      have hmem : some (name, inum) ∈ (dirOf sb s dir).drop 2 := by
        apply mem_of_getElem? (i := k)
        rw [getElem?_drop, Nat.add_comm]
        exact hk
      cases hfree _ hmem
  · intro hbound e he
    cases e with
    | none => rfl
    | some p =>
      obtain ⟨name, inum⟩ := p
      obtain ⟨k, hk⟩ := mem_iff_getElem?.mp he
      rw [getElem?_drop] at hk
      rcases hbound name inum (h.uniq.get_iff.mpr ⟨_, hk⟩) with rfl | rfl
      · have := h.uniq _ _ _ _ _ h.dot hk
        omega
      · have := h.uniq _ _ _ _ _ h.dotdot hk
        omega

/-- The running transaction has room for a write of slot `k`, if there can be
    such a slot. -/
def RoomForSlot (sb : Superblock) (s : State) (dir k : Nat) : Prop :=
  DESIZE * k + DESIZE ≤ MAXFILE * BSIZE →
    RoomFor sb s (diskInode sb s.data dir) {DESIZE * k / BSIZE}

/-- **A directory is a finite map** on names cut off after `DIRSIZ` bytes. -/
theorem directory_is_map (hsb : sb.Ok) (h : Reached sb dir parent s) :
    (SlotMap.Uniq (dirOf sb s dir) ∧ (dirOf sb s dir)[0]? = some (some ([DOT], dir)) ∧
      (dirOf sb s dir)[1]? = some (some ([DOT, DOT], parent))) ∧
    ∀ i, Opened s i dir →
    (∀ name : Name, 0 ∉ name →
      (∀ n, SlotMap.get (dirOf sb s dir) (name.take DIRSIZ) = some n → Gettable s n) →
      ∃ r s', dirlookup sb i name s = .ok (r, s') ∧ dirOf sb s' dir = dirOf sb s dir ∧
        ∀ off inum, (∃ ip, r = some (ip, off) ∧ (s'.itable ip).inum = inum) ↔
          SlotMap.get (dirOf sb s dir) (name.take DIRSIZ) = some inum ∧
            ∃ k, (dirOf sb s dir)[k]? = some (some (name.take DIRSIZ, inum)) ∧ off = DESIZE * k) ∧
    (∀ (name : Name) (inum : Nat), 0 ∉ name → 1 ≤ inum → inum ≤ 65535 →
      (∀ n, SlotMap.get (dirOf sb s dir) (name.take DIRSIZ) = some n → Gettable s n) →
      (SlotMap.get (dirOf sb s dir) (name.take DIRSIZ) = none →
        RoomForSlot sb s dir (SlotMap.vacant (dirOf sb s dir))) →
      ∃ r s', dirlink sb i name inum s = .ok (r, s') ∧ (r = 0 ∨ r = -1) ∧
        (r = 0 ↔ SlotMap.get (dirOf sb s dir) (name.take DIRSIZ) = none ∧ Available sb s dir) ∧
        SlotMap.get (dirOf sb s' dir) = if r = 0 then
          update (SlotMap.get (dirOf sb s dir)) (name.take DIRSIZ) (some inum)
          else SlotMap.get (dirOf sb s dir)) ∧
    (∀ (name : Name) (k inum : Nat),
      (dirOf sb s dir)[k]? = some (some (name.take DIRSIZ, inum)) →
      RoomForSlot sb s dir k →
      ∃ s', removeDirent sb i (DESIZE * k) s = .ok ((), s') ∧
        SlotMap.get (dirOf sb s' dir) =
          update (SlotMap.get (dirOf sb s dir)) (name.take DIRSIZ) none) ∧
    ∃ r, isdirempty sb i s = .ok (r, s) ∧
      (r = true ↔ ∀ name inum, SlotMap.get (dirOf sb s dir) name = some inum →
        name = [DOT] ∨ name = [DOT, DOT]) := by
  have hinv := h.inv hsb
  refine ⟨⟨hinv.uniq, hinv.dot, hinv.dotdot⟩, fun i ho => ⟨?_, ?_, ?_, ?_⟩⟩
  · intro name hname hget
    obtain ⟨r, s', hrun, hr⟩ := (dirlookup_wp hinv.isDir ho hname (.inr hget)).returns
    rcases hr with ⟨rfl, rfl, hnone⟩ | ⟨ip, k, n, rfl, hg, hfind⟩
    · refine ⟨none, s', hrun, rfl, fun off inum => iff_of_false ?_ ?_⟩
      · rintro ⟨_, hr, _⟩
        cases hr
      · rintro ⟨hbound, _⟩
        unfold SlotMap.get at hbound
        rw [hnone] at hbound
        cases hbound
    · have hk := SlotMap.getElem?_of_find hfind
      have hn : SlotMap.get (dirOf sb s dir) (name.take DIRSIZ) = some n :=
        hinv.uniq.get_iff.mpr ⟨k, hk⟩
      refine ⟨_, s', hrun, (hinv.isDir.of_data (hg.consistent hinv.isDir.con) hg.data).2,
        fun off inum => ⟨?_, ?_⟩⟩
      · rintro ⟨_, ⟨⟩, rfl⟩
        rw [hg.number]
        exact ⟨hn, k, hk, rfl⟩
      · rintro ⟨hbound, k', hk', rfl⟩
        rw [hn] at hbound
        cases hbound
        rw [hinv.uniq _ _ _ _ _ hk' hk]
        exact ⟨ip, rfl, hg.number⟩
  · intro name inum hname h1 hle hget hroom
    have hwp : (dirlink sb i name inum).wp s _ fun _ => False :=
      dirlink_wp hsb hinv.isDir ho hname (by omega) (by omega) (.inr hget)
        fun hnew hlen => (hroom hnew hlen).canLog
    obtain ⟨r, s', hrun, _, hr⟩ := hwp.returns
    rcases hr with ⟨rfl, hav, hput⟩ | ⟨rfl, hav, hsame⟩
    · refine ⟨0, s', hrun, .inl rfl, iff_of_true rfl hav, ?_⟩
      rw [if_pos rfl, hput]
      exact (hinv.uniq.insert (SlotMap.vacant_le _) hinv.vacant_free.1 hav.1 inum).2
    · refine ⟨-1, s', hrun, .inr rfl, iff_of_false (by decide) hav, ?_⟩
      rw [if_neg (by decide), hsame]
  · intro name k inum hk hroom
    obtain ⟨_, s', hrun, _, hput⟩ := (removeDirent_wp hsb hinv.isDir ho
      (List.getElem?_eq_some_iff.mp hk).1 fun hlen => (hroom hlen).canLog).returns
    refine ⟨s', hrun, ?_⟩
    rw [hput]
    exact (hinv.uniq.delete hk).2
  · refine ⟨_, isdirempty_eq hinv.isDir ho, hinv.empty_iff⟩

end Map

/-! ## A new directory on a small disk -/

namespace EmptyDir

/-- Sixty inodes and three data blocks. -/
def sb : Superblock where
  magic := FSMAGIC
  size := 40
  nblocks := 3
  ninodes := 60
  nlog := 30
  logstart := 2
  inodestart := 32
  bmapstart := 36

/-- Every inode is in use; 1 and 2 are directories, and none has a block yet. -/
def inodes (b : Nat) : Bytes := fun a =>
  if a % 64 = 0 then if b = 32 ∧ (a = 64 ∨ a = 128) then 1 else 2
  else if a % 64 = 6 then 1 else 0

def data (b : Nat) : Bytes :=
  if 32 ≤ b ∧ b < 36 then inodes b
  else if b = 36 then fun a => if a < 4 then 255 else if a = 4 then 31 else 0
  else Bytes.zero

/-- The inodes 2 and 3 are in the table, and the first one is locked. -/
def state : State where
  data := data
  home := data
  lh := []
  outstanding := 1
  itable := fun j => {
    dev := ROOTDEV
    inum := j + 2
    ref := if (j : Nat) < 2 then 1 else 0
    locked := decide (j = 0)
    valid := decide (j = 0)
    din := diskInode sb data 2 }

theorem sb_ok : sb.Ok where
  small := by decide
  boot := by decide
  inodes := by decide
  bitmap := by decide
  apart := by decide

theorem inode_empty : ∀ j < 60, (diskInode sb data j).size = 0 ∧
    ∀ k, (diskInode sb data j).addrs k = 0 := by decide +kernel

theorem owned : Owned sb data (diskInode sb data) := by
  have hbit : ∀ b < 40, bitOf sb data b = decide (b < 37) := by decide
  have hrefs : ∀ p, refsOf sb data (diskInode sb data) p = 0 := by
    rintro ⟨j, x⟩
    unfold refsOf
    split_ifs with hl
    · have haddrs := (inode_empty j hl.2.1).2
      cases x with
      | addr k => exact haddrs k
      | entry _ => exact Dinode.ref_entry_of_none (haddrs 12)
    · rfl
  refine ⟨fun p hp => absurd (hrefs p) hp, fun p _ hp => absurd (hrefs p) hp, fun b hb => ?_, nofun⟩
  rw [hbit b hb, decide_eq_true_iff]
  refine ⟨.inl, ?_⟩
  rintro (h | ⟨p, hp, _⟩ | h)
  · exact h
  · exact absurd (hrefs p) hp
  · cases h

theorem consistent : Consistent sb state where
  own := owned
  dense := fun j hl bn hbn => by
    have hsize := (inode_empty j hl.2.1).1
    have hbn' : bn * BSIZE < (diskInode sb data j).size := hbn
    omega
  nonneg := fun j => by
    show (0 : Int) ≤ if _ then 1 else 0
    split_ifs
    · exact Int.one_nonneg
    · exact le_refl 0
  uniq := fun a b _ _ _ hn => by
    have hab : (a : Nat) + 2 = b + 2 := hn
    exact Fin.ext (by omega)
  dev := fun _ _ => rfl
  coherent := fun j _ hv _ => by
    have hj : j = 0 := of_decide_eq_true hv
    rw [hj]
    rfl

theorem isDir : IsDir sb state 2 where
  con := consistent
  live := ⟨by decide, by decide, (by decide : (diskInode sb data 2).type ≠ 0)⟩
  type := (by decide : (diskInode sb data 2).type = T_DIR)
  aligned := (by decide : (diskInode sb data 2).size % DESIZE = 0)

theorem opened : Opened state 0 2 where
  number := rfl
  ref := Int.one_pos
  locked := rfl
  valid := rfl

/-- The two calls of `dirlink` in `create`, for the directory 2 in the directory
    1. -/
def mkdir : Sys State (Int × Int) := do
  let r ← dirlink sb 0 [DOT] 2
  let r' ← dirlink sb 0 [DOT, DOT] 1
  pure (r, r')

theorem reached {t : State → Bool}
    (hcheck : mkdir.check state (fun r s => decide (r = (0, 0)) && t s) = true) :
    ∃ s, Reached sb 2 1 s ∧ Opened s 0 2 ∧ t s = true := by
  have hdir := isDir
  have ho := opened
  have hempty : (diskInode sb state.data 2).size = 0 := by decide
  generalize state = s₀ at hcheck hdir ho hempty
  obtain ⟨r, s, hrun, ht⟩ := exists_of_check hcheck
  rw [Bool.and_eq_true, decide_eq_true_iff] at ht
  obtain ⟨rfl, ht⟩ := ht
  obtain ⟨r1, s1, h1, hrest⟩ := bind_eq_ok.mp hrun
  obtain ⟨r2, s2, h2, hpure⟩ := bind_eq_ok.mp hrest
  cases hpure
  obtain ⟨⟨hd1, ho1⟩, _⟩ :=
    (dirlink_post sb_ok hdir ho (by decide) (by decide) (by decide)).ok h1
  obtain ⟨⟨_, ho2⟩, _⟩ := (dirlink_post sb_ok hd1 ho1 (by decide) (by decide) (by decide)).ok h2
  exact ⟨s, .mkdir hdir ho hempty (by decide) (by decide) (by decide) h1 h2, ho2, ht⟩

/-- The file 5 is linked to the new directory. -/
theorem linked {t : State → Bool} (hcheck : mkdir.check state (fun r s => decide (r = (0, 0)) &&
      (dirlink sb 0 [102] 5).check s fun _ s => t s) = true) :
    ∃ s, Reached sb 2 1 s ∧ Opened s 0 2 ∧ t s = true := by
  obtain ⟨s, hs, ho, ht⟩ := reached hcheck
  obtain ⟨_, s', hrun, ht⟩ := exists_of_check ht
  obtain ⟨⟨_, ho'⟩, _⟩ := (dirlink_post sb_ok (hs.inv sb_ok).isDir ho (by decide) (by decide)
    (by decide)).ok hrun
  exact ⟨s', hs.link ho (by decide) (by decide) (by decide) hrun, ho', ht⟩

/-- The same disk with a table in which every entry is in use: the directory has
    one, locked or not, the root has one, and the file 5 has none. -/
def crowded (s : State) (locked : Bool) : State :=
  { s with itable := fun j => {
      dev := ROOTDEV
      inum := if j = 0 then 2 else if j = 1 then 1 else j + 4
      ref := 1
      locked := decide (j = 0) && locked
      valid := decide (j = 0)
      din := diskInode sb s.data 2 } }

theorem crowded_consistent {s : State} (h : Consistent sb s) (locked : Bool) :
    Consistent sb (crowded s locked) where
  own := h.own
  dense := h.dense
  nonneg := fun _ => Int.one_nonneg
  uniq := fun a b _ _ _ hn => by
    have hinj : ∀ a b : Fin NINODE, (if a = 0 then 2 else if a = 1 then 1 else (a : Nat) + 4) =
        (if b = 0 then 2 else if b = 1 then 1 else (b : Nat) + 4) → a = b := by decide +kernel
    exact hinj a b hn
  dev := fun _ _ => rfl
  coherent := fun j _ hv _ => by
    have hj : j = 0 := of_decide_eq_true hv
    rw [hj]
    rfl

/-- The new directory, at a time when the log is `lh` and `n` system calls are
    in a transaction, in which a new name cannot be linked and an entry cannot
    be removed. -/
def Stops (lh : List Nat) (n : Nat) (msg : String) : Prop :=
  ∃ s, Reached sb 2 1 s ∧ Opened s 0 2 ∧ s.lh = lh ∧ s.outstanding = n ∧
    dirlink sb 0 [102] 5 s = .error (.panic msg) ∧
    removeDirent sb 0 (DESIZE * 1) s = .error (.panic msg)

theorem stops {lh : List Nat} {n : Nat} {msg : String} (hcheck : mkdir.check state (fun r s =>
      decide (r = (0, 0)) && decide
        ((dirlink sb 0 [102] 5).stopOf { s with lh := lh, outstanding := n } = some (.panic msg) ∧
          (removeDirent sb 0 (DESIZE * 1)).stopOf { s with lh := lh, outstanding := n } =
            some (.panic msg))) = true) : Stops lh n msg := by
  obtain ⟨s, hs, ho, ht⟩ := reached hcheck
  obtain ⟨h1, h2⟩ := of_decide_eq_true ht
  obtain ⟨hc, hl, htype, ha⟩ := (hs.inv sb_ok).isDir
  refine ⟨{ s with lh := lh, outstanding := n }, .elsewhere hs ⟨?_, hl, htype, ha⟩ rfl,
    ⟨ho.number, ho.ref, ho.locked, ho.valid⟩, rfl, rfl, eq_error_of_stopOf h1,
    eq_error_of_stopOf h2⟩
  exact ⟨hc.own, hc.dense, hc.nonneg, hc.uniq, hc.dev, hc.coherent⟩

end EmptyDir

/-- With every entry of the table in use, `dirlink` of a name that is there does
    not return -1: the inode that the name stands for cannot be got. With a full
    log, or without a transaction, a new name is not linked and an entry is not
    removed. -/
theorem dirlink_panics :
    (∃ s, Reached EmptyDir.sb 2 1 s ∧ Opened s 0 2 ∧
      SlotMap.get (dirOf EmptyDir.sb s 2) ([102].take DIRSIZ) = some 5 ∧
      dirlink EmptyDir.sb 0 [102] 6 s = .error (.panic "iget: no inodes")) ∧
    EmptyDir.Stops (List.range 29) 1 "too big a transaction" ∧
    EmptyDir.Stops [] 0 "log_write outside of trans" := by
  refine ⟨?_, EmptyDir.stops (by decide +kernel), EmptyDir.stops (by decide +kernel)⟩
  obtain ⟨s, hs, _, ht⟩ := EmptyDir.linked (t := fun s => decide
    (SlotMap.get (dirOf EmptyDir.sb s 2) [102] = some 5 ∧
      (dirlink EmptyDir.sb 0 [102] 6).stopOf (EmptyDir.crowded s true) =
        some (.panic "iget: no inodes"))) (by decide +kernel)
  obtain ⟨hget, hstop⟩ := of_decide_eq_true ht
  have hdir := (hs.inv EmptyDir.sb_ok).isDir
  exact ⟨EmptyDir.crowded s true,
    .elsewhere hs (hdir.of_data (EmptyDir.crowded_consistent hdir.con true) rfl).1 rfl,
    ⟨rfl, Int.one_pos, rfl, rfl⟩, hget, eq_error_of_stopOf hstop⟩

/-- With a free entry, and the transaction that made the directory still going
    on, a file is linked to it. -/
theorem directory_is_map_file : ∃ s s', Reached EmptyDir.sb 2 1 s ∧
    dirlink EmptyDir.sb 0 [102] 5 s = .ok (0, s') ∧ SlotMap.get (dirOf EmptyDir.sb s' 2) =
      update (SlotMap.get (dirOf EmptyDir.sb s 2)) [102] (some 5) := by
  obtain ⟨s, hs, ho, ht⟩ := EmptyDir.reached
    (t := fun s => decide (SlotMap.vacant (dirOf EmptyDir.sb s 2) = 2 ∧
      RoomFor EmptyDir.sb s (diskInode EmptyDir.sb s.data 2) {DESIZE * 2 / BSIZE} ∧
      (diskInode EmptyDir.sb s.data 2).size = 32 ∧
      SlotMap.get (dirOf EmptyDir.sb s 2) ([102].take DIRSIZ) = none)) (by decide +kernel)
  obtain ⟨hvacant, hroom, hsize, hnew⟩ := of_decide_eq_true ht
  have hinv := hs.inv EmptyDir.sb_ok
  have hlen : (dirOf EmptyDir.sb s 2).length = 2 := by
    rw [length_dirOf, hsize]
    rfl
  have hav : Available EmptyDir.sb s 2 := by
    refine .inr ⟨by rw [hlen]; decide, ?_⟩
    rw [hlen, bmapCost_eq_zero]
    · exact Nat.zero_le _
    · exact (hinv.isDir.con.full hinv.isDir.live) 0 (by rw [hsize]; decide)
  obtain ⟨r, s', hrun, _, hiff, hmap⟩ := ((directory_is_map EmptyDir.sb_ok hs).2 0 ho).2.1 [102] 5
    (by decide) (by decide) (by decide) (fun n hn => by rw [hnew] at hn; cases hn)
    fun _ _ => by rw [hvacant]; exact hroom
  have hr := hiff.mpr ⟨hnew, hav⟩
  rw [if_pos hr] at hmap
  rw [hr] at hrun
  exact ⟨s, s', hs, hrun, hmap⟩

open EmptyDir in
/-- The file 5 is linked to a new directory, and unlinked. -/
theorem unlinkEntry_reached_file : ∃ s ip s', Reached sb 2 1 s ∧
    unlinkEntry sb 0 [102] s = .ok (some ip, s') ∧ SlotMap.get (dirOf sb s' 2) [102] = none := by
  obtain ⟨s, hs, ho, ht⟩ := linked (t := fun s => decide
    (SlotMap.get (dirOf sb s 2) [102] = some 5 ∧ (diskInode sb s.data 5).type ≠ 0) &&
      (unlinkEntry sb 0 [102]).check s fun r _ => r.isSome) (by decide +kernel)
  rw [Bool.and_eq_true, decide_eq_true_iff] at ht
  obtain ⟨⟨hget, htype⟩, ht⟩ := ht
  obtain ⟨r, s', hrun, hr⟩ := exists_of_check ht
  obtain ⟨ip, rfl⟩ := Option.isSome_iff_exists.mp hr
  have h := wp.ok (unlinkEntry_reached sb_ok hs ho (by decide) fun n hn => by
    cases hget.symm.trans hn
    exact ⟨by decide, by decide, htype⟩) hrun
  exact ⟨s, ip, s', hs, hrun, by simp [h.2.2]⟩

end Fs
end Xv6
