import Xv6.Fs.Trunc

/-!
# References to inodes and locks on them

What the functions of `fs.c` do to the table of inodes, whatever is on the disk.
Those that work on blocks leave the table alone but for the copies of disk
inodes (`SameTable`). A system call starts in a state `s₀`; `Holding s₀ s own L`
says that since then it has taken the references `own`, each with the number of
its inode, and the locks `L`, and has changed nothing else that others rely on.
-/

namespace Xv6
namespace Fs

open Function List
open Sys

/-! ## Functions that do not touch the table -/

/-- The entry without the copy of the disk inode. -/
def Inode.head (ip : Inode) : Inode := { ip with din := .fresh 0 }

/-- Nothing has happened to the table, but for the copies of disk inodes. -/
def SameTable (s s' : State) : Prop :=
  (∀ j, (s'.itable j).head = (s.itable j).head) ∧ s'.outstanding = s.outstanding

instance : IsPreorder State SameTable where
  refl _ := ⟨fun _ => rfl, rfl⟩
  trans _ _ _ h h' := ⟨fun j => (h'.1 j).trans (h.1 j), h'.2.trans h.2⟩

theorem SameTable.of_eq {s s' : State} (h : s'.itable = s.itable)
    (ho : s'.outstanding = s.outstanding) : SameTable s s' := ⟨fun j => by rw [h], ho⟩

theorem Inode.head_setDin (s : State) (i j : Fin NINODE) (d : Dinode) :
    ((s.setDin i d).itable j).head = (s.itable j).head := by
  show (update s.itable i _ j).head = _
  by_cases hj : j = i
  · subst hj
    rw [update_self]
    rfl
  · rw [update_of_ne hj]

section Same

variable (sb : Superblock)

theorem bread_same (b : Nat) : Within SameTable (bread b) := .reads _

theorem bstore_same (b : Nat) (m : Bytes) : Within SameTable (bstore b m) :=
  .modify fun _ => .of_eq rfl rfl

theorem inode_same (i : Fin NINODE) : Within SameTable (inode i) := .reads _

theorem setDin_same (i : Fin NINODE) (d : Dinode) : Within SameTable (setDin i d) :=
  .modify fun s => ⟨fun j => Inode.head_setDin s i j d, rfl⟩

theorem hang_same {α : Type} : Within SameTable (Sys.hang : Sys State α) := nofun

theorem logWrite_same (b : Nat) : Within SameTable (logWrite sb b) := by
  intro s a s' h
  unfold logWrite at h
  split_ifs at h
  cases h
  exact .of_eq rfl rfl

theorem bzero_same (b : Nat) : Within SameTable (bzero sb b) :=
  (bread_same b).bind fun _ => (bstore_same b _).bind fun _ => logWrite_same sb b

theorem ballocLoop_same (fuel b : Nat) : Within SameTable (ballocLoop sb fuel b) := by
  induction fuel generalizing b with
  | zero => exact hang_same
  | succ fuel ih =>
    unfold ballocLoop
    refine .ite ((bread_same _).bind fun m => ?_) (.pure _)
    cases freeBit m b sb.size BPB 0 with
    | none => exact ih _
    | some bi =>
      exact (bstore_same _ _).bind fun _ => (logWrite_same sb _).bind fun _ =>
        (bzero_same sb _).bind fun _ => .pure _

theorem balloc_same : Within SameTable (balloc sb) := ballocLoop_same sb _ _

theorem bfree_same (b : Nat) : Within SameTable (bfree sb b) :=
  (bread_same _).bind fun _ => .ite (.panic _)
    ((bstore_same _ _).bind fun _ => logWrite_same sb _)

theorem iupdate_same (i : Fin NINODE) : Within SameTable (iupdate sb i) :=
  (inode_same i).bind fun _ => (bread_same _).bind fun _ =>
    (bstore_same _ _).bind fun _ => logWrite_same sb _

theorem itruncDirect_same (i : Fin NINODE) (ks : List (Fin 13)) :
    Within SameTable (itruncDirect sb i ks) := by
  induction ks with
  | nil => exact .pure _
  | cons k ks ih =>
    exact (inode_same i).bind fun _ => .ite
      ((bfree_same sb _).bind fun _ => (setDin_same i _).bind fun _ => ih) ih

theorem itruncEntries_same (addr n j : Nat) : Within SameTable (itruncEntries sb addr n j) := by
  induction n generalizing j with
  | zero => exact .pure _
  | succ n ih =>
    exact (bread_same _).bind fun _ => .ite ((bfree_same sb _).bind fun _ => ih _) (ih _)

theorem itruncDone_same (i : Fin NINODE) : Within SameTable (itruncDone sb i) :=
  (inode_same i).bind fun _ => (setDin_same i _).bind fun _ => iupdate_same sb i

theorem itrunc_same (i : Fin NINODE) : Within SameTable (itrunc sb i) :=
  (itruncDirect_same sb i _).bind fun _ => (inode_same i).bind fun _ => .ite
    ((itruncEntries_same sb _ _ _).bind fun _ => (bfree_same sb _).bind fun _ =>
      (setDin_same i _).bind fun _ => itruncDone_same sb i) (itruncDone_same sb i)

theorem bmapEntry_same (addr bn : Nat) : Within SameTable (bmapEntry sb addr bn) :=
  (bread_same _).bind fun _ => .ite ((balloc_same sb).bind fun _ => .ite
    ((bread_same _).bind fun _ => (bstore_same _ _).bind fun _ =>
      (logWrite_same sb _).bind fun _ => .pure _) (.pure _)) (.pure _)

theorem bmap_same (i : Fin NINODE) (bn : Nat) : Within SameTable (bmap sb i bn) := by
  refine (inode_same i).bind fun ip => ?_
  by_cases h1 : bn < NDIRECT
  · rw [dif_pos h1]
    exact .ite ((balloc_same sb).bind fun _ => .ite (.pure _)
      ((setDin_same i _).bind fun _ => .pure _)) (.pure _)
  · rw [dif_neg h1]
    exact .ite (.ite ((balloc_same sb).bind fun _ => .ite (.pure _)
      ((setDin_same i _).bind fun _ => bmapEntry_same sb _ _)) (bmapEntry_same sb _ _)) (.panic _)

theorem readiLoop_same (i : Fin NINODE) (n fuel tot off : Nat) (dst : Ptr) :
    Within SameTable (readiLoop sb i n fuel tot off dst) := by
  induction fuel generalizing tot off dst with
  | zero => exact hang_same
  | succ fuel ih =>
    unfold readiLoop
    exact .ite ((bmap_same sb i _).bind fun _ => .ite (.pure _)
      ((bread_same _).bind fun _ => .ite (.pure _) (ih _ _ _))) (.pure _)

theorem readi_same (i : Fin NINODE) (dst : Ptr) (off n : Nat) :
    Within SameTable (readi sb i dst off n) :=
  (inode_same i).bind fun _ => .ite (.pure _)
    (.ite (readiLoop_same sb i _ _ _ _ _) (readiLoop_same sb i _ _ _ _ _))

theorem readDirent_same (i : Fin NINODE) (off : Nat) : Within SameTable (readDirent sb i off) := by
  refine (readi_same sb i _ _ _).bind fun r => ?_
  split <;> exact .pure _

end Same

/-! ## What a call holds -/

/-- At most one entry in use for an inode. -/
def Uniq (s : State) : Prop :=
  ∀ i j, 0 < (s.itable i).ref → 0 < (s.itable j).ref → (s.itable i).dev = (s.itable j).dev →
    (s.itable i).inum = (s.itable j).inum → i = j

/-- How many of the references are to the entry. -/
def refsTo (own : List (Fin NINODE × Nat)) (j : Fin NINODE) : Nat := (own.map Prod.fst).count j

structure Holding (s₀ s : State) (own : List (Fin NINODE × Nat)) (L : List (Fin NINODE)) :
    Prop where
  nonneg : ∀ j, 0 ≤ (s₀.itable j).ref
  ref : ∀ j, (s.itable j).ref = (s₀.itable j).ref + refsTo own j
  ident : ∀ j, 0 < (s₀.itable j).ref →
    (s.itable j).dev = (s₀.itable j).dev ∧ (s.itable j).inum = (s₀.itable j).inum
  named : ∀ p ∈ own, (s.itable p.1).inum = p.2
  uniq : Uniq s
  locked : ∀ j, (s.itable j).locked = ((s₀.itable j).locked || decide (j ∈ L))
  free : ∀ j ∈ L, (s₀.itable j).locked = false
  nodup : L.Nodup
  held : ∀ j ∈ L, 0 < (s.itable j).ref ∧ (s.itable j).valid = true
  outstanding : s.outstanding = s₀.outstanding

section Hold

variable {s₀ s s' : State} {own own' : List (Fin NINODE × Nat)} {L L' : List (Fin NINODE)}
variable {i : Fin NINODE} {n : Nat}

theorem refsTo_cons (p : Fin NINODE × Nat) (own : List (Fin NINODE × Nat)) (j : Fin NINODE) :
    refsTo (p :: own) j = refsTo own j + if p.1 = j then 1 else 0 := by
  unfold refsTo
  rw [map_cons, count_cons]
  congr 1
  simp only [beq_iff_eq]

theorem refsTo_pos (h : (i, n) ∈ own) : 0 < refsTo own i :=
  List.count_pos_iff.mpr (mem_map.mpr ⟨(i, n), h, rfl⟩)

theorem SameTable.fields (h : SameTable s s') (j : Fin NINODE) :
    (s'.itable j).dev = (s.itable j).dev ∧ (s'.itable j).inum = (s.itable j).inum ∧
      (s'.itable j).ref = (s.itable j).ref ∧ (s'.itable j).locked = (s.itable j).locked ∧
      (s'.itable j).valid = (s.itable j).valid := by
  have hj := h.1 j
  exact ⟨(congrArg Inode.dev hj :), (congrArg Inode.inum hj :), (congrArg Inode.ref hj :),
    (congrArg Inode.locked hj :), (congrArg Inode.valid hj :)⟩

namespace Holding

theorem start (hn : ∀ j, 0 ≤ (s.itable j).ref) (hu : Uniq s) : Holding s s [] [] where
  nonneg := hn
  ref := fun j => by
    show (s.itable j).ref = (s.itable j).ref + ((0 : Nat) : Int)
    omega
  ident := fun _ _ => ⟨rfl, rfl⟩
  named := nofun
  uniq := hu
  locked := fun j => by simp
  free := nofun
  nodup := .nil
  held := nofun
  outstanding := rfl

theorem perm (h : Holding s₀ s own L) (ho : own.Perm own') (hl : L.Perm L') :
    Holding s₀ s own' L' where
  nonneg := h.nonneg
  ref := fun j => by
    rw [h.ref j]
    unfold refsTo
    rw [(ho.map Prod.fst).count_eq]
  ident := h.ident
  named := fun p hp => h.named p (ho.mem_iff.mpr hp)
  uniq := h.uniq
  locked := fun j => by
    rw [h.locked j]
    simp only [hl.mem_iff]
  free := fun j hj => h.free j (hl.mem_iff.mpr hj)
  nodup := hl.nodup_iff.mp h.nodup
  held := fun j hj => h.held j (hl.mem_iff.mpr hj)
  outstanding := h.outstanding

/-- No entry has changed its inode, and none has come into use. -/
theorem change (h : Holding s₀ s own L)
    (hid : ∀ j, (s'.itable j).dev = (s.itable j).dev ∧ (s'.itable j).inum = (s.itable j).inum)
    (href : ∀ j, (s'.itable j).ref = (s₀.itable j).ref + refsTo own' j)
    (hpos : ∀ j, 0 < (s'.itable j).ref → 0 < (s.itable j).ref)
    (hown : ∀ p ∈ own', (s.itable p.1).inum = p.2)
    (hlocked : ∀ j, (s'.itable j).locked = ((s₀.itable j).locked || decide (j ∈ L')))
    (hfree : ∀ j ∈ L', (s₀.itable j).locked = false) (hnodup : L'.Nodup)
    (hheld : ∀ j ∈ L', 0 < (s'.itable j).ref ∧ (s'.itable j).valid = true)
    (ho : s'.outstanding = s.outstanding) : Holding s₀ s' own' L' where
  nonneg := h.nonneg
  ref := href
  ident := fun j hj => ⟨(hid j).1.trans (h.ident j hj).1, (hid j).2.trans (h.ident j hj).2⟩
  named := fun p hp => (hid p.1).2.trans (hown p hp)
  uniq := fun a b ha hb hd hn => by
    rw [(hid a).1, (hid b).1] at hd
    rw [(hid a).2, (hid b).2] at hn
    exact h.uniq a b (hpos a ha) (hpos b hb) hd hn
  locked := hlocked
  free := hfree
  nodup := hnodup
  held := hheld
  outstanding := ho.trans h.outstanding

theorem same (h : Holding s₀ s own L) (hs : SameTable s s') : Holding s₀ s' own L := by
  refine h.change (fun j => ⟨(hs.fields j).1, (hs.fields j).2.1⟩)
    (fun j => (hs.fields j).2.2.1.trans (h.ref j)) (fun j hj => ?_) h.named
    (fun j => (hs.fields j).2.2.2.1.trans (h.locked j)) h.free h.nodup (fun j hj => ?_) hs.2
  · rw [(hs.fields j).2.2.1] at hj
    exact hj
  · rw [(hs.fields j).2.2.1, (hs.fields j).2.2.2.2]
    exact h.held j hj

theorem pos (h : Holding s₀ s own L) (hi : (i, n) ∈ own) : 0 < (s.itable i).ref := by
  have h1 := h.ref i
  have h2 := h.nonneg i
  have h3 := refsTo_pos hi
  omega

end Holding

/-! ## Taking and dropping a reference -/

/-- What `iget` has done: a reference more to the entry of the inode, which is
    new if there was none. -/
inductive Igot (s : State) (dev inum : Nat) (i : Fin NINODE) : State → Prop
  | found : 0 < (s.itable i).ref → (s.itable i).dev = dev → (s.itable i).inum = inum →
      Igot s dev inum i (s.setInode i { s.itable i with ref := (s.itable i).ref + 1 })
  | fresh : (s.itable i).ref = 0 →
      (∀ j, 0 < (s.itable j).ref → (s.itable j).dev = dev → (s.itable j).inum ≠ inum) →
      Igot s dev inum i (s.setInode i { s.itable i with dev, inum, ref := 1, valid := false })

theorem iget_wp {X : Stop → Prop} (hX : X (.panic "iget: no inodes")) (dev inum : Nat) :
    (iget dev inum).wp s (fun i s' => Igot s dev inum i s') X := by
  unfold iget
  apply wp_bind
  apply wp_reads
  cases hfind : (List.finRange NINODE).find? fun i =>
      decide ((s.itable i).ref > 0 ∧ (s.itable i).dev = dev ∧ (s.itable i).inum = inum) with
  | some i =>
    have hi := find?_some hfind
    obtain ⟨h1, h2, h3⟩ := of_decide_eq_true hi
    exact .found h1 h2 h3
  | none =>
    have hno : ∀ j, 0 < (s.itable j).ref → (s.itable j).dev = dev → (s.itable j).inum ≠ inum := by
      intro j h1 h2 h3
      have := find?_eq_none.mp hfind j (mem_finRange j)
      exact this (decide_eq_true ⟨h1, h2, h3⟩)
    cases hfree : (List.finRange NINODE).find? fun i => decide ((s.itable i).ref = 0) with
    | none => exact hX
    | some i =>
      have hi := find?_some hfree
      exact .fresh (of_decide_eq_true hi) hno

theorem setInode_self (s : State) (i : Fin NINODE) (ip : Inode) :
    (s.setInode i ip).itable i = ip := update_self _ _ _

theorem setInode_ne (s : State) {i j : Fin NINODE} (ip : Inode) (h : j ≠ i) :
    (s.setInode i ip).itable j = s.itable j := update_of_ne h _ _

theorem setInode_field {α : Type} (f : Inode → α) (s : State) (i j : Fin NINODE) (ip : Inode) :
    f ((s.setInode i ip).itable j) = if j = i then f ip else f (s.itable j) := by
  by_cases hj : j = i
  · rw [hj, setInode_self, if_pos rfl]
  · rw [setInode_ne s ip hj, if_neg hj]

theorem setInode_same {α : Type} {f : Inode → α} {s : State} {i : Fin NINODE} {ip : Inode}
    (h : f ip = f (s.itable i)) (j : Fin NINODE) :
    f ((s.setInode i ip).itable j) = f (s.itable j) := by
  rw [setInode_field f]
  split_ifs with hj
  · rw [hj, h]
  · rfl

theorem setInode_ident {s : State} {i : Fin NINODE} {ip : Inode} (hd : ip.dev = (s.itable i).dev)
    (hn : ip.inum = (s.itable i).inum) (j : Fin NINODE) :
    ((s.setInode i ip).itable j).dev = (s.itable j).dev ∧
      ((s.setInode i ip).itable j).inum = (s.itable j).inum :=
  ⟨setInode_same (f := Inode.dev) hd j, setInode_same (f := Inode.inum) hn j⟩

theorem Holding.more (h : Holding s₀ s own L) (hi : 0 < (s.itable i).ref)
    (hn : (s.itable i).inum = n) :
    Holding s₀ (s.setInode i { s.itable i with ref := (s.itable i).ref + 1 }) ((i, n) :: own)
      L := by
  have href := setInode_field Inode.ref s i
  refine h.change (setInode_ident rfl rfl) (fun j => ?_)
    (fun j hj => ?_) (fun p hp => ?_) (fun j => ?_) h.free h.nodup (fun j hj => ⟨?_, ?_⟩) rfl
  · rw [href, refsTo_cons]
    by_cases hj : j = i
    · subst hj
      rw [if_pos rfl, if_pos rfl]
      have := h.ref j
      push_cast
      omega
    · rw [if_neg hj, if_neg (Ne.symm hj), Nat.add_zero]
      exact h.ref j
  · rw [href] at hj
    split_ifs at hj with hji
    · exact hji ▸ hi
    · exact hj
  · rcases mem_cons.mp hp with rfl | hp
    · exact hn
    · exact h.named p hp
  · refine Eq.trans (setInode_same (f := Inode.locked) ?_ j) (h.locked j)
    rfl
  · rw [href]
    have := (h.held j hj).1
    split_ifs with hji
    · subst hji
      show 0 < (s.itable j).ref + 1
      omega
    · exact this
  · refine Eq.trans (setInode_same (f := Inode.valid) ?_ j) (h.held j hj).2
    rfl

theorem Holding.fresh (h : Holding s₀ s own L) {dev : Nat} (hi : (s.itable i).ref = 0)
    (hno : ∀ j, 0 < (s.itable j).ref → (s.itable j).dev = dev → (s.itable j).inum ≠ n) :
    Holding s₀ (s.setInode i { s.itable i with dev := dev, inum := n, ref := 1, valid := false })
      ((i, n) :: own) L := by
  have h0 := h.ref i
  have hn0 := h.nonneg i
  have hcnt : refsTo own i = 0 := by omega
  have hbase : (s₀.itable i).ref = 0 := by omega
  have hown : ∀ p ∈ own, p.1 ≠ i := by
    rintro p hp rfl
    have := refsTo_pos hp
    omega
  have hL : ∀ j ∈ L, j ≠ i := by
    rintro j hj rfl
    have := (h.held j hj).1
    omega
  refine ⟨h.nonneg, fun j => ?_, fun j hj => ?_, fun p hp => ?_, fun a b ha hb hd hm => ?_,
    fun j => ?_, h.free, h.nodup, fun j hj => ?_, h.outstanding⟩
  · rw [refsTo_cons]
    by_cases hj : j = i
    · subst hj
      rw [setInode_self, if_pos rfl, hcnt, hbase]
      rfl
    · rw [setInode_ne s _ hj, if_neg (Ne.symm hj), h.ref j, Nat.add_zero]
  · have hne : j ≠ i := by
      rintro rfl
      omega
    rw [setInode_ne s _ hne]
    exact h.ident j hj
  · rcases mem_cons.mp hp with rfl | hp
    · rw [setInode_self]
    · rw [setInode_ne s _ (hown p hp)]
      exact h.named p hp
  · by_cases hai : a = i
    · by_cases hbi : b = i
      · rw [hai, hbi]
      · subst hai
        rw [setInode_ne s _ hbi] at hb hd hm
        rw [setInode_self] at hd hm
        exact absurd hm.symm (hno b hb hd.symm)
    · by_cases hbi : b = i
      · subst hbi
        rw [setInode_ne s _ hai] at ha hd hm
        rw [setInode_self] at hd hm
        exact absurd hm (hno a ha hd)
      · rw [setInode_ne s _ hai] at ha hd hm
        rw [setInode_ne s _ hbi] at hb hd hm
        exact h.uniq a b ha hb hd hm
  · by_cases hj : j = i
    · subst hj
      rw [setInode_self]
      exact h.locked j
    · rw [setInode_ne s _ hj]
      exact h.locked j
  · rw [setInode_ne s _ (hL j hj)]
    exact h.held j hj

theorem Igot.hold {dev : Nat} (hg : Igot s dev n i s') (h : Holding s₀ s own L) :
    Holding s₀ s' ((i, n) :: own) L := by
  cases hg with
  | found h1 _ h3 => exact h.more h1 h3
  | fresh h1 h2 => exact h.fresh h1 h2

theorem Holding.less (h : Holding s₀ s ((i, n) :: own) L) (hL : i ∈ L → ∃ m, (i, m) ∈ own) :
    Holding s₀ (s.setInode i { s.itable i with ref := (s.itable i).ref - 1 }) own L := by
  have href := setInode_field Inode.ref s i
  have hcount : ∀ j, ((s.setInode i { s.itable i with ref := (s.itable i).ref - 1 }).itable j).ref =
      (s₀.itable j).ref + refsTo own j := by
    intro j
    have hj := h.ref j
    rw [refsTo_cons] at hj
    rw [href]
    by_cases hji : j = i
    · subst hji
      rw [if_pos rfl] at hj ⊢
      show (s.itable j).ref - 1 = _
      push_cast at hj
      omega
    · rw [if_neg (Ne.symm hji)] at hj
      rw [if_neg hji]
      exact hj
  refine h.change (setInode_ident rfl rfl) hcount
    (fun j hj => ?_) (fun p hp => h.named p (mem_cons_of_mem _ hp)) (fun j => ?_) h.free
    h.nodup (fun j hj => ⟨?_, ?_⟩) rfl
  · rw [href] at hj
    split_ifs at hj with hji
    · subst hji
      have : 0 < (s.itable j).ref - 1 := hj
      omega
    · exact hj
  · refine Eq.trans (setInode_same (f := Inode.locked) ?_ j) (h.locked j)
    rfl
  · by_cases hji : j = i
    · subst hji
      obtain ⟨m, hm⟩ := hL hj
      have := refsTo_pos hm
      have := h.nonneg j
      rw [hcount]
      omega
    · rw [href, if_neg hji]
      exact (h.held j hj).1
  · refine Eq.trans (setInode_same (f := Inode.valid) ?_ j) (h.held j hj).2
    rfl

/-! ## Taking and releasing a lock -/

theorem Holding.notMem (h : Holding s₀ s own L) (hi : (s.itable i).locked = false) : i ∉ L := by
  intro hmem
  have := h.locked i
  rw [hi, decide_eq_true hmem, Bool.or_true] at this
  cases this

theorem Holding.lock (h : Holding s₀ s own L) (hi : 0 < (s.itable i).ref)
    (hfree : (s.itable i).locked = false) (d : Dinode) :
    Holding s₀ (s.lock i d) own (i :: L) := by
  have href : ∀ j, ((s.lock i d).itable j).ref = (s.itable j).ref :=
    setInode_same (f := Inode.ref) rfl
  unfold State.lock at href ⊢
  refine h.change (setInode_ident rfl rfl) (fun j => ?_)
    (fun j hj => ?_) h.named (fun j => ?_) (fun j hj => ?_)
    (nodup_cons.mpr ⟨h.notMem hfree, h.nodup⟩) (fun j hj => ⟨?_, ?_⟩) rfl
  · rw [href]
    exact h.ref j
  · rw [href] at hj
    exact hj
  · rw [setInode_field Inode.locked]
    by_cases hj : j = i
    · simp [hj]
    · rw [if_neg hj, h.locked j]
      simp [hj]
  · rcases mem_cons.mp hj with rfl | hj
    · have := h.locked j
      rw [hfree] at this
      exact (Bool.or_eq_false_iff.mp this.symm).1
    · exact h.free j hj
  · rw [href]
    rcases mem_cons.mp hj with rfl | hj
    · exact hi
    · exact (h.held j hj).1
  · rw [setInode_field Inode.valid]
    split_ifs with hji
    · rfl
    · exact (h.held j ((mem_cons.mp hj).resolve_left hji)).2

theorem Holding.unlock (h : Holding s₀ s own (i :: L)) (v : Bool) :
    Holding s₀ (s.setInode i { s.itable i with valid := v, locked := false }) own L := by
  have hiL : i ∉ L := (nodup_cons.mp h.nodup).1
  have href : ∀ j, ((s.setInode i { s.itable i with valid := v, locked := false }).itable j).ref =
      (s.itable j).ref := by
    refine setInode_same (f := Inode.ref) ?_
    rfl
  refine h.change (setInode_ident rfl rfl) (fun j => ?_)
    (fun j hj => ?_) h.named (fun j => ?_) (fun j hj => h.free j (mem_cons_of_mem _ hj))
    (nodup_cons.mp h.nodup).2 (fun j hj => ⟨?_, ?_⟩) rfl
  · rw [href]
    exact h.ref j
  · rw [href] at hj
    exact hj
  · rw [setInode_field Inode.locked]
    by_cases hj : j = i
    · subst hj
      rw [if_pos rfl, h.free j mem_cons_self]
      simp [hiL]
    · rw [if_neg hj, h.locked j]
      simp [hj]
  · rw [href]
    exact (h.held j (mem_cons_of_mem _ hj)).1
  · have hji : j ≠ i := fun e => hiL (e ▸ hj)
    rw [setInode_ne s _ hji]
    exact (h.held j (mem_cons_of_mem _ hj)).2

end Hold

end Fs
end Xv6
