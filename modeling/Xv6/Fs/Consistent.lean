import Xv6.Fs.ByteArray
import Xv6.Fs.Table

/-!
# A consistent file system

What holds between system calls: the bitmap agrees with the inodes, no file has
a hole, an inode has at most one entry in the table, and a copy of an inode in
the table is the inode on the disk. What the functions that take and drop
references and locks do to such a state, and that a write to an open file keeps
it.
-/

namespace Xv6
namespace Fs

open Function
open Sys

structure Consistent (sb : Superblock) (s : State) : Prop where
  own : Owned sb s.data (diskInode sb s.data)
  dense : Dense sb s.data (diskInode sb s.data)
  nonneg : ∀ j, 0 ≤ (s.itable j).ref
  uniq : Uniq s
  dev : ∀ j, 0 < (s.itable j).ref → (s.itable j).dev = ROOTDEV
  coherent : ∀ j, 0 < (s.itable j).ref → (s.itable j).valid = true →
    (s.itable j).inum < sb.ninodes → (s.itable j).din = diskInode sb s.data (s.itable j).inum

/-- The inode `inum` is in the entry `i`, locked and read in. -/
structure Opened (s : State) (i : Fin NINODE) (inum : Nat) : Prop where
  number : (s.itable i).inum = inum
  ref : 0 < (s.itable i).ref
  locked : (s.itable i).locked = true
  valid : (s.itable i).valid = true

section State

variable {sb : Superblock} {s s' : State} {i j : Fin NINODE} {inum : Nat}

theorem Consistent.full (h : Consistent sb s) (hl : Live sb (diskInode sb s.data) inum) :
    (diskInode sb s.data inum).Full s.data := h.dense inum hl

theorem Consistent.din (h : Consistent sb s) (ho : Opened s i inum) (hn : inum < sb.ninodes) :
    (s.itable i).din = diskInode sb s.data inum := by
  rw [h.coherent i ho.ref ho.valid (by rw [ho.number]; exact hn), ho.number]

/-- A file without holes is not larger than a file can be. -/
theorem Dinode.Full.size_le {d : Dinode} {data : Nat → Bytes} (h : d.Full data) :
    d.size ≤ MAXFILE * BSIZE := by
  by_contra hgt
  obtain ⟨x, hx, _⟩ := Dinode.site_of_block (h MAXFILE (by omega))
  rw [show siteOf MAXFILE = none by decide] at hx
  cases hx

theorem Consistent.setInode (h : Consistent sb s) {ip : Inode} (hnonneg : 0 ≤ ip.ref)
    (hdev : 0 < ip.ref → ip.dev = ROOTDEV)
    (huniq : 0 < ip.ref → ∀ j, j ≠ i → 0 < (s.itable j).ref → (s.itable j).dev = ip.dev →
      (s.itable j).inum ≠ ip.inum)
    (hcoh : 0 < ip.ref → ip.valid = true → ip.inum < sb.ninodes →
      ip.din = diskInode sb s.data ip.inum) : Consistent sb (s.setInode i ip) where
  own := h.own
  dense := h.dense
  nonneg := fun j => by
    rw [setInode_field Inode.ref]
    split_ifs
    · exact hnonneg
    · exact h.nonneg j
  uniq := fun a b ha hb hd hn => by
    by_cases hai : a = i
    · by_cases hbi : b = i
      · rw [hai, hbi]
      · rw [hai, setInode_self] at ha hd hn
        rw [setInode_ne s ip hbi] at hb hd hn
        exact absurd hn.symm (huniq ha b hbi hb hd.symm)
    · rw [setInode_ne s ip hai] at ha hd hn
      by_cases hbi : b = i
      · rw [hbi, setInode_self] at hb hd hn
        exact absurd hn (huniq hb a hai ha hd)
      · rw [setInode_ne s ip hbi] at hb hd hn
        exact h.uniq a b ha hb hd hn
  dev := fun j hj => by
    by_cases hji : j = i
    · rw [hji, setInode_self] at hj ⊢
      exact hdev hj
    · rw [setInode_ne s ip hji] at hj ⊢
      exact h.dev j hj
  coherent := fun j hj hv hn => by
    by_cases hji : j = i
    · rw [hji, setInode_self] at hj hv hn ⊢
      exact hcoh hj hv hn
    · rw [setInode_ne s ip hji] at hj hv hn ⊢
      exact h.coherent j hj hv hn

theorem Consistent.touch (h : Consistent sb s) (hi : 0 < (s.itable i).ref) {ip : Inode}
    (hdev : ip.dev = (s.itable i).dev) (hinum : ip.inum = (s.itable i).inum) (hnonneg : 0 ≤ ip.ref)
    (hcoh : ip.valid = true → ip.inum < sb.ninodes → ip.din = diskInode sb s.data ip.inum) :
    Consistent sb (s.setInode i ip) := by
  refine h.setInode hnonneg (fun _ => hdev.trans (h.dev i hi)) (fun _ j hj hr hd hn => hj ?_)
    fun _ => hcoh
  exact h.uniq j i hr hi (hd.trans hdev) (hn.trans hinum)

theorem Consistent.inodeOf (h : Consistent sb s) (hi : 0 < (s.itable i).ref)
    (hn : (s.itable i).inum < sb.ninodes) :
    Fs.inodeOf sb s i = diskInode sb s.data (s.itable i).inum := by
  unfold Fs.inodeOf
  split_ifs with hv
  · exact h.coherent i hi hv hn
  · rfl

theorem Consistent.lock (h : Consistent sb s) (hi : 0 < (s.itable i).ref) :
    Consistent sb (s.lock i (diskInode sb s.data (s.itable i).inum)) :=
  h.touch hi rfl rfl (h.nonneg i) fun _ _ => rfl

theorem Opened.other (h : Opened s j inum) (hj : j ≠ i) (ip : Inode) :
    Opened (s.setInode i ip) j inum := by
  have he := setInode_ne s ip hj
  exact ⟨by rw [he]; exact h.number, by rw [he]; exact h.ref, by rw [he]; exact h.locked,
    by rw [he]; exact h.valid⟩

/-! ## References -/

/-- The table has an entry for the inode, or a free one. -/
def Gettable (s : State) (inum : Nat) : Prop :=
  (∃ j, 0 < (s.itable j).ref ∧ (s.itable j).dev = ROOTDEV ∧ (s.itable j).inum = inum) ∨
    ∃ j, (s.itable j).ref = 0

theorem iget_panics {e : Stop} (h : iget ROOTDEV inum s = .error e) :
    e = .panic "iget: no inodes" ∧ ¬ Gettable s inum := by
  unfold iget at h
  rw [reads_bind_run] at h
  cases hfind : (List.finRange NINODE).find? fun i =>
      decide ((s.itable i).ref > 0 ∧ (s.itable i).dev = ROOTDEV ∧ (s.itable i).inum = inum) with
  | some i =>
    rw [hfind] at h
    cases h
  | none =>
    cases hfree : (List.finRange NINODE).find? fun i => decide ((s.itable i).ref = 0) with
    | some i =>
      rw [hfind] at h
      dsimp only at h
      rw [hfree] at h
      cases h
    | none =>
      rw [hfind] at h
      dsimp only at h
      rw [hfree] at h
      refine ⟨(Except.error.inj h).symm, ?_⟩
      rintro (⟨j, h1, h2, h3⟩ | ⟨j, h0⟩)
      · exact List.find?_eq_none.mp hfind j (List.mem_finRange j) (decide_eq_true ⟨h1, h2, h3⟩)
      · exact List.find?_eq_none.mp hfree j (List.mem_finRange j) (decide_eq_true h0)

/-- **`iget`**, and when it panics. -/
theorem iget_room {X : Stop → Prop} (hX : X (.panic "iget: no inodes") ∨ Gettable s inum) :
    (iget ROOTDEV inum).wp s (fun i s' => Igot s ROOTDEV inum i s') X := by
  cases hrun : iget ROOTDEV inum s with
  | ok r => exact wp_of_ok hrun ((iget_wp (X := fun _ => True) trivial ROOTDEV inum).ok hrun)
  | error e =>
    obtain ⟨rfl, hno⟩ := iget_panics hrun
    unfold wp
    rw [hrun]
    exact hX.resolve_right hno

theorem Igot.data {dev : Nat} (h : Igot s dev inum i s') : s'.data = s.data := by
  cases h <;> rfl

theorem Igot.number {dev : Nat} (h : Igot s dev inum i s') : (s'.itable i).inum = inum := by
  cases h with
  | found _ _ h3 => rw [setInode_self, ← h3]
  | fresh _ _ => rw [setInode_self]

theorem Igot.ref_pos {dev : Nat} (h : Igot s dev inum i s') : 0 < (s'.itable i).ref := by
  cases h with
  | found h1 _ _ =>
    rw [setInode_self]
    show 0 < (s.itable i).ref + 1
    omega
  | fresh _ _ =>
    rw [setInode_self]
    exact Int.one_pos

theorem Igot.consistent (h : Igot s ROOTDEV inum i s') (hc : Consistent sb s) :
    Consistent sb s' := by
  cases h with
  | found h1 _ _ =>
    exact hc.touch h1 rfl rfl (show 0 ≤ (s.itable i).ref + 1 by omega) (hc.coherent i h1)
  | fresh h1 h2 =>
    refine hc.setInode (show (0 : Int) ≤ 1 by decide) (fun _ => rfl) (fun _ j _ hr hd => ?_)
      fun _ hv _ => ?_
    · exact h2 j hr hd
    · cases hv

theorem Igot.opened {dev n : Nat} (h : Igot s dev inum i s') (ho : Opened s j n) :
    Opened s' j n := by
  cases h with
  | found h1 _ _ =>
    by_cases hj : j = i
    · subst hj
      exact ⟨by rw [setInode_self]; exact ho.number,
        by rw [setInode_self]; show 0 < (s.itable j).ref + 1; omega,
        by rw [setInode_self]; exact ho.locked, by rw [setInode_self]; exact ho.valid⟩
    · exact ho.other hj _
  | fresh h1 h2 =>
    refine ho.other ?_ _
    rintro rfl
    exact absurd ho.ref (by omega)

/-- **`iput`** of a reference that is not the last one to an inode without
    links. -/
theorem iput_keeps (h : ¬ ((s.itable i).ref = 1 ∧ (s.itable i).valid = true ∧
    (s.itable i).din.nlink = 0)) : iput sb i s =
      .ok ((), s.setInode i { s.itable i with ref := (s.itable i).ref - 1 }) := by
  unfold iput
  rw [inode, reads_bind_run, if_neg h]
  rfl

/-- What `iput` gives back just after `iget`. -/
theorem Igot.iput (h : Igot s ROOTDEV inum i s') (hc : Consistent sb s) :
    ∃ s'', iput sb i s' = .ok ((), s'') ∧ Consistent sb s'' ∧ s''.data = s.data ∧
      s''.lh = s.lh ∧ s''.outstanding = s.outstanding ∧ ∀ j n, Opened s j n → Opened s'' j n := by
  have hc' := h.consistent hc
  have hpos := h.ref_pos
  cases h with
  | found h1 _ _ =>
    -- one reference more, one less
    have hback : (s.setInode i { s.itable i with ref := (s.itable i).ref + 1 }).setInode i
        { s.itable i with ref := (s.itable i).ref + 1 - 1 } = s := by
      unfold State.setInode
      rw [update_idem, Int.add_sub_cancel, update_eq_self]
    refine ⟨s, ?_, hc, rfl, rfl, rfl, fun _ _ ho => ho⟩
    rw [iput_keeps, setInode_self, hback]
    rw [setInode_self]
    exact fun hbad => absurd hbad.1 (show (s.itable i).ref + 1 ≠ 1 by omega)
  | fresh h1 h2 =>
    refine ⟨_, iput_keeps fun hbad => ?_, hc'.touch ?_ rfl rfl ?_ fun hv _ => ?_, rfl, rfl, rfl,
      fun j n ho => ?_⟩
    · have := hbad.2.1
      rw [setInode_self] at this
      cases this
    · exact hpos
    · rw [setInode_self]
      exact le_refl (0 : Int)
    · rw [setInode_self] at hv
      cases hv
    · have hj : j ≠ i := by
        rintro rfl
        exact absurd ho.ref (by omega)
      exact (ho.other hj _).other hj _

/-! ## `ialloc` -/

/-- What `ialloc` has done with the inodes below `n`: it has taken the first
    that is free, and changed no other inode and no other block. -/
def Ialloc (sb : Superblock) (s : State) (type n : Nat) : Option (Fin NINODE) → State → Prop
  | none, s' => s' = s ∧ ∀ j, 1 ≤ j → j < n → (diskInode sb s.data j).type ≠ 0
  | some i, s' => ∃ inum m, 1 ≤ inum ∧ inum < n ∧ (diskInode sb s.data inum).type = 0 ∧
      (∀ j, 1 ≤ j → j < inum → (diskInode sb s.data j).type ≠ 0) ∧
      (∀ j, diskInode sb s'.data j = if j = inum then .fresh type else diskInode sb s.data j) ∧
      Igot (s.logBlock (sb.IBLOCK inum) m) ROOTDEV inum i s'

section

variable {X : Stop → Prop} {type : Nat} (ht : type < 2 ^ 16) (hlog : CanLog sb X ∅ s 1)
  (hX : X (.panic "iget: no inodes") ∨ ∃ j, (s.itable j).ref = 0)

include ht hlog hX

theorem iallocLoop_wp (n : Nat) : ∀ inum, 1 ≤ inum →
    (∀ j, 1 ≤ j → j < inum → (diskInode sb s.data j).type ≠ 0) →
    (iallocLoop sb ROOTDEV type n inum).wp s (Ialloc sb s type (inum + n)) X := by
  induction n with
  | zero => exact fun inum _ hused => wp_pure ⟨rfl, hused⟩
  | succ n ih =>
    intro inum h1 hused
    refine wp_bind (wp_reads (wp_ite (fun hfree => ?_) fun htype => ?_))
    · refine (store_wp hlog).bind ?_
      rintro _ _ ⟨rfl, -⟩
      refine wp.bind (iget_room (hX.imp_right fun h => .inr h)) fun i s' hi => wp_pure ?_
      refine ⟨inum, _, h1, by omega, hfree, hused, fun j => ?_, hi⟩
      rw [hi.data]
      exact diskInode_clear ht j
    · rw [← Nat.add_assoc, Nat.add_right_comm]
      refine ih (inum + 1) (by omega) fun j hj hlt => ?_
      obtain hlt | rfl := Nat.lt_succ_iff_lt_or_eq.mp hlt
      · exact hused j hj hlt
      · exact htype

/-- **`ialloc` takes the first free inode**, if there is one. -/
theorem ialloc_exact (hn : 1 ≤ sb.ninodes) :
    (ialloc sb ROOTDEV type).wp s (Ialloc sb s type sb.ninodes) X := by
  have h := iallocLoop_wp ht hlog hX (sb.ninodes - 1) 1 (le_refl 1) fun j h1 h2 => by omega
  rwa [Nat.add_sub_cancel' hn] at h

end

theorem ialloc_exact_sample : ∃ r s',
    ialloc { Sample.sb with ninodes := 8 } ROOTDEV T_FILE Sample.state = .ok (r, s') ∧
      Ialloc { Sample.sb with ninodes := 8 } Sample.state T_FILE 8 r s' :=
  (ialloc_exact (by decide) ⟨.inr (by decide), .inr (by decide)⟩ (.inr ⟨1, by decide⟩)
    (by decide)).returns

/-! ## Locks -/

/-- **`ilock`**, if it returns. -/
theorem ilock_post (hc : Consistent sb s) (hn : (s.itable i).inum < sb.ninodes) :
    (ilock sb i).post s fun _ s' =>
    Consistent sb s' ∧ (s.itable i).locked = false ∧
      s' = s.lock i (diskInode sb s.data (s.itable i).inum) := by
  refine (ilock_wp sb s i).mono ?_ fun _ _ => trivial
  rintro _ _ ⟨⟨hpos, hfree⟩, rfl⟩
  rw [hc.inodeOf hpos hn]
  exact ⟨hc.lock hpos, hfree, rfl⟩

/-! ## Writing to an open file -/

section Write

variable {L : Finset Nat} {src : Ptr} {off n tot p : Nat} {bad : Option Nat} {d' : Dinode}

theorem Opened.setDin (ho : Opened s i inum) (ht : s'.itable = (s.setDin i d').itable) :
    Opened s' i inum := by
  have he : s'.itable i = { s.itable i with din := d' } := by
    rw [ht]
    exact update_self _ _ _
  exact ⟨by rw [he]; exact ho.number, by rw [he]; exact ho.ref, by rw [he]; exact ho.locked,
    by rw [he]; exact ho.valid⟩

/-- **A write to an open file** leaves a consistent state. -/
theorem Wrote.consistent (hc : Consistent sb s) (ho : Opened s i inum)
    (hl : Live sb (diskInode sb s.data) inum)
    (hw : Wrote sb L (diskInode sb s.data) inum (diskInode sb s.data inum) s src off n d' s' tot p
      bad) (ht : s'.itable = (s.setDin i d').itable) :
    Consistent sb s' ∧ diskInode sb s'.data inum = d' ∧ Live sb (diskInode sb s'.data) inum := by
  have hself : diskInode sb s'.data inum = d' := (hw.disk inum hl.2.1).trans (if_pos rfl)
  have hother : ∀ j, j < sb.ninodes → j ≠ inum → diskInode sb s'.data j = diskInode sb s.data j :=
    fun j hj hne => (hw.disk j hj).trans (if_neg hne)
  have hty : d'.type = (diskInode sb s.data inum).type := by rw [hw.fields]
  have hhead : ∀ j, (s'.itable j).head = (s.itable j).head := fun j => by
    rw [ht]
    exact Inode.head_setDin s i j d'
  have hsame : SameTable s s' := ⟨hhead, hw.logs.outstanding⟩
  have hlive : Live sb (diskInode sb s'.data) inum :=
    ⟨hl.1, hl.2.1, by rw [hself, hty]; exact hl.2.2⟩
  refine ⟨⟨?_, fun j hj => ?_, fun j => ?_, fun a b ha hb hd hn => ?_, fun j hj => ?_,
    fun j hj hv hn => ?_⟩, hself, hlive⟩
  · refine hw.own.congr fun j hj => ?_
    by_cases hji : j = inum
    · rw [hji, hself, update_self]
    · rw [hother j hj hji, update_of_ne hji]
  · by_cases hji : j = inum
    · rw [hji, hself]
      exact hw.full (hc.full hl)
    · rw [hother j hj.2.1 hji]
      have hj' : Live sb (diskInode sb s.data) j := by
        refine ⟨hj.1, hj.2.1, ?_⟩
        rw [← hother j hj.2.1 hji]
        exact hj.2.2
      intro bn hbn
      rw [(hw.others j hj' hji).block]
      exact hc.full hj' bn hbn
  · rw [(hsame.fields j).2.2.1]
    exact hc.nonneg j
  · rw [(hsame.fields a).2.2.1] at ha
    rw [(hsame.fields b).2.2.1] at hb
    rw [(hsame.fields a).1, (hsame.fields b).1] at hd
    rw [(hsame.fields a).2.1, (hsame.fields b).2.1] at hn
    exact hc.uniq a b ha hb hd hn
  · rw [(hsame.fields j).2.2.1] at hj
    rw [(hsame.fields j).1]
    exact hc.dev j hj
  · rw [(hsame.fields j).2.2.1] at hj
    rw [(hsame.fields j).2.2.2.2] at hv
    rw [(hsame.fields j).2.1] at hn ⊢
    by_cases hji : j = i
    · subst hji
      rw [ht, setDin_din, ho.number, hself]
    · -- the entries of other inodes
      have hne : (s.itable j).inum ≠ inum := fun hn => hji (hc.uniq j i hj ho.ref
        ((hc.dev j hj).trans (hc.dev i ho.ref).symm) (hn.trans ho.number.symm))
      have hentry : s'.itable j = s.itable j := by
        rw [ht]
        exact update_of_ne hji _ _
      rw [hentry, hc.coherent j hj hv hn, hother _ hn hne]

end Write

end State

end Fs
end Xv6
