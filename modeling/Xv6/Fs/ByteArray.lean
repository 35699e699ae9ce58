import Xv6.Fs.Room

/-!
# A file is an array of bytes

The contents of a file as a list of bytes, and what `writei`, `readi` and
`filewrite` do to it. One call of `writei` is one transaction's work and needs
room in the log for the blocks that it logs, which `toLog` counts from the inode
and the bitmap: `log_write` panics when the log is full, even for a block that
is in it. `filewrite` cuts a long write into pieces that are sure to fit a log
as large as `begin_op` takes it to be, and the pieces come to the same.
-/

namespace Xv6
namespace Fs

open Function List
open Sys

section Files

variable {sb : Superblock} {s s' : State} {i : Fin NINODE} {I : Nat → Dinode}

/-- The contents of a file. -/
def contents (d : Dinode) (data : Nat → Bytes) : List UInt8 :=
  (List.range d.size).map (d.byte data)

/-- The contents after `bs` has been written at `off`. -/
def splice (c : List UInt8) (off : Nat) (bs : List UInt8) : List UInt8 :=
  c.take off ++ bs ++ c.drop (off + bs.length)

@[simp] theorem length_contents (d : Dinode) (data : Nat → Bytes) :
    (contents d data).length = d.size := by
  simp [contents]

theorem getElem_contents {d : Dinode} {data : Nat → Bytes} {a : Nat}
    (h : a < (contents d data).length) : (contents d data)[a] = d.byte data a := by
  simp [contents]

/-- There is a transaction, and when it has logged what a write of the blocks
    `L` of a file logs, it can log the inode as well. -/
structure RoomFor (sb : Superblock) (s : State) (d : Dinode) (L : Finset Nat) : Prop where
  trans : 1 ≤ s.outstanding
  size : s.lh.length + (toLog sb d s.data L \ s.lh.toFinset).card < LOGSIZE
  nlog : s.lh.length + (toLog sb d s.data L \ s.lh.toFinset).card + 1 < sb.nlog

instance (sb : Superblock) (s : State) (d : Dinode) (L : Finset Nat) :
    Decidable (RoomFor sb s d L) :=
  decidable_of_iff (1 ≤ s.outstanding ∧
    s.lh.length + (toLog sb d s.data L \ s.lh.toFinset).card < LOGSIZE ∧
    s.lh.length + (toLog sb d s.data L \ s.lh.toFinset).card + 1 < sb.nlog)
    ⟨fun h => ⟨h.1, h.2.1, h.2.2⟩, fun h => ⟨h.trans, h.size, h.nlog⟩⟩

theorem RoomFor.canLog {d : Dinode} {L : Finset Nat} (h : RoomFor sb s d L) :
    CanLog sb (fun _ => False) (toLog sb d s.data L) s 0 :=
  ⟨.inr ⟨h.size, h.nlog⟩, .inr h.trans⟩

/-- A source that holds a string of bytes. -/
def Holds (src : Ptr) (bs : List UInt8) : Prop := ∀ a (h : a < bs.length), src.get a = some bs[a]

/-! ## One write -/

section Write

variable {L : Finset Nat} {inum : Nat} {d d' : Dinode} {src : Ptr} {off n p tot : Nat}
variable {bad : Option Nat}

theorem Wrote.contents (h : Wrote sb L I inum d s src off n d' s' n 0 bad) (hfull : d.Full s.data)
    {bs : List UInt8} (hn : bs.length = n) (hsrc : Holds src bs) :
    contents d' s'.data = splice (contents d s.data) off bs := by
  have hsize : d'.size = max d.size (off + n) := by rw [h.fields]
  have hin := h.inside
  apply ext_getElem
  · unfold splice
    simp only [length_contents, length_append, length_take, length_drop]
    omega
  · intro a ha ha'
    rw [getElem_contents]
    rw [length_contents] at ha
    unfold splice at ha' ⊢
    by_cases h1 : a < off
    · have hlen : a < ((Fs.contents d s.data).take off ++ bs).length := by
        simp only [length_append, length_take, length_contents]
        omega
      have hlen' : a < ((Fs.contents d s.data).take off).length := by
        simp only [length_take, length_contents]
        omega
      rw [getElem_append_left hlen, getElem_append_left hlen', getElem_take,
        getElem_contents]
      exact h.bytes a (by omega) (hfull.block (by omega))
    · by_cases h2 : a < off + n
      · have hlen : a < ((Fs.contents d s.data).take off ++ bs).length := by
          simp only [length_append, length_take, length_contents]
          omega
        have hoff : ((Fs.contents d s.data).take off).length = off := by
          simp only [length_take, length_contents]
          omega
        rw [getElem_append_left hlen, getElem_append_right (by omega)]
        have := (h.written (a - off) (by omega)).2
        rw [hsrc (a - off) (by omega), show off + (a - off) = a by omega] at this
        simp only [hoff]
        exact (Option.some.inj this).symm
      · have hoff : ((Fs.contents d s.data).take off ++ bs).length = off + n := by
          simp only [length_append, length_take, length_contents]
          omega
        rw [getElem_append_right (by omega), getElem_drop, getElem_contents]
        simp only [hoff, hn]
        rw [show off + n + (a - (off + n)) = a by omega]
        exact h.bytes a (by omega) (hfull.block (by omega))

theorem Dinode.Kept.contents {data data' : Nat → Bytes} (h : d.Kept data data')
    (hfull : d.Full data) : Fs.contents d data' = Fs.contents d data := by
  unfold Fs.contents
  apply map_congr_left
  intro a ha
  exact h.byte (hfull.block (mem_range.mp ha))

/-- **`writei`** of bytes that are there, with enough free blocks. -/
theorem writei_done {X : Stop → Prop} (hsb : sb.Ok) (hown : Owned sb s.data I)
    (hl : Live sb I (s.itable i).inum)
    (hI : I (s.itable i).inum = (s.itable i).din) (hok : (s.itable i).din.Ok) (src : Ptr)
    (off : Nat) (bs : List UInt8) (hoff : off ≤ (s.itable i).din.size)
    (hmax : off + bs.length ≤ MAXFILE * BSIZE) (hsrc : Holds src bs)
    (hL : ∀ bn ∈ spanned off bs.length, bn ∈ L)
    (hspace : need (s.itable i).din s.data L ≤ freeBlocks sb s)
    (hlog : CanLog sb X (toLog sb (s.itable i).din s.data L) s 0) :
    (writei sb i src off bs.length).wp s (fun r s' => r = (bs.length : Int) ∧ ∃ d',
      Wrote sb L I (s.itable i).inum (s.itable i).din s src off bs.length d' s' bs.length 0 none ∧
      s'.itable = (s.setDin i d').itable ∧ freeBlocks sb s + need d' s'.data L ≤
        freeBlocks sb s' + need (s.itable i).din s.data L) X := by
  have hsum : off + bs.length < 2 ^ 32 := by
    simp only [MAXFILE, NDIRECT, NINDIRECT, BSIZE] at hmax
    omega
  refine (writei_wp hsb hown hl hI hok (by omega) (by omega) hL fun _ => hlog).imp ?_
  rintro r s' (hbad | ⟨d', tot, p, bad, rfl, hw, ht⟩)
  · exfalso
    obtain ⟨_, _, h⟩ := hbad
    unfold BadWrite at h
    rw [Nat.mod_eq_of_lt hsum] at h
    omega
  · have hend := hw.ended
    cases hend with
    | noSpace _ _ _ h => omega
    | noSource h1 h2 h3 _ _ =>
      have hlt : tot + p < bs.length := by
        simp only [chunk] at h2
        omega
      rw [hsrc _ hlt] at h3
      cases h3
    | done h1 h2 h3 =>
      subst h1 h2
      exact ⟨rfl, d', hw, ht, h3⟩

end Write

/-! ## `filewrite` -/

section Filewrite

variable {inum : Nat} {L : Finset Nat}

/-- The contents of a file by its number. -/
def fileOf (sb : Superblock) (s : State) (inum : Nat) : List UInt8 :=
  contents (diskInode sb s.data inum) s.data

/-- No transaction is going on, and nobody has the file locked. -/
structure Idle (sb : Superblock) (s : State) (i : Fin NINODE) (inum : Nat) : Prop where
  outstanding : s.outstanding = 0
  lh : s.lh = []
  own : Owned sb s.data (diskInode sb s.data)
  live : Live sb (diskInode sb s.data) inum
  full : (diskInode sb s.data inum).Full s.data
  number : (s.itable i).inum = inum
  ref : 1 ≤ (s.itable i).ref
  unlocked : (s.itable i).locked = false
  coherent : (s.itable i).valid = true → (s.itable i).din = diskInode sb s.data inum

/-- From `s` to `s'`, `bs` has been written to a file at `off`, and no other
    file has changed. -/
structure Piece (sb : Superblock) (L : Finset Nat) (inum : Nat) (s s' : State) (off : Nat)
    (bs : List UInt8) : Prop where
  file : fileOf sb s' inum = splice (fileOf sb s inum) off bs
  others : ∀ j, Live sb (diskInode sb s.data) j → j ≠ inum →
    diskInode sb s'.data j = diskInode sb s.data j ∧
      (diskInode sb s.data j).Kept s.data s'.data
  live : ∀ j, Live sb (diskInode sb s'.data) j ↔ Live sb (diskInode sb s.data) j
  free : freeBlocks sb s + need (diskInode sb s'.data inum) s'.data L ≤
    freeBlocks sb s' + need (diskInode sb s.data inum) s.data L

variable {bs : List UInt8} {n off : Nat}

theorem splice_splice {c bs' : List UInt8} (h : off ≤ c.length) :
    splice (splice c off bs) (off + bs.length) bs' = splice c off (bs ++ bs') := by
  have hlen : (c.take off ++ bs).length = off + bs.length := by
    rw [length_append, length_take, Nat.min_eq_left h]
  have hdrop : (splice c off bs).drop (off + bs.length + bs'.length) =
      c.drop (off + (bs ++ bs').length) := by
    unfold splice
    rw [← hlen, drop_length_add_append, drop_drop, hlen, length_append,
      Nat.add_assoc off]
  have htake : (splice c off bs).take (off + bs.length) = c.take off ++ bs := by
    unfold splice
    rw [take_left' hlen]
  unfold splice at hdrop htake ⊢
  rw [htake, hdrop, append_assoc (c.take off)]

/-- A transaction has begun, and the inode is locked with its fields read. -/
def State.opened (s : State) (i : Fin NINODE) (d : Dinode) : State :=
  State.lock { s with outstanding := s.outstanding + 1 } i d

theorem opened_itable (s : State) (i : Fin NINODE) (d : Dinode) : (s.opened i d).itable i =
    { s.itable i with locked := true, valid := true, din := d } := lock_self _ _ _

theorem Idle.inodeOf (h : Idle sb s i inum) : Fs.inodeOf sb s i = diskInode sb s.data inum := by
  obtain rfl := h.number
  unfold Fs.inodeOf
  split_ifs with hv
  · exact h.coherent hv
  · rfl

theorem Idle.opens (h : Idle sb s i inum) :
    beginOp s = .ok ((), { s with outstanding := s.outstanding + 1 }) ∧
      ilock sb i { s with outstanding := s.outstanding + 1 } =
        .ok ((), s.opened i (diskInode sb s.data inum)) := by
  constructor
  · unfold beginOp
    rw [if_neg]
    rw [h.lh, h.outstanding]
    decide
  · have hlock : Lockable sb { s with outstanding := s.outstanding + 1 } i :=
      ⟨h.ref, h.unlocked, h.inodeOf ▸ h.live.2.2⟩
    rw [hlock.ilock, ← h.inodeOf]
    rfl

/-- **`iunlock` and `end_op` after a `writei`**: the transaction is on the disk,
    and the file is as `writei` has left it. -/
theorem Idle.commits {src : Ptr} {tot p : Nat} {bad : Option Nat} {d' : Dinode} {s3 : State}
    (h : Idle sb s i inum) (hw : Wrote sb L (diskInode sb s.data) inum (diskInode sb s.data inum)
      (s.opened i (diskInode sb s.data inum)) src off n d' s3 tot p bad)
    (ht : s3.itable = ((s.opened i (diskInode sb s.data inum)).setDin i d').itable) :
    ∃ s4 s5, iunlock i s3 = .ok ((), s4) ∧ endOp s4 = .ok ((), s5) ∧ s5.data = s3.data ∧
      (∀ j < sb.ninodes, diskInode sb s5.data j =
        if j = inum then d' else diskInode sb s.data j) ∧ Idle sb s5 i inum := by
  obtain rfl := h.number
  have hentry3 : s3.itable i = { s.itable i with locked := true, valid := true, din := d' } := by
    rw [ht]
    show update (s.opened i _).itable i { (s.opened i _).itable i with din := d' } i = _
    rw [update_self, opened_itable]
  generalize hs4 : s3.setInode i { s.itable i with locked := false, valid := true, din := d' } = s4
  have hunlock : iunlock i s3 = .ok ((), s4) := by
    rw [iunlock_ok (by rw [hentry3]) (by rw [hentry3]; exact h.ref), hentry3, ← hs4]
  have hout4 : s4.outstanding - 1 = 0 := by
    rw [← hs4]
    show s3.outstanding - 1 = 0
    rw [hw.logs.outstanding]
    show s.outstanding + 1 - 1 = 0
    rw [h.outstanding]
  have hentry4 : s4.itable i = { s.itable i with locked := false, valid := true, din := d' } := by
    rw [← hs4]
    exact update_self _ _ _
  generalize hs5 : ({ s4 with
      outstanding := 0
      lh := []
      home := fun b => if b ∈ s4.lh then s4.data b else s4.home b } : State) = s5
  have hend : endOp s4 = .ok ((), s5) := by
    unfold endOp
    rw [modify_run, if_pos hout4, hs5]
  have hdata5 : s5.data = s3.data := by rw [← hs5, ← hs4]; rfl
  have hentry5 : s5.itable i = { s.itable i with locked := false, valid := true, din := d' } := by
    rw [← hs5]
    exact hentry4
  have hdisk : ∀ j < sb.ninodes, diskInode sb s5.data j =
      if j = (s.itable i).inum then d' else diskInode sb s.data j := by
    intro j hj
    rw [hdata5, hw.disk j hj]
    rfl
  have hself : diskInode sb s5.data (s.itable i).inum = d' :=
    (hdisk _ h.live.2.1).trans (if_pos rfl)
  have hty : d'.type = (diskInode sb s.data (s.itable i).inum).type := by rw [hw.fields]
  refine ⟨s4, s5, hunlock, hend, hdata5, hdisk, by rw [← hs5], by rw [← hs5], ?_,
    ⟨h.live.1, h.live.2.1, ?_⟩, ?_, by rw [hentry5], by rw [hentry5]; exact h.ref, by rw [hentry5],
    fun _ => by rw [hentry5, hself]⟩
  · rw [hdata5]
    refine hw.own.congr fun j hj => ?_
    rw [← hdata5, hdisk j hj]
    by_cases hji : j = (s.itable i).inum
    · rw [if_pos hji, hji, update_self]
    · rw [if_neg hji, update_of_ne hji]
  · rw [hself, hty]
    exact h.live.2.2
  · rw [hself, hdata5]
    exact hw.full h.full

/-- **One turn of the loop of `filewrite`.** -/
theorem filewriteLoop_turn (hsb : sb.Ok) (hnlog : MAXOPBLOCKS < sb.nlog)
    (h : Idle sb s i inum) {u : Umem} {j : Nat} (addr fuel : Nat) (hj : j < n) (bs : List UInt8)
    (hbs : bs.length = min (n - j) maxWrite) (hsrc : Holds (.user u ((addr + j) % 2 ^ 64)) bs)
    (hoff : off ≤ (diskInode sb s.data inum).size) (hmax : off + bs.length ≤ MAXFILE * BSIZE)
    (hL : ∀ bn ∈ spanned off bs.length, bn ∈ L)
    (hspace : need (diskInode sb s.data inum) s.data L ≤ freeBlocks sb s) :
    ∃ s', filewriteLoop sb i u addr n (fuel + 1) j off s =
        filewriteLoop sb i u addr n fuel (j + bs.length) (off + bs.length) s' ∧
      Idle sb s' i inum ∧ Piece sb L inum s s' off bs := by
  obtain rfl := h.number
  obtain ⟨hbegin, hlock⟩ := h.opens
  generalize hd : diskInode sb s.data (s.itable i).inum = d at *
  have hentry := opened_itable s i d
  have hinum2 : ((s.opened i d).itable i).inum = (s.itable i).inum := by rw [hentry]
  have hdin2 : ((s.opened i d).itable i).din = d := by rw [hentry]
  have hout2 : 1 ≤ (s.opened i d).outstanding := Nat.le_add_left 1 s.outstanding
  -- `writei` can stop only because the log is too small, and for one piece it is not
  have hdone : (writei sb i _ off bs.length).wp (s.opened i d) _
      fun e => e = .panic "too big a transaction" :=
    writei_done (s := s.opened i d) (i := i) (L := L) (I := diskInode sb s.data) hsb h.own
      (by rw [hinum2]; exact h.live) (by rw [hinum2, hdin2, hd])
      (by rw [hdin2, ← hd]; exact getDinode_ok _ _) (.user u ((addr + j) % 2 ^ 64)) off bs
      (by rw [hdin2]; exact hoff) hmax hsrc hL (by rw [hdin2]; exact hspace) ⟨.inl rfl, .inr hout2⟩
  have hfits : (writei sb i (.user u ((addr + j) % 2 ^ 64)) off bs.length).wp (s.opened i d) _
      (Fits sb) := writei_fits h.lh
    (show bs.length ≤ maxWrite by rw [hbs]; exact Nat.min_le_right _ _)
    (by rw [hdin2, ← hd]; exact h.full)
  obtain ⟨_, s3, hrun, rfl, d', hw, ht, hfree⟩ :=
    ((hdone.and hfits).mono (fun _ _ h => h.1) fun _ he => he.2 hnlog he.1).returns
  rw [hinum2, hdin2] at hw
  rw [hdin2] at hfree
  obtain ⟨s4, s5, hunlock, hend, hdata5, hdisk, hidle⟩ := h.commits (by rw [hd]; exact hw)
    (by rw [hd]; exact ht)
  have hself : diskInode sb s5.data (s.itable i).inum = d' :=
    (hdisk _ h.live.2.1).trans (if_pos rfl)
  have hty : d'.type = d.type := by rw [hw.fields]
  have hlive : ∀ j, Live sb (diskInode sb s5.data) j ↔ Live sb (diskInode sb s.data) j := by
    intro j
    by_cases hj : j < sb.ninodes
    · unfold Live
      rw [hdisk j hj]
      by_cases hji : j = (s.itable i).inum
      · rw [if_pos hji, hty, hji, hd]
      · rw [if_neg hji]
    · exact iff_of_false (fun h => hj h.2.1) fun h => hj h.2.1
  refine ⟨s5, ?_, hidle, ?_⟩
  · have hmod : (off + ((bs.length : Int)).toNat) % 2 ^ 32 = off + bs.length := by
      rw [Int.toNat_natCast]
      apply Nat.mod_eq_of_lt
      simp only [MAXFILE, NDIRECT, NINDIRECT, BSIZE] at hmax
      omega
    have hpos : (bs.length : Int) > 0 := by
      rw [hbs]
      have : 0 < maxWrite := by decide
      omega
    rw [filewriteLoop]
    dsimp only
    rw [if_pos hj, ← hbs, bind_of_ok hbegin, bind_of_ok hlock, bind_of_ok hrun,
      if_pos hpos, hmod, bind_of_ok hunlock, bind_of_ok hend,
      if_neg (not_not_intro rfl)]
  · refine ⟨?_, fun j hj hne => ⟨?_, ?_⟩, hlive, ?_⟩
    · unfold fileOf
      rw [hself, hdata5, hd]
      exact hw.contents (hd ▸ h.full) rfl hsrc
    · rw [hdisk j hj.2.1, if_neg hne]
    · rw [hdata5]
      exact hw.others j hj hne
    · rw [hself, hdata5, hd]
      have hsame : freeBlocks sb s5 = freeBlocks sb s3 := by
        unfold freeBlocks
        rw [hdata5]
      rw [hsame]
      exact hfree

theorem length_fileOf (sb : Superblock) (s : State) (inum : Nat) :
    (fileOf sb s inum).length = (diskInode sb s.data inum).size := length_contents _ _

theorem Piece.size (h : Piece sb L inum s s' off bs)
    (hoff : off ≤ (diskInode sb s.data inum).size) : (diskInode sb s'.data inum).size =
      max (diskInode sb s.data inum).size (off + bs.length) := by
  rw [← length_fileOf, h.file]
  unfold splice
  rw [length_append, length_append, length_take, length_drop, length_fileOf]
  omega

theorem Piece.trans {s'' : State} {bs' : List UInt8}
    (h : Piece sb L inum s s' off bs) (h' : Piece sb L inum s' s'' (off + bs.length) bs')
    (hoff : off ≤ (diskInode sb s.data inum).size) :
    Piece sb L inum s s'' off (bs ++ bs') where
  file := by
    rw [h'.file, h.file, splice_splice]
    rw [length_fileOf]
    exact hoff
  others := fun j hj hne => by
    obtain ⟨h1, h2⟩ := h.others j hj hne
    obtain ⟨h3, h4⟩ := h'.others j ((h.live j).mpr hj) hne
    rw [h1] at h3 h4
    exact ⟨h3, h2.trans h4⟩
  live := fun j => (h'.live j).trans (h.live j)
  free := by
    have h1 := h.free
    have h2 := h'.free
    omega

theorem filewriteLoop_done (hsb : sb.Ok) (hnlog : MAXOPBLOCKS < sb.nlog) {u : Umem}
    {addr : Nat} (fuel j off : Nat)
    (bs : List UInt8) (h : Idle sb s i inum) (hj : j + bs.length = n) (hfuel : bs.length < fuel)
    (hsrc : Holds (.user u ((addr + j) % 2 ^ 64)) bs)
    (hoff : off ≤ (diskInode sb s.data inum).size) (hmax : off + bs.length ≤ MAXFILE * BSIZE)
    (hL : ∀ bn ∈ spanned off bs.length, bn ∈ L)
    (hspace : need (diskInode sb s.data inum) s.data L ≤ freeBlocks sb s) :
    ∃ s', filewriteLoop sb i u addr n fuel j off s = .ok ((n, off + bs.length), s') ∧
      Idle sb s' i inum ∧ Piece sb L inum s s' off bs := by
  -- on the number of turns left; a turn takes the bytes that fit one transaction
  induction fuel generalizing s j off bs with
  | zero => exact absurd hfuel (Nat.not_lt_zero _)
  | succ fuel ih =>
    by_cases hlt : j < n
    · generalize hm : min (n - j) maxWrite = m
      have hpos : 0 < maxWrite := by decide
      have hlen : (bs.take m).length = m := by
        rw [length_take]
        omega
      have hrest : (bs.drop m).length = bs.length - m := length_drop
      have hsplit : bs.take m ++ bs.drop m = bs := take_append_drop m bs
      obtain ⟨s1, hrun, hidle, hpiece⟩ := filewriteLoop_turn (L := L) hsb hnlog h addr fuel
        hlt (bs.take m) (by rw [hlen, hm])
        (fun a ha => by
          rw [getElem_take]
          exact hsrc a (by omega))
        hoff (by omega) (fun bn hbn => hL bn (mem_spanned_of_sub hbn (le_refl _) (by omega))) hspace
      have hfree := hpiece.free
      have hsize := hpiece.size hoff
      rw [hlen] at hrun hsize
      obtain ⟨s2, hrun2, hidle2, hpiece2⟩ := ih (j + m) (off + m) (bs.drop m) hidle (by omega)
        (by omega)
        (fun a ha => by
          rw [getElem_drop, ← hsrc (m + a) (by omega)]
          show userByte u (((addr + (j + m)) % 2 ^ 64 + a) % 2 ^ 64) =
            userByte u (((addr + j) % 2 ^ 64 + (m + a)) % 2 ^ 64)
          congr 1
          omega)
        (by omega) (by omega)
        (fun bn hbn => hL bn (mem_spanned_of_sub hbn (by omega) (by omega))) (by omega)
      refine ⟨s2, ?_, hidle2, ?_⟩
      · rw [hrun, hrun2, hrest, show off + m + (bs.length - m) = off + bs.length by omega]
      · rw [← hlen] at hpiece2
        have := hpiece.trans hpiece2 hoff
        rw [hlen, hsplit] at this
        exact this
    · have hnil : bs = [] := eq_nil_of_length_eq_zero (by omega)
      subst hnil
      refine ⟨s, ?_, h, ?_⟩
      · rw [filewriteLoop, if_neg hlt, length_nil]
        rw [length_nil] at hj
        rw [← hj]
        rfl
      · refine ⟨?_, fun _ _ _ => ⟨rfl, .refl _ _⟩, fun _ => Iff.rfl, le_refl _⟩
        unfold splice
        rw [append_nil, length_nil, Nat.add_zero, take_append_drop]

end Filewrite

/-- **A file is an array of bytes.** Inside a transaction with room for it,
    `writei` of bytes that are there replaces as many bytes of the contents and
    extends them if need be; `readi` delivers the bytes of its range that are
    below the size; and `filewrite`, which writes piece by piece, does to the
    contents what one call of `writei` would do. -/
theorem file_is_byte_array (hsb : sb.Ok) :
    (∀ (s : State) (i : Fin NINODE) (I : Nat → Dinode), Owned sb s.data I →
      Live sb I (s.itable i).inum → I (s.itable i).inum = (s.itable i).din →
      (s.itable i).din.Ok → (s.itable i).din.Full s.data →
      ∀ (src : Ptr) (off : Nat) (bs : List UInt8), off ≤ (s.itable i).din.size →
      off + bs.length ≤ MAXFILE * BSIZE → Holds src bs →
      need (s.itable i).din s.data (spanned off bs.length).toFinset ≤ freeBlocks sb s →
      RoomFor sb s (s.itable i).din (spanned off bs.length).toFinset →
      ∃ s', writei sb i src off bs.length s = .ok ((bs.length : Int), s') ∧
        contents (s'.itable i).din s'.data =
          splice (contents (s.itable i).din s.data) off bs ∧
        (s'.itable i).din.size = max (s.itable i).din.size (off + bs.length) ∧
        ∀ j, Live sb I j → j ≠ (s.itable i).inum → (I j).Full s.data →
          diskInode sb s'.data j = diskInode sb s.data j ∧
            contents (I j) s'.data = contents (I j) s.data) ∧
    (∀ (s : State) (i : Fin NINODE), (s.itable i).din.Ok → (s.itable i).din.Full s.data →
      ∀ (dst : Ptr) (off n : Nat), off + n < 2 ^ 32 →
      (∀ a < readLen (s.itable i).din.size off n, dst.get a ≠ none) →
      ∃ dst', readi sb i dst off n s = .ok
          (((((contents (s.itable i).din s.data).drop off).take n).length, dst'), s) ∧
        ∀ a < 2 ^ 64, dst'.get a =
          if h : a < (((contents (s.itable i).din s.data).drop off).take n).length
          then some (((contents (s.itable i).din s.data).drop off).take n)[a] else dst.get a) ∧
    (∀ (s : State) (i : Fin NINODE) (inum : Nat), Idle sb s i inum → MAXOPBLOCKS < sb.nlog →
      ∀ (u : Umem) (addr off : Nat) (bs : List UInt8), off ≤ (diskInode sb s.data inum).size →
      off + bs.length ≤ MAXFILE * BSIZE → Holds (.user u addr) bs →
      need (diskInode sb s.data inum) s.data (spanned off bs.length).toFinset ≤ freeBlocks sb s →
      ∃ s', filewrite sb i u addr bs.length off s =
          .ok (((bs.length : Int), off + bs.length), s') ∧
        fileOf sb s' inum = splice (fileOf sb s inum) off bs ∧
        (diskInode sb s'.data inum).size =
          max (diskInode sb s.data inum).size (off + bs.length) ∧
        ∀ j, Live sb (diskInode sb s.data) j → j ≠ inum → (diskInode sb s.data j).Full s.data →
          diskInode sb s'.data j = diskInode sb s.data j ∧ fileOf sb s' j = fileOf sb s j) := by
  refine ⟨?_, ?_, ?_⟩
  · intro s i I hown hl hI hok hfull src off bs hoff hmax hsrc hspace hroom
    obtain ⟨_, s', hrun, rfl, d', hw, ht, _⟩ := (writei_done hsb hown hl hI hok src off bs hoff hmax
      hsrc (fun _ h => mem_toFinset.mpr h) hspace hroom.canLog).returns
    have hdin : (s'.itable i).din = d' := by rw [ht, setDin_din]
    refine ⟨s', hrun, ?_, by rw [hdin, hw.fields], fun j hj hne hfj => ?_⟩
    · rw [hdin]
      exact hw.contents hfull rfl hsrc
    · exact ⟨(hw.disk j hj.2.1).trans (if_neg hne), (hw.others j hj hne).contents hfj⟩
  · intro s i hok hfull dst off n hno hmap
    obtain ⟨r, hrun, hread⟩ : ∃ r, readi sb i dst off n s = .ok (r, s) ∧ _ :=
      readi_ok rfl hfull hok.size hno dst
    obtain ⟨hr, hget⟩ := hread hmap
    have hlen : (((contents (s.itable i).din s.data).drop off).take n).length =
        readLen (s.itable i).din.size off n := by
      rw [length_take, length_drop, length_contents]
      rfl
    refine ⟨r.2, ?_, fun a ha => ?_⟩
    · rw [hlen, hrun, ← hr]
    · rw [hget a ha]
      by_cases h : a < readLen (s.itable i).din.size off n
      · rw [if_pos h, dif_pos (by rw [hlen]; exact h), getElem_take, getElem_drop,
          getElem_contents]
      · rw [if_neg h, dif_neg (by rw [hlen]; exact h)]
  · intro s i inum hidle hnlog u addr off bs hoff hmax hsrc hspace
    have hsrc' : Holds (.user u ((addr + 0) % 2 ^ 64)) bs := by
      intro a ha
      rw [← hsrc a ha]
      show userByte u (((addr + 0) % 2 ^ 64 + a) % 2 ^ 64) = userByte u ((addr + a) % 2 ^ 64)
      congr 1
      omega
    obtain ⟨s', hrun, _, hpiece⟩ := filewriteLoop_done hsb hnlog (bs.length + 1) 0 off bs hidle
      (Nat.zero_add _) (Nat.lt_succ_self _) hsrc' hoff hmax
      (fun _ h => mem_toFinset.mpr h) hspace
    refine ⟨s', ?_, hpiece.file, hpiece.size hoff, fun j hj hne hfj => ?_⟩
    · unfold filewrite
      rw [bind_of_ok hrun, if_pos rfl]
      rfl
    · obtain ⟨h1, h2⟩ := hpiece.others j hj hne
      refine ⟨h1, ?_⟩
      unfold fileOf
      rw [h1]
      exact h2.contents hfj

end Files

namespace Sample

/-- Nobody has the file locked, and no transaction is going on. -/
def idle : State :=
  { state with
    outstanding := 0
    itable := fun i => { itable i with locked := false } }

theorem idle_idle : Idle sb idle 0 2 where
  outstanding := rfl
  lh := rfl
  own := owned
  live := file_live
  full := by
    show (diskInode sb data 2).Full data
    rw [diskInode_two]
    exact file_full
  number := rfl
  ref := by decide
  unlocked := rfl
  coherent := fun _ => diskInode_two.symm

/-- A page of ones at address 0. -/
def ones : Umem := fun va => if va = 0 then some (fun _ => 1) else none

theorem holds_ones : Holds (.user ones 0) [1, 1, 1] := by
  intro a ha
  have : ∀ a (h : a < 3), (Ptr.user ones 0).get a = some [1, 1, 1][a] := by decide
  exact this a ha

end Sample

/-- Three bytes over the last of the two that the file has. -/
theorem file_is_byte_array_sample :
    (∃ s', writei Sample.sb 0 (.user Sample.ones 0) 1 3 Sample.state = .ok (3, s') ∧
      contents (s'.itable 0).din s'.data = [7, 1, 1, 1]) ∧
    (∃ dst, readi Sample.sb 0 (.kernel Bytes.zero) 1 5 Sample.state =
      .ok ((1, dst), Sample.state) ∧ dst.get 0 = some 8) ∧
    ∃ s', filewrite Sample.sb 0 Sample.ones 0 3 1 Sample.idle = .ok ((3, 4), s') ∧
      fileOf Sample.sb s' 2 = [7, 1, 1, 1] := by
  have hcontents : contents Sample.file Sample.data = [7, 8] := by decide
  obtain ⟨hwrite, hread, hfile⟩ := file_is_byte_array Sample.sb_ok
  refine ⟨?_, ?_, ?_⟩
  · obtain ⟨s', hrun, hc, _⟩ := hwrite Sample.state 0 _ Sample.owned Sample.file_live
      Sample.file_inode Sample.file_ok Sample.file_full (.user Sample.ones 0) 1 [1, 1, 1]
      (by decide) (by decide) Sample.holds_ones (by decide +kernel) (by decide +kernel)
    refine ⟨s', hrun, hc.trans ?_⟩
    show splice (contents Sample.file Sample.data) 1 [1, 1, 1] = _
    rw [hcontents]
    rfl
  · obtain ⟨dst, hrun, hget⟩ := hread Sample.state 0 Sample.file_ok Sample.file_full
      (.kernel Bytes.zero) 1 5 (by decide) fun _ _ => nofun
    have hc : contents (Sample.state.itable 0).din Sample.state.data = [7, 8] := hcontents
    rw [hc] at hrun
    refine ⟨dst, hrun, ?_⟩
    rw [hget 0 (by decide), dif_pos (by rw [hc]; decide)]
    simp [hc]
  · obtain ⟨s', hrun, hc, _⟩ := hfile Sample.idle 0 2 Sample.idle_idle (by decide)
      Sample.ones 0 1 [1, 1, 1] (by decide +kernel) (by decide) Sample.holds_ones
      (by decide +kernel)
    refine ⟨s', hrun, hc.trans ?_⟩
    show splice (contents (diskInode Sample.sb Sample.data 2) Sample.data) 1 [1, 1, 1] = _
    rw [Sample.diskInode_two, hcontents]
    rfl

/-! ## A write that is too long for the log -/

namespace Empty

/-- A disk of a hundred blocks. -/
def sb : Superblock := { Sample.sb with size := 100, nblocks := 66, ninodes := 2 }

/-- An empty file. -/
def file : Dinode := { Dinode.fresh T_FILE with nlink := 1 }

def data (b : Nat) : Bytes :=
  if b = 32 then putDinode Bytes.zero 64 file
  else if b = 33 then fun a => if a < 4 then 255 else if a = 4 then 3 else 0
  else Bytes.zero

/-- A transaction has just begun, and the file is locked. -/
def state : State where
  data := data
  home := data
  lh := []
  outstanding := 1
  itable := fun i => { Sample.itable i with inum := 1, din := file }

theorem file_ok : file.Ok := ⟨by decide, by decide, by decide, by decide, by decide, by decide⟩

theorem diskInode_one : diskInode sb data 1 = file := by
  show getDinode (putDinode Bytes.zero 64 file) 64 = file
  rw [getDinode_putDinode file_ok]

theorem refs (p : Nat × Site) : refsOf sb data (diskInode sb data) p = 0 := by
  obtain ⟨j, x⟩ := p
  by_cases hl : Live sb (diskInode sb data) j
  · obtain rfl : j = 1 := by
      have h1 := hl.1
      have h2 : j < 2 := hl.2.1
      omega
    rw [refsOf_live hl, diskInode_one]
    cases x with
    | addr k => rfl
    | entry j => exact Dinode.ref_entry_of_none rfl
  · exact if_neg hl

theorem owned : Owned sb data (diskInode sb data) := by
  have hbit : ∀ b < 100, bitOf sb data b = decide (b < 34) := by decide
  refine ⟨fun p hp => absurd (refs p) hp, fun p _ hp => absurd (refs p) hp, fun b hb => ?_, nofun⟩
  rw [hbit b hb, decide_eq_true_iff]
  constructor
  · exact .inl
  · rintro (h | ⟨p, hp, _⟩ | h)
    · exact h
    · exact absurd (refs p) hp
    · cases h

/-- No transaction is going on, and nobody has the file locked. -/
def idle : State :=
  { state with
    outstanding := 0
    itable := fun i => { state.itable i with locked := false } }

theorem file_live : Live sb (diskInode sb data) 1 := by
  refine ⟨by decide, by decide, ?_⟩
  rw [diskInode_one]
  decide

/-- The same disk with a log of three blocks, of which one is the header. -/
theorem idle_idle : Idle { sb with nlog := 3 } idle 0 1 where
  outstanding := rfl
  lh := rfl
  own := owned
  live := file_live
  full := fun bn hbn => by
    have hsize : (diskInode sb data 1).size = 0 := by rw [diskInode_one]; rfl
    have hlt : bn * BSIZE < (diskInode sb data 1).size := hbn
    omega
  number := rfl
  ref := by decide
  unlocked := rfl
  coherent := fun _ => diskInode_one.symm

end Empty

/-- Writes to an empty file, with space for them on the disk and a source that
    is there. A transaction that has just begun has no room for thirty blocks;
    without a transaction nothing can be logged; and in a log of three blocks
    there is no room for one byte, which takes a block, a bitmap block and the
    inode, whoever asks for it. -/
theorem writei_too_big : Owned Empty.sb Empty.state.data (diskInode Empty.sb Empty.state.data) ∧
    Live Empty.sb (diskInode Empty.sb Empty.state.data) (Empty.state.itable 0).inum ∧
    diskInode Empty.sb Empty.state.data (Empty.state.itable 0).inum = (Empty.state.itable 0).din ∧
    (Empty.state.itable 0).din.Full Empty.state.data ∧ 30 * BSIZE ≤ MAXFILE * BSIZE ∧
    Holds (.kernel fun _ => 1) (List.replicate (30 * BSIZE) 1) ∧
    need (Empty.state.itable 0).din Empty.state.data (spanned 0 (30 * BSIZE)).toFinset ≤
      freeBlocks Empty.sb Empty.state ∧
    writei Empty.sb 0 (.kernel fun _ => 1) 0 (30 * BSIZE) Empty.state =
      .error (.panic "too big a transaction") ∧
    writei Empty.sb 0 (.kernel fun _ => 1) 0 1 { Empty.state with outstanding := 0 } =
      .error (.panic "log_write outside of trans") ∧
    writei { Empty.sb with nlog := 3 } 0 (.kernel fun _ => 1) 0 1 Empty.state =
      .error (.panic "too big a transaction") ∧
    Idle { Empty.sb with nlog := 3 } Empty.idle 0 1 ∧
    filewrite { Empty.sb with nlog := 3 } 0 Sample.ones 0 1 0 Empty.idle =
      .error (.panic "too big a transaction") := by
  refine ⟨Empty.owned, Empty.file_live, Empty.diskInode_one, ?_, by decide, ?_, by decide +kernel,
    eq_error_of_stopOf (by decide +kernel), eq_error_of_stopOf (by decide +kernel),
    eq_error_of_stopOf (by decide +kernel), Empty.idle_idle,
    eq_error_of_stopOf (by decide +kernel)⟩
  · intro bn hbn
    exact absurd hbn (Nat.not_lt_zero _)
  · intro a ha
    rw [getElem_replicate]
    rfl

end Fs
end Xv6
