import Xv6.Fs.ByteArray

/-!
# Every transaction of `filewrite` fits

`filewrite` puts each piece of its data between a `begin_op` and an `end_op`. A
piece that starts with an empty log and a file without holes fits the
reservation, and it leaves such a file and an empty log behind. So every piece
does.
-/

namespace Xv6
namespace Fs

open Function List
open Sys

variable {sb : Superblock} {s s' : State} {i : Fin NINODE}
variable {addr inum j n off : Nat} {u : Umem}

/-! ## The pieces of `filewrite` -/

/-- The piece of `filewrite` that starts `j` bytes into the buffer, up to its
    `end_op`. -/
def filewritePiece (sb : Superblock) (ip : Fin NINODE) (u : Umem) (addr n j off : Nat) :
    Sys State Int := do
  beginOp
  ilock sb ip
  let r ← writei sb ip (.user u ((addr + j) % 2 ^ 64)) off (min (n - j) maxWrite)
  iunlock ip
  pure r

/-- The loop of `filewrite`, started at `off₀` in `s₀`, comes to a piece at `j`
    and `off` in `s`. -/
inductive PieceAt (sb : Superblock) (ip : Fin NINODE) (u : Umem) (addr n off₀ : Nat) (s₀ : State) :
    Nat → Nat → State → Prop where
  | first : PieceAt sb ip u addr n off₀ s₀ 0 off₀ s₀
  | next {j off : Nat} {s s₁ s₂ : State} (h : PieceAt sb ip u addr n off₀ s₀ j off s) (hj : j < n)
      (hpiece : filewritePiece sb ip u addr n j off s = .ok ((min (n - j) maxWrite : Nat), s₁))
      (hend : endOp s₁ = .ok ((), s₂)) :
      PieceAt sb ip u addr n off₀ s₀ (j + min (n - j) maxWrite)
        ((off + min (n - j) maxWrite) % 2 ^ 32) s₂

/-- A piece, from any state in which the log is empty and the inode has no
    holes. -/
theorem filewritePiece_fits {ip : Fin NINODE} (hl : s.lh = [])
    (hfull : (inodeOf sb s ip).Full s.data) :
    (filewritePiece sb ip u addr n j off).wp s (fun _ s' => Room s' 0) (Fits sb) := by
  unfold filewritePiece
  refine wp.bind (Q := fun _ s' => s' = { s with outstanding := s.outstanding + 1 }) ?_ ?_
  · unfold Sys.wp beginOp
    split_ifs
    · exact fun _ => nofun
    · rfl
  rintro _ s1 rfl
  refine wp.bind (Q := fun _ s' => s'.lh = [] ∧ (s'.itable ip).din.Full s'.data) ?_ ?_
  · refine (ilock_wp sb _ ip).mono ?_ ?_
    · rintro _ _ ⟨_, rfl⟩
      rw [lock_self]
      exact ⟨hl, hfull⟩
    · rintro _ (⟨rfl, _⟩ | ⟨rfl, _⟩ | ⟨rfl, _⟩)
      · exact fun _ => by decide
      · exact fun _ => by decide
      · exact fun _ => by decide
  rintro _ s2 ⟨hl2, hfull2⟩
  refine (writei_fits hl2 (Nat.min_le_right _ _) hfull2).bind fun r s3 hr3 => ?_
  refine wp.bind (Q := fun _ s' => Room s' 0) ?_ fun _ s' hr => wp_pure hr
  unfold iunlock
  apply wp_bind
  apply wp_reads
  apply wp_ite
  · exact fun _ _ => by decide
  · intro _
    exact hr3.congr rfl

/-- A piece, from a consistent file system: it stops in no other way than for a
    log that is too small, and if it is written whole it leaves a file without
    holes, of which `off` is inside. -/
theorem filewritePiece_idle (hsb : sb.Ok)
    (h : Idle sb s i inum) (hoff : off ≤ (diskInode sb s.data inum).size) :
    (filewritePiece sb i u addr n j off).wp s
      (fun r s1 => r = (min (n - j) maxWrite : Nat) → ∀ s2, endOp s1 = .ok ((), s2) →
        Idle sb s2 i inum ∧
          (off + min (n - j) maxWrite) % 2 ^ 32 ≤ (diskInode sb s2.data inum).size)
      (fun e => e = .panic "too big a transaction") := by
  obtain rfl := h.number
  obtain ⟨hbegin, hlock⟩ := h.opens
  have hok : (diskInode sb s.data (s.itable i).inum).Ok := getDinode_ok _ _
  have hm : min (n - j) maxWrite ≤ maxWrite := Nat.min_le_right _ _
  generalize hd : diskInode sb s.data (s.itable i).inum = d at hlock hoff hok
  unfold filewritePiece
  generalize min (n - j) maxWrite = m at hm ⊢
  have hentry := opened_itable s i d
  have hinum : ((s.opened i d).itable i).inum = (s.itable i).inum := by rw [hentry]
  have hdin : ((s.opened i d).itable i).din = d := by rw [hentry]
  have hsize := hok.size
  apply wp_bind
  apply wp_of_ok hbegin
  apply wp_bind
  apply wp_of_ok hlock
  have hout : 1 ≤ (s.opened i d).outstanding := Nat.le_add_left 1 s.outstanding
  refine (writei_wp (X := fun e => e = .panic "too big a transaction") (s := s.opened i d) (i := i)
    (L := (spanned off m).toFinset) (k := 0) (I := diskInode sb s.data) hsb h.own
    (by rw [hinum]; exact h.live) (by rw [hinum, hdin, hd]) (by rw [hdin]; exact hok)
    (by omega) (by simp only [maxWrite, MAXOPBLOCKS, BSIZE] at hm; omega)
    (fun bn hbn => List.mem_toFinset.mpr hbn)
    fun _ => ⟨.inl rfl, .inr hout⟩).bind fun r s3 hr => ?_
  rcases hr with ⟨rfl, rfl, _⟩ | ⟨d', tot, p, bad, rfl, hw, ht⟩
  · have hunlock : iunlock i (s.opened i d) = .ok ((), (s.opened i d).setInode i
        { (s.opened i d).itable i with locked := false }) :=
      iunlock_ok (by rw [hentry]) (by rw [hentry]; exact h.ref)
    apply wp_bind
    apply wp_of_ok hunlock
    apply wp_pure
    intro hr
    exact absurd hr (by omega)
  rw [hinum, hdin] at hw
  obtain ⟨s4, s5, hunlock, hend, _, hdisk, hidle⟩ := h.commits (by rw [hd]; exact hw)
    (by rw [hd]; exact ht)
  apply wp_bind
  apply wp_of_ok hunlock
  apply wp_pure
  intro hr s2 hend2
  rw [hend] at hend2
  cases hend2
  obtain rfl : tot = m := Int.ofNat.inj hr
  refine ⟨hidle, ?_⟩
  have hfits := hw.fits
  rw [hdisk _ h.live.2.1, if_pos rfl, hw.fields, Nat.mod_eq_of_lt]
  · exact Nat.le_max_right _ _
  · simp only [MAXFILE, NDIRECT, NINDIRECT, BSIZE] at hfits
    omega

theorem PieceAt.idle (hsb : sb.Ok) {off₀ : Nat} {s₀ : State} (h0 : Idle sb s₀ i inum)
    (hoff0 : off₀ ≤ (diskInode sb s₀.data inum).size) (h : PieceAt sb i u addr n off₀ s₀ j off s) :
    Idle sb s i inum ∧ off ≤ (diskInode sb s.data inum).size := by
  induction h with
  | first => exact ⟨h0, hoff0⟩
  | next _ _ hpiece hend ih => exact (filewritePiece_idle hsb ih.1 ih.2).ok hpiece rfl _ hend

/-- **Every transaction of `filewrite` fits its reservation.** A piece enters at
    most `MAXOPBLOCKS` distinct blocks between its `begin_op` and its `end_op`,
    and never stops with "too big a transaction": from every state in which the
    log is empty and the inode has no holes, for every superblock, bitmap,
    offset, length and source; and so for every piece that the loop comes to
    from a consistent file system, where nothing but a log smaller than the
    reservation stops it. -/
theorem filewrite_fits (sb : Superblock) (ip : Fin NINODE) (u : Umem) (addr n : Nat) :
    (∀ j off s, s.lh = [] → (inodeOf sb s ip).Full s.data →
      (filewritePiece sb ip u addr n j off).wp s
        (fun _ s' => s'.lh.Nodup ∧ s'.lh.length ≤ MAXOPBLOCKS) (Fits sb)) ∧
    (∀ inum off₀ s₀, sb.Ok → Idle sb s₀ ip inum → off₀ ≤ (diskInode sb s₀.data inum).size →
      ∀ j off s, PieceAt sb ip u addr n off₀ s₀ j off s →
        (filewritePiece sb ip u addr n j off).wp s
          (fun _ s' => s'.lh.Nodup ∧ s'.lh.length ≤ MAXOPBLOCKS)
          (fun _ => sb.nlog ≤ MAXOPBLOCKS)) := by
  have hpiece : ∀ j off s, s.lh = [] → (inodeOf sb s ip).Full s.data →
      (filewritePiece sb ip u addr n j off).wp s
        (fun _ s' => s'.lh.Nodup ∧ s'.lh.length ≤ MAXOPBLOCKS) (Fits sb) := fun j off s hl hfull =>
    (filewritePiece_fits hl hfull).imp fun _ _ hr => ⟨hr.nodup, hr.le⟩
  refine ⟨hpiece, fun inum off₀ s₀ hsb h0 hoff0 j off s h => ?_⟩
  obtain ⟨hidle, hoff⟩ := h.idle hsb h0 hoff0
  have hfull : (inodeOf sb s ip).Full s.data := by
    rw [hidle.inodeOf]
    exact hidle.full
  refine ((hpiece j off s hidle.lh hfull).and (filewritePiece_idle hsb hidle hoff)).mono
    (fun _ _ h => h.1) fun e he => ?_
  by_contra hlog
  exact he.1 (by omega) he.2

/-- Three bytes over the last one of the sample file: the piece returns and
    fits. -/
theorem filewrite_fits_sample : ∃ r s',
    filewritePiece Sample.sb 0 Sample.ones 0 3 0 1 Sample.idle = .ok (r, s') ∧
      s'.lh.Nodup ∧ s'.lh.length ≤ MAXOPBLOCKS := by
  have h := (filewrite_fits Sample.sb 0 Sample.ones 0 3).2 2 1 Sample.idle Sample.sb_ok
    Sample.idle_idle (by decide +kernel) 0 1 Sample.idle .first
  exact (h.mono (fun _ _ h => h) fun _ he => absurd he (by decide)).returns

end Fs
end Xv6
