import Xv6.Fs.Map
import Xv6.Fs.Transfer

/-!
# Reading a file

`readi` goes from block to block. On a file whose blocks below the size are all
there it changes nothing in the file system: `bmap` finds every block it asks
for. At the end, what `ilock` and `iunlock` do: every reader and writer of a file
goes through them.
-/

namespace Xv6
namespace Fs

open Function
open Sys

variable {sb : Superblock} {s : State}

/-! ## The blocks of a range -/

/-- The indices of the blocks that the `n` bytes at `off` are in. -/
def spanned (off n : Nat) : List Nat :=
  if n = 0 then [] else List.range' (off / BSIZE) ((off + n - 1) / BSIZE - off / BSIZE + 1)

/-- The bytes in the first block: `min(n - tot, BSIZE - off % BSIZE)`. -/
abbrev chunk (off n : Nat) : Nat := min n (BSIZE - off % BSIZE)

theorem chunk_pos (off : Nat) {n : Nat} (h : 0 < n) : 0 < chunk off n := by
  have := Nat.mod_lt off (show 0 < BSIZE by decide)
  unfold chunk
  omega

/-- One turn of the loops of `readi` and `writei` deals with the first of
    them. -/
theorem spanned_step (off : Nat) {n : Nat} (h : 0 < n) :
    spanned off n = off / BSIZE :: spanned (off + chunk off n) (n - chunk off n) := by
  unfold spanned
  rw [if_neg (by omega)]
  by_cases hlast : n ≤ BSIZE - off % BSIZE
  · have hm : chunk off n = n := Nat.min_eq_left hlast
    have hsame : (off + n - 1) / BSIZE = off / BSIZE := by
      simp only [BSIZE] at *
      omega
    rw [hm, if_pos (by omega), hsame, Nat.sub_self]
    rfl
  · have hm : chunk off n = BSIZE - off % BSIZE := Nat.min_eq_right (by omega)
    have hnext : (off + (BSIZE - off % BSIZE)) / BSIZE = off / BSIZE + 1 := by
      simp only [BSIZE]
      omega
    have hend : (off + (BSIZE - off % BSIZE) + (n - (BSIZE - off % BSIZE)) - 1) = off + n - 1 := by
      omega
    have hlen : (off + n - 1) / BSIZE - off / BSIZE =
        (off + n - 1) / BSIZE - (off / BSIZE + 1) + 1 := by
      simp only [BSIZE] at *
      omega
    rw [hm, if_neg (by omega), hnext, hend, hlen, List.range'_succ]

theorem mem_spanned {off n bn : Nat} :
    bn ∈ spanned off n ↔ 0 < n ∧ off / BSIZE ≤ bn ∧ bn ≤ (off + n - 1) / BSIZE := by
  unfold spanned
  split_ifs with h0
  · refine iff_of_false List.not_mem_nil ?_
    omega
  · rw [List.mem_range'_1]
    have : off / BSIZE ≤ (off + n - 1) / BSIZE := Nat.div_le_div_right (by omega)
    omega

theorem mem_spanned_of_sub {off n off' n' bn : Nat} (h : bn ∈ spanned off' n') (h1 : off ≤ off')
    (h2 : off' + n' ≤ off + n) : bn ∈ spanned off n := by
  rw [mem_spanned] at h ⊢
  have h3 : off / BSIZE ≤ off' / BSIZE := Nat.div_le_div_right h1
  have h4 : (off' + n' - 1) / BSIZE ≤ (off + n - 1) / BSIZE := Nat.div_le_div_right (by omega)
  omega

theorem byte_of_chunk {d : Dinode} {data : Nat → Bytes} {off n a : Nat} (ha : a < chunk off n) :
    d.byte data (off + a) = data (d.block data (off / BSIZE)) (off % BSIZE + a) := by
  have hdiv : (off + a) / BSIZE = off / BSIZE := by
    simp only [chunk, BSIZE] at *
    omega
  have hmod : (off + a) % BSIZE = off % BSIZE + a := by
    simp only [chunk, BSIZE] at *
    omega
  unfold Dinode.byte
  rw [hdiv, hmod]

/-! ## `readi` -/

/-- Every block below the size is there. -/
def Dinode.Full (d : Dinode) (data : Nat → Bytes) : Prop :=
  ∀ bn, bn * BSIZE < d.size → d.block data bn ≠ 0

theorem Dinode.Full.block {d : Dinode} {data : Nat → Bytes} (h : d.Full data) {off : Nat}
    (hoff : off < d.size) : d.block data (off / BSIZE) ≠ 0 := by
  apply h
  have := Nat.div_mul_le_self off BSIZE
  omega

section Readi

variable {i : Fin NINODE} {d : Dinode}

theorem readiLoop_ok (hd : (s.itable i).din = d) (hfull : d.Full s.data) {n : Nat}
    (hn : n < 2 ^ 64) (fuel tot off : Nat) (dst : Ptr) (htot : tot ≤ n) (hfuel : n - tot < fuel)
    (hend : off + (n - tot) ≤ d.size) :
    ∃ r, readiLoop sb i n fuel tot off dst s = .ok (r, s) ∧
      ((∀ a, tot ≤ a → a < n → dst.get a ≠ none) → r.1 = n ∧
        ∀ a < 2 ^ 64, r.2.get a =
          if tot ≤ a ∧ a < n then some (d.byte s.data (off + (a - tot))) else dst.get a) := by
  induction fuel generalizing tot off dst with
  | zero => exact absurd hfuel (Nat.not_lt_zero _)
  | succ fuel ih =>
    unfold readiLoop
    by_cases hlt : tot < n
    · rw [if_pos hlt]
      have hpos := chunk_pos off (Nat.sub_pos_of_lt hlt)
      have hle : chunk off (n - tot) ≤ n - tot := Nat.min_le_left _ _
      have hthere : d.block s.data (off / BSIZE) ≠ 0 := hfull.block (by omega)
      rw [bind_of_ok (bmap_present (by rw [hd]; exact hthere)), hd, if_neg hthere, bread,
        reads_bind_run]
      generalize hr : eitherCopyout dst tot (s.data (d.block s.data (off / BSIZE))) (off % BSIZE)
        (chunk off (n - tot)) = r
      by_cases hret : r.2 = -1
      · -- the destination is not mapped
        rw [if_pos hret]
        refine ⟨_, rfl, fun hmap => ?_⟩
        have := (eitherCopyout_spec dst tot (s.data (d.block s.data (off / BSIZE))) (off % BSIZE)
          (chunk off (n - tot)) (by omega) fun a ha => hmap _ (by omega) (by omega)).1
        rw [hr, hret] at this
        exact absurd this (by decide)
      · rw [if_neg hret]
        obtain ⟨q, hq, hbytes⟩ := ih (tot + chunk off (n - tot)) (off + chunk off (n - tot)) r.1
          (by omega) (by omega) (by omega)
        refine ⟨q, hq, fun hmap => ?_⟩
        obtain ⟨_, hcopy⟩ := eitherCopyout_spec dst tot (s.data (d.block s.data (off / BSIZE)))
          (off % BSIZE) (chunk off (n - tot)) (by omega) fun a ha => hmap _ (by omega) (by omega)
        rw [hr] at hcopy
        obtain ⟨h1, h2⟩ := hbytes fun a ha hlt' => by
          rw [hcopy a (by omega), if_neg (by omega)]
          exact hmap a (by omega) hlt'
        refine ⟨h1, fun a ha => ?_⟩
        rw [h2 a ha, hcopy a ha]
        by_cases hin : tot + chunk off (n - tot) ≤ a ∧ a < n
        · rw [if_pos hin, if_pos (by omega)]
          congr 2
          omega
        · rw [if_neg hin]
          by_cases hhere : tot ≤ a ∧ a < tot + chunk off (n - tot)
          · rw [if_pos hhere, if_pos (by omega), byte_of_chunk (n := n - tot) (by omega)]
          · rw [if_neg hhere, if_neg (by omega)]
    · rw [if_neg hlt]
      obtain rfl : tot = n := by omega
      exact ⟨_, rfl, fun _ => ⟨rfl, fun a _ => (if_neg (by omega)).symm⟩⟩

/-- How many bytes `readi` delivers. -/
def readLen (size off n : Nat) : Nat := min n (size - off)

/-- **`readi` of a full file** returns and changes nothing in the file system;
    into a destination that is mapped it delivers the bytes of the range that
    are below the size. -/
theorem readi_ok (hd : (s.itable i).din = d) (hfull : d.Full s.data) (hsize : d.size < 2 ^ 32)
    {off n : Nat} (hno : off + n < 2 ^ 32) (dst : Ptr) :
    ∃ r, readi sb i dst off n s = .ok (r, s) ∧
      ((∀ a < readLen d.size off n, dst.get a ≠ none) →
        r.1 = readLen d.size off n ∧ ∀ a < 2 ^ 64, r.2.get a =
          if a < readLen d.size off n then some (d.byte s.data (off + a)) else dst.get a) := by
  unfold readi
  rw [inode, reads_bind_run, hd, Nat.mod_eq_of_lt hno]
  by_cases hoff : off > d.size ∨ off + n < off
  · rw [if_pos hoff]
    have hz : readLen d.size off n = 0 := by
      unfold readLen
      omega
    rw [hz]
    exact ⟨_, rfl, fun _ => ⟨rfl, fun a _ => (if_neg (Nat.not_lt_zero a)).symm⟩⟩
  · rw [if_neg hoff]
    have hcore : ∀ m, m = readLen d.size off n → off + m ≤ d.size →
        ∃ r, readiLoop sb i m (m + 1) 0 off dst s = .ok (r, s) ∧
          ((∀ a < readLen d.size off n, dst.get a ≠ none) →
            r.1 = readLen d.size off n ∧ ∀ a < 2 ^ 64, r.2.get a =
              if a < readLen d.size off n then some (d.byte s.data (off + a)) else dst.get a) := by
      rintro m rfl hm
      have hlt : readLen d.size off n < 2 ^ 64 := by omega
      obtain ⟨r, hr, hbytes⟩ := readiLoop_ok hd hfull hlt (readLen d.size off n + 1) 0 off dst
        (Nat.zero_le _) (by omega) hm
      refine ⟨r, hr, fun hmap => ?_⟩
      obtain ⟨h1, h2⟩ := hbytes fun a _ ha => hmap a ha
      refine ⟨h1, fun a ha => ?_⟩
      rw [h2 a ha, Nat.sub_zero]
      simp only [Nat.zero_le, true_and]
    unfold readLen at hcore ⊢
    by_cases hbig : off + n > d.size
    · rw [if_pos hbig]
      exact hcore _ (by omega) (by omega)
    · rw [if_neg hbig]
      exact hcore _ (by omega) (by omega)

end Readi

/-! ## Locking -/

/-- The inode's fields as `ilock` finds them: in memory, or on the disk. -/
def inodeOf (sb : Superblock) (s : State) (i : Fin NINODE) : Dinode :=
  if (s.itable i).valid then (s.itable i).din
  else getDinode (s.data (sb.IBLOCK (s.itable i).inum)) (slot (s.itable i).inum)

/-- The inode is locked, with the fields `d` in memory. -/
def State.lock (s : State) (i : Fin NINODE) (d : Dinode) : State :=
  s.setInode i { s.itable i with locked := true, valid := true, din := d }

theorem lock_self (s : State) (i : Fin NINODE) (d : Dinode) : (s.lock i d).itable i =
    { s.itable i with locked := true, valid := true, din := d } := update_self _ _ _

/-- **`ilock`**: how it returns, and why it does not. -/
theorem ilock_wp (sb : Superblock) (s : State) (i : Fin NINODE) : (ilock sb i).wp s
    (fun _ s' => (0 < (s.itable i).ref ∧ (s.itable i).locked = false) ∧
      s' = s.lock i (inodeOf sb s i))
    fun e => e = .panic "ilock" ∧ ¬ 0 < (s.itable i).ref ∨
      e = .hang ∧ ¬ (s.itable i).locked = false ∨
      e = .panic "ilock: no type" ∧ (inodeOf sb s i).type = 0 := by
  unfold ilock
  refine wp_bind (wp_reads (wp_ite (fun href => wp_panic (.inl ⟨rfl, by omega⟩)) fun href => ?_))
  refine wp_ite (fun hl => wp_hang (.inr (.inl ⟨rfl, ne_false_of_eq_true hl⟩))) fun hl => ?_
  have hfree : 0 < (s.itable i).ref ∧ (s.itable i).locked = false :=
    ⟨by omega, eq_false_of_ne_true hl⟩
  unfold inodeOf State.lock
  refine wp_ite (fun hv => wp_modify ⟨hfree, ?_⟩) fun hv => ?_
  · rw [if_pos hv, ← hv]
  · rw [if_neg hv]
    refine wp_bind (wp_reads (wp_bind (wp_modify ?_)))
    exact wp_ite (fun h0 => wp_panic (.inr (.inr ⟨rfl, h0⟩))) fun _ => wp_pure ⟨hfree, rfl⟩

/-- An inode that can be locked. -/
structure Lockable (sb : Superblock) (s : State) (i : Fin NINODE) : Prop where
  ref : 1 ≤ (s.itable i).ref
  unlocked : (s.itable i).locked = false
  type : (inodeOf sb s i).type ≠ 0

theorem Lockable.ilock {i : Fin NINODE} (h : Lockable sb s i) :
    Fs.ilock sb i s = .ok ((), s.lock i (inodeOf sb s i)) := by
  cases hrun : Fs.ilock sb i s with
  | error e =>
    rcases (ilock_wp sb s i).stop hrun with ⟨_, hbad⟩ | ⟨_, hbad⟩ | ⟨_, hbad⟩
    · exact absurd h.ref hbad
    · exact absurd h.unlocked hbad
    · exact absurd hbad h.type
  | ok r => rw [← ((ilock_wp sb s i).ok hrun).2]

theorem iunlock_ok {i : Fin NINODE} (hlock : (s.itable i).locked = true)
    (href : 1 ≤ (s.itable i).ref) :
    iunlock i s = .ok ((), s.setInode i { s.itable i with locked := false }) := by
  unfold iunlock
  rw [inode, reads_bind_run, if_neg]
  · rfl
  · rintro (h1 | h1)
    · rw [hlock] at h1
      cases h1
    · omega

namespace Sample

theorem file_full : (state.itable 0).din.Full state.data := by
  intro bn hbn
  have hsize : bn * BSIZE < 2 := hbn
  obtain rfl : bn = 0 := by
    simp only [BSIZE] at hsize
    omega
  decide

end Sample

end Fs
end Xv6
