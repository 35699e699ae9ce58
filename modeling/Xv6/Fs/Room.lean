import Xv6.Fs.Write

/-!
# A piece of `filewrite` fits its reservation

`begin_op` reserves room for `MAXOPBLOCKS` blocks, and `filewrite` cuts its data
into pieces of `maxWrite` bytes so that a piece writes no more than that. The
count is kept in `Room s k`: the transaction may still grow by `k` blocks. A
block that is new to the file costs two, itself and its bitmap block, whichever
bitmap block that is; one that is there costs itself. The indirect block costs
two if it is new, and nothing once it is in the log.

A piece touches four blocks if it starts inside one. That one is there, since
the file has no holes, so the worst case is 1 + 3·2 + 2, and the inode's block.
-/

namespace Xv6
namespace Fs

open Function List
open Sys

variable {sb : Superblock} {s s' : State} {i : Fin NINODE}

/-- The blocks in the log are distinct, and `k` more make no more than
    `MAXOPBLOCKS`. -/
structure Room (s : State) (k : Nat) : Prop where
  nodup : s.lh.Nodup
  le : s.lh.length + k ≤ MAXOPBLOCKS

/-- A call does not stop because the log is too small for an operation. -/
def Fits (sb : Superblock) (e : Stop) : Prop :=
  MAXOPBLOCKS < sb.nlog → e ≠ .panic "too big a transaction"

/-- What the indirect block of an inode may still cost. -/
def indirectCost (s : State) (i : Fin NINODE) : Nat :=
  if (s.itable i).din.addrs 12 = 0 then 2
  else if (s.itable i).din.addrs 12 ∈ s.lh then 0 else 1

variable {addr b inum j k n off : Nat} {src : Ptr} {u : Umem}

theorem Room.mono (h : Room s k) (hj : j ≤ k) : Room s j :=
  ⟨h.nodup, by have := h.le; omega⟩

theorem Room.congr (h : Room s k) (hl : s'.lh = s.lh) : Room s' k :=
  ⟨hl ▸ h.nodup, hl ▸ h.le⟩

theorem indirectCost_le (s : State) (i : Fin NINODE) : indirectCost s i ≤ 2 := by
  unfold indirectCost
  split_ifs <;> omega

/-- More in the log costs less. -/
theorem indirectCost_mono (ha : (s'.itable i).din.addrs 12 = (s.itable i).din.addrs 12)
    (hl : s.lh ⊆ s'.lh) : indirectCost s' i ≤ indirectCost s i := by
  unfold indirectCost
  rw [ha]
  by_cases h0 : (s.itable i).din.addrs 12 = 0
  · rw [if_pos h0, if_pos h0]
  · rw [if_neg h0, if_neg h0]
    by_cases hm : (s.itable i).din.addrs 12 ∈ s.lh
    · rw [if_pos hm, if_pos (hl hm)]
    · rw [if_neg hm]
      split_ifs <;> omega

/-! ## Logging -/

/-- What a call does to the log and the table: the log grows, the table
    stays. -/
structure Grows (s s' : State) : Prop where
  lh : s.lh ⊆ s'.lh
  table : s'.itable = s.itable

theorem Grows.refl (s : State) : Grows s s := ⟨fun _ h => h, rfl⟩

theorem Grows.trans {s'' : State} (h : Grows s s') (h' : Grows s' s'') : Grows s s'' :=
  ⟨fun _ hb => h'.lh (h.lh hb), h'.table.trans h.table⟩

theorem Grows.cost (h : Grows s s') (i : Fin NINODE) : indirectCost s' i ≤ indirectCost s i :=
  indirectCost_mono (by rw [h.table]) h.lh

theorem logWrite_fits (h : Room s k) (hk : 0 < k) :
    (logWrite sb b).wp s (fun _ s' => Grows s s' ∧ b ∈ s'.lh ∧
      (b ∈ s.lh → Room s' k) ∧ Room s' (k - 1)) (Fits sb) := by
  have hle := h.le
  unfold Sys.wp logWrite
  by_cases hbig : s.lh.length ≥ LOGSIZE ∨ (s.lh.length : Int) ≥ (sb.nlog : Int) - 1
  · rw [if_pos hbig]
    intro hnlog
    simp only [LOGSIZE, MAXOPBLOCKS] at *
    omega
  rw [if_neg hbig]
  by_cases hout : s.outstanding < 1
  · rw [if_pos hout]
    exact fun _ => by decide
  rw [if_neg hout]
  refine ⟨⟨fun c hc => Log.mem_absorb.mpr (.inl hc), rfl⟩, Log.mem_absorb.mpr (.inr rfl),
    fun hmem => ?_, ⟨Log.absorb_nodup h.nodup, ?_⟩⟩
  · have hsame : Log.absorb s.lh b = s.lh := Log.absorb_of_mem hmem
    exact ⟨hsame.symm ▸ h.nodup, hsame.symm ▸ hle⟩
  · show (Log.absorb s.lh b).length + (k - 1) ≤ MAXOPBLOCKS
    have hlen : (Log.absorb s.lh b).length ≤ s.lh.length + 1 := Log.absorb_length_le
    omega

theorem log_new (h : Room s (k + 1)) :
    (logWrite sb b).wp s (fun _ s' => Grows s s' ∧ b ∈ s'.lh ∧ Room s' k) (Fits sb) :=
  (logWrite_fits h k.succ_pos).imp fun _ _ hr => ⟨hr.1, hr.2.1, hr.2.2.2⟩

theorem log_again (h : Room s k) (hk : 0 < k) (hb : b ∈ s.lh) :
    (logWrite sb b).wp s (fun _ s' => Grows s s' ∧ Room s' k) (Fits sb) :=
  (logWrite_fits h hk).imp fun _ _ hr => ⟨hr.1, hr.2.2.1 hb⟩

theorem bstore_fits {m : Bytes} (h : Room s k) :
    (bstore b m).wp s (fun _ s' => Grows s s' ∧ Room s' k ∧ s'.lh = s.lh) (Fits sb) :=
  ⟨⟨fun _ hb => hb, rfl⟩, h.congr rfl, rfl⟩

/-! ## Allocation -/

/-- **`balloc`** costs two blocks at most, on any bitmap; the one it returns is
    then in the log. -/
theorem ballocLoop_fits (h : Room s (k + 2)) (fuel b : Nat) : (ballocLoop sb fuel b).wp s
      (fun r s' => Grows s s' ∧ Room s' k ∧ (r ≠ 0 → r ∈ s'.lh)) (Fits sb) := by
  induction fuel generalizing b with
  | zero => intro _ h; cases h
  | succ fuel ih =>
    unfold ballocLoop
    apply wp_ite
    · intro _
      apply wp_bind
      apply wp_reads
      cases freeBit (s.data (sb.BBLOCK b)) b sb.size BPB 0 with
      | none => exact ih (b + BPB)
      | some bi =>
        refine (bstore_fits h).bind ?_
        rintro _ s1 ⟨hg1, hr1, _⟩
        refine (log_new hr1).bind ?_
        rintro _ s2 ⟨hg2, _, hr2⟩
        unfold bzero
        refine wp.bind (Q := fun _ s' => Grows s2 s' ∧ b + bi ∈ s'.lh ∧ Room s' k) ?_ ?_
        · apply wp_bind
          apply wp_reads
          refine (bstore_fits hr2).bind ?_
          rintro _ s3 ⟨hg3, hr3, _⟩
          exact (log_new hr3).imp fun _ _ hr => ⟨hg3.trans hr.1, hr.2⟩
        · rintro _ s3 ⟨hg3, hmem, hr3⟩
          apply wp_pure
          exact ⟨(hg1.trans hg2).trans hg3, hr3, fun _ => hmem⟩
    · intro _
      apply wp_pure
      exact ⟨.refl s, h.mono (by omega), fun hne => absurd rfl hne⟩

theorem balloc_fits (h : Room s (k + 2)) :
    (balloc sb).wp s (fun r s' => Grows s s' ∧ Room s' k ∧ (r ≠ 0 → r ∈ s'.lh)) (Fits sb) :=
  ballocLoop_fits h _ _

/-! ## `bmap` -/

/-- After `bmap` with room for `k` blocks, a new one and the indirect block: it
    found the block and the room is still there, or it failed, or it returned a
    new block, which is in the log. -/
inductive Mapped (i : Fin NINODE) (k : Nat) : Nat → State → Prop where
  | found (b : Nat) {s' : State} (h : Room s' (k + 2 + indirectCost s' i)) : Mapped i k b s'
  | failed {s' : State} (h : Room s' k) : Mapped i k 0 s'
  | fresh {b : Nat} {s' : State} (hb : b ∈ s'.lh) (h : Room s' (k + indirectCost s' i)) :
      Mapped i k b s'

theorem bmapEntry_fits {bn : Nat} (ha : (s.itable i).din.addrs 12 = addr) (h0 : addr ≠ 0)
    (hk : 0 < k) (h : Room s (k + 2 + indirectCost s i)) :
    (bmapEntry sb addr bn).wp s (Mapped i k) (Fits sb) := by
  unfold bmapEntry
  apply wp_bind
  apply wp_reads
  apply wp_ite
  · intro _
    have hroom : Room s (k + indirectCost s i + 2) := h.mono (by omega)
    refine (balloc_fits hroom).bind fun b s1 ⟨hg1, hr1, hmem⟩ => ?_
    apply wp_ite
    · intro hb
      apply wp_bind
      apply wp_reads
      refine (bstore_fits hr1).bind fun _ s2 ⟨hg2, hr2, hl2⟩ => ?_
      have hg := hg1.trans hg2
      have hfinal : ∀ s3, Grows s2 s3 → addr ∈ s3.lh → Room s3 k →
          Mapped i k b s3 := by
        intro s3 hg3 hin hr3
        refine .fresh (hg3.lh (hl2 ▸ hmem hb)) ?_
        have hcost : indirectCost s3 i = 0 := by
          unfold indirectCost
          rw [(hg.trans hg3).table, ha, if_neg h0, if_pos hin]
        rw [hcost]
        exact hr3
      by_cases hin : addr ∈ s2.lh
      · refine (log_again hr2 (by omega) hin).bind fun _ s3 ⟨hg3, hr3⟩ => ?_
        apply wp_pure
        exact hfinal s3 hg3 (hg3.lh hin) (hr3.mono (by omega))
      · -- the indirect block is entered now
        have hcost : indirectCost s i = 1 := by
          unfold indirectCost
          rw [ha, if_neg h0, if_neg fun hin' => hin (hg.lh hin')]
        rw [hcost] at hr2
        refine (log_new hr2).bind fun _ s3 ⟨hg3, hin3, hr3⟩ => ?_
        apply wp_pure
        exact hfinal s3 hg3 hin3 hr3
    · intro hb
      apply wp_pure
      obtain rfl : b = 0 := not_not.mp hb
      exact .failed (hr1.mono (by omega))
  · intro _
    apply wp_pure
    exact .found _ h

/-- **`bmap`** costs a new block and its bitmap block, besides the indirect
    block. -/
theorem bmap_fits {bn : Nat} (hk : 0 < k) (h : Room s (k + 2 + indirectCost s i)) :
    (bmap sb i bn).wp s (Mapped i k) (Fits sb) := by
  have hroom : Room s (k + indirectCost s i + 2) := h.mono (by omega)
  unfold bmap
  apply wp_bind
  apply wp_reads
  by_cases hdirect : bn < NDIRECT
  · rw [dif_pos hdirect]
    apply wp_ite
    · intro _
      refine (balloc_fits hroom).bind fun b s1 ⟨hg1, hr1, hmem⟩ => ?_
      apply wp_ite
      · intro hb
        apply wp_pure
        exact .failed (hr1.mono (by omega))
      · intro hb
        apply wp_bind
        apply wp_modify
        apply wp_pure
        generalize hs2 : s1.setDin i { (s.itable i).din with
          addrs := update (s.itable i).din.addrs ⟨bn, Nat.lt_succ_of_lt hdirect⟩ b } = s2
        have hl2 : s2.lh = s1.lh := by rw [← hs2]; rfl
        have ha : (s2.itable i).din.addrs 12 = (s.itable i).din.addrs 12 := by
          rw [← hs2, setDin_din]
          refine update_of_ne (fun e => ?_) _ _
          have hval : 12 = bn := congrArg Fin.val e
          simp only [NDIRECT] at hdirect
          omega
        have hcost := indirectCost_mono ha (hl2 ▸ hg1.lh)
        exact .fresh (hl2 ▸ hmem hb) ((hr1.congr hl2).mono (by omega))
    · intro _
      apply wp_pure
      exact .found _ h
  rw [dif_neg hdirect]
  apply wp_ite
  · intro _
    by_cases h12 : (s.itable i).din.addrs 12 = 0
    · rw [if_pos h12]
      have hcost : indirectCost s i = 2 := if_pos h12
      rw [hcost] at h
      have h' : Room s (k + 2 + 2) := h
      refine (balloc_fits h').bind fun x s1 ⟨hg1, hr1, hmem⟩ => ?_
      apply wp_ite
      · intro hx
        apply wp_pure
        exact .failed (hr1.mono (by omega))
      · intro hx
        apply wp_bind
        apply wp_modify
        generalize hs2 : s1.setDin i
          { (s.itable i).din with addrs := update (s.itable i).din.addrs 12 x } = s2
        have ha : (s2.itable i).din.addrs 12 = x := by
          rw [← hs2, setDin_din]
          show update (s.itable i).din.addrs 12 x 12 = x
          rw [update_self]
        have hl2 : s2.lh = s1.lh := by rw [← hs2]; rfl
        have hin : x ∈ s2.lh := hl2 ▸ hmem hx
        have hcost2 : indirectCost s2 i = 0 := by
          unfold indirectCost
          rw [ha, if_neg hx, if_pos hin]
        refine bmapEntry_fits ha hx hk ?_
        rw [hcost2]
        exact hr1.congr hl2
    · rw [if_neg h12]
      exact bmapEntry_fits rfl h12 hk h
  · intro _
    exact fun _ => by decide

/-! ## `writei` -/

/-- A turn of the loop of `writei`, with room for `c` more afterwards: it costs
    two blocks, or one if the file's block is there. -/
theorem writeiLoop_turn_fits {fuel tot c : Nat} {Q : Nat × Nat → State → Prop} (hc : 0 < c)
    (hlt : tot < n) (h : Room s (c + 2 + indirectCost s i) ∨
      (s.itable i).din.block s.data (off / BSIZE) ≠ 0 ∧
      Room s (c + 1 + indirectCost s i)) (hstop : ∀ r s', Room s' c → Q r s')
    (hrest : ∀ s', Room s' (c + indirectCost s' i) → (writeiLoop sb i src n fuel
      (tot + chunk off (n - tot)) (off + chunk off (n - tot))).wp s' Q (Fits sb)) :
    (writeiLoop sb i src n (fuel + 1) tot off).wp s Q (Fits sb) := by
  unfold writeiLoop
  rw [if_pos hlt]
  -- what follows `bmap`: the block is in the log, or there is room for it
  have hafter : ∀ (addr : Nat) (s1 : State), Room s1 (c + 1 + indirectCost s1 i) ∨
      addr ∈ s1.lh ∧ Room s1 (c + indirectCost s1 i) →
      (bread addr >>= fun b =>
        bstore addr (eitherCopyin b (off % BSIZE) src tot (chunk off (n - tot))).1 >>= fun _ =>
        if (eitherCopyin b (off % BSIZE) src tot (chunk off (n - tot))).2 = -1 then
          pure (tot, off)
        else logWrite sb addr >>= fun _ =>
          writeiLoop sb i src n fuel (tot + chunk off (n - tot)) (off + chunk off (n - tot))).wp s1
        Q (Fits sb) := by
    intro addr s1 hroom
    apply wp_bind
    apply wp_reads
    apply wp_bind
    apply wp_modify
    generalize hs2 : s1.setData addr (eitherCopyin (s1.data addr) (off % BSIZE) src tot
      (chunk off (n - tot))).1 = s2
    have hl : s2.lh = s1.lh := by rw [← hs2]; rfl
    have ht : s2.itable = s1.itable := by rw [← hs2]; rfl
    have hg : Grows s1 s2 := ⟨fun _ hb => hl.symm ▸ hb, ht⟩
    have hcost := hg.cost i
    apply wp_ite
    · intro _
      apply wp_pure
      refine hstop _ _ ?_
      rcases hroom with hr | ⟨_, hr⟩
      · exact (hr.congr hl).mono (by omega)
      · exact (hr.congr hl).mono (by omega)
    · intro _
      rcases hroom with hr | ⟨hin, hr⟩
      · refine (log_new (k := c + indirectCost s1 i) ((hr.congr hl).mono (by omega))).bind ?_
        rintro _ s3 ⟨hg3, _, hr3⟩
        have := (hg.trans hg3).cost i
        exact hrest s3 (hr3.mono (by omega))
      · refine (log_again (hr.congr hl) (by omega) (hl.symm ▸ hin)).bind ?_
        rintro _ s3 ⟨hg3, hr3⟩
        have := (hg.trans hg3).cost i
        exact hrest s3 (hr3.mono (by omega))
  rcases h with h | ⟨hthere, h⟩
  · refine (bmap_fits hc h).bind fun addr s1 hm => ?_
    apply wp_ite
    · intro _
      apply wp_pure
      refine hstop _ _ ?_
      cases hm with
      | found _ h1 => exact h1.mono (by omega)
      | failed h1 => exact h1
      | fresh _ h1 => exact h1.mono (by omega)
    · intro hne
      refine hafter addr s1 ?_
      cases hm with
      | found _ h1 => exact .inl (h1.mono (by omega))
      | failed h1 => exact absurd rfl hne
      | fresh hin h1 => exact .inr ⟨hin, h1⟩
  · apply wp_bind
    refine wp_of_ok (bmap_present hthere) ?_
    rw [if_neg hthere]
    exact hafter _ s (.inl h)

/-- **The loop of `writei`** costs two for every block of the range, besides the
    indirect block. -/
theorem writeiLoop_fits (hk : 0 < k) : ∀ (fuel tot off : Nat) {s : State},
    Room s (2 * (spanned off (n - tot)).length + k + indirectCost s i) →
    (writeiLoop sb i src n fuel tot off).wp s (fun _ s' => Room s' k) (Fits sb) := by
  intro fuel
  induction fuel with
  | zero => exact fun tot off s _ _ => nofun
  | succ fuel ih =>
    intro tot off s h
    by_cases hlt : tot < n
    · have hspan := spanned_step off (Nat.sub_pos_of_lt hlt)
      rw [hspan, length_cons] at h
      refine writeiLoop_turn_fits (by omega) hlt
        (c := 2 * (spanned (off + chunk off (n - tot)) (n - tot - chunk off (n - tot))).length + k)
        (.inl (h.mono (by omega))) (fun _ _ hr => hr.mono (by omega)) fun s' hr => ?_
      rw [Nat.sub_sub] at hr
      exact ih _ _ hr
    · unfold writeiLoop
      rw [if_neg hlt]
      apply wp_pure
      exact h.mono (by omega)

theorem spanned_length_le (off : Nat) (hn : n ≤ maxWrite) : (spanned off n).length ≤ 4 := by
  unfold spanned
  split_ifs
  · exact Nat.zero_le _
  · rw [length_range']
    simp only [maxWrite, MAXOPBLOCKS, BSIZE] at *
    omega

/-- The blocks of a piece after the first, and of one that starts with a
    block. -/
theorem spanned_length_aligned (hn : n ≤ maxWrite) (hoff : off % BSIZE = 0) :
    (spanned off n).length ≤ 3 := by
  unfold spanned
  split_ifs
  · exact Nat.zero_le _
  · rw [length_range']
    simp only [maxWrite, MAXOPBLOCKS, BSIZE] at *
    omega

/-- **`writei` of one piece.** For every inode without holes, whatever the
    offset, the bitmap, the number of bitmap blocks and the source: from an
    empty log, at most `MAXOPBLOCKS` blocks. -/
theorem writei_fits (hl : s.lh = []) (hn : n ≤ maxWrite) (hfull : (s.itable i).din.Full s.data) :
    (writei sb i src off n).wp s (fun _ s' => Room s' 0) (Fits sb) := by
  have hroom : Room s MAXOPBLOCKS := by
    refine ⟨?_, ?_⟩
    · rw [hl]
      exact nodup_nil
    · rw [hl]
      exact le_rfl
  have hcost := indirectCost_le s i
  unfold writei
  apply wp_bind
  apply wp_reads
  apply wp_ite
  · intro _
    apply wp_pure
    exact hroom.mono (Nat.zero_le _)
  intro hbad
  apply wp_ite
  · intro _
    apply wp_pure
    exact hroom.mono (Nat.zero_le _)
  intro _
  have hloop : (writeiLoop sb i src n (n + 1) 0 off).wp s (fun _ s' => Room s' 1) (Fits sb) := by
    by_cases hoff : off % BSIZE = 0
    · have hlen := spanned_length_aligned hn hoff
      refine writeiLoop_fits one_pos _ _ _ (hroom.mono ?_)
      rw [Nat.sub_zero]
      simp only [MAXOPBLOCKS]
      omega
    by_cases hpos : 0 < n
    · -- the first block has a byte of the file before `off`
      have hthere : (s.itable i).din.block s.data (off / BSIZE) ≠ 0 := by
        apply hfull
        have := Nat.div_add_mod off BSIZE
        have hle : ¬ off > (s.itable i).din.size := fun h => hbad (.inl h)
        rw [Nat.mul_comm]
        omega
      have hspan := spanned_step off hpos
      have hlen := spanned_length_le off hn
      rw [hspan, length_cons] at hlen
      refine writeiLoop_turn_fits (by omega) hpos
        (c := 2 * (spanned (off + chunk off (n - 0)) (n - (0 + chunk off (n - 0)))).length + 1)
        (.inr ⟨hthere, hroom.mono ?_⟩) (fun _ _ hr => hr.mono (by omega)) fun s' hr =>
          writeiLoop_fits one_pos _ _ _ hr
      rw [Nat.sub_zero, Nat.zero_add]
      simp only [MAXOPBLOCKS]
      omega
    · obtain rfl : n = 0 := by omega
      exact hroom.mono (by decide)
  refine hloop.bind fun r s1 hr1 => ?_
  apply wp_bind
  apply wp_reads
  apply wp_bind
  apply wp_modify
  unfold iupdate
  have hr2 : Room (s1.setDin i { (s1.itable i).din with
      size := if r.2 > (s1.itable i).din.size then r.2 else (s1.itable i).din.size }) 1 :=
    hr1.congr rfl
  refine wp.bind (Q := fun _ s' => Room s' 0) ?_ fun _ s' hr => wp_pure hr
  apply wp_bind
  apply wp_reads
  apply wp_bind
  apply wp_reads
  refine (bstore_fits hr2).bind fun _ s3 ⟨_, hr3, _⟩ => ?_
  exact (log_new hr3).imp fun _ _ hr => hr.2.2

end Fs
end Xv6
