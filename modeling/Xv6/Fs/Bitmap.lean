import Xv6.Fs.Blocks

/-!
# The block allocator is exact

`balloc` and `bfree` on an arbitrary disk: nothing is asked of the inodes, and
the size need be no multiple of anything. `b`, `bi` and `sb.size` are `int`s and
a `uint` in the source; below `2 ^ 31` they are the numbers they are here.

What is asked of the bitmap is that it knows about itself. `balloc` marks a
block and then zeroes it, so that a bitmap block whose own bit is clear is
handed out, and the bitmap is gone.
-/

namespace Xv6
namespace Fs

open Function
open Sys

section Exact

variable {sb : Superblock} {s s' : State} {b k : Nat}

/-- A transaction with room for `k` more blocks. -/
structure InTrans (sb : Superblock) (s : State) (k : Nat) : Prop where
  trans : 1 ≤ s.outstanding
  log : s.lh.length + k ≤ LOGSIZE
  disk : s.lh.length + k < sb.nlog

theorem InTrans.logBlock (h : InTrans sb s (k + 1)) (b : Nat) (m : Bytes) :
    InTrans sb (s.logBlock b m) k := by
  have hlog := h.log
  have hdisk := h.disk
  have hlen : (s.logBlock b m).lh.length ≤ s.lh.length + 1 := by
    show (Log.absorb s.lh b).length ≤ _
    by_cases hb : b ∈ s.lh
    · rw [Log.absorb_of_mem hb]
      omega
    · rw [Log.absorb_of_not_mem hb, List.length_append, List.length_singleton]
  exact ⟨h.trans, by omega, by omega⟩

theorem InTrans.store (h : InTrans sb s (k + 1)) (b : Nat) (m : Bytes) :
    logWrite sb b (s.setData b m) = .ok ((), s.logBlock b m) := by
  have hlog := h.log
  have hdisk := h.disk
  have hsmall : ¬ (s.lh.length ≥ LOGSIZE ∨ (s.lh.length : Int) ≥ (sb.nlog : Int) - 1) := by omega
  exact (if_neg hsmall).trans (if_neg (Nat.not_lt.mpr h.trans))

/-- The bitmap is on the disk and has its own blocks in use. -/
def SelfMarked (sb : Superblock) (data : Nat → Bytes) : Prop :=
  ∀ e < sb.size, sb.BBLOCK e < sb.size ∧ bitOf sb data (sb.BBLOCK e) = true

theorem SelfMarked.ne (h : SelfMarked sb s.data) (hb : bitOf sb s.data b = false) {e : Nat}
    (he : e < sb.size) : sb.BBLOCK e ≠ b := by
  rintro rfl
  rw [(h e he).2] at hb
  cases hb

/-- `b` was the first free block. Its bit, and no other of its bitmap block, has
    been set; it is zeroed; and no other block has changed. -/
structure Allocated (sb : Superblock) (s s' : State) (b : Nat) : Prop where
  first : FirstFree sb s.data b
  bits : ∀ j, (s'.data (sb.BBLOCK b)).testBit j =
    if j = b % BPB then true else (s.data (sb.BBLOCK b)).testBit j
  zero : s'.data b = (s.data b).fill 0 BSIZE 0
  same : ∀ c, c ≠ b → c ≠ sb.BBLOCK b → s'.data c = s.data c

theorem takeBlock_exact (hself : SelfMarked sb s.data) (hb : FirstFree sb s.data b)
    (hs : InTrans sb s 2) :
    ∃ s', takeBlock sb b s = .ok (b, s') ∧ Allocated sb s s' b ∧
      s'.data (sb.BBLOCK b) = (s.data (sb.BBLOCK b)).setBit (b % BPB) := by
  have hne : sb.BBLOCK b ≠ b := hself.ne hb.2.1 hb.1
  have hmark := hs.store (sb.BBLOCK b) ((s.data (sb.BBLOCK b)).setBit (b % BPB))
  have hs1 := hs.logBlock (sb.BBLOCK b) ((s.data (sb.BBLOCK b)).setBit (b % BPB))
  generalize hm : s.logBlock (sb.BBLOCK b) ((s.data (sb.BBLOCK b)).setBit (b % BPB)) = s1
    at hmark hs1
  have hzero := hs1.store b ((s1.data b).fill 0 BSIZE 0)
  have hdata : s1.data b = s.data b := by
    rw [← hm]
    exact update_of_ne hne.symm _ _
  have hmap : (s1.logBlock b ((s1.data b).fill 0 BSIZE 0)).data (sb.BBLOCK b) =
      (s.data (sb.BBLOCK b)).setBit (b % BPB) := by
    refine (update_of_ne hne _ _).trans ?_
    rw [← hm]
    exact update_self _ _ _
  refine ⟨s1.logBlock b ((s1.data b).fill 0 BSIZE 0), ?_, ⟨hb, fun j => ?_, ?_, fun c h1 h2 => ?_⟩,
    hmap⟩
  · have hfill : bzero sb b s1 = .ok ((), s1.logBlock b ((s1.data b).fill 0 BSIZE 0)) := by
      unfold bzero
      rw [bread, reads_bind_run, bstore, modify_bind_run, hzero]
    unfold takeBlock
    rw [bread, reads_bind_run, bstore, modify_bind_run, bind_of_ok hmark,
      bind_of_ok hfill]
    rfl
  · rw [hmap, Bytes.testBit_setBit]
    by_cases hj : j = b % BPB
    · simp [hj]
    · simp [hj]
  · rw [← hdata]
    exact update_self _ _ _
  · refine (update_of_ne h1 _ _).trans ?_
    rw [← hm]
    exact update_of_ne h2 _ _

theorem bfree_exact (hs : InTrans sb s 1) (hb : (s.data (sb.BBLOCK b)).testBit (b % BPB) = true) :
    ∃ s', bfree sb b s = .ok ((), s') ∧
      s'.data (sb.BBLOCK b) = (s.data (sb.BBLOCK b)).clearBit (b % BPB) ∧
      ∀ c, c ≠ sb.BBLOCK b → s'.data c = s.data c := by
  refine ⟨s.logBlock (sb.BBLOCK b) ((s.data (sb.BBLOCK b)).clearBit (b % BPB)), ?_,
    update_self _ _ _, fun c hc => update_of_ne hc _ _⟩
  unfold bfree
  rw [bread, reads_bind_run, hb, if_neg (by decide), bstore, modify_bind_run]
  exact hs.store _ _

/-- **`balloc` is exact.** It takes the first free block below `sb.size`, and
    returns 0 with nothing changed exactly if there is none; `bfree` of that
    block puts the bitmap back to the byte. -/
theorem balloc_exact (hself : SelfMarked sb s.data) (hs : InTrans sb s 2) :
    ∃ b s', balloc sb s = .ok (b, s') ∧
      ((∀ c < sb.size, bitOf sb s.data c = true) ∧ b = 0 ∧ s' = s ∨
        Allocated sb s s' b ∧
          ∀ s₂, s₂.data = s'.data → InTrans sb s₂ 1 → ∃ s₃, bfree sb b s₂ = .ok ((), s₃) ∧
            ∀ e < sb.size, s₃.data (sb.BBLOCK e) = s.data (sb.BBLOCK e)) ∧
      (s' = s ↔ ∀ c < sb.size, bitOf sb s.data c = true) ∧
      (bitOf sb s.data 0 = true → b = 0 → s' = s) ∧
      ∀ c e, sb.size ≤ c → e < sb.size → sb.BBLOCK c = sb.BBLOCK e →
        bitOf sb s'.data c = bitOf sb s.data c := by
  rcases balloc_cases sb s with ⟨hfull, hrun⟩ | ⟨b, hfirst, hrun⟩
  · exact ⟨0, s, hrun, .inl ⟨hfull, rfl, rfl⟩, iff_of_true rfl hfull, fun _ _ => rfl,
      fun _ _ _ _ _ => rfl⟩
  obtain ⟨s', htake, halloc, hmap⟩ := takeBlock_exact hself hfirst hs
  refine ⟨b, s', hrun.trans htake, .inr ⟨halloc, fun s₂ hdata hs2 => ?_⟩,
    iff_of_false ?_ fun hall => ?_, fun h0 hb => ?_, fun c e hc he hce => ?_⟩
  · obtain ⟨s₃, hfree, hblk, hsame⟩ := bfree_exact (b := b) hs2 (by
      rw [hdata, halloc.bits, if_pos rfl])
    refine ⟨s₃, hfree, fun e he => ?_⟩
    by_cases hbe : sb.BBLOCK e = sb.BBLOCK b
    · rw [hbe, hblk, hdata, hmap, Bytes.clearBit_setBit hfirst.2.1]
    · rw [hsame _ hbe, hdata, halloc.same _ (hself.ne hfirst.2.1 he) hbe]
  · rintro rfl
    have hbit := halloc.bits (b % BPB)
    rw [if_pos rfl] at hbit
    exact Bool.false_ne_true (hfirst.2.1.symm.trans hbit)
  · exact Bool.false_ne_true (hfirst.2.1.symm.trans (hall b hfirst.1))
  · subst hb
    exact absurd (hfirst.2.1.symm.trans h0) Bool.false_ne_true
  · unfold bitOf
    by_cases hbc : sb.BBLOCK c = sb.BBLOCK b
    · have hmod : c % BPB ≠ b % BPB := by
        have hlt := hfirst.1
        simp only [Superblock.BBLOCK, BPB, BSIZE] at hbc ⊢
        omega
      rw [hbc, halloc.bits, if_neg hmod]
    · rw [halloc.same _ (hce ▸ hself.ne hfirst.2.1 he) hbc]

end Exact

/-! ## A disk of eleven blocks, with the bitmap in block 2 -/

namespace Eleven

def sb : Superblock where
  magic := FSMAGIC
  size := 11
  nblocks := 8
  ninodes := 0
  nlog := 30
  logstart := 0
  inodestart := 0
  bmapstart := 2

/-- The first byte of the bitmap is `bits`; a transaction has just begun. -/
def state (bits : UInt8) : State where
  data := fun b a => if b = 2 ∧ a = 0 then bits else 0
  home := fun b a => if b = 2 ∧ a = 0 then bits else 0
  lh := []
  outstanding := 1
  itable := fun _ => ⟨0, 0, 0, false, false, .fresh 0⟩

theorem inTrans (bits : UInt8) : InTrans sb (state bits) 2 := by
  constructor
  · exact le_refl 1
  · show 0 + 2 ≤ LOGSIZE
    decide
  · show 0 + 2 < 30
    decide

end Eleven

/-- The first eight blocks are in use. -/
theorem balloc_exact_eleven : ∃ b s', balloc Eleven.sb (Eleven.state 255) = .ok (b, s') ∧
    (Allocated Eleven.sb (Eleven.state 255) s' b ∧ b = 8) := by
  have hself : SelfMarked Eleven.sb (Eleven.state 255).data := by
    unfold SelfMarked
    decide
  obtain ⟨b, s', hrun, hres, -⟩ := balloc_exact hself (Eleven.inTrans 255)
  obtain ⟨b', s'', hrun', hb⟩ := exists_of_check (show (balloc Eleven.sb).check (Eleven.state 255)
    (fun b _ => decide (b = 8)) = true by decide +kernel)
  rw [hrun] at hrun'
  cases hrun'
  have hb8 : b = 8 := of_decide_eq_true hb
  rcases hres with ⟨_, h0, _⟩ | ⟨halloc, _⟩
  · rw [hb8] at h0
    cases h0
  · exact ⟨b, s', hrun, halloc, hb8⟩

/-- Blocks 0 and 1 are in use and block 2, the bitmap, is not said to be:
    `balloc` returns it, and then no bit is set any more. -/
theorem balloc_takes_bitmap : ∃ s', balloc Eleven.sb (Eleven.state 3) = .ok (2, s') ∧
    FirstFree Eleven.sb (Eleven.state 3).data 2 ∧ ∀ c < Eleven.sb.size,
      bitOf Eleven.sb s'.data c = false := by
  obtain ⟨b, s', hrun, hcheck⟩ := exists_of_check (show (balloc Eleven.sb).check (Eleven.state 3)
    (fun b s' => decide (b = 2) && (List.range 11).all fun c => !bitOf Eleven.sb s'.data c) = true
      by decide +kernel)
  rw [Bool.and_eq_true, decide_eq_true_iff, List.all_eq_true] at hcheck
  obtain ⟨rfl, hbits⟩ := hcheck
  refine ⟨s', hrun, ?_, fun c hc => by simpa using hbits c (List.mem_range.mpr hc)⟩
  unfold FirstFree
  decide

end Fs
end Xv6
