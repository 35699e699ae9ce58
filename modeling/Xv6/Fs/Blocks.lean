import Xv6.Fs.Volume
import Xv6.Lib.Wp

/-!
# Allocating and freeing blocks

What `log_write`, `balloc` and `bfree` do to a volume. Each is specified once,
with the room it needs in the log: `CanLog sb X P s k` says that from `s` on,
the blocks of `P` and `k` others can be written with `log_write`, or that `X`
allows the panics that this would end in. After that there is room for one more,
since `log_write` asks only whether the log is full before it adds a block.
-/

namespace Xv6
namespace Fs

open Function Finset Nat
open Sys

variable {sb : Superblock} {X : Stop → Prop} {P : Finset Nat} {s s' s'' : State} {k : Nat}

/-! ## The log -/

/-- Calls of `log_write` for the blocks of `P` and for `k` others do not stop,
    unless in a way that `X` allows. The blocks of `P` that are in the log
    already need no room. -/
structure CanLog (sb : Superblock) (X : Stop → Prop) (P : Finset Nat) (s : State) (k : Nat) :
    Prop where
  room : X (.panic "too big a transaction") ∨
    (s.lh.length + (P \ s.lh.toFinset).card + k < LOGSIZE ∧
      s.lh.length + (P \ s.lh.toFinset).card + k + 1 < sb.nlog)
  trans : X (.panic "log_write outside of trans") ∨ 1 ≤ s.outstanding

theorem CanLog.congr (h : CanLog sb X P s k) (hl : s'.lh = s.lh)
    (ho : s'.outstanding = s.outstanding) : CanLog sb X P s' k :=
  ⟨by rw [hl]; exact h.room, by rw [ho]; exact h.trans⟩

/-- All bitmap blocks are in `P`. -/
def Bitmaps (sb : Superblock) (P : Finset Nat) : Prop := ∀ b < sb.size, sb.BBLOCK b ∈ P

theorem CanLog.any (P : Finset Nat) (s : State) (k : Nat) : CanLog sb (fun _ => True) P s k :=
  ⟨.inl trivial, .inl trivial⟩

/-- What a call inside a transaction does to blocks: those it changes are in the
    log. -/
structure Logs (s s' : State) : Prop where
  home : s'.home = s.home
  outstanding : s'.outstanding = s.outstanding
  lh : ∀ b ∈ s.lh, b ∈ s'.lh
  logged : ∀ b, s'.data b = s.data b ∨ b ∈ s'.lh

theorem Logs.refl (s : State) : Logs s s := ⟨rfl, rfl, fun _ h => h, fun _ => .inl rfl⟩

theorem Logs.trans (h : Logs s s') (h' : Logs s' s'') : Logs s s'' where
  home := h'.home.trans h.home
  outstanding := h'.outstanding.trans h.outstanding
  lh := fun b hb => h'.lh b (h.lh b hb)
  logged := fun b => by
    rcases h'.logged b with h2 | h2
    · rcases h.logged b with h1 | h1
      · exact .inl (h2.trans h1)
      · exact .inr (h'.lh b h1)
    · exact .inr h2

theorem Logs.setInode (h : Logs s s') (i : Fin NINODE) (ip : Inode) : Logs s (s'.setInode i ip) :=
  ⟨h.home, h.outstanding, h.lh, h.logged⟩

/-- The state after a block has been changed and entered into the log. -/
def State.logBlock (s : State) (b : Nat) (m : Bytes) : State :=
  { s.setData b m with lh := Log.absorb s.lh b }

theorem Logs.logBlock (s : State) (b : Nat) (m : Bytes) : Logs s (s.logBlock b m) where
  home := rfl
  outstanding := rfl
  lh := fun _ hc => Log.mem_absorb.mpr (.inl hc)
  logged := fun c => by
    by_cases hc : c = b
    · exact .inr (Log.mem_absorb.mpr (.inr hc))
    · exact .inl (update_of_ne hc _ _)

variable {b bi fuel size : Nat} {m : Bytes}

theorem CanLog.absorb (h : CanLog sb X P s k) (hb : b ∈ P) :
    CanLog sb X P { s with lh := Log.absorb s.lh b } k := by
  refine ⟨h.room.imp_right fun hr => ?_, h.trans⟩
  show (Log.absorb s.lh b).length + (P \ (Log.absorb s.lh b).toFinset).card + k < LOGSIZE ∧
    (Log.absorb s.lh b).length + (P \ (Log.absorb s.lh b).toFinset).card + k + 1 < sb.nlog
  by_cases hmem : b ∈ s.lh
  · rw [Log.absorb_of_mem hmem]
    exact hr
  · -- the block moves from `P` into the log
    have hcard : (P \ (s.lh ++ [b]).toFinset).card + 1 = (P \ s.lh.toFinset).card := by
      have hset : (s.lh ++ [b]).toFinset = insert b s.lh.toFinset := by
        ext c
        simp
      have hin : b ∈ P \ s.lh.toFinset :=
        mem_sdiff.mpr ⟨hb, fun hc => hmem (List.mem_toFinset.mp hc)⟩
      rw [hset, sdiff_insert, card_erase_of_mem hin]
      have := card_pos.mpr ⟨b, hin⟩
      omega
    rw [Log.absorb_of_not_mem hmem, List.length_append, List.length_singleton]
    omega

theorem logWrite_wp (h : CanLog sb X P s k) : (logWrite sb b).wp s
      (fun _ s' => s' = { s with lh := Log.absorb s.lh b } ∧ (b ∈ P → CanLog sb X P s' k)) X := by
  by_cases hbig : s.lh.length ≥ LOGSIZE ∨ (s.lh.length : Int) ≥ (sb.nlog : Int) - 1
  · unfold Sys.wp logWrite
    rw [if_pos hbig]
    rcases h.room with hX | hroom
    · exact hX
    · omega
  · by_cases hout : s.outstanding < 1
    · unfold Sys.wp logWrite
      rw [if_neg hbig, if_pos hout]
      rcases h.trans with hX | ho
      · exact hX
      · omega
    · exact wp_of_ok (by unfold logWrite; rw [if_neg hbig, if_neg hout]) ⟨rfl, h.absorb⟩

theorem store_wp (h : CanLog sb X P s k) : (bstore b m >>= fun _ => logWrite sb b).wp s
      (fun _ s' => s' = s.logBlock b m ∧ (b ∈ P → CanLog sb X P s' k)) X := by
  apply wp_bind
  apply wp_modify
  have h' : CanLog sb X P (s.setData b m) k := h.congr rfl rfl
  exact logWrite_wp h'

theorem store_bind_wp {α : Type} {f : Unit → Sys State α}
    {Q : α → State → Prop} (h : CanLog sb X P s k) (hb : b ∈ P)
    (hf : CanLog sb X P (s.logBlock b m) k → (f ()).wp (s.logBlock b m) Q X) :
    (bstore b m >>= fun _ => logWrite sb b >>= f).wp s Q X := by
  apply wp_bind
  apply wp_modify
  have h' : CanLog sb X P (s.setData b m) k := h.congr rfl rfl
  refine (logWrite_wp h').bind ?_
  rintro ⟨⟩ s1 ⟨rfl, h1⟩
  exact hf (h1 hb)

/-! ## `balloc` -/

/-- The first free block. -/
def FirstFree (sb : Superblock) (data : Nat → Bytes) (b : Nat) : Prop :=
  b < sb.size ∧ bitOf sb data b = false ∧ ∀ c < b, bitOf sb data c = true

/-- `b` was the first free block; it has been marked in the bitmap and zeroed,
    and nothing else has changed. -/
structure Took (sb : Superblock) (s s' : State) (b : Nat) : Prop where
  first : FirstFree sb s.data b
  zero : s'.data b = (s.data b).fill 0 BSIZE 0
  bits : ∀ c < sb.size, bitOf sb s'.data c = update (bitOf sb s.data) b true c
  same : ∀ c, c ≠ b → (∀ e < sb.size, sb.BBLOCK e ≠ c) → s'.data c = s.data c
  table : s'.itable = s.itable

theorem freeBit_eq_some {r : Nat} (h : freeBit m b size fuel bi = some r) :
    bi ≤ r ∧ r < bi + fuel ∧ b + r < size ∧ m.testBit r = false := by
  induction fuel generalizing bi with
  | zero => cases h
  | succ fuel ih =>
    unfold freeBit at h
    split_ifs at h with h1 h2
    · cases h
      exact ⟨le_refl _, by omega, h1, h2⟩
    · obtain ⟨h3, h4, h5⟩ := ih h
      exact ⟨by omega, by omega, h5⟩

theorem freeBit_eq_none (h : freeBit m b size fuel bi = none) :
    ∀ r, bi ≤ r → r < bi + fuel → b + r < size → m.testBit r = true := by
  induction fuel generalizing bi with
  | zero =>
    intro r h1 h2
    omega
  | succ fuel ih =>
    intro r h1 h2 h3
    unfold freeBit at h
    split_ifs at h with h4 h5
    · by_cases hr : r = bi
      · subst hr
        exact Bool.eq_true_of_not_eq_false h5
      · exact ih h r (by omega) (by omega) h3
    · omega

theorem freeBit_first {r : Nat}
    (h : freeBit m b size fuel bi = some r) {j : Nat} (h1 : bi ≤ j) (h2 : j < r) :
    m.testBit j = true := by
  induction fuel generalizing bi with
  | zero => cases h
  | succ fuel ih =>
    unfold freeBit at h
    split_ifs at h with h3 h4
    · cases h
      omega
    · by_cases hj : j = bi
      · subst hj
        exact Bool.eq_true_of_not_eq_false h4
      · exact ih h (by omega)

theorem bitOf_add {data : Nat → Bytes} (hb : b % BPB = 0) (hbi : bi < BPB) :
    bitOf sb data (b + bi) = (data (sb.BBLOCK b)).testBit bi := by
  have hdiv : (b + bi) / BPB = b / BPB := by
    simp only [BPB, BSIZE] at *
    omega
  have hmod : (b + bi) % BPB = bi := by
    simp only [BPB, BSIZE] at *
    omega
  unfold bitOf Superblock.BBLOCK
  rw [hdiv, hmod]

theorem bitOf_update {data : Nat → Bytes} {c : Nat} {v : Bool}
    (hm : ∀ j, m.testBit j = if j = b % BPB then v else (data (sb.BBLOCK b)).testBit j) :
    bitOf sb (update data (sb.BBLOCK b) m) c =
      update (bitOf sb data) b v c := by
  by_cases hc : c = b
  · subst hc
    rw [update_self]
    unfold bitOf
    rw [update_self, hm, if_pos rfl]
  · rw [update_of_ne hc]
    unfold bitOf
    by_cases hblk : sb.BBLOCK c = sb.BBLOCK b
    · rw [hblk, update_self, hm, if_neg]
      intro hmod
      apply hc
      simp only [Superblock.BBLOCK, BPB, BSIZE] at hblk hmod
      omega
    · rw [update_of_ne hblk]

theorem took (hsb : sb.Ok) (hfirst : FirstFree sb s.data b) (hge : sb.dataStart ≤ b) :
    Took sb s ((s.logBlock (sb.BBLOCK b) ((s.data (sb.BBLOCK b)).setBit (b % BPB))).logBlock b
      ((s.data b).fill 0 BSIZE 0)) b where
  first := hfirst
  zero := update_self _ _ _
  bits := fun c hc => by
    refine (bitOf_congr (fun e he => update_of_ne (hsb.ne_bitmap hge he) _ _) hc).trans ?_
    show bitOf sb (update s.data (sb.BBLOCK b) _) c = _
    apply bitOf_update
    intro j
    rw [Bytes.testBit_setBit]
    by_cases hj : j = b % BPB
    · simp [hj]
    · simp [hj]
  same := fun c hc hbm => by
    have hcb : c ≠ sb.BBLOCK b := Ne.symm (hbm b hfirst.1)
    exact (update_of_ne hc _ _).trans (update_of_ne hcb _ _)
  table := rfl

/-- The number of free blocks. -/
def freeBlocks (sb : Superblock) (s : State) : Nat := freeCells sb.size (bitOf sb s.data)

/-- After the first free block has been marked, the others are left. -/
theorem FirstFree.freeList {data data' : Nat → Bytes} (h : FirstFree sb data b)
    (hbits : ∀ c < sb.size, bitOf sb data' c = update (bitOf sb data) b true c) :
    freeList sb.size (bitOf sb data) = b :: freeList sb.size (bitOf sb data') := by
  rw [freeList_take h.1 h.2.1 h.2.2, freeList_congr hbits]

/-- What `balloc` returns: a block that was free, or 0 if none is. -/
def Balloc (sb : Superblock) (s : State) (b : Nat) (s' : State) : Prop :=
  (b = 0 ∧ s' = s ∧ freeBlocks sb s = 0) ∨ (b ≠ 0 ∧ Took sb s s' b)

/-- What `balloc` does with the block it has found. -/
def takeBlock (sb : Superblock) (b : Nat) : Sys State Nat := do
  let m ← bread (sb.BBLOCK b)
  bstore (sb.BBLOCK b) (m.setBit (b % BPB))
  logWrite sb (sb.BBLOCK b)
  bzero sb b
  pure b

theorem ballocLoop_cases (fuel b : Nat) (hb : b % BPB = 0) (hfuel : sb.size + BPB ≤ b + fuel * BPB)
    (hpast : ∀ c < b, c < sb.size → bitOf sb s.data c = true) (h0 : fuel ≠ 0) :
    ((∀ c < sb.size, bitOf sb s.data c = true) ∧ ballocLoop sb fuel b s = .ok (0, s)) ∨
      ∃ c, FirstFree sb s.data c ∧ ballocLoop sb fuel b s = takeBlock sb c s := by
  -- on the number of turns left; the invariant is that every block before `b` is allocated
  induction fuel generalizing b with
  | zero => exact absurd rfl h0
  | succ fuel ih =>
    unfold ballocLoop
    by_cases hlt : b < sb.size
    · rw [if_pos hlt, bread, reads_bind_run]
      cases hbit : freeBit (s.data (sb.BBLOCK b)) b sb.size BPB 0 with
      | some bi =>
        obtain ⟨_, h2, h3, h4⟩ := freeBit_eq_some hbit
        rw [Nat.zero_add] at h2
        have hblk : sb.BBLOCK (b + bi) = sb.BBLOCK b := by
          simp only [Superblock.BBLOCK, BPB, BSIZE] at *
          omega
        have hmod : (b + bi) % BPB = bi := by
          simp only [BPB, BSIZE] at *
          omega
        refine .inr ⟨b + bi, ⟨h3, by rw [bitOf_add hb h2, h4], fun c hc => ?_⟩, ?_⟩
        · by_cases hcb : c < b
          · exact hpast c hcb (by omega)
          · obtain ⟨j, rfl⟩ := Nat.exists_eq_add_of_le (Nat.le_of_not_lt hcb)
            rw [bitOf_add hb (by omega)]
            exact freeBit_first hbit (Nat.zero_le j) (by omega)
        · unfold takeBlock
          rw [bread, reads_bind_run, hblk, hmod]
      | none =>
        have hfull := freeBit_eq_none hbit
        have hnext : ∀ c < b + BPB, c < sb.size → bitOf sb s.data c = true := by
          intro c hc hcs
          by_cases hcb : c < b
          · exact hpast c hcb hcs
          · obtain ⟨j, rfl⟩ := Nat.exists_eq_add_of_le (Nat.le_of_not_lt hcb)
            have hj : j < BPB := by omega
            rw [bitOf_add hb hj]
            exact hfull j (Nat.zero_le j) (by omega) hcs
        rw [succ_mul] at hfuel
        have hmore : fuel ≠ 0 := by
          rintro rfl
          omega
        exact ih (b + BPB) (by rw [add_mod_right]; exact hb) (by omega) hnext hmore
    · rw [if_neg hlt]
      exact .inl ⟨fun c hc => hpast c (by omega) hc, rfl⟩

/-- **`balloc`** takes the first free block, and nothing if there is none. -/
theorem balloc_cases (sb : Superblock) (s : State) :
    ((∀ c < sb.size, bitOf sb s.data c = true) ∧ balloc sb s = .ok (0, s)) ∨
      ∃ c, FirstFree sb s.data c ∧ balloc sb s = takeBlock sb c s := by
  apply ballocLoop_cases
  · rfl
  · have := div_add_mod sb.size BPB
    have := mod_lt sb.size (show 0 < BPB by decide)
    simp only [BPB, BSIZE] at *
    omega
  · exact fun c hc => absurd hc (Nat.not_lt_zero c)
  · exact succ_ne_zero _

/-- The two writes, to the bitmap and to the block itself. -/
theorem takeBlock_wp (hP : b ∈ P ∧ sb.BBLOCK b ∈ P) (hlog : CanLog sb X P s k)
    (hne : sb.BBLOCK b ≠ b) :
    (takeBlock sb b).wp s
      (fun r s' => r = b ∧ s' = (s.logBlock (sb.BBLOCK b)
          ((s.data (sb.BBLOCK b)).setBit (b % BPB))).logBlock b ((s.data b).fill 0 BSIZE 0) ∧
        CanLog sb X P s' k) X := by
  unfold takeBlock
  apply wp_bind
  apply wp_reads
  apply store_bind_wp hlog hP.2
  intro hlog1
  have hdata : (s.logBlock (sb.BBLOCK b) ((s.data (sb.BBLOCK b)).setBit (b % BPB))).data b =
      s.data b := update_of_ne hne.symm _ _
  unfold bzero
  apply wp_bind
  apply wp_bind
  apply wp_reads
  rw [← hdata]
  refine (store_wp hlog1).imp ?_
  rintro _ s2 ⟨rfl, hlog2⟩
  exact wp_pure ⟨rfl, rfl, hlog2 hP.1⟩

/-- **`balloc`** finds a free block if there is one. -/
theorem balloc_wp (hsb : sb.Ok) {I : Nat → Dinode} (hown : Owned sb s.data I)
    (hP : ∀ b, FirstFree sb s.data b → b ∈ P ∧ sb.BBLOCK b ∈ P) (hlog : CanLog sb X P s k) :
    (balloc sb).wp s
      (fun r s' => Balloc sb s r s' ∧ Logs s s' ∧ CanLog sb X P s' k) X := by
  rcases balloc_cases sb s with ⟨hfull, hrun⟩ | ⟨b, hfirst, hrun⟩
  · exact wp_of_ok hrun ⟨.inl ⟨rfl, rfl, freeCells_eq_zero.mpr hfull⟩, Logs.refl s, hlog⟩
  · have hge := (Owns.of_clear hown hfirst.1 hfirst.2.1).1
    have hboot := hsb.boot
    unfold Sys.wp
    rw [hrun]
    refine (takeBlock_wp (hP b hfirst) hlog (hsb.ne_bitmap hge hfirst.1)).imp ?_
    rintro _ _ ⟨rfl, rfl, hlog2⟩
    exact ⟨.inr ⟨by omega, took hsb hfirst hge⟩,
      (Logs.logBlock _ _ _).trans (Logs.logBlock _ _ _), hlog2⟩

namespace Took

variable {I : Nat → Dinode} {inum b : Nat}

theorem ge (h : Took sb s s' b) (hown : Owned sb s.data I) : sb.dataStart ≤ b :=
  (Owns.of_clear hown h.first.1 h.first.2.1).1

section

variable (h : Took sb s s' b) (hsb : sb.Ok) (hown : Owned sb s.data I)

include h hsb hown

theorem kept (hl : Live sb I inum) : (I inum).Kept s.data s'.data := by
  intro x hx
  have hr := hown.range hl hx
  refine h.same _ ?_ fun e he => hsb.ne_bitmap hr.1 he
  have := (Owns.of_clear hown h.first.1 h.first.2.1).2 (inum, x)
  rw [refsOf_live hl] at this
  exact this hx

theorem pending : Owns sb.dataStart sb.size (bitOf sb s'.data) (refsOf sb s'.data I) (some b) := by
  refine (Owns.take hsb.boot hown h.first.1 h.first.2.1).congr h.bits ?_
  exact refsOf_congr fun inum hl h12 => h.kept hsb hown hl (.addr 12) h12

theorem inode (hi : inum < sb.ninodes) : s'.data (sb.IBLOCK inum) = s.data (sb.IBLOCK inum) :=
  h.same _ (hsb.ne_inode (h.ge hown) hi) fun e he => Ne.symm (hsb.apart inum hi e he)

end

end Took

/-! ## `bfree` -/

/-- The bit of `b` has been cleared in the bitmap, and nothing else has
    changed. -/
structure Freed (sb : Superblock) (s s' : State) (b : Nat) : Prop where
  bits : ∀ c, bitOf sb s'.data c = update (bitOf sb s.data) b false c
  same : ∀ c, sb.BBLOCK b ≠ c → s'.data c = s.data c
  table : s'.itable = s.itable

/-- **`bfree`** of a block that is allocated. -/
theorem bfree_wp (hb : bitOf sb s.data b = true) (hlt : b < sb.size)
    (hP : Bitmaps sb P) (hlog : CanLog sb X P s k) :
    (bfree sb b).wp s (fun _ s' => Freed sb s s' b ∧ Logs s s' ∧ CanLog sb X P s' k) X := by
  unfold bfree
  apply wp_bind
  apply wp_reads
  apply wp_ite
  · intro hz
    rw [show bitOf sb s.data b = false from hz] at hb
    cases hb
  · intro _
    refine (store_wp hlog).imp ?_
    rintro _ s' ⟨rfl, hlog'⟩
    refine ⟨⟨fun c => ?_, fun c hc => update_of_ne (Ne.symm hc) _ _, rfl⟩,
      Logs.logBlock _ _ _, hlog' (hP b hlt)⟩
    apply bitOf_update
    intro j
    rw [Bytes.testBit_clearBit]
    by_cases hj : j = b % BPB
    · simp [hj]
    · simp [hj]

end Fs
end Xv6
