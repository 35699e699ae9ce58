import Xv6.Fs.Write

/-!
# What a short write leaves behind

`writei` copies into the buffer of a block and only then enters the block into
the log. If the source cannot be read to the end, the call stops between the
two, with part of a block in the buffer. Whether a reader can tell depends on
what was copied: a later `readi` finds the buffer in the cache, or the block as
the disk has it once the buffer has been recycled.

So it is the first byte of the source that cannot be read that matters, and what
the source has before it for the same block of the file. Bytes that go beyond
the old end of the file cannot be read later, since the size does not grow over
them, and neither can the ones that the file has had anyway be told from those
that were copied.
-/

namespace Xv6
namespace Fs

open Function
open Sys

variable {sb : Superblock} {s s' : State} {i : Fin NINODE}

/-- The buffers of the blocks `E` have been recycled and are read again. Those
    in the log are pinned. -/
def State.reread (s : State) (E : Finset Nat) : State :=
  { s with data := fun b => if b ∈ E ∧ b ∉ s.lh then s.home b else s.data b }

theorem reread_empty (s : State) : s.reread ∅ = s := rfl

/-- `readi` delivers the byte `v` at offset `a`. -/
def ReadsByte (sb : Superblock) (i : Fin NINODE) (s : State) (a : Nat) (v : UInt8) : Prop :=
  ∃ dst s', readi sb i (.kernel Bytes.zero) a 1 s = .ok ((1, dst), s') ∧ dst.get 0 = some v

/-- Whatever a later `readi` can deliver outside `[off, off + r)`, it could
    before. -/
def Untouched (sb : Superblock) (i : Fin NINODE) (s s' : State) (off r : Nat) : Prop :=
  ∀ (E : Finset Nat) (a : Nat) (v : UInt8), ¬ (off ≤ a ∧ a < off + r) →
    ReadsByte sb i (s'.reread E) a v → ReadsByte sb i s a v

/-- The first byte of the source that cannot be read is the `p`th, and one
    before it, for the same block of the file, is not what the file has
    there. -/
def Torn (d : Dinode) (data : Nat → Bytes) (src : Ptr) (off n : Nat) : Prop :=
  ∃ p < n, (src.get p = none ∧ ∀ a < p, src.get a ≠ none) ∧
    ∃ a < p, (off + a) / BSIZE = (off + p) / BSIZE ∧ off + a < d.size ∧
      src.get a ≠ some (d.byte data (off + a))

section Reading

variable {d : Dinode}

theorem readsByte_iff (hd : (s.itable i).din = d) (hfull : d.Full s.data) (hok : d.Ok) {a : Nat}
    {v : UInt8} : ReadsByte sb i s a v ↔ a < d.size ∧ d.byte s.data a = v := by
  have hsize := hok.size
  by_cases hno : a + 1 < 2 ^ 32
  · obtain ⟨r, hrun, hread⟩ : ∃ r, readi sb i (.kernel Bytes.zero) a 1 s = .ok (r, s) ∧ _ :=
      readi_ok hd hfull hsize hno _
    obtain ⟨h1, h2⟩ := hread fun _ _ => nofun
    have h0 := h2 0 (by decide)
    unfold readLen at h1 h0
    constructor
    · rintro ⟨dst, s', hrun', hv⟩
      rw [hrun] at hrun'
      cases hrun'
      have hlt : a < d.size := by omega
      rw [if_pos (by omega), hv] at h0
      exact ⟨hlt, (Option.some.inj h0).symm⟩
    · rintro ⟨hlt, rfl⟩
      rw [if_pos (by omega)] at h0
      refine ⟨r.2, s, ?_, h0⟩
      rw [hrun, ← Prod.mk.eta (p := r), h1]
      congr 3
      omega
  · -- too far out for `readi`
    refine iff_of_false ?_ fun h => by omega
    rintro ⟨dst, s', hrun, _⟩
    unfold readi at hrun
    rw [inode, reads_bind_run, hd, if_pos (by omega)] at hrun
    cases hrun

end Reading

section Views

variable {I : Nat → Dinode} {inum : Nat} {d d' : Dinode} {src : Ptr} {off n tot p : Nat}
variable {L : Finset Nat} {bad : Option Nat}

/-- A block that is read again is as the call has left it, or, if it was changed
    and not logged, as the call has found it. -/
theorem LogsBut.reread (h : LogsBut bad s s') (hclean : ∀ b, b ∉ s.lh → s.data b = s.home b)
    (E : Finset Nat) (b : Nat) : (s'.reread E).data b = s'.data b ∨
      ((s'.reread E).data b = s.data b ∧ bad = some b) := by
  show (if b ∈ E ∧ b ∉ s'.lh then s'.home b else s'.data b) = s'.data b ∨ _
  by_cases hE : b ∈ E ∧ b ∉ s'.lh
  · rw [if_pos hE]
    have hhome : s'.home b = s.data b := by
      rw [h.home, hclean b fun hb => hE.2 (h.lh b hb)]
    rcases h.logged b with h1 | h1 | h1
    · exact .inl (hhome.trans h1.symm)
    · exact absurd h1 hE.2
    · exact .inr ⟨(if_pos hE).trans hhome, h1⟩
  · exact .inl (if_neg hE)

section Wrote

variable (hw : Wrote sb L I inum d s src off n d' s' tot p bad) (hl : Live sb I inum)
  (hI : I inum = d) (hclean : ∀ b, b ∉ s.lh → s.data b = s.home b) (E : Finset Nat)

include hw hl hI hclean

theorem Wrote.reread_block (bn : Nat) : d'.block (s'.reread E).data bn = d'.block s'.data bn := by
  refine Dinode.block_congr (Dinode.ref_congr fun h12 => ?_) bn
  rcases hw.logs.reread hclean E (d'.addrs 12) with h | ⟨_, hbad⟩
  · exact h
  · -- the buffer that was not logged is no indirect block
    exfalso
    have hty : d'.type ≠ 0 := by
      rw [hw.fields, ← hI]
      exact hl.2.2
    have hl' := (live_update hty hl inum).mpr hl
    have hself : update I inum d' inum = d' := update_self _ _ _
    have hend := hw.ended
    cases hend with
    | done => cases hbad
    | noSpace => cases hbad
    | noSource _ _ _ h0 _ =>
      obtain ⟨x, hx, href⟩ := Dinode.site_of_block h0
      have heq : (update I inum d' inum).ref s'.data x =
          (update I inum d' inum).ref s'.data (.addr 12) := by
        rw [hself, href]
        exact Option.some.inj hbad
      obtain ⟨_, rfl⟩ := hw.own.inj hl' hl' (by rw [hself, href]; exact h0) heq
      exact siteOf_ne_indirect hx

/-- A byte of the file is as the call has left it, or as it has found it. -/
theorem Wrote.reread_byte (hfull : d.Full s.data) {a : Nat} (ha : a < d.size) :
    d'.byte (s'.reread E).data a = d'.byte s'.data a ∨
      d'.byte (s'.reread E).data a = d.byte s.data a := by
  unfold Dinode.byte
  rw [hw.reread_block hl hI hclean E]
  rcases hw.logs.reread hclean E (d'.block s'.data (a / BSIZE)) with h | ⟨h, _⟩
  · exact .inl (by rw [h])
  · right
    rw [h, hw.grows _ (hfull.block ha)]

end Wrote

end Views

/-- **What a write reports is all it has done, unless it tore a block**: after
    `writei` has returned `r`, a byte outside `[off, off + r)` can be read only
    as it was before, if and only if the arguments are refused or the source
    does not end in a block of which it has something new. -/
theorem short_write_untouched_iff (hsb : sb.Ok) {I : Nat → Dinode} (hown : Owned sb s.data I)
    (hl : Live sb I (s.itable i).inum) (hI : I (s.itable i).inum = (s.itable i).din)
    (hok : (s.itable i).din.Ok) (hfull : (s.itable i).din.Full s.data)
    (hclean : ∀ b, b ∉ s.lh → s.data b = s.home b) {src : Ptr} {off n : Nat} (hoff : off < 2 ^ 32)
    (hn : n < 2 ^ 32) {r : Int} (hrun : writei sb i src off n s = .ok (r, s')) :
    Untouched sb i s s' off r.toNat ↔
      BadWrite (s.itable i).din off n ∨ ¬ Torn (s.itable i).din s.data src off n := by
  have hwp : (writei sb i src off n).wp s _ fun _ => True :=
    writei_wp (k := 0) hsb hown hl hI hok hoff hn (fun _ h => List.mem_toFinset.mpr h)
      fun _ => .any _ s _
  have hpost := hwp.ok hrun
  have hread : ∀ a v, ReadsByte sb i s a v ↔
      a < (s.itable i).din.size ∧ (s.itable i).din.byte s.data a = v := fun a v =>
    readsByte_iff rfl hfull hok
  rcases hpost with ⟨_, hs, hbad⟩ | ⟨d', tot, p, bad, rfl, hw, ht⟩
  · refine iff_of_true (fun E a v _ h => ?_) (.inl hbad)
    have hsame : s.reread E = s := by
      unfold State.reread
      congr 1
      funext b
      by_cases hb : b ∈ E ∧ b ∉ s.lh
      · rw [if_pos hb, hclean b hb.2]
      · rw [if_neg hb]
    rw [hs, hsame] at h
    exact h
  · have hinside := hw.inside
    have hmax := hw.fits
    have hgood : ¬ BadWrite (s.itable i).din off n := by
      unfold BadWrite
      simp only [MAXFILE, NDIRECT, NINDIRECT, BSIZE] at *
      omega
    rw [or_iff_right hgood, Int.toNat_natCast]
    have hd' : (s'.itable i).din = d' := by rw [ht, setDin_din]
    have hsize : d'.size = max (s.itable i).din.size (off + tot) := by rw [hw.fields]
    have hfull' := hw.full hfull
    have hread' : ∀ (E : Finset Nat) a v, ReadsByte sb i (s'.reread E) a v ↔
        a < d'.size ∧ d'.byte (s'.reread E).data a = v := by
      intro E a v
      have hdE : ((s'.reread E).itable i).din = d' := hd'
      refine readsByte_iff hdE (fun bn hbn => ?_) hw.ok
      rw [hw.reread_block hl hI hclean E]
      exact hfull' bn hbn
    constructor
    · -- a torn block is seen in the cache
      rintro huntouched ⟨q, hq, ⟨hnone, hmap⟩, a, ha, hblk, hlt, hne⟩
      -- all that was copied could be read
      have hle : tot + p ≤ q := by
        by_contra hlt
        have hget := (hw.written q (by omega)).2
        rw [hnone] at hget
        cases hget
      have hend := hw.ended
      cases hend with
      | done h1 _ _ => omega
      | noSpace _ _ habsent _ =>
        refine hfull _ ?_ habsent
        simp only [BSIZE] at *
        omega
      | noSource _ hp hnone' _ hstart =>
        obtain rfl : q = tot + p := by
          by_contra hlt
          exact hmap (tot + p) (by omega) hnone'
        have hnot : ¬ (off ≤ off + a ∧ off + a < off + tot) := by
          simp only [chunk, BSIZE] at *
          omega
        have hget := (hw.written a ha).2
        have hnew : ReadsByte sb i (s'.reread ∅) (off + a) (d'.byte s'.data (off + a)) := by
          rw [hread', reread_empty]
          exact ⟨by omega, rfl⟩
        have hold := ((hread _ _).mp (huntouched ∅ _ _ hnot hnew)).2
        exact hne (hget.trans (congrArg some hold.symm))
    · intro hwhole E a v hout hnew
      obtain ⟨hlt', rfl⟩ := (hread' E a v).mp hnew
      have hlt : a < (s.itable i).din.size := by omega
      refine (hread a _).mpr ⟨hlt, ?_⟩
      rcases hw.reread_byte hl hI hclean E hfull hlt with h | h
      · rw [h]
        by_cases hin : off ≤ a ∧ a < off + (tot + p)
        · -- copied, not logged, and the same as before
          obtain ⟨b, rfl⟩ := Nat.exists_eq_add_of_le (show off + tot ≤ a by omega)
          by_contra hne
          apply hwhole
          have hget : ∀ a < tot + p, src.get a = some (d'.byte s'.data (off + a)) :=
            fun a ha => (hw.written a ha).2
          have hend := hw.ended
          cases hend with
          | done _ h2 _ => omega
          | noSpace _ h2 _ _ => omega
          | noSource h1 h2 h3 _ _ =>
            refine ⟨tot + p, ?_, ⟨h3, fun a ha => by rw [hget a ha]; nofun⟩, tot + b, by omega, ?_,
              by omega, ?_⟩
            · simp only [chunk] at h2
              omega
            · simp only [chunk, BSIZE] at *
              omega
            · rw [hget _ (by omega), ← Nat.add_assoc]
              exact fun e => hne (Option.some.inj e).symm
        · exact (hw.bytes a hin (hfull.block hlt)).symm
      · exact h.symm

namespace Sample

/-- One page, filled with 9. -/
def user : Umem := fun va => if va = 0 then some (fun _ => 9) else none

theorem clean : ∀ b, b ∉ state.lh → state.data b = state.home b := by
  intro b _
  have hdata : state.data = data := rfl
  have hhome : state.home = data := rfl
  rw [hdata, hhome]

end Sample

/-- Two bytes are to be written from the end of the only page: nothing is
    reported as written, and the first byte of the file has changed. -/
theorem short_write_tears : ∃ r s', writei Sample.sb 0 (.user Sample.user 4095) 0 2 Sample.state =
    .ok (r, s') ∧ r = 0 ∧ ¬ Untouched Sample.sb 0 Sample.state s' 0 r.toNat := by
  obtain ⟨r, s', hrun, hcheck⟩ := exists_of_check (show (writei Sample.sb 0
    (.user Sample.user 4095) 0 2).check Sample.state (fun r s' => decide (r = 0) &&
      (readi Sample.sb 0 (.kernel Bytes.zero) 0 1).check s'
        fun r _ => decide (r.1 = 1) && decide (r.2.get 0 = some 9)) = true by decide +kernel)
  rw [Bool.and_eq_true, decide_eq_true_iff] at hcheck
  obtain ⟨rfl, hafter⟩ := hcheck
  obtain ⟨q, s'', hread, hq⟩ := exists_of_check hafter
  rw [Bool.and_eq_true, decide_eq_true_iff, decide_eq_true_iff] at hq
  refine ⟨0, s', hrun, rfl, fun huntouched => ?_⟩
  have hnew : ReadsByte Sample.sb 0 (s'.reread ∅) 0 9 :=
    ⟨q.2, s'', by rw [reread_empty, hread, ← hq.1], hq.2⟩
  have hold := (readsByte_iff rfl Sample.file_full Sample.file_ok).mp
    (huntouched ∅ 0 9 (by decide) hnew)
  exact absurd hold.2 (by decide)

/-- The same call for one byte, which is there. -/
theorem short_write_untouched_one : ∃ r s', writei Sample.sb 0 (.user Sample.user 4095) 0 1
    Sample.state = .ok (r, s') ∧ Untouched Sample.sb 0 Sample.state s' 0 r.toNat := by
  obtain ⟨r, s', hrun, hcheck⟩ := exists_of_check (show (writei Sample.sb 0
    (.user Sample.user 4095) 0 1).check Sample.state (fun r _ => decide (r = 1)) = true by
      decide +kernel)
  rw [decide_eq_true_iff] at hcheck
  subst hcheck
  have hiff := short_write_untouched_iff (s := Sample.state) (i := 0) Sample.sb_ok Sample.owned
    Sample.file_live Sample.file_inode Sample.file_ok Sample.file_full Sample.clean
    (show 0 < 2 ^ 32 by decide) (show 1 < 2 ^ 32 by decide) hrun
  refine ⟨1, s', hrun, hiff.mpr (.inr ?_)⟩
  rintro ⟨p, hp, ⟨hnone, _⟩, _⟩
  obtain rfl : p = 0 := by omega
  cases hnone

end Fs
end Xv6
