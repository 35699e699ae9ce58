import Xv6.Fs.Read

/-!
# Writing a file

The loop of `writei`: a turn maps one block, copies into its buffer and enters
it into the log. `Writing` says where the loop stands: so many bytes of the
source are in the file, and every other byte is as it was. When the source ends
in the middle of a block, the bytes before that are in the buffer all the same.
-/

namespace Xv6
namespace Fs

open Function Finset Dinode
open Sys

variable {sb : Superblock} {X : Stop → Prop} {P : Finset Nat} {s s' : State} {k : Nat}
variable {I : Nat → Dinode} {inum : Nat} {d d1 d2 : Dinode}

/-! ## A store into a block of a file -/

/-- What a store into a block of a file's contents does to the volume. -/
structure Stored (sb : Superblock) (I : Nat → Dinode) (inum : Nat) (data data' : Nat → Bytes) :
    Prop where
  own : Owned sb data' I
  refs : ∀ x, (I inum).ref data' x = (I inum).ref data x
  others : ∀ j, Live sb I j → j ≠ inum → (I j).Kept data data'
  inodes : ∀ j < sb.ninodes, data' (sb.IBLOCK j) = data (sb.IBLOCK j)
  bits : ∀ c < sb.size, bitOf sb data' c = bitOf sb data c

variable {data : Nat → Bytes}

theorem stored (hsb : sb.Ok) (hown : Owned sb data I) (hl : Live sb I inum)
    {x : Site} (hx : (I inum).ref data x ≠ 0) (hx12 : x ≠ .addr 12) (m : Bytes) :
    Stored sb I inum data (update data ((I inum).ref data x) m) := by
  have hge := (hown.range hl hx).1
  have hfar : ∀ j y, Live sb I j → (I j).ref data y ≠ 0 → (j, y) ≠ (inum, x) →
      update data ((I inum).ref data x) m ((I j).ref data y) =
        data ((I j).ref data y) := by
    intro j y hj hy hne
    apply update_of_ne
    intro he
    obtain ⟨rfl, rfl⟩ := hown.inj hj hl hy he
    exact hne rfl
  have hbits : ∀ c < sb.size, bitOf sb (update data ((I inum).ref data x) m) c =
      bitOf sb data c := fun c hc =>
    bitOf_congr (fun e he => update_of_ne (hsb.ne_bitmap hge he) _ _) hc
  refine ⟨?_, ?_, ?_, ?_, hbits⟩
  · refine Owns.congr hown hbits (refsOf_congr fun j hj h12 => ?_)
    exact hfar j (.addr 12) hj h12 fun e => hx12 (congrArg Prod.snd e).symm
  · refine ref_congr fun h12 => ?_
    exact hfar inum (.addr 12) hl h12 fun e => hx12 (congrArg Prod.snd e).symm
  · exact fun j hj hne y hy => hfar j y hj hy fun e => hne (congrArg Prod.fst e)
  · exact fun j hj => update_of_ne (hsb.ne_inode hge hj) _ _

theorem byte_store (hown : Owned sb data I) (hl : Live sb I inum) {bn a : Nat} (m : Bytes)
    (ha : (I inum).block data (a / BSIZE) ≠ 0)
    (hrefs : ∀ x, (I inum).ref (update data ((I inum).block data bn) m) x = (I inum).ref data x) :
    (I inum).byte (update data ((I inum).block data bn) m) a =
      if a / BSIZE = bn then m (a % BSIZE) else (I inum).byte data a := by
  unfold Dinode.byte
  rw [block_congr hrefs]
  by_cases hbn : a / BSIZE = bn
  · rw [if_pos hbn, hbn, update_self]
  · rw [if_neg hbn, update_of_ne]
    intro he
    obtain ⟨x, hx, href⟩ := site_of_block ha
    obtain ⟨y, hy, hrefy⟩ := site_of_block (he ▸ ha)
    have heq : (I inum).ref data x = (I inum).ref data y := by rw [href, hrefy, he]
    obtain ⟨_, rfl⟩ := hown.inj hl hl (by rw [href]; exact ha) heq
    exact hbn (siteOf_inj hx hy)

/-! ## The loop's invariant -/

/-- From `data` to `data'`, the first `c` bytes of `src` have been written to
    the file `inum` at `off`. Blocks have been allocated for them, and nothing
    else has happened to a file. -/
structure Writing (sb : Superblock) (I : Nat → Dinode) (inum : Nat) (d : Dinode)
    (data : Nat → Bytes) (src : Ptr) (off : Nat) (d' : Dinode) (data' : Nat → Bytes) (c : Nat) :
    Prop where
  own : Owned sb data' (update I inum d')
  addrs : d' = { d with addrs := d'.addrs }
  ok : d'.Ok
  others : ∀ j, Live sb I j → j ≠ inum → (I j).Kept data data'
  inodes : ∀ j < sb.ninodes, data' (sb.IBLOCK j) = data (sb.IBLOCK j)
  grows : ∀ bn, d.block data bn ≠ 0 → d'.block data' bn = d.block data bn
  bytes : ∀ a, ¬ (off ≤ a ∧ a < off + c) → d.block data (a / BSIZE) ≠ 0 →
    d'.byte data' a = d.byte data a
  written : ∀ a < c, d'.block data' ((off + a) / BSIZE) ≠ 0 ∧
    src.get a = some (d'.byte data' (off + a))

section Loop

variable {data data1 : Nat → Bytes} {src : Ptr} {off c bn : Nat} {s1 s2 : State}

theorem Writing.refl (hown : Owned sb data I) (hI : I inum = d) (hok : d.Ok) :
    Writing sb I inum d data src off d data 0 where
  own := by
    rw [← hI, update_eq_self]
    exact hown
  addrs := rfl
  ok := hok
  others := fun _ _ _ => .refl _ _
  inodes := fun _ _ => rfl
  grows := fun _ _ => rfl
  bytes := fun _ _ _ => rfl
  written := nofun

theorem Writing.live (h : Writing sb I inum d data src off d1 data1 c) (hl : Live sb I inum)
    (hI : I inum = d) (j : Nat) : Live sb (update I inum d1) j ↔ Live sb I j := by
  refine live_update ?_ hl j
  rw [h.addrs, ← hI]
  exact hl.2.2

theorem Grown.block (h : Grown sb I inum d s d1 s1 bn) {bn' : Nat}
    (hb : d.block s.data bn' ≠ 0) : d1.block s1.data bn' = d.block s.data bn' ∧
      s1.data (d.block s.data bn') = s.data (d.block s.data bn') := by
  obtain ⟨x, hx, href⟩ := site_of_block hb
  have hx12 : x ≠ .addr 12 := by
    rintro rfl
    exact siteOf_ne_indirect hx
  rw [← href] at hb ⊢
  rw [block_of_site hx]
  exact ⟨h.grows x hb, h.blocks x hx12 hb⟩

theorem Writing.grow (hl : Live sb I inum) (hI : I inum = d)
    (h : Writing sb I inum d data src off d1 s1.data c)
    (hg : Grown sb (update I inum d1) inum d1 s1 d2 s2 bn) :
    Writing sb I inum d data src off d2 s2.data c := by
  have hold : ∀ a, d1.block s1.data (a / BSIZE) ≠ 0 →
      d2.block s2.data (a / BSIZE) ≠ 0 ∧ d2.byte s2.data a = d1.byte s1.data a := by
    intro a ha
    obtain ⟨h1, h2⟩ := hg.block ha
    refine ⟨by rw [h1]; exact ha, ?_⟩
    unfold Dinode.byte
    rw [h1, h2]
  refine ⟨?_, by rw [hg.addrs, h.addrs], hg.ok, fun j hj hne => ?_, fun j hj => ?_,
    fun bn hbn => ?_, fun a ha hb => ?_, fun a ha => ?_⟩
  · have := hg.own
    rw [update_idem] at this
    exact this
  · have h2 := hg.others j ((h.live hl hI j).mpr hj) hne
    rw [update_of_ne hne] at h2
    exact (h.others j hj hne).trans h2
  · rw [hg.inodes j hj, h.inodes j hj]
  · have h1 := h.grows bn hbn
    rw [(hg.block (by rw [h1]; exact hbn)).1, h1]
  · have h1 := h.grows _ hb
    rw [(hold a (by rw [h1]; exact hb)).2]
    exact h.bytes a ha hb
  · obtain ⟨h1, h2⟩ := h.written a ha
    obtain ⟨h3, h4⟩ := hold _ h1
    rw [h4]
    exact ⟨h3, h2⟩

section

variable (hsb : sb.Ok) (hl : Live sb I inum) (hI : I inum = d)
    (h : Writing sb I inum d data src off d1 data1 c)

include hsb hl hI h

theorem Writing.stored (h0 : d1.block data1 bn ≠ 0) (m : Bytes) :
    Stored sb (update I inum d1) inum data1
      (update data1 (d1.block data1 bn) m) := by
  have hself : update I inum d1 inum = d1 := update_self _ _ _
  obtain ⟨x, hx, href⟩ := site_of_block h0
  have hx12 : x ≠ .addr 12 := by
    rintro rfl
    exact siteOf_ne_indirect hx
  have hst := Fs.stored hsb h.own ((h.live hl hI inum).mpr hl) (x := x)
    (by rw [hself, href]; exact h0) hx12 m
  rw [hself, href] at hst
  exact hst

theorem Writing.store (h0 : d1.block data1 ((off + c) / BSIZE) ≠ 0) {len p : Nat} {r : Bytes × Int}
    (hlen : len ≤ BSIZE - (off + c) % BSIZE)
    (hcopy : CopiedIn (fun a => src.get (c + a)) (data1 (d1.block data1 ((off + c) / BSIZE)))
      ((off + c) % BSIZE) len r p) :
    Writing sb I inum d data src off d1
      (update data1 (d1.block data1 ((off + c) / BSIZE)) r.1) (c + p) := by
  have hl1 := (h.live hl hI inum).mpr hl
  have hself : update I inum d1 inum = d1 := update_self _ _ _
  have hst := h.stored hsb hl hI h0 r.1
  have hrefs := hst.refs
  rw [hself] at hrefs
  have hp := hcopy.le
  -- a byte of the file has just been copied, or it is as before
  have hbyte : ∀ a, d1.block data1 (a / BSIZE) ≠ 0 → d1.byte (update data1
      (d1.block data1 ((off + c) / BSIZE)) r.1) a =
        if off + c ≤ a ∧ a < off + c + p then (src.get (a - off)).getD 0
        else d1.byte data1 a := by
    intro a ha
    have hstore := byte_store h.own hl1 (a := a) r.1 (by rw [hself]; exact ha)
      (by rw [hself]; exact hrefs)
    rw [hself] at hstore
    rw [hstore]
    by_cases hbn : a / BSIZE = (off + c) / BSIZE
    · rw [if_pos hbn, hcopy.bytes]
      have hpos : (off + c) % BSIZE ≤ a % BSIZE ∧ a % BSIZE < (off + c) % BSIZE + p ↔
          off + c ≤ a ∧ a < off + c + p := by
        simp only [BSIZE] at *
        omega
      by_cases hin : off + c ≤ a ∧ a < off + c + p
      · rw [if_pos hin, if_pos (hpos.mpr hin)]
        congr 2
        simp only [BSIZE] at *
        omega
      · rw [if_neg hin, if_neg (fun e => hin (hpos.mp e))]
        unfold Dinode.byte
        rw [hbn]
    · rw [if_neg hbn, if_neg]
      simp only [BSIZE] at *
      omega
  refine ⟨hst.own, h.addrs, h.ok, fun j hj hne => ?_, fun j hj => ?_, fun bn hbn => ?_,
    fun a ha hb => ?_, fun a ha => ?_⟩
  · have h3 := hst.others j ((h.live hl hI j).mpr hj) hne
    rw [update_of_ne hne] at h3
    exact (h.others j hj hne).trans h3
  · rw [hst.inodes j hj, h.inodes j hj]
  · rw [block_congr hrefs, h.grows bn hbn]
  · have h1 := h.grows _ hb
    rw [hbyte a (by rw [h1]; exact hb), if_neg (by omega)]
    exact h.bytes a (by omega) hb
  · rw [block_congr hrefs]
    by_cases hac : a < c
    · obtain ⟨h1, h2⟩ := h.written a hac
      refine ⟨h1, ?_⟩
      rw [hbyte _ h1, if_neg (by omega)]
      exact h2
    · have hbn : (off + a) / BSIZE = (off + c) / BSIZE := by
        simp only [BSIZE] at *
        omega
      have hsome := hcopy.some (a - c) (by omega)
      rw [show c + (a - c) = a by omega] at hsome
      refine ⟨by rw [hbn]; exact h0, ?_⟩
      rw [hbyte _ (by rw [hbn]; exact h0), if_pos (by omega), show off + a - off = a by omega]
      obtain ⟨v, hv⟩ := Option.isSome_iff_exists.mp hsome
      rw [hv]
      rfl

end

variable {L : Finset Nat}

theorem bmapCost_le_need (h : bn ∈ L) : bmapCost d data bn ≤ need d data L := by
  refine le_trans ?_ (need_mono (singleton_subset_iff.mpr h))
  unfold bmapCost need
  rw [filter_singleton]
  by_cases h0 : d.block data bn = 0
  · simp [h0]
  · simp [h0]

/-! ## The loop -/

/-- As `Logs`, but for a buffer that was changed and not logged. -/
structure LogsBut (bad : Option Nat) (s s' : State) : Prop where
  home : s'.home = s.home
  outstanding : s'.outstanding = s.outstanding
  lh : ∀ b ∈ s.lh, b ∈ s'.lh
  logged : ∀ b, s'.data b = s.data b ∨ b ∈ s'.lh ∨ bad = some b

theorem Logs.but (h : Logs s s') (bad : Option Nat) : LogsBut bad s s' :=
  ⟨h.home, h.outstanding, h.lh, fun b => (h.logged b).imp_right .inl⟩

theorem Logs.store (h : Logs s s') (b : Nat) (m : Bytes) : LogsBut (some b) s (s'.setData b m) where
  home := h.home
  outstanding := h.outstanding
  lh := h.lh
  logged := fun c => by
    by_cases hc : c = b
    · exact .inr (.inr (by rw [hc]))
    · exact (h.logged c).imp (fun e => (update_of_ne hc _ _).trans e) .inl

/-- Why the loop ended after `tot` bytes, with `p` more in the last buffer. The
    blocks `L` of the file are those that are to be written sooner or later. -/
inductive Ended (sb : Superblock) (L : Finset Nat) (src : Ptr) (off n : Nat) (d : Dinode)
    (s : State) (d' : Dinode) (s' : State) (tot p : Nat) : Option Nat → Prop
  | done : tot = n → p = 0 →
      freeBlocks sb s + need d' s'.data L ≤ freeBlocks sb s' + need d s.data L →
      Ended sb L src off n d s d' s' tot p none
  | noSpace : tot < n → p = 0 → d.block s.data ((off + tot) / BSIZE) = 0 →
      freeBlocks sb s < need d s.data L → Ended sb L src off n d s d' s' tot p none
  | noSource : tot < n → p < chunk (off + tot) (n - tot) → src.get (tot + p) = none →
      d'.block s'.data ((off + tot) / BSIZE) ≠ 0 → (tot = 0 ∨ (off + tot) % BSIZE = 0) →
      Ended sb L src off n d s d' s' tot p (some (d'.block s'.data ((off + tot) / BSIZE)))

theorem LogsBut.logs {bad : Option Nat} {s'' : State} (h : LogsBut bad s s') (h' : Logs s' s'') :
    LogsBut bad s s'' where
  home := h'.home.trans h.home
  outstanding := h'.outstanding.trans h.outstanding
  lh := fun b hb => h'.lh b (h.lh b hb)
  logged := fun b => by
    rcases h'.logged b with h2 | h2
    · rcases h.logged b with h1 | h1 | h1
      · exact .inl (h2.trans h1)
      · exact .inr (.inl (h'.lh b h1))
      · exact .inr (.inr h1)
    · exact .inr (.inl h2)

theorem Ended.congr {n tot p : Nat} {bad : Option Nat}
    (h : Ended sb L src off n d s d1 s1 tot p bad)
    (hblock : ∀ bn, d2.block s2.data bn = d1.block s1.data bn) (haddrs : d2.addrs = d1.addrs)
    (hfree : freeBlocks sb s2 = freeBlocks sb s1) :
    Ended sb L src off n d s d2 s2 tot p bad := by
  cases h with
  | done h1 h2 h3 => exact .done h1 h2 (by rw [need_congr hblock haddrs, hfree]; exact h3)
  | noSpace h1 h2 h3 h4 => exact .noSpace h1 h2 h3 h4
  | noSource h1 h2 h3 h4 h5 =>
    rw [← hblock] at h4 ⊢
    exact .noSource h1 h2 h3 h4 h5

theorem setDin_din (s : State) (i : Fin NINODE) (d : Dinode) :
    ((s.setDin i d).itable i).din = d := by
  show (update s.itable i _ i).din = d
  rw [update_self]

theorem setDin_inum (s : State) (i : Fin NINODE) (d : Dinode) :
    ((s.setDin i d).itable i).inum = (s.itable i).inum := by
  show (update s.itable i _ i).inum = _
  rw [update_self]

theorem setDin_setDin {i : Fin NINODE} (h : s1.itable = (s.setDin i d1).itable) (d : Dinode) :
    (s1.setDin i d).itable = (s.setDin i d).itable := by
  rw [setDin_congr h]
  show update (update s.itable i _) i
    { update s.itable i { s.itable i with din := d1 } i with din := d } = _
  rw [update_idem, update_self]
  rfl

theorem writeiLoop_wp (hsb : sb.Ok) {i : Fin NINODE} {n : Nat} (hl : Live sb I inum)
    (hI : I inum = d) (hmax : off + n ≤ MAXFILE * BSIZE) (fuel tot : Nat)
    (hL : ∀ bn ∈ spanned (off + tot) (n - tot), bn ∈ L)
    (hw : Writing sb I inum d s.data src off d1 s1.data tot)
    (ht : s1.itable = (s.setDin i d1).itable) (hlogs : Logs s s1)
    (hfree : freeBlocks sb s + need d1 s1.data L ≤ freeBlocks sb s1 + need d s.data L)
    (htot : tot ≤ n) (hstart : tot < n → tot = 0 ∨ (off + tot) % BSIZE = 0)
    (hfuel : n - tot < fuel) (hP : toLog sb d1 s1.data L ⊆ P)
    (hlog : CanLog sb X P s1 k) :
    (writeiLoop sb i src n fuel tot (off + tot)).wp s1
      (fun r s' => ∃ d' p bad, (Writing sb I inum d s.data src off d' s'.data (r.1 + p) ∧
        s'.itable = (s.setDin i d').itable ∧ r.2 = off + r.1 ∧ r.1 ≤ n ∧
        Ended sb L src off n d s d' s' r.1 p bad) ∧
        LogsBut bad s s' ∧ CanLog sb X P s' k) X := by
  -- on the number of turns left
  induction fuel generalizing tot d1 s1 with
  | zero => exact absurd hfuel (Nat.not_lt_zero _)
  | succ fuel ih =>
    unfold writeiLoop
    apply wp_ite
    · intro hlt
      have hrem : 0 < n - tot := Nat.sub_pos_of_lt hlt
      have hpos := chunk_pos (off + tot) hrem
      have hstep := spanned_step (off + tot) hrem
      have hdin : (s1.itable i).din = d1 := by rw [ht, setDin_din]
      have hbn : (off + tot) / BSIZE < MAXFILE := by
        simp only [MAXFILE, NDIRECT, NINDIRECT, BSIZE] at *
        omega
      have hbnL : (off + tot) / BSIZE ∈ L := hL _ (by rw [hstep]; exact List.mem_cons_self)
      refine (bmap_wp hsb hw.own ((hw.live hl hI inum).mpr hl) (by rw [update_self, hdin])
        (by rw [hdin]; exact hw.ok) hbn
        (by rw [hdin]; exact (toLog_mono (singleton_subset_iff.mpr hbnL)).trans hP) hlog).bind ?_
      rw [hdin]
      rintro r s2 ⟨d2, ⟨hg, ht2, hr⟩, hlogs2, hlog2⟩
      have hgrow := hw.grow hl hI hg
      have ht' := ht2.trans (setDin_setDin ht d2)
      have hspent := hg.spent L hbnL
      rcases hr with ⟨rfl, hnone⟩ | ⟨hr0, hblock, hcost⟩
      · -- no block is left
        rw [if_pos rfl]
        apply wp_pure
        have hspace : freeBlocks sb s < need d s.data L := by
          have : bmapCost d1 s1.data ((off + tot) / BSIZE) ≤ need d1 s1.data L :=
            bmapCost_le_need hbnL
          omega
        have habsent : d.block s.data ((off + tot) / BSIZE) = 0 := by
          by_contra h
          have := hw.grows _ h
          rw [← this] at h
          rw [bmapCost_eq_zero h] at hnone
          exact Nat.not_lt_zero _ hnone
        exact ⟨d2, 0, none, ⟨hgrow, ht', rfl, htot, .noSpace hlt rfl habsent hspace⟩,
          (hlogs.trans hlogs2).but none, hlog2⟩
      · rw [if_neg hr0]
        subst hblock
        apply wp_bind
        apply wp_reads
        obtain ⟨p, hcopy⟩ := eitherCopyin_spec
          (s2.data (d2.block s2.data ((off + tot) / BSIZE))) ((off + tot) % BSIZE) src tot
          (chunk (off + tot) (n - tot))
        dsimp only
        generalize eitherCopyin (s2.data (d2.block s2.data ((off + tot) / BSIZE)))
          ((off + tot) % BSIZE) src tot (chunk (off + tot) (n - tot)) = rc at hcopy ⊢
        have hst := hgrow.store hsb hl hI hr0 (Nat.min_le_right _ _) hcopy
        have hstored := hgrow.stored hsb hl hI hr0 rc.1
        have hrefs : ∀ bn, d2.block (update s2.data
            (d2.block s2.data ((off + tot) / BSIZE)) rc.1) bn = d2.block s2.data bn := by
          have := hstored.refs
          rw [update_self] at this
          exact block_congr this
        apply wp_bind
        apply wp_modify
        apply wp_ite
        · -- the source ends here
          intro hret
          apply wp_pure
          rcases hcopy.ret with ⟨h0, _⟩ | ⟨_, hp, hget⟩
          · rw [h0] at hret
            exact absurd hret (by decide)
          · have hblk := hrefs ((off + tot) / BSIZE)
            refine ⟨d2, p, _, ⟨hst, ht', rfl, htot, .noSource hlt hp hget ?_ (hstart hlt)⟩, ?_,
              hlog2.congr rfl rfl⟩
            · show d2.block (update _ _ _) ((off + tot) / BSIZE) ≠ 0
              rw [hblk]
              exact hr0
            · show LogsBut (some (d2.block (update _ _ _) ((off + tot) / BSIZE))) _ _
              rw [hblk]
              exact (hlogs.trans hlogs2).store _ _
        · intro hret
          obtain ⟨_, rfl⟩ : rc.2 = 0 ∧ p = chunk (off + tot) (n - tot) := by
            rcases hcopy.ret with h | ⟨h, _⟩
            · exact h
            · exact absurd h hret
          have hle : chunk (off + tot) (n - tot) ≤ n - tot := Nat.min_le_left _ _
          have hlog2' : CanLog sb X P (s2.setData (d2.block s2.data ((off + tot) / BSIZE)) rc.1)
              k := hlog2.congr rfl rfl
          refine (logWrite_wp hlog2').bind ?_
          rintro _ s3 ⟨rfl, hlog3⟩
          have hmem : d2.block s2.data ((off + tot) / BSIZE) ∈ P :=
            hP (hspent.log (mem_toLog.mpr (.inl ⟨hr0, .inl ⟨_, hbnL, rfl⟩⟩)))
          have hspan : spanned (off + (tot + chunk (off + tot) (n - tot)))
              (n - (tot + chunk (off + tot) (n - tot))) =
                spanned (off + tot + chunk (off + tot) (n - tot))
                  (n - tot - chunk (off + tot) (n - tot)) := by
            rw [Nat.add_assoc, Nat.sub_sub]
          rw [Nat.add_assoc off tot]
          refine ih (tot + chunk (off + tot) (n - tot)) ?_ hst ht'
            ((hlogs.trans hlogs2).trans (Logs.logBlock s2 _ rc.1)) ?_ (by omega)
            (fun hlt => .inr ?_) (by omega) ?_ (hlog3 hmem)
          · intro bn hbn
            rw [hspan] at hbn
            exact hL bn (by rw [hstep]; exact List.mem_cons_of_mem _ hbn)
          · have hsame : freeBlocks sb (s2.logBlock (d2.block s2.data ((off + tot) / BSIZE)) rc.1) =
                freeBlocks sb s2 := freeCells_congr hstored.bits
            have hneed : need d2 (update s2.data
                (d2.block s2.data ((off + tot) / BSIZE)) rc.1) L = need d2 s2.data L :=
              need_congr hrefs rfl L
            have hgrown := hspent.free
            show freeBlocks sb s + need d2 (update s2.data _ rc.1) L ≤ freeBlocks sb
              (s2.logBlock (d2.block s2.data ((off + tot) / BSIZE)) rc.1) + need d s.data L
            rw [hsame, hneed]
            omega
          · -- the turn went to the end of its block
            simp only [chunk, BSIZE] at *
            omega
          · have hsame :
                toLog sb d2 (update s2.data (d2.block s2.data ((off + tot) / BSIZE)) rc.1) L =
                toLog sb d2 s2.data L := toLog_congr hrefs rfl hstored.bits L
            exact hsame.subset.trans (hspent.log.trans hP)
    · intro hge
      obtain rfl : tot = n := by omega
      apply wp_pure
      exact ⟨d1, 0, none, ⟨hw, ht, rfl, htot, .done rfl rfl hfree⟩, hlogs.but none, hlog⟩

end Loop

/-! ## The inode on the disk -/

/-- The references of an inode are in its addresses. -/
theorem Dinode.ref_of_addrs {d' : Dinode} (h : d'.addrs = d.addrs) (data : Nat → Bytes)
    (x : Site) : d'.ref data x = d.ref data x := by
  unfold Dinode.ref
  rw [h]

/-- The other fields of an inode do not matter for the blocks it owns. -/
theorem Owned.fields (hown : Owned sb data (update I inum d1))
    (hl : Live sb I inum) (h1 : d1.type ≠ 0) (h2 : d2.type ≠ 0) (haddrs : d2.addrs = d1.addrs) :
    Owned sb data (update I inum d2) := by
  refine Owns.congr hown (fun _ _ => rfl) ?_
  rintro ⟨j, x⟩
  have hlive : Live sb (update I inum d2) j ↔ Live sb (update I inum d1) j :=
    (live_update h2 hl j).trans (live_update h1 hl j).symm
  unfold refsOf
  by_cases hj : Live sb (update I inum d1) j
  · rw [if_pos hj, if_pos (hlive.mpr hj)]
    by_cases hji : j = inum
    · subst hji
      rw [update_self, update_self]
      exact ref_of_addrs haddrs data x
    · rw [update_of_ne hji, update_of_ne hji]
  · rw [if_neg hj, if_neg fun h => hj (hlive.mp h)]

theorem kept_inode (hsb : sb.Ok) (hown : Owned sb data I) {j : Nat}
    (hl : Live sb I j) (hi : inum < sb.ninodes) (m : Bytes) :
    (I j).Kept data (update data (sb.IBLOCK inum) m) := fun _ hx =>
  update_of_ne (Ne.symm (hsb.ne_inode (hown.range hl hx).1 hi)) _ _

theorem owned_inode (hsb : sb.Ok) (hown : Owned sb data I) (hi : inum < sb.ninodes) (m : Bytes) :
    Owned sb (update data (sb.IBLOCK inum) m) I := by
  refine Owns.congr hown (fun c hc => ?_) (refsOf_congr fun j hj h12 => ?_)
  · exact bitOf_congr (fun e he => update_of_ne (Ne.symm (hsb.apart inum hi e he)) _ _) hc
  · exact kept_inode hsb hown hj hi m (.addr 12) h12

/-- **`iupdate`** stores the inode. -/
theorem iupdate_wp {i : Fin NINODE} (hlog : CanLog sb X P s k) :
    (iupdate sb i).wp s
      (fun _ s' => s' = s.logBlock (sb.IBLOCK (s.itable i).inum)
        (putDinode (s.data (sb.IBLOCK (s.itable i).inum)) (slot (s.itable i).inum)
          (s.itable i).din) ∧ (sb.IBLOCK (s.itable i).inum ∈ P → CanLog sb X P s' k)) X := by
  unfold iupdate
  apply wp_bind
  apply wp_reads
  apply wp_bind
  apply wp_reads
  exact store_wp hlog

/-! ## `writei` -/

/-- From `s` to `s'`, `tot` of the `n` bytes of `src` have been written to the
    file `inum` at `off`, and `p` more are in a buffer. -/
structure Wrote (sb : Superblock) (L : Finset Nat) (I : Nat → Dinode) (inum : Nat) (d : Dinode)
    (s : State) (src : Ptr) (off n : Nat) (d' : Dinode) (s' : State) (tot p : Nat)
    (bad : Option Nat) : Prop where
  le : tot ≤ n
  inside : off ≤ d.size
  fits : off + n ≤ MAXFILE * BSIZE
  fields : d' = { d with size := max d.size (off + tot), addrs := d'.addrs }
  ok : d'.Ok
  own : Owned sb s'.data (update I inum d')
  others : ∀ j, Live sb I j → j ≠ inum → (I j).Kept s.data s'.data
  disk : ∀ j < sb.ninodes, diskInode sb s'.data j = if j = inum then d' else diskInode sb s.data j
  grows : ∀ bn, d.block s.data bn ≠ 0 → d'.block s'.data bn = d.block s.data bn
  bytes : ∀ a, ¬ (off ≤ a ∧ a < off + (tot + p)) → d.block s.data (a / BSIZE) ≠ 0 →
    d'.byte s'.data a = d.byte s.data a
  written : ∀ a < tot + p, d'.block s'.data ((off + a) / BSIZE) ≠ 0 ∧
    src.get a = some (d'.byte s'.data (off + a))
  ended : Ended sb L src off n d s d' s' tot p bad
  logs : LogsBut bad s s'

section Writei

variable {L : Finset Nat} {src : Ptr} {off n tot p : Nat} {bad : Option Nat} {d' : Dinode}

theorem Wrote.full (h : Wrote sb L I inum d s src off n d' s' tot p bad) (hd : d.Full s.data) :
    d'.Full s'.data := by
  intro bn hbn
  have hoff := h.inside
  rw [h.fields] at hbn
  by_cases hold : bn * BSIZE < d.size
  · rw [h.grows bn (hd bn hold)]
    exact hd bn hold
  · have hlt : bn * BSIZE < off + tot := by
      have : bn * BSIZE < max d.size (off + tot) := hbn
      omega
    have := (h.written (bn * BSIZE - off) (by omega)).1
    rw [show off + (bn * BSIZE - off) = bn * BSIZE by omega,
      Nat.mul_div_cancel bn (by decide)] at this
    exact this

theorem Writing.wrote (hsb : sb.Ok) {i : Fin NINODE} {s2 : State} {d3 : Dinode}
    (hl : Live sb I inum) (hI : I inum = d) (hle : tot ≤ n) (hoff : off ≤ d.size)
    (hw : Writing sb I inum d s.data src off d2 s2.data (tot + p)) (haddrs : d3.addrs = d2.addrs)
    (hfields : d3 = { d with size := max d.size (off + tot), addrs := d3.addrs })
    (hmax : off + n ≤ MAXFILE * BSIZE) (hend : Ended sb L src off n d s d2 s2 tot p bad)
    (hlogs : LogsBut bad s s2) :
    Wrote sb L I inum d s src off n d3 ((s2.setDin i d3).logBlock (sb.IBLOCK inum)
      (putDinode (s2.data (sb.IBLOCK inum)) (slot inum) d3)) tot p bad := by
  have hty : d.type ≠ 0 := hI ▸ hl.2.2
  have hl2 := (hw.live hl hI inum).mpr hl
  have hself : update I inum d2 inum = d2 := update_self _ _ _
  have hkept : d2.Kept s2.data (update s2.data (sb.IBLOCK inum)
      (putDinode (s2.data (sb.IBLOCK inum)) (slot inum) d3)) := by
    have := kept_inode hsb hw.own hl2 hl.2.1 (putDinode (s2.data (sb.IBLOCK inum)) (slot inum) d3)
    rw [hself] at this
    exact this
  have hblock : ∀ bn, d3.block (update s2.data (sb.IBLOCK inum)
      (putDinode (s2.data (sb.IBLOCK inum)) (slot inum) d3)) bn = d2.block s2.data bn := fun bn =>
    (block_congr (ref_of_addrs haddrs _) bn).trans (hkept.block bn)
  have hbyte : ∀ a, d2.block s2.data (a / BSIZE) ≠ 0 →
      d3.byte (update s2.data (sb.IBLOCK inum)
        (putDinode (s2.data (sb.IBLOCK inum)) (slot inum) d3)) a = d2.byte s2.data a := by
    intro a ha
    rw [← hkept.byte ha]
    unfold Dinode.byte
    rw [hblock, hkept.block]
  have hok : d3.Ok := by
    have h2 := hw.ok
    rw [hfields]
    refine ⟨?_, ?_, ?_, ?_, ?_, fun j => by rw [haddrs]; exact h2.addrs j⟩
    · exact (congrArg (·.type < 2 ^ 16) hw.addrs).mp h2.type
    · exact (congrArg (·.major < 2 ^ 16) hw.addrs).mp h2.major
    · exact (congrArg (·.minor < 2 ^ 16) hw.addrs).mp h2.minor
    · exact (congrArg (·.nlink < 2 ^ 16) hw.addrs).mp h2.nlink
    · have hs : d.size < 2 ^ 32 := (congrArg (·.size < 2 ^ 32) hw.addrs).mp h2.size
      show max d.size (off + tot) < 2 ^ 32
      simp only [MAXFILE, NDIRECT, NINDIRECT, BSIZE] at hmax
      omega
  refine ⟨hle, hoff, hmax, hfields, hok, ?_, fun j hj hne => ?_, fun j hj => ?_, fun bn hbn => ?_,
    fun a ha hb => ?_, fun a ha => ?_, hend.congr hblock haddrs ?_, ?_⟩
  · refine owned_inode hsb (hw.own.fields hl ?_ ?_ haddrs) hl.2.1 _
    · rw [hw.addrs]
      exact hty
    · rw [hfields]
      exact hty
  · have := kept_inode hsb hw.own ((hw.live hl hI j).mpr hj) hl.2.1
      (putDinode (s2.data (sb.IBLOCK inum)) (slot inum) d3)
    rw [update_of_ne hne] at this
    exact (hw.others j hj hne).trans this
  · refine (diskInode_put hok j).trans ?_
    by_cases hji : j = inum
    · rw [if_pos hji, if_pos hji]
    · rw [if_neg hji, if_neg hji]
      unfold diskInode
      exact congrArg (getDinode · (slot j)) (hw.inodes j hj)
  · exact (hblock bn).trans (hw.grows bn hbn)
  · have h1 := hw.grows _ hb
    exact (hbyte a (by rw [h1]; exact hb)).trans (hw.bytes a ha hb)
  · obtain ⟨h1, h2⟩ := hw.written a ha
    refine ⟨(hblock _).symm ▸ h1, ?_⟩
    rw [h2]
    exact congrArg some (hbyte _ h1).symm
  · exact freeCells_congr fun c hc => bitOf_congr (fun e he =>
      update_of_ne (Ne.symm (hsb.apart inum hl.2.1 e he)) _ _) hc
  · exact hlogs.logs ((Logs.refl s2).setInode i _ |>.trans (Logs.logBlock _ _ _))

/-- The arguments that `writei` refuses. -/
def BadWrite (d : Dinode) (off n : Nat) : Prop :=
  off > d.size ∨ (off + n) % 2 ^ 32 < off ∨ (off + n) % 2 ^ 32 > MAXFILE * BSIZE

/-- **`writei`** refuses its arguments, or it writes as much as it can. The
    inode goes into the log last, when it is enough that the log is not full. -/
theorem writei_wp (hsb : sb.Ok) {i : Fin NINODE} (hown : Owned sb s.data I)
    (hl : Live sb I (s.itable i).inum) (hI : I (s.itable i).inum = (s.itable i).din)
    (hok : (s.itable i).din.Ok) (hoff : off < 2 ^ 32) (hn : n < 2 ^ 32)
    (hL : ∀ bn ∈ spanned off n, bn ∈ L) (hlog : ¬ BadWrite (s.itable i).din off n →
      CanLog sb X (toLog sb (s.itable i).din s.data L) s k) :
    (writei sb i src off n).wp s
      (fun r s' => (r = -1 ∧ s' = s ∧ BadWrite (s.itable i).din off n) ∨
        ∃ d' tot p bad, r = (tot : Nat) ∧
          Wrote sb L I (s.itable i).inum (s.itable i).din s src off n d' s' tot p bad ∧
          s'.itable = (s.setDin i d').itable) X := by
  generalize hinum : (s.itable i).inum = inum at *
  generalize hdin : (s.itable i).din = d at *
  unfold writei
  apply wp_bind
  apply wp_reads
  rw [hdin]
  apply wp_ite
  · intro hbad
    apply wp_pure
    exact .inl ⟨rfl, rfl, hbad.elim .inl fun h => .inr (.inl h)⟩
  · intro hbad
    rw [not_or] at hbad
    apply wp_ite
    · intro hbig
      apply wp_pure
      exact .inl ⟨rfl, rfl, .inr (.inr hbig)⟩
    · intro hbig
      have hmax : off + n ≤ MAXFILE * BSIZE := by
        simp only [MAXFILE, NDIRECT, NINDIRECT, BSIZE] at *
        omega
      have hw0 : Writing sb I inum d s.data src off d s.data 0 := .refl hown hI hok
      have ht0 : s.itable = (s.setDin i d).itable := by rw [← hdin, setDin_self]
      have hlog0 := hlog (by
        unfold BadWrite
        omega)
      refine (writeiLoop_wp hsb hl hI hmax (n + 1) 0 hL hw0 ht0 (.refl s) (le_refl _)
        (Nat.zero_le _) (fun _ => .inl rfl) (by omega) Subset.rfl hlog0).bind ?_
      rintro ⟨tot, off'⟩ s2 ⟨d2, p, bad, ⟨hw, ht, hoff', hle, hend⟩, hlogs, hlog2⟩
      apply wp_bind
      apply wp_reads
      have hdin2 : (s2.itable i).din = d2 := by rw [ht, setDin_din]
      rw [hdin2]
      apply wp_bind
      apply wp_modify
      generalize hd3 : ({ d2 with
        size := if off' > d2.size then off' else d2.size } : Dinode) = d3
      have hinum3 : ((s2.setDin i d3).itable i).inum = inum := by
        rw [setDin_setDin ht, setDin_inum, hinum]
      have hlog3 : CanLog sb X (toLog sb d s.data L) (s2.setDin i d3) k := hlog2.congr rfl rfl
      refine (iupdate_wp hlog3).bind ?_
      rintro _ s4 ⟨rfl, _⟩
      apply wp_pure
      rw [hinum3, setDin_din]
      refine .inr ⟨d3, tot, p, bad, rfl, ?_, setDin_setDin ht d3⟩
      have hsize : d3 = { d with size := max d.size (off + tot), addrs := d3.addrs } := by
        have hoff2 : off' = off + tot := hoff'
        subst hoff2
        rw [← hd3, hw.addrs]
        simp only [Nat.max_def]
        congr 1
        split_ifs <;> omega
      exact hw.wrote hsb hl hI hle (by omega) (by rw [← hd3]) hsize hmax hend hlogs

end Writei

end Fs
end Xv6
