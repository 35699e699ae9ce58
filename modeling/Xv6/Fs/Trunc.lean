import Xv6.Fs.Write

/-!
# Discarding a file's contents

`itrunc` frees the direct blocks one by one, then the blocks that the indirect
block refers to, then the indirect block. The entries of the indirect block are
not cleared as their blocks are freed: in between, the file owns fewer blocks
than the disk says it refers to (`Cutting`).
-/

namespace Xv6
namespace Fs

open Function Finset
open Sys

variable {sb : Superblock} {X : Stop → Prop} {P : Finset Nat} {s s₁ s2 : State} {k : Nat}
variable {I : Nat → Dinode} {inum : Nat} {d d₁ : Dinode} {i : Fin NINODE} {S : Finset Site}

/-- The references without those of `inum` at the sites `S`. -/
def cut (R : Nat × Site → Nat) (inum : Nat) (S : Finset Site) (p : Nat × Site) : Nat :=
  if p.1 = inum ∧ p.2 ∈ S then 0 else R p

theorem cut_empty (R : Nat × Site → Nat) (inum : Nat) : cut R inum ∅ = R := by
  funext p
  exact if_neg fun h => absurd h.2 (notMem_empty _)

theorem cut_insert (R : Nat × Site → Nat) (inum : Nat) (x : Site) (S : Finset Site)
    (p : Nat × Site) :
    cut R inum (insert x S) p = update (cut R inum S) (inum, x) 0 p := by
  obtain ⟨j, y⟩ := p
  by_cases hp : (j, y) = (inum, x)
  · rw [hp, update_self]
    exact if_pos ⟨rfl, mem_insert_self _ _⟩
  · rw [update_of_ne hp]
    unfold cut
    have hiff : (j = inum ∧ y ∈ insert x S) ↔ (j = inum ∧ y ∈ S) := by
      rw [mem_insert]
      refine and_congr_right fun hj => or_iff_right fun hy => hp ?_
      rw [hj, hy]
    simp only [hiff]

theorem addr_mem_insert {x : Site} {k : Fin 13} (hk : x ≠ .addr k) :
    Site.addr k ∈ insert x S ↔ Site.addr k ∈ S := by
  rw [mem_insert]
  exact or_iff_right (Ne.symm hk)

/-- From `s` to `s₁`, the blocks of `inum` at the sites `S` have been freed. The
    inode, which was `d`, is `d₁` in memory. -/
structure Cutting (sb : Superblock) (I : Nat → Dinode) (inum : Nat) (d : Dinode) (s : State)
    (S : Finset Site) (d₁ : Dinode) (s₁ : State) : Prop where
  own : Owns sb.dataStart sb.size (bitOf sb s₁.data) (cut (refsOf sb s.data I) inum S) none
  only : ∀ c, (∀ e < sb.size, sb.BBLOCK e ≠ c) → s₁.data c = s.data c
  fields : d₁ = { d with addrs := d₁.addrs }
  addrs : ∀ k, d₁.addrs k = if .addr k ∈ S then 0 else d.addrs k
  logs : Logs s s₁

namespace Cutting

theorem start (hown : Owned sb s.data I) : Cutting sb I inum d s ∅ d s where
  own := by
    rw [cut_empty]
    exact hown
  only := fun _ _ => rfl
  fields := rfl
  addrs := fun _ => (if_neg (notMem_empty _)).symm
  logs := .refl s

section

variable (h : Cutting sb I inum d s S d₁ s₁) (hl : Live sb I inum) (hI : I inum = d) {x : Site}

include h hl hI

theorem skip (hx : d.ref s.data x = 0) : Cutting sb I inum d s (insert x S) d₁ s₁ := by
  refine ⟨h.own.congr (fun _ _ => rfl) fun p => ?_, h.only, h.fields, fun k => ?_, h.logs⟩
  · rw [cut_insert]
    by_cases hp : p = (inum, x)
    · subst hp
      rw [update_self]
      unfold cut
      rw [refsOf_live hl, hI, hx, ite_self]
    · rw [update_of_ne hp]
  · rw [h.addrs]
    by_cases hk : x = .addr k
    · subst hk
      rw [if_pos (mem_insert_self _ _), show d.addrs k = 0 from hx, ite_self]
    · simp only [addr_mem_insert hk]

variable (hx : d.ref s.data x ≠ 0) (hxS : x ∉ S)

include hxS

omit h in
theorem cut_ref : cut (refsOf sb s.data I) inum S (inum, x) = d.ref s.data x := by
  rw [← hI, ← refsOf_live hl]
  exact if_neg fun e => hxS e.2

include hx

theorem bit : bitOf sb s₁.data (d.ref s.data x) = true ∧ d.ref s.data x < sb.size := by
  have hcut : cut (refsOf sb s.data I) inum S (inum, x) = d.ref s.data x := cut_ref hl hI hxS
  have hbit := h.own.bit_of_ref (x := (inum, x)) (by rw [hcut]; exact hx)
  have hlt := (h.own.range (inum, x) (by rw [hcut]; exact hx)).2
  rw [hcut] at hbit hlt
  exact ⟨hbit, hlt⟩

/-- The block at a site is freed; an address of the inode is forgotten in
    memory, too. -/
theorem free (hfreed : Freed sb s₁ s2 (d.ref s.data x)) (hlogs : Logs s₁ s2) {d2 : Dinode}
    (hfields : d2 = { d₁ with addrs := d2.addrs })
    (haddrs : ∀ k, d2.addrs k = if x = .addr k then 0 else d₁.addrs k) :
    Cutting sb I inum d s (insert x S) d2 s2 := by
  refine ⟨?_, fun c hc => ?_, ?_, fun k => ?_, h.logs.trans hlogs⟩
  · have hcut : cut (refsOf sb s.data I) inum S (inum, x) = d.ref s.data x := cut_ref hl hI hxS
    have := Owns.release h.own (x := (inum, x)) (by rw [hcut]; exact hx)
    rw [hcut] at this
    exact this.congr (fun c _ => hfreed.bits c) (cut_insert _ _ _ _)
  · rw [hfreed.same c (hc _ (h.bit hl hI hx hxS).2), h.only c hc]
  · rw [hfields, h.fields]
  · rw [haddrs, h.addrs]
    by_cases hk : x = .addr k
    · subst hk
      rw [if_pos rfl, if_pos (mem_insert_self _ _)]
    · simp only [if_neg hk, addr_mem_insert hk]

end

theorem kept (hsb : sb.Ok) (hown : Owned sb s.data I) (h : Cutting sb I inum d s S d₁ s₁) {j : Nat}
    (hj : Live sb I j) : (I j).Kept s.data s₁.data := fun _ hx =>
  h.only _ fun _ he => hsb.ne_bitmap (hown.range hj hx).1 he

theorem owned (hsb : sb.Ok) (hown : Owned sb s.data I) (h : Cutting sb I inum d s S d₁ s₁)
    (hl : Live sb I inum) (hI : I inum = d) (hall : ∀ x, x ∉ S → d.ref s.data x = 0) :
    Owned sb s₁.data (update I inum { d with size := 0, addrs := fun _ => 0 }) := by
  have hty : ({ d with size := 0, addrs := fun _ => 0 } : Dinode).type ≠ 0 := hI ▸ hl.2.2
  refine Owns.congr h.own (fun _ _ => rfl) ?_
  rintro ⟨j, x⟩
  have hlive : Live sb (update I inum { d with size := 0, addrs := fun _ => 0 }) j ↔
      Live sb I j := live_update hty hl j
  by_cases hj : j = inum
  · subst hj
    rw [refsOf_live (hlive.mpr hl), update_self]
    have hz : ({ d with size := 0, addrs := fun _ => 0 } : Dinode).ref s₁.data x = 0 := by
      cases x with
      | addr k => rfl
      | entry j => exact Dinode.ref_entry_of_none rfl
    rw [hz]
    unfold cut
    by_cases hx : x ∈ S
    · exact (if_pos ⟨rfl, hx⟩).symm
    · rw [if_neg fun e => hx e.2, refsOf_live hl, hI, hall x hx]
  · have hcut : cut (refsOf sb s.data I) inum S (j, x) = refsOf sb s.data I (j, x) :=
      if_neg fun e => hj e.1
    rw [hcut]
    unfold refsOf
    by_cases hlj : Live sb I j
    · rw [if_pos (hlive.mpr hlj), if_pos hlj, update_of_ne hj]
      exact (h.kept hsb hown hlj).ref x
    · rw [if_neg fun e => hlj (hlive.mp e), if_neg hlj]

end Cutting

/-! ## The loops -/

theorem Cutting.bfree_wp (h : Cutting sb I inum d s S d₁ s₁) (hl : Live sb I inum)
    (hI : I inum = d) (hP : Bitmaps sb P) (hlog : CanLog sb X P s₁ k) {x : Site}
    (hx : d.ref s.data x ≠ 0) (hxS : x ∉ S) :
    (bfree sb (d.ref s.data x)).wp s₁
      (fun _ s2 => (∀ d2 : Dinode, d2 = { d₁ with addrs := d2.addrs } →
        (∀ k, d2.addrs k = if x = .addr k then 0 else d₁.addrs k) →
          Cutting sb I inum d s (insert x S) d2 s2) ∧
        s2.itable = s₁.itable ∧ CanLog sb X P s2 k) X := by
  obtain ⟨hbit, hlt⟩ := h.bit hl hI hx hxS
  refine (Fs.bfree_wp hbit hlt hP hlog).imp ?_
  rintro _ s2 ⟨hfreed, hlogs, hlog2⟩
  exact ⟨fun d2 => h.free hl hI hx hxS hfreed hlogs, hfreed.table, hlog2⟩

/-- The address of a freed block is forgotten. -/
theorem Cutting.forget {a : Fin 13} (i : Fin NINODE)
    (h : ∀ d2 : Dinode, d2 = { d₁ with addrs := d2.addrs } →
      (∀ k, d2.addrs k = if Site.addr a = .addr k then 0 else d₁.addrs k) →
        Cutting sb I inum d s S d2 s2) :
    Cutting sb I inum d s S (d₁.setAddr a 0) (s2.setDin i (d₁.setAddr a 0)) := by
  have hcut := h (d₁.setAddr a 0) rfl fun j => by
    by_cases hj : j = a
    · rw [hj, Dinode.setAddr_self, if_pos rfl]
    · rw [Dinode.setAddr_ne _ _ hj, if_neg fun e => hj (Site.addr.inj e).symm]
  exact ⟨hcut.own, hcut.only, hcut.fields, hcut.addrs, hcut.logs.setInode i _⟩

theorem itruncDirect_wp (hl : Live sb I inum) (hI : I inum = d) (hP : Bitmaps sb P)
    (ks : List (Fin 13)) (hks : ks.Nodup) (hS : ∀ k ∈ ks, Site.addr k ∉ S)
    (h : Cutting sb I inum d s S d₁ s₁) (ht : s₁.itable = (s.setDin i d₁).itable)
    (hlog : CanLog sb X P s₁ k) :
    (itruncDirect sb i ks).wp s₁
      (fun _ s' => ∃ d', Cutting sb I inum d s (S ∪ ks.toFinset.image .addr) d' s' ∧
        s'.itable = (s.setDin i d').itable ∧ CanLog sb X P s' k) X := by
  induction ks generalizing S d₁ s₁ with
  | nil =>
    apply wp_pure
    simpa using ⟨d₁, h, ht, hlog⟩
  | cons a ks ih =>
    have haS : Site.addr a ∉ S := hS a List.mem_cons_self
    obtain ⟨hak, hks⟩ := List.nodup_cons.mp hks
    have hrest : ∀ k ∈ ks, Site.addr k ∉ insert (Site.addr a) S := by
      intro k hk hmem
      rcases mem_insert.mp hmem with he | hmem
      · exact hak (Site.addr.inj he ▸ hk)
      · exact hS k (List.mem_cons_of_mem _ hk) hmem
    have hdin : (s₁.itable i).din = d₁ := by rw [ht, setDin_din]
    have haddr : d₁.addrs a = d.ref s.data (.addr a) := (h.addrs a).trans (if_neg haS)
    have hset : S ∪ (a :: ks).toFinset.image .addr =
        insert (Site.addr a) S ∪ ks.toFinset.image .addr := by
      simp
    rw [hset]
    unfold itruncDirect
    apply wp_bind
    apply wp_reads
    rw [hdin, haddr]
    apply wp_ite
    · intro hne
      refine (h.bfree_wp hl hI hP hlog hne haS).bind ?_
      rintro _ s2 ⟨hcut, ht2, hlog2⟩
      apply wp_bind
      apply wp_modify
      refine ih hks hrest (.forget i hcut) ?_ (hlog2.congr rfl rfl)
      exact (setDin_congr ht2 _).trans (setDin_setDin ht _)
    · intro hz
      exact ih hks hrest (h.skip hl hI (not_not.mp hz)) ht hlog

theorem itruncEntries_wp (hsb : sb.Ok) (hown : Owned sb s.data I) (hl : Live sb I inum)
    (hI : I inum = d) (hP : Bitmaps sb P) (h12 : d.addrs 12 ≠ 0) (n j : Nat) (hn : j + n = 256)
    (hS : ∀ e : Fin 256, j ≤ e → Site.entry e ∉ S) (h : Cutting sb I inum d s S d₁ s₁)
    (hlog : CanLog sb X P s₁ k) :
    (itruncEntries sb (d.addrs 12) n j).wp s₁
      (fun _ s' => Cutting sb I inum d s (S ∪ {e : Fin 256 | j ≤ e}.toFinset.image .entry) d₁ s' ∧
        s'.itable = s₁.itable ∧ CanLog sb X P s' k) X := by
  induction n generalizing S s₁ j with
  | zero =>
    apply wp_pure
    have hnone : {e : Fin 256 | j ≤ e}.toFinset = ∅ := by
      ext e
      have := e.isLt
      simp
      omega
    simpa [hnone] using ⟨h, hlog⟩
  | succ n ih =>
    have hj : j < 256 := by omega
    have hdata : s₁.data (d.addrs 12) = s.data (d.addrs 12) := by
      have hkept := h.kept hsb hown hl (.addr 12)
      rw [hI] at hkept
      exact hkept h12
    have hent : (s₁.data (d.addrs 12)).getLE (4 * j) 4 = d.ref s.data (.entry ⟨j, hj⟩) := by
      rw [hdata, Dinode.ref_entry h12]
    have hjS := hS ⟨j, hj⟩ (le_refl j)
    have hrest : ∀ e : Fin 256, j + 1 ≤ e → Site.entry e ∉ insert (Site.entry ⟨j, hj⟩) S := by
      intro e he hmem
      rcases mem_insert.mp hmem with heq | hmem
      · have := congrArg Fin.val (Site.entry.inj heq)
        have : (e : Nat) = j := this
        omega
      · exact hS e (by omega) hmem
    have hset : S ∪ {e : Fin 256 | j ≤ e}.toFinset.image .entry =
        insert (Site.entry ⟨j, hj⟩) S ∪ {e : Fin 256 | j + 1 ≤ e}.toFinset.image .entry := by
      have hcons : {e : Fin 256 | j ≤ e}.toFinset =
          insert ⟨j, hj⟩ {e : Fin 256 | j + 1 ≤ e}.toFinset := by
        ext e
        simp [Fin.ext_iff]
        omega
      simp [hcons]
    rw [hset]
    unfold itruncEntries
    apply wp_bind
    apply wp_reads
    rw [hent]
    apply wp_ite
    · intro hne
      refine (h.bfree_wp hl hI hP hlog hne hjS).bind ?_
      rintro _ s2 ⟨hcut, ht2, hlog2⟩
      have hcut' := hcut d₁ rfl fun k => (if_neg nofun).symm
      rw [← ht2]
      exact ih (j + 1) (by omega) hrest hcut' hlog2
    · intro hz
      exact ih (j + 1) (by omega) hrest (h.skip hl hI (not_not.mp hz)) hlog

/-! ## `itrunc` -/

/-- The inode of an empty file, with the other fields of `d`. -/
def Dinode.empty (d : Dinode) : Dinode := { d with size := 0, addrs := fun _ => 0 }

theorem Dinode.Ok.empty (h : d.Ok) : d.empty.Ok :=
  ⟨h.type, h.major, h.minor, h.nlink, Nat.two_pow_pos 32, fun _ => Nat.two_pow_pos 32⟩

/-- From `s` to `s'`, the file `inum`, which was `d`, has lost its contents. -/
structure Truncated (sb : Superblock) (I : Nat → Dinode) (inum : Nat) (d : Dinode) (s s' : State) :
    Prop where
  own : Owned sb s'.data (update I inum d.empty)
  others : ∀ j, Live sb I j → j ≠ inum → (I j).Kept s.data s'.data
  disk : ∀ j < sb.ninodes, diskInode sb s'.data j =
    if j = inum then d.empty else diskInode sb s.data j
  logs : Logs s s'

theorem Cutting.truncated (hsb : sb.Ok) (hown : Owned sb s.data I)
    (h : Cutting sb I inum d s S d₁ s₁) (hl : Live sb I inum) (hI : I inum = d) (hok : d.Ok)
    (hall : ∀ x, x ∉ S → d.ref s.data x = 0) (ip : Inode) :
    Truncated sb I inum d s ((s₁.setInode i ip).logBlock (sb.IBLOCK inum)
      (putDinode (s₁.data (sb.IBLOCK inum)) (slot inum) d.empty)) where
  own := owned_inode hsb (h.owned hsb hown hl hI hall) hl.2.1 _
  others := fun j hj hne => by
    refine (h.kept hsb hown hj).trans ?_
    have hty : d.empty.type ≠ 0 := hI ▸ hl.2.2
    have := kept_inode hsb (h.owned hsb hown hl hI hall) ((live_update hty hl j).mpr hj) hl.2.1
      (putDinode (s₁.data (sb.IBLOCK inum)) (slot inum) d.empty)
    rw [update_of_ne hne] at this
    exact this
  disk := fun j hj => by
    refine (diskInode_put hok.empty j).trans ?_
    by_cases hji : j = inum
    · rw [if_pos hji, if_pos hji]
    · rw [if_neg hji, if_neg hji]
      unfold diskInode
      exact congrArg (getDinode · (slot j)) (h.only _ fun e he => Ne.symm (hsb.apart j hj e he))
  logs := (h.logs.setInode i ip).trans (Logs.logBlock _ _ _)

/-- **`itrunc`** frees every block of the file. -/
theorem itrunc_wp (hsb : sb.Ok) (hown : Owned sb s.data I) (hl : Live sb I (s.itable i).inum)
    (hI : I (s.itable i).inum = (s.itable i).din) (hok : (s.itable i).din.Ok)
    (hP : Bitmaps sb P) (hPi : sb.IBLOCK (s.itable i).inum ∈ P) (hlog : CanLog sb X P s k) :
    (itrunc sb i).wp s
      (fun _ s' => Truncated sb I (s.itable i).inum (s.itable i).din s s' ∧
        s'.itable = (s.setDin i (s.itable i).din.empty).itable ∧ CanLog sb X P s' k) X := by
  generalize hinum : (s.itable i).inum = inum at *
  generalize hdin : (s.itable i).din = d at *
  -- the end, whatever has been freed
  have hdone : ∀ {s₁ : State} {d₁ : Dinode} {S : Finset Site}, Cutting sb I inum d s S d₁ s₁ →
      s₁.itable = (s.setDin i d₁).itable → CanLog sb X P s₁ k →
      (∀ x, x ∉ S → d.ref s.data x = 0) → (∀ k, Site.addr k ∈ S) →
      (itruncDone sb i).wp s₁ (fun _ s' => Truncated sb I inum d s s' ∧
        s'.itable = (s.setDin i d.empty).itable ∧ CanLog sb X P s' k) X := by
    intro s₁ d₁ S h ht hlog hall haddr
    have hdin1 : (s₁.itable i).din = d₁ := by rw [ht, setDin_din]
    have hempty : ({ d₁ with size := 0 } : Dinode) = d.empty := by
      have haddrs : d₁.addrs = fun _ => 0 := funext fun k => by rw [h.addrs, if_pos (haddr k)]
      rw [h.fields, haddrs]
      rfl
    unfold itruncDone
    apply wp_bind
    apply wp_reads
    apply wp_bind
    apply wp_modify
    rw [hdin1, hempty]
    have hinum2 : ((s₁.setDin i d.empty).itable i).inum = inum := by
      rw [setDin_setDin ht, setDin_inum, hinum]
    have hlog2 : CanLog sb X P (s₁.setDin i d.empty) k := hlog.congr rfl rfl
    refine (iupdate_wp hlog2).imp ?_
    rintro _ s' ⟨rfl, hlog'⟩
    rw [hinum2, setDin_din] at hlog' ⊢
    exact ⟨h.truncated hsb hown hl hI hok hall _, setDin_setDin ht d.empty, hlog' hPi⟩
  have ht0 : s.itable = (s.setDin i d).itable := by rw [← hdin, setDin_self]
  have hnodup : ((List.finRange 13).take NDIRECT).Nodup := (List.nodup_finRange 13).take
  have hmem : ∀ k : Fin 13, k ∈ (List.finRange 13).take NDIRECT ↔ k ≠ 12 := by decide
  unfold itrunc
  refine (itruncDirect_wp hl hI hP _ hnodup (fun _ _ => notMem_empty _)
    (Cutting.start hown) ht0 hlog).bind ?_
  rintro _ s₁ ⟨d₁, h, ht, hlog1⟩
  have hS : ∀ x, x ∈ (∅ : Finset Site) ∪ ((List.finRange 13).take NDIRECT).toFinset.image .addr ↔
      ∃ k : Fin 13, k ≠ 12 ∧ .addr k = x := by
    simp [hmem]
  generalize (∅ : Finset Site) ∪ _ = S at h hS
  have h12S : Site.addr 12 ∉ S := by
    rw [hS]
    rintro ⟨k, hk, he⟩
    exact hk (Site.addr.inj he)
  have haddr : ∀ {S2 : Finset Site}, S ⊆ S2 → ∀ k : Fin 13, Site.addr k ∈ insert (.addr 12) S2 := by
    intro S2 hsub k
    by_cases hk : k = 12
    · exact hk ▸ mem_insert_self _ _
    · exact mem_insert_of_mem (hsub ((hS _).mpr ⟨k, hk, rfl⟩))
  have h12 : d₁.addrs 12 = d.addrs 12 := (h.addrs 12).trans (if_neg h12S)
  have hdin1 : (s₁.itable i).din = d₁ := by rw [ht, setDin_din]
  apply wp_bind
  apply wp_reads
  rw [hdin1, h12]
  apply wp_ite
  · intro hne
    refine (itruncEntries_wp hsb hown hl hI hP hne NINDIRECT 0 (by decide) (by simp [hS]) h
      hlog1).bind ?_
    rintro _ s2 ⟨h2, ht2, hlog2⟩
    refine (h2.bfree_wp hl hI hP hlog2 (x := .addr 12) hne (by simpa using h12S)).bind ?_
    rintro _ s3 ⟨hcut, ht3, hlog3⟩
    apply wp_bind
    apply wp_modify
    refine hdone (.forget i hcut) ?_ (hlog3.congr rfl rfl) (fun x hx => ?_)
      (haddr subset_union_left)
    · exact (setDin_congr (ht3.trans ht2) _).trans (setDin_setDin ht _)
    · cases x with
      | addr k => exact absurd (haddr subset_union_left k) hx
      | entry e => simp at hx
  · intro hz
    have hz := not_not.mp hz
    refine hdone (h.skip hl hI (x := .addr 12) hz) ht hlog1 (fun x hx => ?_) (haddr subset_rfl)
    cases x with
    | addr k => exact absurd (haddr subset_rfl k) hx
    | entry e => exact Dinode.ref_entry_of_none hz

open Sample in
theorem itrunc_wp_sample : ∃ s', itrunc Sample.sb 0 state = .ok ((), s') ∧
    Truncated Sample.sb (diskInode Sample.sb data) 2 file state s' := by
  have hP : Bitmaps Sample.sb {32, 33} := by
    unfold Bitmaps
    decide
  obtain ⟨_, s', hrun, h, -⟩ := (itrunc_wp (s := state) (k := 0) sb_ok owned file_live
    file_inode file_ok hP (by decide) ⟨.inr (by decide), .inr (by decide)⟩).returns
  exact ⟨s', hrun, h⟩

end Fs
end Xv6
