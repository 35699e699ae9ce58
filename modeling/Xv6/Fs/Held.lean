import Xv6.Fs.Table

/-!
# References and locks along a path

What a call holds after each function that takes or drops references and locks,
if that function returns (`Sys.post`): `ilock` and `iunlock` a lock, `iput` a
reference, `dirlookup` a reference to what it finds, `namex` a reference to what
it ends at and nothing else.
-/

namespace Xv6
namespace Fs

open Sys

variable (sb : Superblock) {s₀ s : State} {own : List (Fin NINODE × Nat)} {L : List (Fin NINODE)}
variable {i : Fin NINODE} {n : Nat}

theorem Holding.post_same {α : Type} {x : Sys State α} (h : Holding s₀ s own L)
    (hx : Within SameTable x) : x.post s fun _ s' => Holding s₀ s' own L :=
  (hx.post s).imp fun _ _ hs => h.same hs

/-! ## Locks -/

theorem ilock_held (h : Holding s₀ s own L) :
    (ilock sb i).post s fun _ s' => Holding s₀ s' own (i :: L) := by
  refine (ilock_wp sb s i).mono ?_ fun _ _ => trivial
  rintro _ _ ⟨⟨hpos, hfree⟩, rfl⟩
  exact h.lock hpos hfree _

theorem iunlock_held (h : Holding s₀ s own (i :: L)) :
    (iunlock i).post s fun _ s' => Holding s₀ s' own L :=
  wp_bind (wp_reads (wp_ite (fun _ => wp_panic trivial) fun _ =>
    wp_modify (h.unlock (s.itable i).valid)))

/-! ## References -/

theorem refDec_held (h : Holding s₀ s ((i, n) :: own) L) (hi : i ∉ L) :
    (refDec i).post s fun _ s' => Holding s₀ s' own L :=
  wp_modify (h.less fun hL => absurd hL hi)

theorem iput_held (h : Holding s₀ s ((i, n) :: own) L) (hi : i ∉ L) :
    (iput sb i).post s fun _ s' => Holding s₀ s' own L := by
  unfold iput
  refine wp_bind (wp_reads (wp_ite (fun hlast => ?_) fun _ => refDec_held h hi))
  refine wp_ite (fun _ => wp_hang trivial) fun hlocked => wp_bind (wp_modify ?_)
  -- the last reference to an inode without links: it is freed, with the lock held
  have hip : s.setInode i { s.itable i with locked := true } = s.lock i (s.itable i).din := by
    unfold State.lock
    rw [← hlast.2.1]
  rw [hip]
  have hl := h.lock (i := i) (by omega) (by simpa using hlocked) (s.itable i).din
  refine (hl.post_same (itrunc_same sb i)).bind fun _ s1 h1 => wp_bind (wp_reads ?_)
  refine (h1.post_same (setDin_same i _)).bind fun _ s2 h2 => ?_
  refine (h2.post_same (iupdate_same sb i)).bind fun _ s3 h3 => wp_bind (wp_modify ?_)
  exact refDec_held (h3.unlock false) hi

theorem iunlockput_held (h : Holding s₀ s ((i, n) :: own) (i :: L)) :
    (iunlockput sb i).post s fun _ s' => Holding s₀ s' own L :=
  (iunlock_held h).bind fun _ _ h' => iput_held sb h' (List.nodup_cons.mp h.nodup).1

theorem iget_held (h : Holding s₀ s own L) (dev inum : Nat) :
    (iget dev inum).post s fun i s' => Holding s₀ s' ((i, inum) :: own) L :=
  (iget_wp trivial dev inum).imp fun _ _ hg => hg.hold h

theorem idup_held (h : Holding s₀ s own L) (hi : 0 < (s.itable i).ref) :
    (idup i).post s fun j s' => j = i ∧ Holding s₀ s' ((i, (s.itable i).inum) :: own) L :=
  wp_bind (wp_modify (wp_pure ⟨rfl, h.more hi rfl⟩))

/-! ## Paths -/

theorem dirlookupLoop_held (i : Fin NINODE) (name : Name) : ∀ (fuel off : Nat) {s : State},
    Holding s₀ s own L → (dirlookupLoop sb i name fuel off).post s fun r s' =>
      (r = none ∧ Holding s₀ s' own L) ∨
      ∃ next o m, r = some (next, o) ∧ Holding s₀ s' ((next, m) :: own) L
  | 0, _, _, _ => wp_hang trivial
  | fuel + 1, off, s, h => by
    unfold dirlookupLoop
    refine wp_bind (wp_reads (wp_ite (fun _ => ?_) fun _ => wp_pure (.inl ⟨rfl, h⟩)))
    refine (h.post_same (readDirent_same sb i off)).bind fun r s1 h1 => ?_
    cases r with
    | none => exact wp_panic trivial
    | some de =>
      refine wp_ite (fun _ => dirlookupLoop_held i name fuel _ h1) fun _ => ?_
      refine wp_ite (fun _ => ?_) fun _ => dirlookupLoop_held i name fuel _ h1
      exact (iget_held h1 _ _).bind fun next s2 h2 => wp_pure (.inr ⟨next, off, _, rfl, h2⟩)

theorem dirlookup_held (h : Holding s₀ s own L) (i : Fin NINODE) (name : Name) :
    (dirlookup sb i name).post s fun r s' =>
      (r = none ∧ Holding s₀ s' own L) ∨
      ∃ next o m, r = some (next, o) ∧ Holding s₀ s' ((next, m) :: own) L :=
  wp_bind (wp_reads (wp_ite (fun _ => wp_panic trivial) fun _ =>
    dirlookupLoop_held sb i name _ _ h))

/-- **`namex`** trades the reference to where it starts for one to where it
    ends. -/
theorem namexLoop_held (nameiparent : Bool) : ∀ (fuel : Nat) (ip : Fin NINODE) (path : Path)
    (last : Name) {s : State} {n : Nat}, Holding s₀ s ((ip, n) :: own) [] →
    (namexLoop sb nameiparent fuel ip path last).post s fun r s' =>
      (r = none ∧ Holding s₀ s' own []) ∨
      ∃ ip' name m, r = some (ip', name) ∧ Holding s₀ s' ((ip', m) :: own) []
  | 0, _, _, _, _, _, _ => wp_hang trivial
  | fuel + 1, ip, path, last, s, n, h => by
    unfold namexLoop
    cases skipelem path with
    | none =>
      refine wp_ite (fun _ => ?_) fun _ => wp_pure (.inr ⟨ip, last, n, rfl, h⟩)
      exact (iput_held sb h (List.not_mem_nil)).bind fun _ _ h1 => wp_pure (.inl ⟨rfl, h1⟩)
    | some next =>
      obtain ⟨name, path⟩ := next
      have hdrop : ∀ {s : State}, Holding s₀ s ((ip, n) :: own) [ip] →
          (do iunlockput sb ip; pure none : Sys State (Option (Fin NINODE × Name))).post s
            fun r s' => (r = none ∧ Holding s₀ s' own []) ∨
              ∃ ip' name m, r = some (ip', name) ∧ Holding s₀ s' ((ip', m) :: own) [] :=
        fun h => (iunlockput_held sb h).bind fun _ _ h' => wp_pure (.inl ⟨rfl, h'⟩)
      refine (ilock_held sb h).bind fun _ s1 h1 => wp_bind (wp_reads ?_)
      refine wp_ite (fun _ => hdrop h1) fun _ => wp_ite (fun _ => ?_) fun _ => ?_
      · exact (iunlock_held h1).bind fun _ _ h2 => wp_pure (.inr ⟨ip, name, n, rfl, h2⟩)
      refine (dirlookup_held sb h1 ip name).bind fun r s2 hr => ?_
      rcases hr with ⟨rfl, h2⟩ | ⟨next, o, m, rfl, h2⟩
      · exact hdrop h2
      · refine (iunlockput_held sb (h2.perm (.swap ..) (.refl _))).bind fun _ _ h3 => ?_
        exact namexLoop_held nameiparent fuel next path name h3

theorem namex_held (h : Holding s₀ s own []) {cwd : Fin NINODE} (hcwd : 0 < (s.itable cwd).ref)
    (path : Path) (nameiparent : Bool) :
    (namex sb cwd path nameiparent).post s fun r s' =>
      (r = none ∧ Holding s₀ s' own []) ∨
      ∃ ip name m, r = some (ip, name) ∧ Holding s₀ s' ((ip, m) :: own) [] := by
  refine wp_ite (fun _ => ?_) fun _ => ?_
  · exact (iget_held h _ _).bind fun ip _ h1 => namexLoop_held sb nameiparent _ ip path [] h1
  · refine (idup_held h hcwd).bind fun ip _ h1 => ?_
    obtain ⟨rfl, h1⟩ := h1
    exact namexLoop_held sb nameiparent _ ip path [] h1

theorem namei_held (h : Holding s₀ s own []) {cwd : Fin NINODE} (hcwd : 0 < (s.itable cwd).ref)
    (path : Path) :
    (namei sb cwd path).post s fun r s' =>
      (r = none ∧ Holding s₀ s' own []) ∨
      ∃ ip m, r = some ip ∧ Holding s₀ s' ((ip, m) :: own) [] := by
  refine (namex_held sb h hcwd path false).bind fun r s1 hr => ?_
  rcases hr with ⟨rfl, h1⟩ | ⟨ip, name, m, rfl, h1⟩
  · exact wp_pure (.inl ⟨rfl, h1⟩)
  · exact wp_pure (.inr ⟨ip, m, rfl, h1⟩)

/-! ## Operations -/

/-- A transaction has begun. -/
def State.begun (s : State) : State := { s with outstanding := s.outstanding + 1 }

/-- Every reference, lock and transaction that was taken since `s` has been
    given back. -/
structure Released (s s' : State) : Prop where
  ref : ∀ j, (s'.itable j).ref = (s.itable j).ref
  locked : ∀ j, (s'.itable j).locked = (s.itable j).locked
  ident : ∀ j, 0 < (s.itable j).ref →
    (s'.itable j).dev = (s.itable j).dev ∧ (s'.itable j).inum = (s.itable j).inum
  uniq : Uniq s'
  outstanding : s'.outstanding = s.outstanding

theorem beginOp_begun (s : State) : beginOp.post s fun _ s' => s' = s.begun := by
  refine post_of_forall fun _ s' h => ?_
  unfold beginOp at h
  split_ifs at h
  cases h
  rfl

theorem Holding.begin (hn : ∀ j, 0 ≤ (s.itable j).ref) (hu : Uniq s) :
    Holding s.begun s.begun [] [] := .start hn hu

/-- **`end_op`** of a call that holds nothing any more. -/
theorem endOp_released {s' : State} (h : Holding s.begun s' [] []) :
    endOp.post s' fun _ s'' => Released s s'' := by
  have hone : s'.outstanding = s.outstanding + 1 := h.outstanding
  have href : ∀ j, (s'.itable j).ref = (s.itable j).ref := fun j => by
    rw [h.ref j]
    exact Int.add_zero _
  have hlocked : ∀ j, (s'.itable j).locked = (s.itable j).locked := fun j => by
    rw [h.locked j]
    exact Bool.or_false _
  refine wp_modify ?_
  split_ifs with h0
  · refine ⟨href, hlocked, h.ident, h.uniq, ?_⟩
    show 0 = s.outstanding
    omega
  · refine ⟨href, hlocked, h.ident, h.uniq, ?_⟩
    show s'.outstanding - 1 = s.outstanding
    omega

end Fs
end Xv6
