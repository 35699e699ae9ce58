import Xv6.Proc.Kernel

/-!
# The file table and the pages of pipes

A pipe's page is shared by two open files, its ends. Which ends are open is
written twice: in the file table, and in the flags on the page, by which
`pipeclose` decides whether the page goes back. `PipesOk` says that the two
agree. `FilesOk` adds the reference counts, for whatever number of references
`cnt` the rest of the kernel has to each file, so that the calls on files are
specified without the processes.
-/

namespace Xv6

open Function List Sys Bytes

variable {E : Env} {R : List Nat}

/-- The pipe whose end a file is, and whether it is the one for writing. -/
def File.pipeEnd (x : File) : Option (Nat × Bool) :=
  if x.type = .FD_PIPE then some (x.pipe, x.writable) else none

theorem File.pipeEnd_none {x : File} (h : x.type ≠ .FD_PIPE) : x.pipeEnd = none := if_neg h

theorem offOpen_disjoint (w : Bool) :
    offOpen w + 4 ≤ offOpen (!w) ∨ offOpen (!w) + 4 ≤ offOpen w := by
  cases w <;> decide

/-! ## Pages and ends -/

structure PipesOk (mem : Nat → Bytes) (ends : Fin NFILE → Option (Nat × Bool)) (pipes : List Nat) :
    Prop where
  own : ∀ f pi w, ends f = some (pi, w) → pi ∈ pipes
  inj : ∀ f f' e, ends f = some e → ends f' = some e → f = f'
  used : ∀ pi ∈ pipes, ∃ f w, ends f = some (pi, w)
  flag : ∀ pi ∈ pipes, ∀ w, (mem pi).getLE (offOpen w) 4 ≠ 0 ↔ ∃ f, ends f = some (pi, w)

namespace PipesOk

variable {mem mem' : Nat → Bytes} {ends : Fin NFILE → Option (Nat × Bool)} {pipes : List Nat}

theorem of_closed {f f' : Fin NFILE} {e : Nat × Bool} (h : update ends f none f' = some e) :
    f' ≠ f ∧ ends f' = some e := by
  by_cases he : f' = f
  · rw [he, update_self] at h
    cases h
  · exact ⟨he, by rwa [update_of_ne he] at h⟩

section

variable (h : PipesOk mem ends pipes)

include h

theorem congr (hmem : ∀ p ∈ pipes, mem' p = mem p) : PipesOk mem' ends pipes :=
  { h with flag := fun pi hpi w => by rw [hmem pi hpi]; exact h.flag pi hpi w }

variable {f : Fin NFILE} {pi : Nat}

theorem closed_iff {e : Nat × Bool} (hf : ends f = some e) (e' : Nat × Bool) :
    (∃ f', update ends f none f' = some e') ↔ e' ≠ e ∧ ∃ f', ends f' = some e' := by
  constructor
  · rintro ⟨f', hf'⟩
    obtain ⟨hne, hf'⟩ := of_closed hf'
    exact ⟨fun he => hne (h.inj f' f e (he ▸ hf') hf), f', hf'⟩
  · rintro ⟨hne, f', hf'⟩
    refine ⟨f', ?_⟩
    rw [update_of_ne, hf']
    rintro rfl
    rw [hf] at hf'
    exact hne (Option.some.inj hf').symm

/-- **One end is closed** and its flag cleared; the page stays while the other
    end is open. -/
theorem close {w : Bool} (hf : ends f = some (pi, w))
    (hsame : ∀ p, p ≠ pi → mem' p = mem p) (hself : (mem' pi).getLE (offOpen w) 4 = 0)
    (hother : (mem' pi).getLE (offOpen !w) 4 = (mem pi).getLE (offOpen !w) 4)
    (hopen : (mem' pi).getLE (offOpen !w) 4 ≠ 0) :
    PipesOk mem' (update ends f none) pipes := by
  have hpi := h.own f pi w hf
  refine ⟨fun f' pi' w' hf' => ?_, fun f1 f2 e h1 h2 => ?_, fun pi' hpi' => ?_,
    fun pi' hpi' w' => ?_⟩
  · obtain ⟨_, f'', hf''⟩ := (h.closed_iff hf _).mp ⟨f', hf'⟩
    exact h.own f'' pi' w' hf''
  · exact h.inj f1 f2 e (of_closed h1).2 (of_closed h2).2
  · by_cases he : pi' = pi
    · subst he
      rw [hother] at hopen
      obtain ⟨f', hf'⟩ := (h.flag pi' hpi' _).mp hopen
      obtain ⟨f'', hf''⟩ := (h.closed_iff hf (pi', !w)).mpr ⟨by simp, f', hf'⟩
      exact ⟨f'', _, hf''⟩
    · obtain ⟨f', w', hf'⟩ := h.used pi' hpi'
      obtain ⟨f'', hf''⟩ := (h.closed_iff hf (pi', w')).mpr
        ⟨fun e => he (Prod.mk.inj e).1, f', hf'⟩
      exact ⟨f'', _, hf''⟩
  · rw [h.closed_iff hf]
    by_cases he : pi' = pi
    · subst he
      by_cases hw : w' = w
      · subst hw
        exact iff_of_false (fun h0 => h0 hself) fun h0 => h0.1 rfl
      · obtain rfl : w' = !w := by cases w <;> cases w' <;> simp_all
        rw [hother, h.flag pi' hpi']
        exact ⟨fun h0 => ⟨by simp, h0⟩, fun h0 => h0.2⟩
    · rw [hsame pi' he, h.flag pi' hpi']
      exact ⟨fun h0 => ⟨fun e => he (Prod.mk.inj e).1, h0⟩, fun h0 => h0.2⟩

/-- **The last end is closed** and the page is the pipe's no more. -/
theorem drop (hnd : pipes.Nodup) {w : Bool}
    (hf : ends f = some (pi, w)) (hsame : ∀ p, p ≠ pi → mem' p = mem p)
    (hlast : (mem pi).getLE (offOpen !w) 4 = 0) :
    PipesOk mem' (update ends f none) (pipes.erase pi) := by
  have hpi := h.own f pi w hf
  have hgone : ∀ f' w', update ends f none f' ≠ some (pi, w') := by
    intro f' w' hf'
    obtain ⟨hne, f'', hf''⟩ := (h.closed_iff hf _).mp ⟨f', hf'⟩
    obtain rfl : w' = !w := by cases w <;> cases w' <;> simp_all
    exact (h.flag pi hpi _).mpr ⟨f'', hf''⟩ hlast
  refine ⟨fun f' pi' w' hf' => ?_, fun f1 f2 e h1 h2 => ?_, fun pi' hpi' => ?_,
    fun pi' hpi' w' => ?_⟩
  · have hne : pi' ≠ pi := by
      rintro rfl
      exact hgone f' w' hf'
    obtain ⟨_, f'', hf''⟩ := (h.closed_iff hf _).mp ⟨f', hf'⟩
    exact (mem_erase_of_ne hne).mpr (h.own f'' pi' w' hf'')
  · exact h.inj f1 f2 e (of_closed h1).2 (of_closed h2).2
  · obtain ⟨hne, hpi''⟩ := hnd.mem_erase_iff.mp hpi'
    obtain ⟨f', w', hf'⟩ := h.used pi' hpi''
    obtain ⟨f'', hf''⟩ := (h.closed_iff hf (pi', w')).mpr ⟨fun e => hne (Prod.mk.inj e).1, f', hf'⟩
    exact ⟨f'', _, hf''⟩
  · obtain ⟨hne, hpi''⟩ := hnd.mem_erase_iff.mp hpi'
    rw [hsame pi' hne, h.flag pi' hpi'', h.closed_iff hf]
    exact ⟨fun h0 => ⟨fun e => hne (Prod.mk.inj e).1, h0⟩, fun h0 => h0.2⟩

/-- **A new pipe** and its two ends. -/
theorem make {f0 f1 : Fin NFILE} (hne : f0 ≠ f1)
    (h0 : ends f0 = none) (h1 : ends f1 = none) (hnew : pi ∉ pipes)
    (hsame : ∀ p, p ≠ pi → mem' p = mem p) (hopen : ∀ w, (mem' pi).getLE (offOpen w) 4 ≠ 0) :
    PipesOk mem'
      (update (update ends f0 (some (pi, false))) f1 (some (pi, true)))
      (pi :: pipes) := by
  generalize hends : update (update ends f0 (some (pi, false))) f1
    (some (pi, true)) = ends'
  have he1 : ends' f1 = some (pi, true) := by rw [← hends, update_self]
  have he0 : ends' f0 = some (pi, false) := by
    rw [← hends, update_of_ne hne, update_self]
  have hold : ∀ f, f ≠ f0 → f ≠ f1 → ends' f = ends f := by
    intro f hf0 hf1
    rw [← hends, update_of_ne hf1, update_of_ne hf0]
  have hcases : ∀ f e, ends' f = some e →
      f = f0 ∧ e = (pi, false) ∨ f = f1 ∧ e = (pi, true) ∨ ends f = some e ∧ e.1 ≠ pi := by
    intro f e hf
    by_cases hf0 : f = f0
    · rw [hf0, he0] at hf
      exact .inl ⟨hf0, (Option.some.inj hf).symm⟩
    by_cases hf1 : f = f1
    · rw [hf1, he1] at hf
      exact .inr (.inl ⟨hf1, (Option.some.inj hf).symm⟩)
    rw [hold f hf0 hf1] at hf
    refine .inr (.inr ⟨hf, fun e0 => hnew ?_⟩)
    rw [← e0]
    exact h.own f e.1 e.2 hf
  have hkeep : ∀ f e, ends f = some e → ends' f = some e := by
    intro f e hf
    rw [hold f, hf]
    · rintro rfl
      rw [h0] at hf
      cases hf
    · rintro rfl
      rw [h1] at hf
      cases hf
  refine ⟨fun f pi' w hf => ?_, fun f f' e hf hf' => ?_, fun pi' hpi' => ?_, fun pi' hpi' w => ?_⟩
  · rcases hcases f _ hf with ⟨_, he⟩ | ⟨_, he⟩ | ⟨hf, _⟩
    · cases he
      exact mem_cons_self
    · cases he
      exact mem_cons_self
    · exact mem_cons_of_mem _ (h.own f pi' w hf)
  · rcases hcases f e hf with ⟨rfl, rfl⟩ | ⟨rfl, rfl⟩ | ⟨hg, hepi⟩ <;>
      rcases hcases f' _ hf' with ⟨rfl, he⟩ | ⟨rfl, he⟩ | ⟨hg', hepi'⟩
    · rfl
    · cases he
    · exact absurd rfl hepi'
    · cases he
    · rfl
    · exact absurd rfl hepi'
    · exact absurd (congrArg Prod.fst he) hepi
    · exact absurd (congrArg Prod.fst he) hepi
    · exact h.inj f f' e hg hg'
  · rcases mem_cons.mp hpi' with rfl | hpi'
    · exact ⟨f0, false, he0⟩
    · obtain ⟨f, w, hf⟩ := h.used pi' hpi'
      exact ⟨f, w, hkeep f _ hf⟩
  · rcases mem_cons.mp hpi' with rfl | hpi'
    · refine iff_of_true (hopen w) ?_
      cases w
      · exact ⟨f0, he0⟩
      · exact ⟨f1, he1⟩
    · have hne' : pi' ≠ pi := fun e => hnew (e ▸ hpi')
      rw [hsame pi' hne', h.flag pi' hpi']
      constructor
      · rintro ⟨f, hf⟩
        exact ⟨f, hkeep f _ hf⟩
      · rintro ⟨f, hf⟩
        rcases hcases f _ hf with ⟨_, he⟩ | ⟨_, he⟩ | ⟨hf, _⟩
        · cases he
          exact absurd rfl hne'
        · cases he
          exact absurd rfl hne'
        · exact ⟨f, hf⟩

end

end PipesOk

/-! ## The file table -/

structure FilesOk (mem : Nat → Bytes) (file : Fin NFILE → File) (cnt : Fin NFILE → Int)
    (pipes : List Nat) : Prop where
  ref : ∀ f, (file f).ref = cnt f
  free : ∀ f, (file f).ref = 0 → (file f).type = .FD_NONE
  pipes : PipesOk mem (fun f => (file f).pipeEnd) pipes

namespace FilesOk

variable {mem mem' : Nat → Bytes} {file : Fin NFILE → File} {cnt : Fin NFILE → Int}
  {pipes pipes' : List Nat}

theorem congr (h : FilesOk mem file cnt pipes) (hmem : ∀ p ∈ pipes, mem' p = mem p) :
    FilesOk mem' file cnt pipes := { h with pipes := h.pipes.congr hmem }

theorem ends_update (file : Fin NFILE → File) (f : Fin NFILE) (x : File) :
    (fun f' => (update file f x f').pipeEnd)
      = update (fun f' => (file f').pipeEnd) f x.pipeEnd := by
  funext f'
  by_cases h : f' = f
  · subst h
    simp
  · simp [h]

theorem put (h : FilesOk mem file cnt pipes) {f : Fin NFILE} {x : File}
    (hnone : x.ref = 0 → x.type = .FD_NONE)
    (hpipes : PipesOk mem' (update (fun f' => (file f').pipeEnd) f x.pipeEnd) pipes') :
    FilesOk mem' (update file f x) (update cnt f x.ref) pipes' := by
  refine ⟨fun f' => ?_, fun f' => ?_, ?_⟩
  · by_cases hf : f' = f
    · subst hf
      simp
    · rw [update_of_ne hf, update_of_ne hf]
      exact h.ref f'
  · by_cases hf : f' = f
    · subst hf
      rw [update_self]
      exact hnone
    · rw [update_of_ne hf]
      exact h.free f'
  · rw [ends_update]
    exact hpipes

theorem put_same (h : FilesOk mem file cnt pipes) {f : Fin NFILE} {x : File}
    (hnone : x.ref = 0 → x.type = .FD_NONE) (hend : x.pipeEnd = (file f).pipeEnd) :
    FilesOk mem (update file f x) (update cnt f x.ref) pipes := by
  refine h.put hnone ?_
  rw [hend, update_eq_self]
  exact h.pipes

end FilesOk

/-! ## The calls -/

theorem onPhys_of_ok {α : Type} {x : Sys Phys α} {k : Kernel} {a : α} {s : Phys}
    (h : x k.phys = .ok (a, s)) : onPhys x k = .ok (a, { k with phys := s }) := zoom_of_ok h

section Specs

variable {k : Kernel} {cnt : Fin NFILE → Int} {pipes : List Nat}

theorem filealloc_cases (k : Kernel) : filealloc k = .ok (none, k) ∨ ∃ f, (k.file f).ref = 0 ∧
      filealloc k = .ok (some f, k.setFile f { k.file f with ref := 1 }) := by
  cases hfind : (List.finRange NFILE).find? (fun f => (k.file f).ref = 0) with
  | none =>
    refine .inl ?_
    simp only [filealloc, reads_bind_run, hfind]
    rfl
  | some f =>
    refine .inr ⟨f, by simpa using find?_some hfind, ?_⟩
    simp only [filealloc, reads_bind_run, hfind]
    rfl

variable {f : Fin NFILE}

theorem fileclose_fresh (href : (k.file f).ref = 1) (htype : (k.file f).type = .FD_NONE) :
    fileclose E f k = .ok ((), k.setFile f { k.file f with ref := 0 }) := by
  simp only [fileclose, reads_bind_run]
  rw [if_neg (by rw [href]; decide), if_neg (by rw [href]; decide),
    if_neg (by rw [htype]; decide), ← htype]
  rfl

theorem filedup_spec (h : FilesOk k.phys.kmem.mem k.file cnt pipes) (hf : 1 ≤ cnt f) :
    ∃ file', filedup f k = .ok ((), { k with file := file' }) ∧
      FilesOk k.phys.kmem.mem file' (update cnt f (cnt f + 1)) pipes := by
  have href := h.ref f
  refine ⟨update k.file f { k.file f with ref := (k.file f).ref + 1 }, ?_, ?_⟩
  · simp only [filedup, reads_bind_run]
    rw [if_neg (by omega)]
    rfl
  · rw [← href]
    exact h.put_same (x := { k.file f with ref := (k.file f).ref + 1 })
      (fun h0 => by simp only at h0; omega) rfl

/-- **`pipeclose`** on the last reference to an end of a pipe: the page goes
    back with the second end, and not before. -/
theorem pipeclose_spec (hE : E.Ok) {ends : Fin NFILE → Option (Nat × Bool)}
    (h : PipesOk k.phys.kmem.mem ends pipes) (hacct : Acct E k.phys.kmem (pipes ++ R))
    {pi : Nat} {w : Bool} (hf : ends f = some (pi, w)) :
    ∃ s' pipes', pipeclose E pi w k = .ok ((), { k with phys := s' }) ∧
      PipesOk s'.kmem.mem (update ends f none) pipes' ∧ Acct E s'.kmem (pipes' ++ R) ∧
      ∀ p ∈ R, s'.kmem.mem p = k.phys.kmem.mem p := by
  have hpi := h.own f pi w hf
  have hR : ∀ p ∈ R, p ≠ pi := fun p hp e =>
    (nodup_append.mp hacct.nodup_owned).2.2 pi hpi p hp e.symm
  generalize hs1 : k.phys.setMem (update k.phys.kmem.mem pi
    ((k.phys.kmem.mem pi).setLE (offOpen w) 4 0)) = s1
  have hmem1 : ∀ p, p ≠ pi → s1.kmem.mem p = k.phys.kmem.mem p := fun p hp =>
    hs1 ▸ update_of_ne hp _ _
  have hpage : s1.kmem.mem pi = (k.phys.kmem.mem pi).setLE (offOpen w) 4 0 :=
    hs1 ▸ update_self pi _ k.phys.kmem.mem
  have hacct1 : Acct E s1.kmem (pipes ++ R) := hs1 ▸ hacct.congr rfl rfl rfl rfl
  have hself : (s1.kmem.mem pi).getLE (offOpen w) 4 = 0 := by
    rw [hpage, getLE_setLE_same, Nat.zero_mod]
  have hother : (s1.kmem.mem pi).getLE (offOpen !w) 4
      = (k.phys.kmem.mem pi).getLE (offOpen !w) 4 := by
    rw [hpage, getLE_setLE_disjoint (offOpen_disjoint w)]
  have hstore : onPhys (storePage pi (offOpen w) 4 0) k = .ok ((), { k with phys := s1 }) := by
    rw [← hs1]
    rfl
  have hflags : (s1.kmem.mem pi).getLE offReadopen 4 = 0 ∧
      (s1.kmem.mem pi).getLE offWriteopen 4 = 0 ↔ (s1.kmem.mem pi).getLE (offOpen !w) 4 = 0 := by
    cases w
    · exact ⟨fun h0 => h0.2, fun h0 => ⟨hself, h0⟩⟩
    · exact ⟨fun h0 => h0.1, fun h0 => ⟨h0, hself⟩⟩
  unfold pipeclose
  rw [bind_of_ok hstore]
  simp only [reads_bind_run, hflags]
  by_cases hlast : (s1.kmem.mem pi).getLE (offOpen !w) 4 = 0
  · rw [if_pos hlast]
    have hperm : (pipes ++ R).Perm (pi :: (pipes.erase pi ++ R)) :=
      (perm_cons_erase hpi).append_right R
    obtain ⟨s', hrun, hacct', hmem', _, _⟩ := kfreePage_spec hE (hacct1.perm hperm)
    have hsame : ∀ p, p ≠ pi → s'.kmem.mem p = k.phys.kmem.mem p := fun p hp =>
      (hmem' p hp).trans (hmem1 p hp)
    refine ⟨s', pipes.erase pi, onPhys_of_ok hrun, ?_, hacct', fun p hp => hsame p (hR p hp)⟩
    exact h.drop (nodup_append.mp hacct.nodup_owned).1 hf hsame (hother ▸ hlast)
  · rw [if_neg hlast]
    exact ⟨s1, pipes, rfl, h.close hf hmem1 hself hother hlast, hacct1,
      fun p hp => hmem1 p (hR p hp)⟩

/-- **`fileclose`** takes one reference away; with the last one a pipe's end is
    closed. -/
theorem fileclose_spec (hE : E.Ok) (h : FilesOk k.phys.kmem.mem k.file cnt pipes)
    (hacct : Acct E k.phys.kmem (pipes ++ R)) (hf : 1 ≤ cnt f) :
    ∃ s' file' pipes', fileclose E f k = .ok ((), { k with phys := s', file := file' }) ∧
      FilesOk s'.kmem.mem file' (update cnt f (cnt f - 1)) pipes' ∧
      Acct E s'.kmem (pipes' ++ R) ∧ (∀ p ∈ R, s'.kmem.mem p = k.phys.kmem.mem p) ∧
      (2 ≤ cnt f ∨ (k.file f).type = .FD_NONE → s' = k.phys ∧ pipes' = pipes) := by
  have href := h.ref f
  simp only [fileclose, reads_bind_run]
  rw [if_neg (by omega)]
  by_cases h2 : 2 ≤ cnt f
  · rw [if_pos (by omega)]
    refine ⟨k.phys, _, pipes, rfl, ?_, hacct, fun _ _ => rfl, fun _ => ⟨rfl, rfl⟩⟩
    rw [← href]
    exact h.put_same (x := { k.file f with ref := (k.file f).ref - 1 })
      (fun h0 => by simp only at h0; omega) rfl
  have h1 : cnt f = 1 := by omega
  rw [if_neg (by omega)]
  generalize hk1 : k.setFile f { k.file f with ref := 0, type := .FD_NONE } = k1
  have hupd : updateFile f (fun x => { x with ref := 0, type := .FD_NONE }) k = .ok ((), k1) := by
    rw [← hk1]
    rfl
  rw [bind_of_ok hupd]
  have hends : ∀ {mem' pipes'}, PipesOk mem' (update (fun f' => (k.file f').pipeEnd) f none)
      pipes' → FilesOk mem' k1.file (update cnt f (cnt f - 1)) pipes' := by
    intro mem' pipes' hp
    have := h.put (x := { k.file f with ref := 0, type := .FD_NONE }) (fun _ => rfl) hp
    rw [h1, ← hk1]
    exact this
  by_cases hpipe : (k.file f).type = .FD_PIPE
  · rw [if_pos hpipe]
    have hend : (k.file f).pipeEnd = some ((k.file f).pipe, (k.file f).writable) := if_pos hpipe
    have hphys : k1.phys = k.phys := by rw [← hk1]; rfl
    obtain ⟨s', pipes', hrun, hp, hacct', hframe⟩ := pipeclose_spec hE (k := k1) (R := R)
      (hphys ▸ h.pipes) (hphys ▸ hacct) hend
    rw [hphys] at hframe
    refine ⟨s', k1.file, pipes', ?_, hends hp, hacct', hframe, fun hor => ?_⟩
    · rw [hrun, ← hk1]
      rfl
    · rcases hor with h0 | h0
      · exact absurd h0 h2
      · rw [hpipe] at h0
        cases h0
  · rw [if_neg hpipe]
    refine ⟨k.phys, k1.file, pipes, ?_, hends ?_, hacct, fun _ _ => rfl, fun _ => ⟨rfl, rfl⟩⟩
    · rw [← hk1]
      rfl
    · have hend : (fun f' => (k.file f').pipeEnd) f = none := File.pipeEnd_none hpipe
      rw [← hend, update_eq_self]
      exact h.pipes

theorem pipeinit_spec (pi : Nat) (s : Phys) :
    ∃ s', pipeinit pi s = .ok ((), s') ∧ (∀ p, p ≠ pi → s'.kmem.mem p = s.kmem.mem p) ∧
      (∀ w, (s'.kmem.mem pi).getLE (offOpen w) 4 ≠ 0) ∧
      ∀ {L}, Acct E s.kmem L → Acct E s'.kmem L := by
  unfold pipeinit storePage
  simp only [modify_bind_run, modify_run, Phys.setMem, update_self,
    update_idem]
  refine ⟨_, rfl, fun p hp => update_of_ne hp _ _, fun w => ?_,
    fun h => h.congr rfl rfl rfl rfl⟩
  · simp only [update_self]
    cases w
    · show Bytes.getLE _ offReadopen 4 ≠ 0
      rw [getLE_setLE_disjoint (by decide), getLE_setLE_disjoint (by decide),
        getLE_setLE_disjoint (by decide), getLE_setLE_disjoint (by decide),
        getLE_setLE_same]
      decide
    · show Bytes.getLE _ offWriteopen 4 ≠ 0
      rw [getLE_setLE_disjoint (by decide), getLE_setLE_disjoint (by decide),
        getLE_setLE_disjoint (by decide), getLE_setLE_same]
      decide

theorem FilesOk.make {mem mem' : Nat → Bytes} {file : Fin NFILE → File}
    (h : FilesOk mem file cnt pipes) {f0 f1 : Fin NFILE} {pi : Nat} (hne : f0 ≠ f1)
    (h0 : (file f0).ref = 0) (h1 : (file f1).ref = 0) (hnew : pi ∉ pipes)
    (hsame : ∀ p, p ≠ pi → mem' p = mem p) (hopen : ∀ w, (mem' pi).getLE (offOpen w) 4 ≠ 0)
    (x0 x1 : File) (hr0 : x0.ref = 1) (hr1 : x1.ref = 1) (he0 : x0.pipeEnd = some (pi, false))
    (he1 : x1.pipeEnd = some (pi, true)) :
    FilesOk mem' (update (update file f0 x0) f1 x1)
      (update (update cnt f0 1) f1 1) (pi :: pipes) := by
  have hend : ∀ f, (file f).ref = 0 → (file f).pipeEnd = none := fun f hf =>
    File.pipeEnd_none (by rw [h.free f hf]; decide)
  refine ⟨fun f => ?_, fun f => ?_, ?_⟩
  · by_cases hf1 : f = f1
    · subst hf1
      simp [hr1]
    · by_cases hf0 : f = f0
      · subst hf0
        simp [hf1, hr0]
      · simp [hf1, hf0, h.ref f]
  · by_cases hf1 : f = f1
    · subst hf1
      simp [hr1]
    · by_cases hf0 : f = f0
      · subst hf0
        simp [hf1, hr0]
      · simpa [hf1, hf0] using h.free f
  · rw [ends_update, ends_update, he0, he1]
    exact h.pipes.make hne (hend f0 h0) (hend f1 h1) hnew hsame hopen

/-- **`pipealloc`** gives a page and two files that are its ends, or leaves
    everything as it was. -/
theorem pipealloc_spec (hE : E.Ok) (h : FilesOk k.phys.kmem.mem k.file cnt pipes)
    (hacct : Acct E k.phys.kmem (pipes ++ R)) :
    (∃ s', pipealloc E k = .ok (none, { k with phys := s' }) ∧ s'.kmem = k.phys.kmem) ∨
    ∃ f0 f1 s' file' pipes',
      pipealloc E k = .ok (some (f0, f1), { k with phys := s', file := file' }) ∧
      f0 ≠ f1 ∧ cnt f0 = 0 ∧ cnt f1 = 0 ∧ Acct E s'.kmem (pipes' ++ R) ∧
      (∀ p ∈ R, s'.kmem.mem p = k.phys.kmem.mem p) ∧
      FilesOk s'.kmem.mem file' (update (update cnt f0 1) f1 1) pipes' := by
  unfold pipealloc
  rcases filealloc_cases k with hrun | ⟨f0, hr0, hrun⟩
  · rw [bind_of_ok hrun]
    exact .inl ⟨k.phys, rfl, rfl⟩
  rw [bind_of_ok hrun]
  simp only
  have ht0 := h.free f0 hr0
  have hx0 : { k.file f0 with ref := 0 } = k.file f0 := by rw [← hr0]
  generalize hk1 : k.setFile f0 { k.file f0 with ref := 1 } = k1
  have hf0 : k1.file f0 = { k.file f0 with ref := 1 } := by
    rw [← hk1]
    exact update_self ..
  rcases filealloc_cases k1 with hrun1 | ⟨f1, hr1, hrun1⟩
  · refine .inl ⟨k.phys, ?_, rfl⟩
    rw [bind_of_ok hrun1]
    have hclose := fileclose_fresh (E := E) (k := k1) (f := f0) (by rw [hf0])
      (by rw [hf0]; exact ht0)
    simp only
    rw [bind_of_ok hclose, hf0]
    simp only [hx0, ← hk1, Kernel.setFile, update_idem, update_eq_self]
    rfl
  rw [bind_of_ok hrun1]
  simp only
  have hne : f0 ≠ f1 := by
    rintro rfl
    rw [hf0] at hr1
    cases hr1
  have hf1 : k1.file f1 = k.file f1 := by
    rw [← hk1]
    exact update_of_ne hne.symm _ _
  rw [hf1] at hr1 ⊢
  have ht1 := h.free f1 hr1
  have hx1 : { k.file f1 with ref := 0 } = k.file f1 := by rw [← hr1]
  generalize hk2 : k1.setFile f1 { k.file f1 with ref := 1 } = k2
  have hphys : k2.phys = k.phys := by
    rw [← hk2, ← hk1]
    rfl
  have hfile : k2.file = update (update k.file f0 { k.file f0 with ref := 1 }) f1
      { k.file f1 with ref := 1 } := by
    rw [← hk2, ← hk1]
    rfl
  have hg0 : k2.file f0 = { k.file f0 with ref := 1 } := by
    rw [hfile, update_of_ne hne, update_self]
  have hg1 : k2.file f1 = { k.file f1 with ref := 1 } := by rw [hfile, update_self]
  cases hka : E.kalloc k.phys.calls k.phys.kmem with
  | none =>
    rw [← hphys] at hka
    rw [bind_of_ok (onPhys_of_ok (kallocPage_none hE hka))]
    refine .inl ⟨{ k.phys with calls := k.phys.calls + 1, failed := k.phys.failed + 1 }, ?_, rfl⟩
    simp only
    rw [bind_of_ok (fileclose_fresh (f := f0) (by simp [hg0]) (by simpa [hg0] using ht0))]
    rw [bind_of_ok (fileclose_fresh (f := f1)
      (by simp [Kernel.setFile, hne.symm, hg1])
      (by simpa [Kernel.setFile, hne.symm, hg1] using ht1))]
    simp only [Kernel.setFile, hg0, hx0, hg1, update_of_ne hne.symm]
    rw [hx1, hfile, update_comm hne, update_idem, update_comm hne,
      update_idem, update_eq_self, update_eq_self, ← hk2, ← hk1]
    rfl
  | some pi =>
    obtain ⟨s2, hrun2, hacct2, hfresh, _, hmem2, _, _⟩ := kallocPage_some hE hacct hka
    rw [← hphys] at hrun2
    rw [bind_of_ok (onPhys_of_ok hrun2)]
    simp only
    obtain ⟨s3, hrun3, hmem3, hopen, hacct3⟩ := pipeinit_spec (E := E) pi s2
    rw [bind_of_ok (onPhys_of_ok (k := { k2 with phys := s2 }) hrun3)]
    have hpi : pi ∉ pipes := fun hp => hfresh (mem_append_left _ hp)
    have hsame : ∀ p, p ≠ pi → s3.kmem.mem p = k.phys.kmem.mem p := fun p hp =>
      (hmem3 p hp).trans (hmem2 p hp)
    have hR : ∀ p ∈ R, p ≠ pi := fun p hp e => hfresh (mem_append_right _ (e ▸ hp))
    refine .inr ⟨f0, f1, s3, _, pi :: pipes, ?_, hne, by rw [← h.ref, hr0], by rw [← h.ref, hr1],
      hacct3 hacct2, fun p hp => hsame p (hR p hp), h.make hne hr0 hr1 hpi hsame hopen
      ⟨.FD_PIPE, 1, true, false, pi⟩ ⟨.FD_PIPE, 1, false, true, pi⟩ rfl rfl rfl rfl⟩
    simp only [updateFile, modify_bind_run, Kernel.setFile, update_of_ne hne.symm, hg0,
      hg1]
    rw [hfile, update_comm hne, update_idem, update_comm hne,
      update_idem, update_comm hne.symm, ← hk2, ← hk1]
    rfl

end Specs

end Xv6
