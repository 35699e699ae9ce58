import Mathlib.Data.List.DropRight
import Xv6.Fs.DirMap
import Xv6.Fs.Held

/-!
# Paths

A path is a list of components, the pieces between slashes that are not empty;
`skipelem` takes them off one by one. `namei` follows them through the
directories, and `nameiparent` all but the last one. On the way a reference to
one inode is traded for a reference to the next, and its lock is held only while
its entries are searched.
-/

namespace Xv6
namespace Fs

open Function List Nat
open Sys

/-! ## Components -/

/-- The pieces between slashes that are not empty. -/
def components (path : Path) : List Name := (path.splitOn SLASH).filter (· ≠ [])

/-- The components, cut off as names are. -/
def elems (path : Path) : List Name := (components path).map (List.take DIRSIZ)

theorem components_slash (p : Path) : components (SLASH :: p) = components p := by
  unfold components splitOn
  rw [splitOnP_cons_eq_if_modifyHead, if_pos (by simp)]
  rfl

theorem components_dropWhile (p : Path) : components (p.dropWhile (· == SLASH)) = components p := by
  induction p with
  | nil => rfl
  | cons x p ih =>
    rw [dropWhile_cons]
    split_ifs with hx
    · rw [eq_of_beq hx, components_slash]
      exact ih
    · rfl

theorem components_elem {e rest : Path} (he : e ≠ []) (hno : ∀ x ∈ e, (x == SLASH) = false)
    (hrest : rest = [] ∨ ∃ r, rest = SLASH :: r) :
    components (e ++ rest) = e :: components rest := by
  rcases hrest with rfl | ⟨r, rfl⟩
  · unfold components splitOn
    rw [append_nil, splitOnP_eq_singleton hno]
    simp [he]
  · rw [components_slash]
    unfold components splitOn
    rw [splitOnP_append_cons_of_forall_mem hno SLASH (by simp)]
    simp [he]

/-- A path that does not start with a slash starts with a component. -/
theorem components_head {x : UInt8} (hx : x ≠ SLASH) (r : Path) :
    ∃ e rest, (x :: r).takeWhile (· != SLASH) = e ∧ (x :: r).dropWhile (· != SLASH) = rest ∧
      e ++ rest = x :: r ∧ e ≠ [] ∧ components (x :: r) = e :: components rest := by
  refine ⟨_, _, rfl, rfl, takeWhile_append_dropWhile, ?_, ?_⟩
  · rw [takeWhile_cons]
    simp [hx]
  · have hno : ∀ y ∈ (x :: r).takeWhile (· != SLASH), (y == SLASH) = false := fun y hy => by
      have := mem_takeWhile_imp hy
      simpa using this
    have hrest : (x :: r).dropWhile (· != SLASH) = [] ∨
        ∃ q, (x :: r).dropWhile (· != SLASH) = SLASH :: q := by
      cases h : (x :: r).dropWhile (· != SLASH) with
      | nil => exact .inl rfl
      | cons y q =>
        have hy := head?_dropWhile_not (· != SLASH) (x :: r)
        rw [h] at hy
        exact .inr ⟨q, by rw [show y = SLASH by simpa using hy]⟩
    have hne : (x :: r).takeWhile (· != SLASH) ≠ [] := by
      rw [takeWhile_cons]
      simp [hx]
    have hcat := components_elem hne hno hrest
    rw [takeWhile_append_dropWhile] at hcat
    exact hcat

/-- Without its leading slashes, a path is empty or starts with something
    else. -/
theorem dropWhile_slash (p : Path) : p.dropWhile (· == SLASH) = [] ∨
    ∃ x r, p.dropWhile (· == SLASH) = x :: r ∧ x ≠ SLASH := by
  cases h : p.dropWhile (· == SLASH) with
  | nil => exact .inl rfl
  | cons x r =>
    have hx := head?_dropWhile_not (· == SLASH) p
    rw [h] at hx
    exact .inr ⟨x, r, rfl, by simpa using hx⟩

theorem components_eq_nil (p : Path) : components p = [] ↔ p.dropWhile (· == SLASH) = [] := by
  rw [← components_dropWhile]
  rcases dropWhile_slash p with h | ⟨x, r, h, hx⟩
  · rw [h]
    exact iff_of_true rfl rfl
  · obtain ⟨e, rest, _, _, _, _, hcomp⟩ := components_head hx r
    rw [h, hcomp]
    exact iff_of_false (cons_ne_nil _ _) (cons_ne_nil _ _)

/-- **`skipelem`** takes off the first component. -/
theorem skipelem_cases (path : Path) : skipelem path = none ∧ components path = [] ∨
    ∃ e rest, skipelem path = some (e.take DIRSIZ, rest) ∧ components path = e :: components rest ∧
      rest.length < path.length ∧ (∀ x ∈ e ++ rest, x ∈ path) ∧
      (rest = [] ↔ components rest = []) := by
  rcases dropWhile_slash path with hp | ⟨x, r, hp, hx⟩
  · refine .inl ⟨?_, (components_eq_nil path).mpr hp⟩
    unfold skipelem
    rw [hp]
    rfl
  · obtain ⟨e, q, he, hq, hsplit, hne, hcomp⟩ := components_head hx r
    have hsub : (x :: r).Sublist path := by
      rw [← hp]
      exact dropWhile_sublist _
    have hdrop : (q.dropWhile (· == SLASH)).Sublist q := dropWhile_sublist _
    refine .inr ⟨e, q.dropWhile (· == SLASH), ?_, ?_, ?_, ?_, ?_⟩
    · unfold skipelem
      rw [hp]
      dsimp only
      rw [if_neg (cons_ne_nil _ _), he, hq]
    · rw [components_dropWhile, ← hcomp, ← hp, components_dropWhile]
    · have hlen := congrArg List.length hsplit
      rw [length_append] at hlen
      have := hsub.length_le
      have := hdrop.length_le
      have := length_pos_iff.mpr hne
      omega
    · intro y hy
      apply hsub.subset
      rw [← hsplit]
      rcases mem_append.mp hy with hy | hy
      · exact mem_append_left _ hy
      · exact mem_append_right _ (hdrop.subset hy)
    · rw [components_eq_nil, dropWhile_idempotent]

/-- What `skipelem` returns when it is called with what it has returned, until
    there is nothing. -/
inductive Elems : Path → List (Name × Path) → Prop
  | done {path : Path} : skipelem path = none → Elems path []
  | next {path rest : Path} {name : Name} {l : List (Name × Path)} :
      skipelem path = some (name, rest) → Elems rest l → Elems path ((name, rest) :: l)

/-- The components come off in order, and nothing is left exactly after the last
    one. -/
theorem exists_elems (path : Path) : ∃ l, Elems path l ∧ l.map Prod.fst = elems path ∧
    ∀ (k : Nat) (p : Name × Path), l[k]? = some p → (p.2 = [] ↔ k + 1 = l.length) := by
  -- on the length of the path
  induction hn : path.length using Nat.strong_induction_on generalizing path with
  | h n ih =>
    unfold elems
    rcases skipelem_cases path with ⟨hskip, hcomp⟩ | ⟨e, rest, hskip, hcomp, hlen, _, hrest⟩
    · exact ⟨[], .done hskip, by rw [hcomp]; rfl, nofun⟩
    · obtain ⟨l, hl, hmap, hlast⟩ := ih rest.length (by omega) rest rfl
      refine ⟨_, .next hskip hl, ?_, fun k p hk => ?_⟩
      · rw [hcomp, map_cons, hmap]
        rfl
      · cases k with
        | zero =>
          cases hk
          have hlength : l.length = (components rest).length := by
            rw [← length_map (f := Prod.fst), hmap]
            exact length_map _
          rw [hrest, ← length_eq_zero_iff, length_cons, hlength]
          omega
        | succ k =>
          rw [hlast k p hk, length_cons]
          omega

/-- `skipelem` with the buffer that it copies the element into. -/
def skipelemInto (name : Bytes) (path : Path) : Option (Bytes × Path) :=
  let s := path.dropWhile (· == SLASH)
  if s = [] then none
  else
    let len := (s.takeWhile (· != SLASH)).length
    some (if len ≥ DIRSIZ then name.blit 0 (Bytes.ofList s) 0 DIRSIZ
      else update (name.blit 0 (Bytes.ofList s) 0 len) len 0,
      (s.dropWhile (· != SLASH)).dropWhile (· == SLASH))

theorem cstr_terminated {b : Bytes} {l : Name} {o n : Nat} (h0 : 0 ∉ l) (hn : l.length < n)
    (hb : ∀ j < l.length, b (o + j) = Bytes.ofList l j) (hend : b (o + l.length) = 0) :
    cstr b o n = l := by
  induction l generalizing o n with
  | nil => exact cstr_stop hend n
  | cons x l ih =>
    obtain ⟨n, rfl⟩ := exists_eq_succ_of_ne_zero (Nat.ne_zero_of_lt hn)
    have hx : b o = x := hb 0 (zero_lt_succ _)
    have hne : b o ≠ 0 := fun h => h0 (by rw [← h, hx]; exact mem_cons_self)
    rw [cstr_cons hne, hx, ih (fun h => h0 (mem_cons_of_mem _ h)) (lt_of_succ_lt_succ hn)]
    · intro j hj
      rw [Nat.add_assoc, Nat.add_comm 1, hb (j + 1) (succ_lt_succ hj), ofList_cons_succ]
    · rw [Nat.add_assoc, Nat.add_comm 1]
      exact hend

theorem ofList_append_left {a : List UInt8} {j : Nat} (h : j < a.length) (b : List UInt8) :
    Bytes.ofList (a ++ b) j = Bytes.ofList a j := by
  unfold Bytes.ofList
  rw [getD_append _ _ _ _ h]

variable {path : Path}

/-- Whatever was in the buffer before, the string in it is the element. -/
theorem skipelemInto_eq (h0 : 0 ∉ path) (name : Bytes) :
    (skipelemInto name path).map (fun r => (cstr r.1 0 DIRSIZ, r.2)) = skipelem path := by
  unfold skipelemInto skipelem
  generalize hs : path.dropWhile (· == SLASH) = s
  have h0s : 0 ∉ s := fun h => h0 ((dropWhile_sublist _).subset (by rw [hs]; exact h))
  dsimp only
  by_cases hnil : s = []
  · rw [if_pos hnil, if_pos hnil]
    rfl
  · rw [if_neg hnil, if_neg hnil]
    generalize he : s.takeWhile (· != SLASH) = e
    have hsplit : e ++ s.dropWhile (· != SLASH) = s := by
      rw [← he]
      exact takeWhile_append_dropWhile
    have h0e : 0 ∉ e := fun h => h0s (by rw [← hsplit]; exact mem_append_left _ h)
    have hbyte : ∀ j < e.length, Bytes.ofList s j = Bytes.ofList e j := fun j hj => by
      rw [← hsplit]
      exact ofList_append_left hj _
    refine congrArg some (Prod.ext ?_ rfl)
    dsimp only
    split_ifs with hlen
    · rw [← cstr_ofList h0e]
      refine cstr_congr fun j hj => ?_
      unfold Bytes.blit
      rw [if_pos (by omega), Nat.zero_add, Nat.sub_zero, Nat.zero_add, hbyte j (by omega)]
    · rw [take_of_length_le (by omega)]
      refine cstr_terminated h0e (by omega) (fun j hj => ?_) ?_
      · rw [Nat.zero_add, update_of_ne (by omega)]
        unfold Bytes.blit
        rw [if_pos (by omega), Nat.sub_zero, Nat.zero_add, hbyte j hj]
      · rw [Nat.zero_add, update_self]

/-! ## Following a path -/

section Follow

variable (sb : Superblock) (s : State)

/-- The inode that the names lead to from the inode `n`, each looked up in the
    directory before. -/
def follow : Nat → List Name → Option Nat
  | n, [] => some n
  | n, c :: cs =>
    if (diskInode sb s.data n).type = T_DIR then
      (SlotMap.get (dirOf sb s n) c).bind fun m => follow m cs
    else none

/-- What the loop of `namex` returns from the inode `n` on: the inode, and the
    name in the buffer. -/
def walk (nameiparent : Bool) : Nat → List Name → Name → Option (Nat × Name)
  | n, [], last => if nameiparent then none else some (n, last)
  | n, c :: cs, _ =>
    if (diskInode sb s.data n).type ≠ T_DIR then none
    else if nameiparent = true ∧ cs = [] then some (n, c)
    else (SlotMap.get (dirOf sb s n) c).bind fun m => walk nameiparent m cs c

variable {sb s}

theorem walk_false (n : Nat) (cs : List Name) (last : Name) :
    (walk sb s false n cs last).map Prod.fst = follow sb s n cs := by
  induction cs generalizing n last with
  | nil => rfl
  | cons c cs ih =>
    unfold walk follow
    by_cases hty : (diskInode sb s.data n).type = T_DIR
    · rw [if_neg (not_not_intro hty), if_neg nofun, if_pos hty]
      cases SlotMap.get (dirOf sb s n) c with
      | none => rfl
      | some m => exact ih m c
    · rw [if_pos hty, if_neg hty]
      rfl

theorem walk_true (n : Nat) (cs : List Name) (c last : Name) :
    walk sb s true n (cs ++ [c]) last = (follow sb s n cs).bind fun m =>
      if (diskInode sb s.data m).type = T_DIR then some (m, c) else none := by
  induction cs generalizing n last with
  | nil =>
    show (if _ then none else if _ then some (n, c) else _) = if _ then _ else _
    rw [if_pos (And.intro rfl rfl), ite_not]
  | cons c' cs ih =>
    have hmore : ¬ (true = true ∧ cs ++ [c] = []) := fun h => by
      have := congrArg List.length h.2
      simp at this
    rw [cons_append, walk, follow]
    by_cases hty : (diskInode sb s.data n).type = T_DIR
    · rw [if_neg (not_not_intro hty), if_neg hmore, if_pos hty]
      cases SlotMap.get (dirOf sb s n) c' with
      | none => rfl
      | some m => exact ih m c'
    · rw [if_pos hty, if_neg hty]
      rfl

/-- **Where a path leads nowhere**: after some of the names comes one that is
    missing, or that is looked up in something that is not a directory. -/
theorem follow_eq_none {n : Nat} {cs : List Name} : follow sb s n cs = none ↔
    ∃ p c rest m, cs = p ++ c :: rest ∧ follow sb s n p = some m ∧
      ((diskInode sb s.data m).type ≠ T_DIR ∨ SlotMap.get (dirOf sb s m) c = none) := by
  induction cs generalizing n with
  | nil =>
    refine iff_of_false nofun ?_
    rintro ⟨p, c, rest, m, hcs, _⟩
    simp at hcs
  | cons c cs ih =>
    constructor
    · intro h
      unfold follow at h
      split_ifs at h with hty
      · cases hget : SlotMap.get (dirOf sb s n) c with
        | none => exact ⟨[], c, cs, n, rfl, rfl, .inr hget⟩
        | some m =>
          rw [hget] at h
          obtain ⟨p, c', rest, k, rfl, hp, hk⟩ := ih.mp h
          refine ⟨c :: p, c', rest, k, rfl, ?_, hk⟩
          unfold follow
          rw [if_pos hty, hget]
          exact hp
      · exact ⟨[], c, cs, n, rfl, rfl, .inl hty⟩
    · rintro ⟨p, c', rest, m, hcs, hp, hm⟩
      cases p with
      | nil =>
        cases hcs
        cases hp
        unfold follow
        rcases hm with hty | hget
        · rw [if_neg hty]
        · rw [hget]
          exact ite_self _
      | cons c1 p =>
        cases hcs
        unfold follow at hp ⊢
        split_ifs at hp with hty
        cases hget : SlotMap.get (dirOf sb s n) c with
        | none =>
          rw [hget] at hp
          cases hp
        | some k =>
          rw [hget] at hp
          rw [if_pos hty]
          exact ih.mpr ⟨p, c', rest, m, rfl, hp, hm⟩

end Follow

/-! ## Trees -/

/-- Two entries of the table are free. -/
def TwoFree (s : State) : Prop :=
  ∃ a b, a ≠ b ∧ (s.itable a).ref = 0 ∧ (s.itable b).ref = 0

/-- The inodes of `D` are files and directories of a consistent file system, and
    no directory among them has an entry for another inode. Each one has a link,
    or someone has it open; nobody holds the lock of one. -/
structure Tree (sb : Superblock) (s : State) (D : Set Nat) : Prop where
  con : Consistent sb s
  live : ∀ n ∈ D, Live sb (diskInode sb s.data) n
  linked : ∀ n ∈ D, (diskInode sb s.data n).nlink ≠ 0 ∨
    ∃ j, 0 < (s.itable j).ref ∧ (s.itable j).inum = n
  aligned : ∀ n ∈ D, (diskInode sb s.data n).type = T_DIR →
    (diskInode sb s.data n).size % DESIZE = 0
  entries : ∀ n ∈ D, (diskInode sb s.data n).type = T_DIR → ∀ c m,
    SlotMap.get (dirOf sb s n) c = some m → m ∈ D
  unlocked : ∀ j, (s.itable j).locked = true → 0 < (s.itable j).ref ∧ (s.itable j).inum ∉ D

/-- In the course of a call that began in `s₀`: the disk is the same, and the
    call holds the references `own` and the locks `L`. -/
structure Walking (sb : Superblock) (s₀ s : State) (own : List (Fin NINODE × Nat))
    (L : List (Fin NINODE)) : Prop where
  con : Consistent sb s
  data : s.data = s₀.data
  hold : Holding s₀ s own L

section Walk

variable {sb : Superblock} {s₀ s s' : State} {D : Set Nat} {own : List (Fin NINODE × Nat)}
variable {L : List (Fin NINODE)} {ip next : Fin NINODE} {n m : Nat} {X : Stop → Prop}

theorem Tree.start (ht : Tree sb s D) : Walking sb s s [] [] :=
  ⟨ht.con, rfl, .start ht.con.nonneg ht.con.uniq⟩

section

variable (h : Walking sb s₀ s own L) (ht : Tree sb s₀ D) (hn : n ∈ D)

include h ht hn

theorem Walking.isDir (hty : (diskInode sb s₀.data n).type = T_DIR) :
    IsDir sb s n ∧ dirOf sb s n = dirOf sb s₀ n := by
  have h0 : IsDir sb s₀ n := ⟨ht.con, ht.live n hn, hty, ht.aligned n hn hty⟩
  exact h0.of_data h.con h.data

omit h ht hn in
theorem Walking.got (h : Walking sb s₀ s own L) (hg : Igot s ROOTDEV m next s') :
    Walking sb s₀ s' ((next, m) :: own) L :=
  ⟨hg.consistent h.con, hg.data.trans h.data, hg.hold h.hold⟩

/-- An inode of the tree is not locked but by the call itself. -/
theorem Walking.unlocked (hown : (ip, n) ∈ own) (hL : ip ∉ L) : (s.itable ip).locked = false := by
  rw [h.hold.locked, decide_eq_false hL, Bool.or_false]
  by_contra hlocked
  obtain ⟨hpos, hnot⟩ := ht.unlocked ip (eq_true_of_ne_false hlocked)
  rw [← (h.hold.ident ip hpos).2, h.hold.named _ hown] at hnot
  exact hnot hn

/-- **`ilock`** of an inode of the tree. -/
theorem Walking.ilock (hown : (ip, n) ∈ own) (hL : ip ∉ L) :
    ∃ s', ilock sb ip s = .ok ((), s') ∧ Walking sb s₀ s' own (ip :: L) ∧ Opened s' ip n := by
  have hpos := h.hold.pos hown
  have hnum : (s.itable ip).inum = n := h.hold.named _ hown
  have hlive := ht.live n hn
  have hfree := h.unlocked ht hn hown hL
  have hdin := h.con.inodeOf hpos (by rw [hnum]; exact hlive.2.1)
  have hlock : Lockable sb s ip := by
    refine ⟨hpos, hfree, ?_⟩
    rw [hdin, hnum, h.data]
    exact hlive.2.2
  refine ⟨_, hlock.ilock, ⟨?_, h.data, h.hold.lock hpos hfree _⟩, ?_⟩
  · rw [hdin]
    exact h.con.lock hpos
  · exact ⟨by rw [lock_self]; exact hnum, by rw [lock_self]; exact hpos, by rw [lock_self],
      by rw [lock_self]⟩

end

/-- **`iunlock`** of an inode that the call has locked. -/
theorem Walking.iunlock (h : Walking sb s₀ s own (ip :: L)) (ho : Opened s ip n) :
    ∃ s', iunlock ip s = .ok ((), s') ∧ Walking sb s₀ s' own L :=
  ⟨_, iunlock_ok ho.locked ho.ref,
    h.con.touch ho.ref rfl rfl (h.con.nonneg ip) (h.con.coherent ip ho.ref), h.data,
    h.hold.unlock (s.itable ip).valid⟩

/-- **`iput`** of a reference of the call: the inode has a link or another
    reference, so it is not freed. -/
theorem Walking.iput (h : Walking sb s₀ s ((ip, n) :: own) L) (ht : Tree sb s₀ D) (hn : n ∈ D)
    (hL : ip ∉ L) : ∃ s', iput sb ip s = .ok ((), s') ∧ Walking sb s₀ s' own L := by
  have hpos := h.hold.pos mem_cons_self
  have hnum : (s.itable ip).inum = n := h.hold.named _ mem_cons_self
  have hlive := ht.live n hn
  refine ⟨_, iput_keeps ?_, ?_, h.data, h.hold.less fun hmem => absurd hmem hL⟩
  · rintro ⟨hone, hvalid, hnlink⟩
    rw [h.con.coherent ip hpos hvalid (by rw [hnum]; exact hlive.2.1), hnum, h.data] at hnlink
    obtain ⟨j, hj, hjn⟩ := (ht.linked n hn).resolve_left (not_not_intro hnlink)
    -- the other reference is to the same entry
    have hjpos : 0 < (s.itable j).ref := by
      rw [h.hold.ref j]
      omega
    have hji : j = ip := h.con.uniq j ip hjpos hpos
      ((h.con.dev j hjpos).trans (h.con.dev ip hpos).symm)
      (((h.hold.ident j hj).2.trans hjn).trans hnum.symm)
    subst hji
    have hcount := h.hold.ref j
    rw [refsTo_cons, if_pos rfl] at hcount
    omega
  · exact h.con.touch hpos rfl rfl (show 0 ≤ (s.itable ip).ref - 1 by omega)
      (h.con.coherent ip hpos)

theorem Walking.iunlockput (h : Walking sb s₀ s ((ip, n) :: own) (ip :: L)) (ht : Tree sb s₀ D)
    (hn : n ∈ D) (ho : Opened s ip n) :
    ∃ s', iunlockput sb ip s = .ok ((), s') ∧ Walking sb s₀ s' own L := by
  obtain ⟨s1, hunlock, h1⟩ := h.iunlock ho
  obtain ⟨s2, hput, h2⟩ := h1.iput ht hn (nodup_cons.mp h.hold.nodup).1
  refine ⟨s2, ?_, h2⟩
  unfold Fs.iunlockput
  rw [bind_of_ok hunlock]
  exact hput

/-- A call with one reference finds an entry for the next inode. -/
theorem TwoFree.gettable (h : TwoFree s₀) (hw : Walking sb s₀ s [(ip, n)] L) (m : Nat) :
    Gettable s m := by
  obtain ⟨a, b, hab, ha, hb⟩ := h
  have hfree : ∀ j, ip ≠ j → (s₀.itable j).ref = 0 → (s.itable j).ref = 0 := by
    intro j hj h0
    rw [hw.hold.ref j, h0, refsTo_cons, if_neg hj]
    rfl
  by_cases hip : ip = a
  · exact .inr ⟨b, hfree b (hip ▸ hab) hb⟩
  · exact .inr ⟨a, hfree a hip ha⟩

/-- What a call of `namex` ends with: a reference to the inode that the walk
    ends at. -/
def Arrived (sb : Superblock) (s₀ s : State) :
    Option (Nat × Name) → Option (Fin NINODE × Name) → Prop
  | none, r => r = none ∧ Walking sb s₀ s [] []
  | some (m, c), r => ∃ ip, r = some (ip, c) ∧ Walking sb s₀ s [(ip, m)] []

theorem Walking.fail (h : Walking sb s₀ s [(ip, n)] [ip]) (ht : Tree sb s₀ D) (hn : n ∈ D)
    (ho : Opened s ip n) :
    (do Fs.iunlockput sb ip; pure none : Sys State (Option (Fin NINODE × Name))).wp s
      (fun r s' => Arrived sb s₀ s' none r) X := by
  obtain ⟨s', hput, h'⟩ := h.iunlockput ht hn ho
  exact wp_bind (wp_of_ok hput (wp_pure ⟨rfl, h'⟩))

/-- **The loop of `namex`** follows the components. -/
theorem namexLoop_walk (ht : Tree sb s₀ D) (hX : X (.panic "iget: no inodes") ∨ TwoFree s₀)
    (nameiparent : Bool) (fuel : Nat) (hfuel : path.length < fuel) (h0 : 0 ∉ path)
    (last : Name) (hn : n ∈ D) (h : Walking sb s₀ s [(ip, n)] []) :
    (namexLoop sb nameiparent fuel ip path last).wp s
      (fun r s' => Arrived sb s₀ s' (walk sb s₀ nameiparent n (elems path) last) r) X := by
  induction fuel generalizing path s ip n last with
  | zero => exact absurd hfuel (Nat.not_lt_zero _)
  | succ fuel ih =>
    unfold namexLoop elems
    rcases skipelem_cases path with ⟨hskip, hcomp⟩ | ⟨e, rest, hskip, hcomp, hlen, hmem, hrest⟩
    · rw [hskip, hcomp]
      dsimp only
      rw [map_nil, walk]
      cases nameiparent with
      | false => exact wp_pure ⟨ip, rfl, h⟩
      | true =>
        obtain ⟨s', hput, h'⟩ := h.iput ht hn not_mem_nil
        exact wp_bind (wp_of_ok hput (wp_pure ⟨rfl, h'⟩))
    · rw [hskip, hcomp]
      dsimp only
      rw [map_cons, walk]
      obtain ⟨s1, hlock, h1, ho⟩ := h.ilock ht hn mem_cons_self not_mem_nil
      have hdin : (s1.itable ip).din = diskInode sb s₀.data n := by
        rw [h1.con.din ho (ht.live n hn).2.1, h1.data]
      refine wp_bind (wp_of_ok hlock (wp_bind (wp_reads ?_)))
      rw [hdin]
      by_cases hty : (diskInode sb s₀.data n).type = T_DIR
      · rw [if_neg (not_not_intro hty), if_neg (not_not_intro hty)]
        have hlast : (nameiparent = true ∧ rest = []) ↔
            nameiparent = true ∧ (components rest).map (take DIRSIZ) = [] := by
          rw [hrest, map_eq_nil_iff]
        by_cases hstop : nameiparent = true ∧ rest = []
        · obtain ⟨s2, hunlock, h2⟩ := h1.iunlock ho
          rw [if_pos hstop, if_pos (hlast.mp hstop)]
          exact wp_bind (wp_of_ok hunlock (wp_pure ⟨ip, rfl, h2⟩))
        · rw [if_neg hstop, if_neg fun hs => hstop (hlast.mpr hs)]
          obtain ⟨hdir, hsame⟩ := h1.isDir ht hn hty
          have h0e : 0 ∉ e.take DIRSIZ := fun hz =>
            h0 (hmem 0 (mem_append_left _ (mem_of_mem_take hz)))
          have htake : (e.take DIRSIZ).take DIRSIZ = e.take DIRSIZ := by
            rw [take_take, Nat.min_self]
          refine (dirlookup_wp hdir ho h0e (hX.imp_right fun hroom m _ =>
            hroom.gettable h1 m)).bind fun r s2 hr => ?_
          rw [htake, hsame] at hr
          rcases hr with ⟨rfl, rfl, hnone⟩ | ⟨next, k, m, rfl, hg, hfind⟩
          · have hget : SlotMap.get (dirOf sb s₀ n) (e.take DIRSIZ) = none := by
              unfold SlotMap.get
              rw [hnone]
              rfl
            rw [hget]
            exact h1.fail ht hn ho
          · have hget : SlotMap.get (dirOf sb s₀ n) (e.take DIRSIZ) = some m := by
              unfold SlotMap.get
              rw [hfind]
              rfl
            rw [hget]
            -- the reference to the next inode replaces the one to this
            have h2 := h1.got hg
            have hswap : Walking sb s₀ s2 [(ip, n), (next, m)] [ip] :=
              ⟨h2.con, h2.data, h2.hold.perm (.swap ..) (.refl _)⟩
            obtain ⟨s3, hput, h3⟩ := hswap.iunlockput ht hn (hg.opened ho)
            refine wp_bind (wp_of_ok hput ?_)
            exact ih (by omega) (fun hz => h0 (hmem 0 (mem_append_right _ hz))) _
              (ht.entries n hn hty _ m hget) h3
      · rw [if_pos hty, if_pos hty]
        exact h1.fail ht hn ho

/-- Where a path starts. -/
def startOf (s : State) (cwd : Fin NINODE) (path : Path) : Nat :=
  if path.head? = some SLASH then ROOTINO else (s.itable cwd).inum

theorem namex_walk (ht : Tree sb s D) {X : Stop → Prop}
    (hX : X (.panic "iget: no inodes") ∨ TwoFree s) {cwd : Fin NINODE}
    (hcwd : 0 < (s.itable cwd).ref) (h0 : 0 ∉ path) (hstart : startOf s cwd path ∈ D)
    (nameiparent : Bool) : (namex sb cwd path nameiparent).wp s (fun r s' =>
      Arrived sb s s' (walk sb s nameiparent (startOf s cwd path) (elems path) []) r) X := by
  unfold startOf at hstart ⊢
  refine wp_ite (fun habs => ?_) fun habs => ?_
  · rw [if_pos habs] at hstart ⊢
    have hroom : X (.panic "iget: no inodes") ∨ Gettable s ROOTINO :=
      hX.imp_right fun ⟨a, _, _, ha, _⟩ => .inr ⟨a, ha⟩
    refine (iget_room hroom).bind fun ip s1 hg => ?_
    exact namexLoop_walk ht hX nameiparent _ (lt_succ_self _) h0 [] hstart (ht.start.got hg)
  · rw [if_neg habs] at hstart ⊢
    have h1 : Walking sb s (s.setInode cwd { s.itable cwd with ref := (s.itable cwd).ref + 1 })
        [(cwd, (s.itable cwd).inum)] [] :=
      ⟨ht.con.touch hcwd rfl rfl (show 0 ≤ (s.itable cwd).ref + 1 by omega)
        (ht.con.coherent cwd hcwd), rfl, ht.start.hold.more hcwd rfl⟩
    refine wp_bind (wp_bind (wp_modify (wp_pure ?_)))
    exact namexLoop_walk ht hX nameiparent _ (lt_succ_self _) h0 [] hstart h1

/-- No lock has been taken that is still held, and there is one reference more
    to the entry `r` and to no other one. -/
structure Returned (s s' : State) (r : Option (Fin NINODE)) : Prop where
  locked : ∀ j, (s'.itable j).locked = (s.itable j).locked
  ref : ∀ j, (s'.itable j).ref = (s.itable j).ref + if r = some j then 1 else 0
  ident : ∀ j, 0 < (s.itable j).ref →
    (s'.itable j).dev = (s.itable j).dev ∧ (s'.itable j).inum = (s.itable j).inum

theorem Walking.returned_none (h : Walking sb s s' [] []) : Returned s s' none where
  locked := fun j => (h.hold.locked j).trans (Bool.or_false _)
  ref := fun j => h.hold.ref j
  ident := h.hold.ident

theorem Walking.returned (h : Walking sb s s' [(ip, n)] []) : Returned s s' (some ip) where
  locked := fun j => (h.hold.locked j).trans (Bool.or_false _)
  ref := fun j => by
    rw [h.hold.ref j, refsTo_cons]
    by_cases hj : ip = j
    · rw [if_pos hj, if_pos (congrArg some hj)]
      rfl
    · rw [if_neg hj, if_neg fun he => hj (Option.some.inj he)]
      rfl
  ident := h.hold.ident

theorem Arrived.result {w : Option (Nat × Name)} {r : Option (Fin NINODE × Name)}
    (h : Arrived sb s s' w r) : (r.map fun q => ((s'.itable q.1).inum, q.2)) = w ∧
      Returned s s' (r.map Prod.fst) := by
  cases w with
  | none =>
    obtain ⟨rfl, hw⟩ := h
    exact ⟨rfl, hw.returned_none⟩
  | some p =>
    obtain ⟨ip, rfl, hw⟩ := h
    refine ⟨congrArg some (Prod.ext ?_ rfl), hw.returned⟩
    exact hw.hold.named (ip, p.1) mem_cons_self

/-! ## `namei` and `nameiparent` -/

/-- The only way not to return is to find the table full. -/
theorem Tree.namex (ht : Tree sb s D) {cwd : Fin NINODE}
    (hcwd : 0 < (s.itable cwd).ref) (h0 : 0 ∉ path) (hstart : startOf s cwd path ∈ D)
    (nameiparent : Bool) :
    (∃ r s', namex sb cwd path nameiparent s = .ok (r, s') ∧
      Arrived sb s s' (walk sb s nameiparent (startOf s cwd path) (elems path) []) r) ∨
    namex sb cwd path nameiparent s = .error (.panic "iget: no inodes") ∧ ¬ TwoFree s := by
  have hwp := namex_walk (X := fun e => e = .panic "iget: no inodes" ∧ ¬ TwoFree s) ht
    ((Classical.em (TwoFree s)).symm.imp_left fun hfull => ⟨rfl, hfull⟩) hcwd h0 hstart nameiparent
  cases hrun : Fs.namex sb cwd path nameiparent s with
  | ok r => exact .inl ⟨r.1, r.2, rfl, hwp.ok hrun⟩
  | error e =>
    obtain ⟨rfl, hfull⟩ := hwp.stop hrun
    exact .inr ⟨rfl, hfull⟩

/-- **Path resolution** follows the components of the path. -/
theorem path_resolution :
    (∀ path : Path, 0 ∉ path →
      (∃ l, Elems path l ∧ l.map Prod.fst = (components path).map (List.take DIRSIZ) ∧
        ∀ (k : Nat) (p : Name × Path), l[k]? = some p → (p.2 = [] ↔ k + 1 = l.length)) ∧
      ∀ name, (skipelemInto name path).map (fun r => (cstr r.1 0 DIRSIZ, r.2)) =
        skipelem path) ∧
    ∀ (sb : Superblock) (s : State) (D : Set Nat) (cwd : Fin NINODE) (path : Path),
      Tree sb s D → 0 < (s.itable cwd).ref → 0 ∉ path → startOf s cwd path ∈ D →
      ((∃ r s', namei sb cwd path s = .ok (r, s') ∧ Returned s s' r ∧
          (r.map fun ip => (s'.itable ip).inum) =
            follow sb s (startOf s cwd path) (elems path) ∧
          (r = none ↔ ∃ p c rest n, elems path = p ++ c :: rest ∧
            follow sb s (startOf s cwd path) p = some n ∧
            ((diskInode sb s.data n).type ≠ T_DIR ∨ SlotMap.get (dirOf sb s n) c = none))) ∨
        namei sb cwd path s = .error (.panic "iget: no inodes") ∧ ¬ TwoFree s) ∧
      ((∃ r s', nameiparent sb cwd path s = .ok (r, s') ∧ Returned s s' (r.map Prod.fst) ∧
          (components path = [] → r = none) ∧
          ∀ p c, elems path = p ++ [c] → (r.map fun q => ((s'.itable q.1).inum, q.2)) =
            (follow sb s (startOf s cwd path) p).bind fun n =>
              if (diskInode sb s.data n).type = T_DIR then some (n, c) else none) ∨
        nameiparent sb cwd path s = .error (.panic "iget: no inodes") ∧ ¬ TwoFree s) := by
  refine ⟨fun path h0 => ⟨exists_elems path, skipelemInto_eq h0⟩, ?_⟩
  intro sb s D cwd path ht hcwd h0 hstart
  constructor
  · rcases ht.namex hcwd h0 hstart false with ⟨r, s', hrun, harr⟩ | ⟨hrun, hfull⟩
    · obtain ⟨hr, hret⟩ := harr.result
      have hinum : (r.map Prod.fst).map (fun ip => (s'.itable ip).inum) =
          follow sb s (startOf s cwd path) (elems path) := by
        rw [← walk_false _ _ [], ← hr, Option.map_map, Option.map_map]
        rfl
      refine .inl ⟨r.map Prod.fst, s', ?_, hret, hinum, ?_⟩
      · unfold namei
        rw [bind_of_ok hrun]
        cases r with
        | none => rfl
        | some q => rfl
      · rw [← follow_eq_none, ← hinum]
        exact Option.map_eq_none_iff.symm
    · refine .inr ⟨?_, hfull⟩
      unfold namei
      exact bind_of_error hrun
  · rcases ht.namex hcwd h0 hstart true with ⟨r, s', hrun, harr⟩ | hfull
    · obtain ⟨hr, hret⟩ := harr.result
      refine .inl ⟨r, s', hrun, hret, fun hnil => ?_, fun p c hpc => ?_⟩
      · unfold elems at hr
        rw [hnil] at hr
        exact Option.map_eq_none_iff.mp hr
      · rw [hr, hpc, walk_true]
    · exact .inr hfull

end Walk

/-! ## A full table, and a file in the root directory -/

/-- With every entry of the table in use, for the root, for the current
    directory and for 48 files, `namei` of a file that has none panics. -/
theorem namei_panics : ∃ s D, Tree EmptyDir.sb s D ∧ 0 < (s.itable 0).ref ∧
    startOf s 0 [102] ∈ D ∧ (∃ j, 0 < (s.itable j).ref ∧ (s.itable j).inum = ROOTINO) ∧
    follow EmptyDir.sb s (startOf s 0 [102]) (elems [102]) = some 5 ∧
    namei EmptyDir.sb 0 [102] s = .error (.panic "iget: no inodes") := by
  obtain ⟨s, hs, _, ht⟩ := EmptyDir.linked (t := fun s =>
    decide (∀ n ∈ ([1, 2, 5] : List Nat), (diskInode EmptyDir.sb s.data n).type ≠ 0 ∧
        (diskInode EmptyDir.sb s.data n).nlink ≠ 0 ∧
        (diskInode EmptyDir.sb s.data n).size % DESIZE = 0) &&
      decide (∀ n ∈ ([1, 2, 5] : List Nat), ∀ e ∈ dirOf EmptyDir.sb s n,
        e.all (fun x => decide (x.2 ∈ [1, 2, 5])) = true) &&
      decide (follow EmptyDir.sb (EmptyDir.crowded s false) 2 [[102]] = some 5) &&
      decide ((namei EmptyDir.sb 0 [102]).stopOf (EmptyDir.crowded s false) =
        some (.panic "iget: no inodes"))) (by decide +kernel)
  simp only [Bool.and_eq_true, decide_eq_true_iff] at ht
  obtain ⟨⟨⟨hdisk, hentries⟩, hfollow⟩, hstop⟩ := ht
  have hcon := EmptyDir.crowded_consistent (hs.inv EmptyDir.sb_ok).isDir.con false
  have hlt : ∀ n ∈ [1, 2, 5], 1 ≤ n ∧ n < 60 := by decide
  refine ⟨EmptyDir.crowded s false, {n | n ∈ [1, 2, 5]}, ⟨hcon, fun n hn => ?_, fun n hn => ?_,
    fun n hn _ => (hdisk n hn).2.2, fun n hn _ c m hget => ?_, fun j hj => ?_⟩, Int.one_pos,
    show 2 ∈ [1, 2, 5] by decide, ⟨1, Int.one_pos, rfl⟩, hfollow, eq_error_of_stopOf hstop⟩
  · exact ⟨(hlt n hn).1, (hlt n hn).2, (hdisk n hn).1⟩
  · exact .inl (hdisk n hn).2.1
  · obtain ⟨⟨k, _⟩, hfind, rfl⟩ := Option.map_eq_some_iff.mp hget
    have hmem := mem_of_getElem? (SlotMap.getElem?_of_find hfind)
    exact of_decide_eq_true (hentries n hn _ hmem)
  · have hno : (decide (j = 0) && false) = true := hj
    rw [Bool.and_false] at hno
    cases hno

namespace Sample

theorem root_slots : dirOf sb idle 1 =
    [some ([DOT], 1), some ([DOT, DOT], 1), some ([102], 2)] := by decide +kernel

theorem idle_root : diskInode sb idle.data 1 = root := diskInode_one

theorem idle_file : diskInode sb idle.data 2 = file := diskInode_two

theorem idle_tree : Tree sb idle {1, 2} where
  con := by
    have hzero : ∀ j, 0 < (idle.itable j).ref → j = 0 := by decide
    refine ⟨owned, fun j hl => ?_, by decide, fun a b ha hb _ _ => ?_, fun _ _ => rfl,
      fun j hj _ _ => ?_⟩
    · rcases live hl with rfl | rfl
      · rw [idle_root]
        intro bn hbn
        have hsize : bn * BSIZE < 48 := hbn
        obtain rfl : bn = 0 := by
          simp only [BSIZE] at hsize
          omega
        decide
      · rw [idle_file]
        exact file_full
    · rw [hzero a ha, hzero b hb]
    · rw [hzero j hj]
      exact diskInode_two.symm
  live := by
    rintro n (rfl | rfl)
    · exact ⟨by decide, by decide, by rw [idle_root]; decide⟩
    · exact file_live
  linked := by
    rintro n (rfl | rfl)
    · left
      rw [idle_root]
      decide
    · exact .inr ⟨0, by decide, rfl⟩
  aligned := by
    rintro n (rfl | rfl) hty
    · rw [idle_root]
      rfl
    · rw [idle_file] at hty
      cases hty
  entries := by
    rintro n (rfl | rfl) hty c m hget
    · obtain ⟨⟨k, m⟩, hfind, rfl⟩ := Option.map_eq_some_iff.mp hget
      have hmem := mem_of_getElem? (SlotMap.getElem?_of_find hfind)
      rw [root_slots] at hmem
      simp only [mem_cons, Option.some.injEq, Prod.mk.injEq, not_mem_nil, or_false] at hmem
      rcases hmem with ⟨_, rfl⟩ | ⟨_, rfl⟩ | ⟨_, rfl⟩
      · exact .inl rfl
      · exact .inl rfl
      · exact .inr rfl
    · rw [idle_file] at hty
      cases hty
  unlocked := fun _ h => by cases h

end Sample

/-- `/f` is the file; its parent is the root directory, and `f` its name. -/
theorem path_resolution_file : ∃ ip s' dp s'',
    namei Sample.sb 0 [SLASH, 102] Sample.idle = .ok (some ip, s') ∧ (s'.itable ip).inum = 2 ∧
    nameiparent Sample.sb 0 [SLASH, 102] Sample.idle = .ok (some (dp, [102]), s'') ∧
    (s''.itable dp).inum = 1 := by
  have hfree : TwoFree Sample.idle := ⟨1, 2, by decide, rfl, rfl⟩
  have hty : (diskInode Sample.sb Sample.idle.data 1).type = T_DIR := by
    rw [Sample.idle_root]
    rfl
  have hfollow : follow Sample.sb Sample.idle 1 [[102]] = some 2 := by
    rw [follow, if_pos hty, Sample.root_slots]
    rfl
  have helems : elems [SLASH, 102] = [[102]] := by decide
  obtain ⟨hnamei, hparent⟩ := path_resolution.2 Sample.sb Sample.idle {1, 2} 0 [SLASH, 102]
    Sample.idle_tree (by decide) (by decide) (.inl rfl)
  obtain ⟨r, s', hrun, _, hr, _⟩ := hnamei.resolve_right fun h => h.2 hfree
  obtain ⟨q, s'', hrun', _, _, hq⟩ := hparent.resolve_right fun h => h.2 hfree
  have hr' := hr.trans ((congrArg (follow Sample.sb Sample.idle 1) helems).trans hfollow)
  have hq' := hq [] [102] helems
  obtain ⟨ip, rfl, hip⟩ := Option.map_eq_some_iff.mp hr'
  rw [show follow Sample.sb Sample.idle (startOf Sample.idle 0 [SLASH, 102]) [] = some 1 from rfl,
    Option.bind_some, if_pos hty] at hq'
  obtain ⟨⟨dp, c⟩, rfl, hdp⟩ := Option.map_eq_some_iff.mp hq'
  obtain ⟨h1, rfl⟩ := Prod.mk.inj hdp
  exact ⟨ip, s', dp, s'', hrun, hip, hrun', h1⟩

end Fs
end Xv6
