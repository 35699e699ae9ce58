import Xv6.Proc.Image

/-!
# The arguments that `exec` lays out

The strings go to the top of the stack, each below the one before and aligned;
below them goes the array of their addresses. How much they take together
(`argsSize`) tells whether `exec` can place them in its one page of stack.
-/

namespace Xv6

open Function List Sys Bytes Nat
open PageTree

/-- A number of bytes, up to the alignment of the stack. -/
def roundUp16 (n : Nat) : Nat := (n + 15) / 16 * 16

/-- What the strings take of the stack. -/
def stringsSize : List (List UInt8) → Nat
  | [] => 0
  | str :: args => roundUp16 (str.length + 1) + stringsSize args

/-- What the strings and the array of their addresses take. -/
def argsSize (args : List (List UInt8)) : Nat :=
  stringsSize args + roundUp16 ((args.length + 1) * 8)

/-- The argument, a page and its `strlen`, is the string `str`, as `sys_exec`
    fetches it. -/
structure ArgPage (m : Nat → Bytes) (arg : Nat × Nat) (str : List UInt8) : Prop where
  strlen : arg.2 = str.length
  short : str.length < PGSIZE
  nonzero : 0 ∉ str
  holds : ∀ j ≤ str.length, m arg.1 j = str.getD j 0

variable {arg : Nat × Nat}

theorem ArgPage.congr {m m' : Nat → Bytes} {str : List UInt8}
    (h : ArgPage m arg str) (hm : m' arg.1 = m arg.1) : ArgPage m' arg str :=
  ⟨h.strlen, h.short, h.nonzero, fun j hj => by rw [hm, h.holds j hj]⟩

variable {argv : Args}

theorem ArgPage.forall_mem {m : Nat → Bytes} {args : List (List UInt8)}
    (h : List.Forall₂ (ArgPage m) argv args) :
    (∀ arg ∈ argv, arg.2 < PGSIZE) ∧ ∀ str ∈ args, 0 ∉ str := by
  induction h with
  | nil => exact ⟨nofun, nofun⟩
  | cons harg _ ih =>
    exact ⟨forall_mem_cons.mpr ⟨harg.strlen ▸ harg.short, ih.1⟩,
      forall_mem_cons.mpr ⟨harg.nonzero, ih.2⟩⟩

/-- What lies on the stack, with its size: the strings and then the array. -/
def stackObjects (args : List (List UInt8)) (addrs : List Nat) (sp : Nat) : List (Nat × Nat) :=
  List.zipWith (fun a str => (a, str.length + 1)) addrs args ++ [(sp, (args.length + 1) * 8)]

/-- The program finds its arguments: at `sp` the array of the addresses `addrs`
    and a 0, at each address a string, no two of them overlapping, all in the
    last page of its memory. -/
structure ArgsAt (m : Nat → Bytes) (pagetable sz sp : Nat) (args : List (List UInt8))
    (addrs : List Nat) : Prop where
  aligned : sp % 16 = 0
  length : addrs.length = args.length
  words : ∃ w : Bytes, (∀ j < (args.length + 1) * 8, byteAt m pagetable (sp + j) = some (w j)) ∧
    (∀ i a, addrs[i]? = some a → w.getLE (8 * i) 8 = a) ∧ w.getLE (8 * args.length) 8 = 0
  strings : ∀ (i a : Nat) (str : List UInt8), addrs[i]? = some a → args[i]? = some str → 0 ∉ str ∧
    ∀ j ≤ str.length, byteAt m pagetable (a + j) = some (str.getD j 0)
  apart : (stackObjects args addrs sp).Pairwise fun a b => b.1 + b.2 ≤ a.1
  inside : ∀ o ∈ stackObjects args addrs sp, sz - PGSIZE ≤ o.1 ∧ o.1 + o.2 ≤ sz

/-! ## With assertions -/

section Checked

variable (E : Env)

/-- `pushArgs` with an assertion before each subtraction from `sp` and each use
    of `ustack`. -/
def pushArgsChecked (pagetable stackbase : Nat) :
    Args → Nat → Nat → Bytes → Sys Phys (Option (Nat × Nat × Bytes))
  | [], sp, argc, ustack => pure (some (sp, argc, ustack))
  | arg :: argv, sp, argc, ustack =>
    if arg.2 + 1 ≤ sp ∧ argc < MAXARG then do
      match ← pushArg E pagetable stackbase arg sp argc with
      | none => pure none
      | some sp =>
        pushArgsChecked pagetable stackbase argv sp (argc + 1) (ustack.setLE (8 * argc) 8 sp)
    else Sys.panic "pushArgs"

/-- `pushStack` with assertions. -/
def pushStackChecked (pagetable sz : Nat) (argv : Args) (ustack : Bytes) :
    Sys Phys (Option (Nat × Nat)) :=
  if PGSIZE ≤ sz then do
    match ← pushArgsChecked E pagetable (sz - PGSIZE) argv sz 0 ustack with
    | none => pure none
    | some (sp, argc, ustack) =>
      if (argc + 1) * 8 ≤ sp ∧ argc < MAXARG then
        let sp := pushDown sp ((argc + 1) * 8)
        if sp < sz - PGSIZE then pure none
        else do
          let r ← copyout E pagetable sp (ustack.setLE (8 * argc) 8 0) ((argc + 1) * 8)
          if r < 0 then pure none else pure (some (sp, argc))
      else Sys.panic "pushStack"
  else Sys.panic "pushStack"

end Checked

section Pushing

variable {E : Env}

/-- A stack pointer that an argument was pushed at is not below the stack. -/
theorem pushArg_le {pagetable stackbase sp argc sp' : Nat} {s s' : Phys}
    (h : pushArg E pagetable stackbase arg sp argc s = .ok (some sp', s')) : stackbase ≤ sp' := by
  unfold pushArg at h
  split at h
  · cases h
  split at h
  · cases h
  rename_i hlow
  obtain ⟨r, s1, _, h⟩ := bind_eq_ok.mp h
  split at h
  · cases h
  · cases h
    exact Nat.le_of_not_lt hlow

theorem pushArgsChecked_eq (pagetable : Nat) {stackbase : Nat} (hbase : PGSIZE ≤ stackbase) :
    ∀ (argv : Args) (sp argc : Nat) (ustack : Bytes) (s : Phys),
    (∀ arg ∈ argv, arg.2 < PGSIZE) → stackbase ≤ sp → argc + argv.length < MAXARG →
    pushArgsChecked E pagetable stackbase argv sp argc ustack s =
        pushArgs E pagetable stackbase argv sp argc ustack s ∧
      ∀ sp' argc' ustack' s', pushArgs E pagetable stackbase argv sp argc ustack s
        = .ok (some (sp', argc', ustack'), s') → stackbase ≤ sp' ∧ argc' = argc + argv.length := by
  intro argv
  induction argv with
  | nil =>
    intro sp argc ustack s _ hsp _
    refine ⟨rfl, fun sp' argc' ustack' s' h => ?_⟩
    cases h
    exact ⟨hsp, rfl⟩
  | cons arg argv ih =>
    intro sp argc ustack s hshort hsp hlen
    have hfits := hshort arg mem_cons_self
    rw [length_cons] at hlen
    rw [pushArgsChecked, pushArgs, if_pos ⟨by omega, by omega⟩]
    cases hrun : pushArg E pagetable stackbase arg sp argc s with
    | error e =>
      rw [bind_of_error hrun, bind_of_error hrun]
      exact ⟨rfl, by simp⟩
    | ok x =>
      obtain ⟨r, s1⟩ := x
      rw [bind_of_ok hrun, bind_of_ok hrun]
      cases r with
      | none => exact ⟨rfl, by intro _ _ _ _ h; cases h⟩
      | some sp' =>
        obtain ⟨heq, hres⟩ := ih sp' (argc + 1) (ustack.setLE (8 * argc) 8 sp') s1
          (fun a ha => hshort a (mem_cons_of_mem _ ha)) (pushArg_le hrun) (by omega)
        refine ⟨heq, fun sp'' argc'' ustack'' s'' h => ?_⟩
        obtain ⟨h1, h2⟩ := hres sp'' argc'' ustack'' s'' h
        rw [length_cons]
        exact ⟨h1, by omega⟩

/-- **No assertion fails**: with the arguments of `sys_exec` no subtraction
    wraps, and `ustack` is used below `MAXARG` only. -/
theorem pushStackChecked_eq {pagetable sz : Nat} (hsz : 2 * PGSIZE ≤ sz)
    (hshort : ∀ arg ∈ argv, arg.2 < PGSIZE) (hlen : argv.length < MAXARG) (ustack : Bytes)
    (s : Phys) :
    pushStackChecked E pagetable sz argv ustack s = pushStack E pagetable sz argv ustack s := by
  have hbase : PGSIZE ≤ sz - PGSIZE := by omega
  obtain ⟨heq, hres⟩ := pushArgsChecked_eq (E := E) pagetable hbase argv sz 0 ustack s hshort
    (by omega) (by omega)
  rw [pushStackChecked, pushStack, if_pos (by omega)]
  cases hrun : pushArgs E pagetable (sz - PGSIZE) argv sz 0 ustack s with
  | error e => rw [bind_of_error hrun, bind_of_error (heq.trans hrun)]
  | ok x =>
    obtain ⟨r, s1⟩ := x
    rw [bind_of_ok hrun, bind_of_ok (heq.trans hrun)]
    cases r with
    | none => rfl
    | some y =>
      obtain ⟨sp, argc, ustack'⟩ := y
      obtain ⟨hsp, hargc⟩ := hres sp argc ustack' s1 hrun
      simp only
      rw [if_pos]
      simp only [MAXARG, PGSIZE] at *
      omega

end Pushing

/-! ## Where the arguments go -/

theorem pushDown_eq {sp n : Nat} (h16 : sp % 16 = 0) (hn : n ≤ sp) (hsp : sp < 2 ^ 64) :
    pushDown sp n = sp - roundUp16 n ∧ roundUp16 n ≤ sp ∧ n ≤ roundUp16 n ∧
      (sp - roundUp16 n) % 16 = 0 := by
  unfold pushDown roundUp16
  rw [show sp + 2 ^ 64 - n = sp - n + 2 ^ 64 by omega, add_mod_right,
    mod_eq_of_lt (show sp - n < 2 ^ 64 by omega)]
  simp only
  omega

/-- The strings `args` are at `addrs` in memory, each below the one before, from
    `sp` down to `low`. -/
inductive Strings (cells : Nat → UInt8) : Nat → List (List UInt8) → List Nat → Nat → Prop
  | nil (sp : Nat) : Strings cells sp [] [] sp
  | cons {sp a low : Nat} {str : List UInt8} {args : List (List UInt8)} {addrs : List Nat}
      (top : a + (str.length + 1) ≤ sp) (holds : ∀ j ≤ str.length, cells (a + j) = str.getD j 0)
      (rest : Strings cells a args addrs low) : Strings cells sp (str :: args) (a :: addrs) low

namespace Strings

variable {cells cells' : Nat → UInt8} {sp low : Nat} {args : List (List UInt8)} {addrs : List Nat}

section

variable (h : Strings cells sp args addrs low)

include h

theorem length : addrs.length = args.length := by
  induction h with
  | nil => rfl
  | cons _ _ _ ih => rw [length_cons, length_cons, ih]

theorem le : low ≤ sp := by
  induction h with
  | nil => exact le_rfl
  | cons top _ _ ih => omega

theorem congr (hc : ∀ b, low ≤ b → cells' b = cells b) : Strings cells' sp args addrs low := by
  induction h with
  | nil => exact .nil _
  | cons top holds rest ih =>
    refine .cons top (fun j hj => ?_) (ih hc)
    have := rest.le
    rw [hc _ (by omega), holds j hj]

theorem get : ∀ {i a : Nat} {str : List UInt8}, addrs[i]? = some a → args[i]? = some str →
    low ≤ a ∧ a + (str.length + 1) ≤ sp ∧ ∀ j ≤ str.length, cells (a + j) = str.getD j 0 := by
  induction h with
  | nil => exact fun h => nomatch h
  | cons top holds rest ih =>
    intro i a str ha hs
    cases i with
    | zero =>
      cases ha
      cases hs
      exact ⟨rest.le, top, holds⟩
    | succ i =>
      obtain ⟨h1, h2, h3⟩ := ih ha hs
      exact ⟨h1, by omega, h3⟩

/-- The objects that the strings are: between `low` and `sp`, each below the one
    before. -/
theorem objects : (∀ o ∈ List.zipWith (fun a str => (a, str.length + 1)) addrs args,
      low ≤ o.1 ∧ o.1 + o.2 ≤ sp) ∧
    (List.zipWith (fun a (str : List UInt8) => (a, str.length + 1)) addrs args).Pairwise
      fun a b => b.1 + b.2 ≤ a.1 := by
  induction h with
  | nil => exact ⟨nofun, List.Pairwise.nil⟩
  | cons top holds rest ih =>
    obtain ⟨hin, hpair⟩ := ih
    have hlow := rest.le
    refine ⟨fun o ho => ?_, pairwise_cons.mpr ⟨fun o ho => (hin o ho).2, hpair⟩⟩
    rcases mem_cons.mp ho with rfl | ho
    · exact ⟨hlow, top⟩
    · obtain ⟨h1, h2⟩ := hin o ho
      exact ⟨h1, by omega⟩

end

end Strings

section Exact

variable {E : Env} {s : Phys} {tf : Nat} {t : PageTree 2} {u : Pages} {F : List Nat}
  {argv : Args} {args : List (List UInt8)}

theorem copyout_accessible (hE : E.Ok) (h : Space E s tf t u F) (dstva len : Nat) (src : Bytes)
    (ha : ∀ k < len, Access t (dstva + k)) :
    ∃ s', copyout E t.pa dstva src len s = .ok (0, s') ∧ Moved E s tf t F s' t u ∧
      ∀ b, cell u s'.kmem.mem b =
        if dstva ≤ b ∧ b < dstva + len then src (b - dstva) else cell u s.kmem.mem b := by
  obtain ⟨r, s', j, hrun, hm, hr, hcell, _⟩ := copyout_cell hE h dstva src len
  obtain rfl := hr.zero_iff.mpr ha
  obtain rfl := hr.all rfl
  exact ⟨s', hrun, hm, hcell⟩

theorem pushArg_exact (hE : E.Ok) (h : Space E s tf t u F) {stackbase sp argc : Nat}
    {str : List UInt8} (harg : ArgPage s.kmem.mem arg str)
    (hacc : ∀ va, stackbase ≤ va → va < sp → Access t va) (hbase : PGSIZE ≤ stackbase)
    (hle : stackbase ≤ sp) (h16 : sp % 16 = 0) (hsp : sp < 2 ^ 64) (hargc : argc < MAXARG) :
    roundUp16 (str.length + 1) ≤ sp ∧ (sp - roundUp16 (str.length + 1)) % 16 = 0 ∧
    (sp - roundUp16 (str.length + 1) < stackbase ∧
        pushArg E t.pa stackbase arg sp argc s = .ok (none, s) ∨
      stackbase ≤ sp - roundUp16 (str.length + 1) ∧
      ∃ s', pushArg E t.pa stackbase arg sp argc s
          = .ok (some (sp - roundUp16 (str.length + 1)), s') ∧
        Moved E s tf t F s' t u ∧
        sp - roundUp16 (str.length + 1) + (str.length + 1) ≤ sp ∧
        (∀ j ≤ str.length, cell u s'.kmem.mem (sp - roundUp16 (str.length + 1) + j)
          = str.getD j 0) ∧
        ∀ b, sp ≤ b → cell u s'.kmem.mem b = cell u s.kmem.mem b) := by
  have hshort := harg.short
  obtain ⟨hdown, hup, hge, halign⟩ := pushDown_eq (n := str.length + 1) h16 (by omega) hsp
  refine ⟨hup, halign, ?_⟩
  unfold pushArg
  rw [if_neg (by omega), harg.strlen, hdown]
  generalize hdst : sp - roundUp16 (str.length + 1) = dst at halign ⊢
  by_cases hlow : dst < stackbase
  · rw [if_pos hlow]
    exact .inl ⟨hlow, rfl⟩
  refine .inr ⟨Nat.le_of_not_lt hlow, ?_⟩
  obtain ⟨s', hrun, hm, hcell⟩ := copyout_accessible hE h dst (str.length + 1)
    (s.kmem.mem arg.1) fun k hk => hacc _ (by omega) (by omega)
  have hfrom : copyoutFrom E t.pa dst arg.1 (str.length + 1) s = .ok (0, s') := hrun
  rw [if_neg hlow, bind_of_ok hfrom, if_neg (by decide)]
  refine ⟨s', rfl, hm, by omega, fun j hj => ?_, fun b hb => ?_⟩
  · rw [hcell, if_pos ⟨by omega, by omega⟩, Nat.add_sub_cancel_left]
    exact harg.holds j hj
  · rw [hcell, if_neg (by omega)]

/-- The addresses are stored in `ustack`, from entry `argc` on. -/
def Stored (ustack : Bytes) (argc : Nat) (addrs : List Nat) : Prop :=
  ∀ i a, addrs[i]? = some a → ustack.getLE (8 * (argc + i)) 8 = a

/-- **The loop that pushes the arguments** finds no room for them, or lays them
    out. -/
theorem pushArgs_exact (hE : E.Ok) {stackbase : Nat} (hbase : PGSIZE ≤ stackbase) :
    ∀ {argv : Args} {args : List (List UInt8)} (sp argc : Nat) (ustack : Bytes)
      {s : Phys}, Space E s tf t u F →
    List.Forall₂ (fun arg str => arg.1 ∈ F ∧ ArgPage s.kmem.mem arg str) argv args →
    (∀ va, stackbase ≤ va → va < sp → Access t va) →
    stackbase ≤ sp → sp % 16 = 0 → sp < 2 ^ 64 → argc + argv.length < MAXARG →
    ∃ s', Moved E s tf t F s' t u ∧
      (sp < stackbase + stringsSize args ∧
          pushArgs E t.pa stackbase argv sp argc ustack s = .ok (none, s') ∨
        stackbase + stringsSize args ≤ sp ∧ (sp - stringsSize args) % 16 = 0 ∧
        ∃ addrs ustack', pushArgs E t.pa stackbase argv sp argc ustack s
            = .ok (some (sp - stringsSize args, argc + args.length, ustack'), s') ∧
          Strings (cell u s'.kmem.mem) sp args addrs (sp - stringsSize args) ∧
          (∀ b, sp ≤ b → cell u s'.kmem.mem b = cell u s.kmem.mem b) ∧
          Stored ustack' argc addrs ∧ ∀ i < 8 * argc, ustack' i = ustack i) := by
  intro argv
  induction argv with
  | nil =>
    intro args sp argc ustack s h hargs _ hle h16 _ _
    cases hargs
    exact ⟨s, h.moved, .inr ⟨hle, h16, [], ustack, rfl, .nil sp, fun _ _ => rfl, by simp [Stored],
      fun _ _ => rfl⟩⟩
  | cons arg argv ih =>
    intro args sp argc ustack s h hargs hacc hle h16 hsp hlen
    cases hargs with
    | @cons _ str _ args harg hargs =>
      rw [length_cons] at hlen
      obtain ⟨hup, halign, hpush⟩ := pushArg_exact hE h harg.2 hacc hbase hle h16 hsp
        (show argc < MAXARG by omega)
      simp only [stringsSize, pushArgs]
      generalize hsize : roundUp16 (str.length + 1) = size at hup halign hpush ⊢
      rcases hpush with ⟨hlow, hrun⟩ | ⟨hroom, s1, hrun, hm, htop, hholds, habove⟩
      · rw [bind_of_ok hrun]
        exact ⟨s, h.moved, .inl ⟨by omega, rfl⟩⟩
      have hargs1 := hargs.imp fun a _ h =>
        show a.1 ∈ F ∧ ArgPage s1.kmem.mem a _ from ⟨h.1, h.2.congr (hm.frame _ h.1)⟩
      obtain ⟨s', hm', hres⟩ := ih (sp - size) (argc + 1)
        (ustack.setLE (8 * argc) 8 (sp - size)) hm.space hargs1
        (fun va h1 h2 => hacc va h1 (by omega))
        hroom halign (by omega) (by omega)
      rw [bind_of_ok hrun]
      refine ⟨s', hm.trans hm', ?_⟩
      rcases hres with ⟨hlow, hrun'⟩ | ⟨hfit, halign', addrs, ustack', hrun', hstr, hcells, hst,
        hlo⟩
      · exact .inl ⟨by omega, hrun'⟩
      refine .inr ⟨by omega, ?_, (sp - size) :: addrs, ustack', ?_, ?_, fun b hb => ?_, ?_, ?_⟩
      · rwa [← Nat.sub_sub]
      · rw [← Nat.sub_sub, length_cons, ← Nat.add_assoc, Nat.add_right_comm]
        exact hrun'
      · rw [← Nat.sub_sub]
        exact .cons htop (fun j hj => by rw [hcells _ (by omega), hholds j hj]) hstr
      · rw [hcells b (by omega), habove b hb]
      · intro i a ha
        cases i with
        | zero =>
          cases ha
          rw [getLE_congr fun b _ hb => hlo b (by omega), Nat.add_zero,
            getLE_setLE_same, mod_eq_of_lt]
          simp only [show (256 : Nat) ^ 8 = 2 ^ 64 by decide]
          omega
        | succ i =>
          rw [show argc + (i + 1) = argc + 1 + i by omega]
          exact hst i a ha
      · intro i hi
        rw [hlo i (by omega), setLE_outside (by omega)]

/-- The arguments are on the stack in memory `cells`, the strings at `addrs` and
    below them the array `w`. -/
structure LaidOut (cells : Nat → UInt8) (sz : Nat) (args : List (List UInt8)) (addrs : List Nat)
    (w : Bytes) : Prop where
  aligned : (sz - argsSize args) % 16 = 0
  below : sz - argsSize args + (args.length + 1) * 8 ≤ sz - stringsSize args
  strings : Strings cells sz args addrs (sz - stringsSize args)
  array : ∀ j < (args.length + 1) * 8, cells (sz - argsSize args + j) = w j
  stored : Stored w 0 addrs
  null : w.getLE (8 * args.length) 8 = 0

/-- What is laid out in the last page of its memory, the program finds. -/
theorem LaidOut.argsAt {cells : Nat → UInt8} {sz : Nat} {addrs : List Nat} {w : Bytes}
    (h : LaidOut cells sz args addrs w) {m : Nat → Bytes} {pagetable : Nat}
    (hfit : argsSize args ≤ PGSIZE) (hsz : PGSIZE ≤ sz) (hnonzero : ∀ str ∈ args, 0 ∉ str)
    (hfound : ∀ va, sz - PGSIZE ≤ va → va < sz → byteAt m pagetable va = some (cells va)) :
    ArgsAt m pagetable sz (sz - argsSize args) args addrs := by
  obtain ⟨hin, hpair⟩ := h.strings.objects
  have hbelow := h.below
  have hpos : 0 < (args.length + 1) * 8 := by omega
  refine ⟨h.aligned, h.strings.length, ⟨w, fun j hj => ?_, fun i a ha => ?_, h.null⟩,
    fun i a str ha hs => ⟨hnonzero str (mem_of_getElem? hs), fun j hj => ?_⟩, ?_,
    fun o ho => ?_⟩
  · rw [hfound _ (by omega) (by omega), h.array j hj]
  · have := h.stored i a ha
    rwa [Nat.zero_add] at this
  · obtain ⟨hlo, hhi, hget⟩ := h.strings.get ha hs
    rw [hfound _ (by omega) (by omega), hget j hj]
  · rw [stackObjects, pairwise_append]
    refine ⟨hpair, pairwise_singleton _ _, fun o ho b hb => ?_⟩
    obtain rfl := mem_singleton.mp hb
    have := (hin o ho).1
    simp only
    omega
  · rcases mem_append.mp ho with ho | ho
    · have := hin o ho
      omega
    · obtain rfl := mem_singleton.mp ho
      simp only
      omega

/-- **The arguments on the stack** are too much for one page, or are laid out
    below `sz`. -/
theorem pushStack_exact (hE : E.Ok) (h : Space E s tf t u F) {sz : Nat} (ustack : Bytes)
    (hargs : List.Forall₂ (fun arg str => arg.1 ∈ F ∧ ArgPage s.kmem.mem arg str) argv args)
    (hacc : ∀ va, sz - PGSIZE ≤ va → va < sz → Access t va) (hsz : 2 * PGSIZE ≤ sz)
    (h16 : sz % 16 = 0) (hlt : sz < 2 ^ 64) (hlen : argv.length < MAXARG) :
    ∃ s', PGSIZE < argsSize args ∧ pushStack E t.pa sz argv ustack s = .ok (none, s') ∨
      argsSize args ≤ PGSIZE ∧
      ∃ addrs w, pushStack E t.pa sz argv ustack s
          = .ok (some (sz - argsSize args, args.length), s') ∧
        LaidOut (cell u s'.kmem.mem) sz args addrs w := by
  obtain ⟨s1, hm, hres⟩ := pushArgs_exact hE (show PGSIZE ≤ sz - PGSIZE by omega) sz 0 ustack
    h hargs hacc (by omega) h16 hlt (by omega)
  unfold pushStack
  have hsize : argsSize args = stringsSize args + roundUp16 ((args.length + 1) * 8) := rfl
  rcases hres with ⟨hlow, hrun⟩ | ⟨hfit, halign, addrs, ustack', hrun, hstr, _, hst, _⟩
  · rw [bind_of_ok hrun]
    exact ⟨s1, .inl ⟨by omega, rfl⟩⟩
  rw [Nat.zero_add] at hrun
  rw [bind_of_ok hrun]
  have hargc : (args.length + 1) * 8 ≤ sz - stringsSize args := by
    rw [← hargs.length_eq]
    simp only [MAXARG, PGSIZE] at *
    omega
  obtain ⟨hdown, hup, hge, halign'⟩ := pushDown_eq halign hargc (by omega)
  simp only
  rw [hdown, Nat.sub_sub, ← hsize]
  rw [Nat.sub_sub, ← hsize] at halign'
  have hbelow : sz - argsSize args + (args.length + 1) * 8 ≤ sz - stringsSize args := by omega
  generalize hsp : sz - argsSize args = sp at halign' hbelow ⊢
  by_cases hlow : sp < sz - PGSIZE
  · rw [if_pos hlow]
    exact ⟨s1, .inl ⟨by omega, rfl⟩⟩
  obtain ⟨s', hcopy, _, hcell⟩ := copyout_accessible hE hm.space sp
    ((args.length + 1) * 8) (ustack'.setLE (8 * args.length) 8 0)
    fun k hk => hacc _ (by omega) (by omega)
  rw [if_neg hlow, bind_of_ok hcopy, if_neg (by decide)]
  refine ⟨s', .inr ⟨by omega, addrs, ustack'.setLE (8 * args.length) 8 0, rfl, ?_⟩⟩
  rw [← hsp] at halign' hbelow hcell
  refine ⟨halign', hbelow, hstr.congr fun b hb => ?_, fun j hj => ?_, fun i a ha => ?_, ?_⟩
  · rw [hcell, if_neg (by omega)]
  · rw [hcell, if_pos ⟨by omega, by omega⟩, Nat.add_sub_cancel_left]
  · have hi : i < addrs.length := (List.getElem?_eq_some_iff.mp ha).1
    rw [hstr.length] at hi
    rw [getLE_setLE_disjoint (by omega), hst i a ha]
  · rw [getLE_setLE_same]
    rfl

end Exact

section Exec

variable {E : Env} {F : List Nat} {held : List (Fin NFILE)} {k : Kernel}
  {g : Spaces NPROC} {pipes : List Nat} {p : Fin NPROC}

/-- A loaded program has room for one page of arguments below the end of its
    memory. -/
theorem ProgramAt.room (hE : E.Ok) {tf : Nat} {L : List Nat} {readi : Readi} {phs : List Proghdr}
    {s₀ s : Phys} {t : PageTree 2} {u u' : Pages}
    (h : ProgramAt E tf L readi phs s₀ s t u u') :
    (∀ va, (u.length + 2) * PGSIZE - PGSIZE ≤ va → va < (u.length + 2) * PGSIZE → Access t va) ∧
      2 * PGSIZE ≤ (u.length + 2) * PGSIZE ∧ (u.length + 2) * PGSIZE % 16 = 0 ∧
      (u.length + 2) * PGSIZE < 2 ^ 64 := by
  have hshort := h.space.length_le hE
  rw [h.stacked.length] at hshort
  refine ⟨fun va hlo hhi => (h.access_iff hE).mpr ?_, ?_, ?_, ?_⟩ <;>
    · simp only [PGSIZE] at *
      omega

theorem Image.regs_sp (im : Image) (page : Bytes) (h : im.sp < 2 ^ 64) :
    (im.regs page).getLE 120 8 = im.sp ∧ (im.regs page).getLE 48 8 = im.sp := by
  have hmod : im.sp % 256 ^ 8 = im.sp := mod_eq_of_lt h
  unfold regs
  constructor
  · rw [getLE_setLE_disjoint (by omega), getLE_setLE_disjoint (by omega),
      getLE_setLE_same, hmod]
  · rw [getLE_setLE_same, hmod]

/-- The arguments are still there when the program is loaded. -/
theorem ProgramAt.args {tf : Nat} {L L' : List Nat} {readi : Readi} {phs : List Proghdr}
    {s₀ s : Phys} {t : PageTree 2} {u u' : Pages}
    {args : List (List UInt8)} (h : ProgramAt E tf (L ++ (argv.map Prod.fst ++ L')) readi phs s₀ s
      t u u') (hargs : List.Forall₂ (ArgPage s₀.kmem.mem) argv args) :
    List.Forall₂ (fun arg str => arg.1 ∈ L ++ (argv.map Prod.fst ++ L') ∧
      ArgPage s.kmem.mem arg str) argv args := by
  have hin : ∀ arg ∈ argv, arg.1 ∈ L ++ (argv.map Prod.fst ++ L') := fun arg harg =>
    mem_append_right _ (mem_append_left _ (mem_map_of_mem harg))
  exact ((forall₂_and_left _ _).mpr ⟨hin, hargs⟩).imp fun arg _ ⟨hmem, harg⟩ =>
    ⟨hmem, harg.congr (h.frame _ hmem)⟩

/-- **`exec` lays out the arguments.** If it succeeds, it returns their number,
    and the new program finds them at its stack pointer, which is also its
    second argument. If they take more than a page it fails, having written to
    no page but the stack's. On no path does the stack pointer wrap or is
    `ustack` used beyond its end. -/
theorem exec_lays_out_args (hE : E.Ok) {argv : Args} {args : List (List UInt8)}
    (h : Wf E (argv.map Prod.fst ++ F) held k g pipes) (hp : (k.proc p).state = .RUNNING)
    (hargs : List.Forall₂ (ArgPage k.phys.kmem.mem) argv args) (hlen : argv.length < MAXARG)
    (readi : Readi) (ustack : Bytes) :
    (∃ r k', execProg E p (some readi) argv ustack k = .ok (r, k') ∧
      (r = -1 ∨ r = argv.length ∧ argsSize args ≤ PGSIZE ∧ ∃ sp addrs,
        (k'.phys.kmem.mem (k'.proc p).trapframe).getLE 120 8 = sp ∧
        (k'.phys.kmem.mem (k'.proc p).trapframe).getLE 48 8 = sp ∧
        ArgsAt k'.phys.kmem.mem (k'.proc p).pagetable (k'.proc p).sz sp args addrs)) ∧
    (PGSIZE < argsSize args → ∀ s₁ t u u',
      ProgramAt E (k.proc p).trapframe (k.procPages g ++ (pipes ++ (argv.map Prod.fst ++ F))) readi
        (segments readi) k.phys s₁ t u u' →
      ∃ s₂ q, pushStack E t.pa ((u.length + 2) * PGSIZE) argv ustack s₁ = .ok (none, s₂) ∧
        u'[u.length + 1]? = some q ∧ ∀ a, a ≠ q.1 → s₂.kmem.mem a = s₁.kmem.mem a) ∧
    ∀ pagetable sz s, 2 * PGSIZE ≤ sz →
      pushStackChecked E pagetable sz argv ustack s = pushStack E pagetable sz argv ustack s := by
  have hL : k.procPages g ++ (pipes ++ (argv.map Prod.fst ++ F)) =
      (k.procPages g ++ pipes) ++ (argv.map Prod.fst ++ F) := (append_assoc ..).symm
  obtain ⟨hshort, hnonzero⟩ := ArgPage.forall_mem hargs
  refine ⟨?_, fun hbig s₁ t u u' hprog => ?_, fun pagetable sz s hsz => ?_⟩
  · rcases execProg_cases hE h hp readi argv ustack with
      ⟨k', hrun⟩ | ⟨s₁, s₂, t, u, u', q, im, k', hrun, hex, hwf⟩
    · exact ⟨-1, k', hrun, .inl rfl⟩
    rw [hL] at hex
    obtain ⟨hacc, h2, h16, hlt⟩ := hex.program.room hE
    obtain ⟨s', hres⟩ := pushStack_exact hE hex.program.space ustack (hex.program.args hargs) hacc
      h2
      h16 hlt hlen
    rcases hres with ⟨_, hnone⟩ | ⟨hfit, addrs, w, hsome, hlaid⟩
    · rw [hex.pushed] at hnone
      cases hnone
    have hsame := hex.pushed.symm.trans hsome
    simp only [Except.ok.injEq, Prod.mk.injEq, Option.some.injEq] at hsame
    obtain ⟨⟨hsp, hargc⟩, rfl⟩ := hsame
    have htf : (k'.proc p).trapframe = (k.proc p).trapframe := by rw [hex.proc_self]
    have hsz : (k'.proc p).sz = (u.length + 2) * PGSIZE := by rw [hex.proc_self]
    obtain ⟨ha1, hsp'⟩ := im.regs_sp (s₂.kmem.mem (k.proc p).trapframe) (by omega)
    rw [← hex.committed.regs, ← htf, hsp] at ha1 hsp'
    refine ⟨im.argc, k', hrun, .inr ⟨?_, hfit, _, addrs, ha1, hsp', ?_⟩⟩
    · rw [hargc, hargs.length_eq]
    · rw [hsz]
      refine hlaid.argsAt hfit (by omega) hnonzero fun va hlo hhi => ?_
      rw [hex.byteAt hE hwf, if_pos]
      simp only [PGSIZE] at hlo hhi ⊢
      omega
  · rw [hL] at hprog
    obtain ⟨hacc, h2, h16, hlt⟩ := hprog.room hE
    obtain ⟨q, hstack, hq⟩ := hprog.stackPage hE
    obtain ⟨r, s₂, hrun, _, hothers⟩ := pushStack_spec hE hprog.space hq argv ustack
    obtain ⟨s', hres⟩ := pushStack_exact hE hprog.space ustack (hprog.args hargs) hacc h2 h16 hlt
      hlen
    obtain ⟨_, hnone⟩ := hres.resolve_right fun h0 => absurd h0.1 (by omega)
    have hsame := hrun.symm.trans hnone
    cases hsame
    exact ⟨_, q, hnone, hstack, hothers⟩
  · exact pushStackChecked_eq hsz hshort hlen ustack s

end Exec

/-- The kernel with page `q` filled. -/
def Kernel.setPage (k : Kernel) (q : Nat) (page : Bytes) : Kernel :=
  { k with phys := k.phys.setMem (update k.phys.kmem.mem q page) }

theorem Kernel.setPage_mem (k : Kernel) (q : Nat) (page : Bytes) :
    (k.setPage q page).phys.kmem.mem q = page := update_self ..

theorem Wf.setPage {E : Env} {held : List (Fin NFILE)} {k : Kernel}
    {g : Spaces NPROC} {pipes : List Nat} {q : Nat}
    (h : Wf E [q] held k g pipes) (page : Bytes) :
    Wf E [q] held (k.setPage q page) g pipes := by
  have hnd := h.slots.acct.nodup_owned
  refine h.outside (h.slots.acct.congr rfl rfl rfl rfl) fun a ha => update_of_ne ?_ ..
  rintro rfl
  rw [← append_assoc] at hnd
  exact (nodup_append.mp hnd).2.2 a ha a (mem_singleton_self a) rfl

/-- The first process, with the string "hi" in a page for an argument. -/
def greetingKernel : Kernel :=
  (firstMachine 20).kernel.setPage (PHYSTOP - PGSIZE) fun o => [104, 105].getD o 0

/-- The first process executes a small program with one argument. -/
theorem exec_lays_out_args_hi : ∃ k' sp addrs,
    execProg (smallEnv 20) 0 (some (readFile smallElf)) [(PHYSTOP - PGSIZE, 2)] Bytes.zero
      greetingKernel = .ok (1, k') ∧
    (k'.phys.kmem.mem (k'.proc 0).trapframe).getLE 48 8 = sp ∧
    ArgsAt k'.phys.kmem.mem (k'.proc 0).pagetable (k'.proc 0).sz sp [[104, 105]] addrs := by
  obtain ⟨hE, g, pipes, hwf⟩ := firstMachine_twenty
  have hp : (greetingKernel.proc 0).state = .RUNNING := by decide +kernel
  have hwf' : Wf (smallEnv 20) ([(PHYSTOP - PGSIZE, 2)].map Prod.fst ++ []) (firstMachine 20).held
      greetingKernel g pipes := hwf.setPage _
  have hargs : List.Forall₂ (ArgPage greetingKernel.phys.kmem.mem) [(PHYSTOP - PGSIZE, 2)]
      [[104, 105]] := by
    refine .cons ⟨rfl, by decide, by decide, fun j _ => ?_⟩ .nil
    rw [greetingKernel, Kernel.setPage_mem]
  obtain ⟨res, s1, himage, hres⟩ := exists_of_check
    (x := execImage (smallEnv 20) (greetingKernel.proc 0).trapframe (readFile smallElf)
      [(PHYSTOP - PGSIZE, 2)] Bytes.zero) (s := greetingKernel.phys)
    (t := fun res _ => res.any fun im => im.argc = 1) (by decide +kernel)
  obtain ⟨im, rfl, him⟩ := Option.any_eq_true _ _ |>.mp hres
  have hargc := of_decide_eq_true him
  obtain ⟨k', hrun, _⟩ := execProg_of_image hE hwf' hp himage
  obtain ⟨r, k'', hrun', hok⟩ := (exec_lays_out_args hE hwf' hp hargs (by decide)
    (readFile smallElf) Bytes.zero).1
  rw [hrun, hargc] at hrun'
  cases hrun'
  obtain ⟨_, _, sp, addrs, _, hsp, hat⟩ := hok.resolve_left (by decide)
  rw [hargc] at hrun
  exact ⟨k', sp, addrs, hrun, hsp, hat⟩

end Xv6
