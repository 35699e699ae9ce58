import Mathlib.Data.List.TakeWhile
import Xv6.Mem.Grow
import Xv6.Proc.Kernel

/-!
# `ps`

`ps` collects records of processes in an array on the kernel stack and copies
the array to new memory at the end of its caller's. The array is not
initialised, so what it holds is the stack's previous contents wherever the loop
stores nothing: `stack` is an argument. The loop ends at the first `UNUSED`
slot, and `proc + start * sizeof(proc)`, where `proc` is the whole table, is
beyond the table unless `start` is 0.

The kernel stack is one page with a guard page below it. `E.stackRoom` is what
is left of the page for the array, and a call whose array does not fit
(`E.Fits`) does not return: a page has room for no more than 113 records.
-/

namespace Xv6

open List Sys Bytes Nat
open Cpus (ProcState)
open PageTree

/-! ## The code -/

/-- `enum procstate` -/
def procstateCode : ProcState → Nat
  | .UNUSED => 0
  | .USED => 1
  | .SLEEPING => 2
  | .RUNNABLE => 3
  | .RUNNING => 4
  | .ZOMBIE => 5

/-- The 32 bits of an `int`. -/
def intWord (v : Int) : Nat := (v % 2 ^ 32).toNat

section Code

variable (proc : Fin NPROC → Proc) (name : Fin NPROC → Bytes)

/-- The stores into `loc_result[i]` of what is in the slot `p` itself. -/
def fillOwn (loc : Bytes) (i : Nat) (p : Fin NPROC) : Bytes :=
  let loc := loc.setLE (i * sizeofUserProc) 4 (procstateCode (proc p).state)
  let loc := loc.setLE (i * sizeofUserProc + 4) 4 (intWord (proc p).killed)
  let loc := loc.setLE (i * sizeofUserProc + 8) 4 (intWord (proc p).xstate)
  let loc := loc.setLE (i * sizeofUserProc + 12) 4 (proc p).pid.toNat
  loc.blit (i * sizeofUserProc + 20) (name p) 0 16

/-- The stores into `loc_result[i]`; `parent_id` is stored if there is a
    parent. -/
def fillRecord (loc : Bytes) (i : Nat) (p : Fin NPROC) : Bytes :=
  match (proc p).parent with
  | some q => (fillOwn proc name loc i p).setLE (i * sizeofUserProc + 16) 4 (proc q).pid.toNat
  | none => fillOwn proc name loc i p

/-- The loop over the slots; `loc_result` and `localCount` at its end. -/
def psLoop (count : Nat) : List (Fin NPROC) → Nat → Bytes → Bytes × Nat
  | [], localCount, loc => (loc, localCount)
  | p :: slots, localCount, loc =>
    if localCount = count then (loc, localCount)
    else if (proc p).state = .UNUSED then
      (loc.setLE (localCount * sizeofUserProc) 4 (procstateCode .UNUSED), localCount)
    else psLoop count slots (localCount + 1) (fillRecord proc name loc localCount p)

/-- The record after the last process, if there is room for one. -/
def endRecords (count : Nat) (r : Bytes × Nat) : Bytes :=
  if r.2 < count then r.1.setLE (r.2 * sizeofUserProc) 4 (procstateCode .UNUSED) else r.1

/-- `loc_result` as it is copied out. -/
def locResult (count : Nat) (stack : Bytes) : Bytes :=
  endRecords count (psLoop proc name count (List.finRange NPROC) 0 stack)

end Code

/-! ## What the array holds -/

section Records

variable {proc : Fin NPROC → Proc} {name : Fin NPROC → Bytes}

/-- A slot with a process. -/
def inUse (proc : Fin NPROC → Proc) (p : Fin NPROC) : Bool := (proc p).state ≠ .UNUSED

/-- The processes before the first `UNUSED` slot. -/
def inFront (proc : Fin NPROC → Proc) : List (Fin NPROC) :=
  (List.finRange NPROC).takeWhile (inUse proc)

/-- Records of the processes in the slots, from record `n` on. -/
def fillRecords (proc : Fin NPROC → Proc) (name : Fin NPROC → Bytes) (loc : Bytes) (n : Nat) :
    List (Fin NPROC) → Bytes
  | [] => loc
  | p :: slots => fillRecords proc name (fillRecord proc name loc n p) (n + 1) slots

variable {a count i n : Nat} {loc : Bytes} {p : Fin NPROC}

theorem psLoop_eq (slots : List (Fin NPROC)) (loc : Bytes) (hn : n ≤ count) :
    endRecords count (psLoop proc name count slots n loc) =
      endRecords count (fillRecords proc name loc n ((slots.takeWhile (inUse proc)).take
        (count - n)),
        n + ((slots.takeWhile (inUse proc)).take (count - n)).length) := by
  induction slots generalizing n loc with
  | nil => simp [psLoop, fillRecords]
  | cons p slots ih =>
    unfold psLoop
    by_cases hfull : n = count
    · rw [if_pos hfull, hfull, Nat.sub_self, take_zero]
      rfl
    · rw [if_neg hfull]
      by_cases hp : (proc p).state = .UNUSED
      · have hnot : ¬ inUse proc p = true := by simp [inUse, hp]
        rw [if_pos hp, takeWhile_cons_of_neg hnot, take_nil]
        -- the same store once more, after the loop
        have hlt : n < count := by omega
        simp only [endRecords, hlt, if_true, length_nil, Nat.add_zero, fillRecords,
          setLE_setLE_same]
      · have hin : inUse proc p = true := by simp [inUse, hp]
        obtain ⟨m, hm⟩ : ∃ m, count - n = m + 1 := ⟨count - n - 1, by omega⟩
        rw [if_neg hp, takeWhile_cons_of_pos hin, hm, take_succ_cons, fillRecords,
          length_cons, ih _ (by omega), show count - (n + 1) = m by omega]
        congr 2
        omega

/-- **The array**: records of the processes in front, then the end. -/
theorem locResult_eq (count : Nat) (stack : Bytes) : locResult proc name count stack =
      endRecords count (fillRecords proc name stack 0 ((inFront proc).take count),
        ((inFront proc).take count).length) := by
  unfold locResult
  rw [psLoop_eq _ _ (Nat.zero_le _), Nat.sub_zero, Nat.zero_add]
  rfl

/-- Record `i` of an array tells of the process in slot `p`; a process without a
    parent has no `parent_id` to tell. -/
structure IsRecord (proc : Fin NPROC → Proc) (name : Fin NPROC → Bytes) (rec : Bytes) (i : Nat)
    (p : Fin NPROC) : Prop where
  state : rec.getLE (i * sizeofUserProc) 4 = procstateCode (proc p).state
  killed : rec.getLE (i * sizeofUserProc + 4) 4 = intWord (proc p).killed
  xstate : rec.getLE (i * sizeofUserProc + 8) 4 = intWord (proc p).xstate
  pid : rec.getLE (i * sizeofUserProc + 12) 4 = (proc p).pid.toNat
  parent_id : ∀ q, (proc p).parent = some q →
    rec.getLE (i * sizeofUserProc + 16) 4 = (proc q).pid.toNat
  name : ∀ o < 16, rec (i * sizeofUserProc + 20 + o) = name p o

theorem IsRecord.congr {rec rec' : Bytes} (h : IsRecord proc name rec i p)
    (he : ∀ a, i * sizeofUserProc ≤ a → a < (i + 1) * sizeofUserProc → rec' a = rec a) :
    IsRecord proc name rec' i p := by
  have hword : ∀ o, o + 4 ≤ sizeofUserProc →
      rec'.getLE (i * sizeofUserProc + o) 4 = rec.getLE (i * sizeofUserProc + o) 4 := by
    intro o ho
    refine getLE_congr fun a ha hlt => he a (by omega) ?_
    rw [Nat.add_mul]
    omega
  refine ⟨(hword 0 (by decide)).trans h.state, (hword 4 (by decide)).trans h.killed,
    (hword 8 (by decide)).trans h.xstate, (hword 12 (by decide)).trans h.pid,
    fun q hq => (hword 16 (by decide)).trans (h.parent_id q hq), fun o ho => ?_⟩
  rw [he _ (by omega) (by simp only [sizeofUserProc]; omega), h.name o ho]

theorem getLE_blit_disjoint {m src : Bytes} {o so o' k : Nat} (h : o + n ≤ o' ∨ o' + k ≤ o) :
    (m.blit o src so n).getLE o' k = m.getLE o' k :=
  getLE_congr fun _ _ _ => if_neg (by omega)

theorem word_mod {v : Nat} (h : v < 2 ^ 32) : v % 256 ^ 4 = v := mod_eq_of_lt h

theorem intWord_lt (v : Int) : intWord v < 2 ^ 32 := by
  unfold intWord
  omega

theorem procstateCode_lt (x : ProcState) : procstateCode x < 2 ^ 32 := by
  cases x <;> decide

theorem blit_at {m src : Bytes} {o k : Nat} (h : k < n) : m.blit o src 0 n (o + k) = src k := by
  unfold Bytes.blit
  rw [if_pos (by omega), Nat.zero_add, Nat.add_sub_cancel_left]

theorem fillRecord_some {q : Fin NPROC} (h : (proc p).parent = some q) (loc : Bytes) (i : Nat) :
    fillRecord proc name loc i p =
      (fillOwn proc name loc i p).setLE (i * sizeofUserProc + 16) 4 (proc q).pid.toNat := by
  unfold fillRecord
  rw [h]

theorem fillRecord_none (h : (proc p).parent = none) (loc : Bytes) (i : Nat) :
    fillRecord proc name loc i p = fillOwn proc name loc i p := by
  unfold fillRecord
  rw [h]

theorem fillRecord_of_ne (h : a < i * sizeofUserProc + 16 ∨ i * sizeofUserProc + 20 ≤ a) :
    fillRecord proc name loc i p a = fillOwn proc name loc i p a := by
  cases hparent : (proc p).parent with
  | none => rw [fillRecord_none hparent]
  | some q => rw [fillRecord_some hparent, setLE_outside (by omega)]

theorem fillRecord_isRecord (loc : Bytes) (i : Nat) (p : Fin NPROC) :
    IsRecord proc name (fillRecord proc name loc i p) i p := by
  have hword : ∀ o, o ≤ 12 → (fillRecord proc name loc i p).getLE (i * sizeofUserProc + o) 4 =
      (fillOwn proc name loc i p).getLE (i * sizeofUserProc + o) 4 := fun o ho =>
    getLE_congr fun a _ hlt => fillRecord_of_ne (by omega)
  refine ⟨(hword 0 (by decide)).trans ?_, (hword 4 (by decide)).trans ?_,
    (hword 8 (by decide)).trans ?_, (hword 12 (by decide)).trans ?_, fun q hq => ?_, fun o ho => ?_⟩
  · unfold fillOwn
    simp (disch := omega) only [getLE_blit_disjoint, getLE_setLE_disjoint]
    rw [Nat.add_zero, getLE_setLE_same]
    exact word_mod (procstateCode_lt _)
  · unfold fillOwn
    simp (disch := omega) only [getLE_blit_disjoint, getLE_setLE_disjoint]
    rw [getLE_setLE_same]
    exact word_mod (intWord_lt _)
  · unfold fillOwn
    simp (disch := omega) only [getLE_blit_disjoint, getLE_setLE_disjoint]
    rw [getLE_setLE_same]
    exact word_mod (intWord_lt _)
  · unfold fillOwn
    rw [getLE_blit_disjoint (by omega), getLE_setLE_same]
    exact word_mod (proc p).pid.isLt
  · rw [fillRecord_some hq, getLE_setLE_same]
    exact word_mod (proc q).pid.isLt
  · rw [fillRecord_of_ne (by omega)]
    exact blit_at ho

theorem fillOwn_of_not
    (h : a < i * sizeofUserProc ∨ a = i * sizeofUserProc + 16 ∨ (i + 1) * sizeofUserProc ≤ a) :
    fillOwn proc name loc i p a = loc a := by
  unfold fillOwn Bytes.blit
  simp only [sizeofUserProc] at h ⊢
  rw [if_neg (by omega)]
  simp (disch := omega) only [setLE_outside]

theorem fillRecord_outside (h : a < i * sizeofUserProc ∨ (i + 1) * sizeofUserProc ≤ a) :
    fillRecord proc name loc i p a = loc a := by
  rw [fillRecord_of_ne (by simp only [sizeofUserProc] at *; omega), fillOwn_of_not (by omega)]

/-- With a parent, every byte of the record is stored. -/
theorem fillRecord_congr {q : Fin NPROC} (hparent : (proc p).parent = some q) (loc loc' : Bytes)
    (hge : i * sizeofUserProc ≤ a) (hlt : a < (i + 1) * sizeofUserProc) :
    fillRecord proc name loc i p a = fillRecord proc name loc' i p a := by
  rw [fillRecord_some hparent, fillRecord_some hparent]
  unfold fillOwn Bytes.blit Bytes.setLE
  simp only [sizeofUserProc] at hge hlt ⊢
  split_ifs
  all_goals first | rfl | omega

/-! ### All records -/

theorem fillRecords_outside {slots : List (Fin NPROC)}
    (h : a < n * sizeofUserProc ∨ (n + slots.length) * sizeofUserProc ≤ a) :
    fillRecords proc name loc n slots a = loc a := by
  induction slots generalizing loc n with
  | nil => rfl
  | cons p slots ih =>
    simp only [length_cons, sizeofUserProc] at h
    rw [fillRecords, ih (by simp only [sizeofUserProc]; omega),
      fillRecord_outside (by simp only [sizeofUserProc]; omega)]

/-- Record `n + i` is what one pass of the loop left there. -/
theorem fillRecords_at (name : Fin NPROC → Bytes) {slots : List (Fin NPROC)} (loc : Bytes)
    (hp : slots[i]? = some p) :
    ∃ loc', (∀ a, (n + i) * sizeofUserProc ≤ a → loc' a = loc a) ∧
      ∀ a, (n + i) * sizeofUserProc ≤ a → a < (n + i + 1) * sizeofUserProc →
        fillRecords proc name loc n slots a = fillRecord proc name loc' (n + i) p a := by
  induction slots generalizing loc n i with
  | nil => cases hp
  | cons q slots ih =>
    cases i with
    | zero =>
      cases hp
      refine ⟨loc, fun a _ => rfl, fun a hge hlt => ?_⟩
      rw [fillRecords, fillRecords_outside (.inl hlt)]
      rfl
    | succ i =>
      obtain ⟨loc', hsame, heq⟩ := ih (fillRecord proc name loc n q) (n := n + 1)
        (by simpa using hp)
      rw [show n + 1 + i = n + (i + 1) by omega] at hsame heq
      refine ⟨loc', fun a ha => ?_, heq⟩
      rw [hsame a ha, fillRecord_outside]
      simp only [sizeofUserProc] at *
      omega

/-- The slots that the array tells of. -/
def reported (proc : Fin NPROC → Proc) (count : Nat) : List (Fin NPROC) :=
  (inFront proc).take count

theorem locResult_of_lt (stack : Bytes) (h : a < (reported proc count).length * sizeofUserProc) :
    locResult proc name count stack a = fillRecords proc name stack 0 (reported proc count) a := by
  rw [locResult_eq, endRecords]
  split_ifs
  · exact setLE_outside (.inl h)
  · rfl

theorem locResult_at (name : Fin NPROC → Bytes) (stack : Bytes)
    (hp : (reported proc count)[i]? = some p) :
    ∃ loc', (∀ a, i * sizeofUserProc ≤ a → loc' a = stack a) ∧
      ∀ a, i * sizeofUserProc ≤ a → a < (i + 1) * sizeofUserProc →
        locResult proc name count stack a = fillRecord proc name loc' i p a := by
  obtain ⟨loc', hsame, heq⟩ := fillRecords_at name stack (n := 0) hp
  rw [Nat.zero_add] at hsame heq
  refine ⟨loc', hsame, fun a hge hlt => ?_⟩
  have hi : i + 1 ≤ (reported proc count).length := (List.getElem?_eq_some_iff.mp hp).1
  rw [locResult_of_lt stack (lt_of_lt_of_le hlt (Nat.mul_le_mul_right _ hi)), heq a hge hlt]

theorem locResult_isRecord (stack : Bytes) (hp : (reported proc count)[i]? = some p) :
    IsRecord proc name (locResult proc name count stack) i p := by
  obtain ⟨loc', _, heq⟩ := locResult_at name stack hp
  exact (fillRecord_isRecord loc' i p).congr heq

theorem locResult_end (stack : Bytes) (h : (reported proc count).length < count) :
    locResult proc name count stack =
      (fillRecords proc name stack 0 (reported proc count)).setLE
        ((reported proc count).length * sizeofUserProc) 4 (procstateCode .UNUSED) := by
  rw [locResult_eq, endRecords]
  exact if_pos h

/-- After the record that ends the list, and in that record but for its `state`,
    the array is the stack. -/
theorem locResult_killed (stack : Bytes) (h : (reported proc count).length < count) :
    locResult proc name count stack ((reported proc count).length * sizeofUserProc + 4) =
      stack ((reported proc count).length * sizeofUserProc + 4) := by
  rw [locResult_end stack h, setLE_outside (by omega), fillRecords_outside]
  exact .inr (by rw [Nat.zero_add]; omega)

/-- The `parent_id` of a process without a parent is the stack's. -/
theorem locResult_parentless (stack : Bytes)
    (hp : (reported proc count)[i]? = some p) (hnone : (proc p).parent = none) :
    locResult proc name count stack (i * sizeofUserProc + 16) =
      stack (i * sizeofUserProc + 16) := by
  obtain ⟨loc', hsame, heq⟩ := locResult_at name stack hp
  rw [heq _ (by omega) (by simp only [sizeofUserProc]; omega), fillRecord_none hnone,
    fillOwn_of_not (.inr (.inl rfl)), hsame _ (by omega)]

/-- With `count` processes, each of which has a parent, nothing is the
    stack's. -/
theorem locResult_congr (stack stack' : Bytes) (hlen : (reported proc count).length = count)
    (hparent : ∀ p ∈ reported proc count, (proc p).parent ≠ none)
    (ha : a < count * sizeofUserProc) :
    locResult proc name count stack a = locResult proc name count stack' a := by
  have hi : a / sizeofUserProc < (reported proc count).length := by
    rw [hlen]
    exact (Nat.div_lt_iff_lt_mul (by decide)).mpr ha
  obtain ⟨p, hp⟩ := exists_getElem? hi
  obtain ⟨q, hq⟩ := Option.ne_none_iff_exists'.mp (hparent p (mem_of_getElem? hp))
  have hge : a / sizeofUserProc * sizeofUserProc ≤ a := div_mul_le_self _ _
  have hlt : a < (a / sizeofUserProc + 1) * sizeofUserProc :=
    (Nat.div_lt_iff_lt_mul (by decide)).mp (lt_succ_self _)
  obtain ⟨loc, _, heq⟩ := locResult_at name stack hp
  obtain ⟨loc', _, heq'⟩ := locResult_at name stack' hp
  rw [heq a hge hlt, heq' a hge hlt, fillRecord_congr hq loc loc' hge hlt]

end Records

/-! ## What is copied -/

section Calls

variable {E : Env} {s s' : Phys} {tf : Nat} {t t' : PageTree 2} {u : Pages}
variable {F : List Nat} {sz sz' : Nat}

/-- The program can use the byte at the end of its memory once there is one: it
    is the first of a page, or its page is the user's. -/
def Opens (t : PageTree 2) (sz : Nat) : Prop := sz % PGSIZE = 0 ∨ Access t sz

instance (t : PageTree 2) (sz : Nat) : Decidable (Opens t sz) :=
  inferInstanceAs (Decidable (_ ∨ _))

theorem access_grown (hE : E.Ok) (h : Space E s tf t u F) (hsz : u.length = npages sz)
    {new : Pages} (hm : Moved E s tf t F s' t' (u ++ new))
    (hnew : ∀ x ∈ new, x.2 &&& PTE_U ≠ 0) (hsz' : (u ++ new).length = npages sz') {va : Nat}
    (hge : sz ≤ va) (hlt : va < sz') :
    (Opens t sz → Access t' va) ∧ (va = sz → ¬ Opens t sz → ¬ Access t' va) := by
  have hva : va / PGSIZE < (u ++ new).length :=
    div_lt_length (lt_of_lt_of_le hlt (hsz' ▸ le_npages_mul sz'))
  obtain ⟨x, hx⟩ := exists_getElem? hva
  by_cases hk : va / PGSIZE < u.length
  · -- the rest of the last page of before
    have hstart : va / PGSIZE * PGSIZE < sz := lt_npages.mp (hsz ▸ hk)
    have hpage : sz / PGSIZE = va / PGSIZE := by
      simp only [PGSIZE] at *
      omega
    have hmod : sz % PGSIZE ≠ 0 := by
      simp only [PGSIZE] at *
      omega
    have hiff : Access t' va ↔ Access t sz := by
      rw [hm.space.access_iff hE, h.access_iff hE, hpage, getElem?_append_left hk]
    rw [hiff]
    exact ⟨fun hopen => hopen.resolve_left hmod, fun _ hopen ha => hopen (.inr ha)⟩
  · have hin : x ∈ new := by
      rw [getElem?_append_right (Nat.not_lt.mp hk)] at hx
      exact mem_of_getElem? hx
    refine ⟨fun _ => (hm.space.access_iff hE).mpr ⟨x, hx, hnew x hin⟩, ?_⟩
    rintro rfl hopen
    have hmod : va % PGSIZE ≠ 0 := fun h0 => hopen (.inl h0)
    have hlast : va / PGSIZE < npages va := lt_npages.mpr (by simp only [PGSIZE] at *; omega)
    exact absurd (hsz ▸ hlast) hk

variable {count : UInt8}

/-- A request for records is for some memory, and not too much. -/
theorem room_pos (hcount : count ≠ 0) : (0 : Int) < (count.toNat * sizeofUserProc : Nat) ∧
      ((count.toNat * sizeofUserProc : Nat) : Int) < 2 ^ 31 := by
  have hpos : 0 < count.toNat := Nat.pos_of_ne_zero fun h0 => hcount (UInt8.toNat_inj.mp h0)
  have hlt := count.toNat_lt
  simp only [sizeofUserProc]
  omega

/-- **What `ps` copies**, once `growproc` has made room: the whole array, or
    nothing if the end of memory was in a page that is not the user's. -/
theorem ps_copies (hE : E.Ok) (h : Space E s tf t u F) (hsz : u.length = npages sz)
    (hcount : count ≠ 0)
    (hgrow : growproc E t.pa sz (count.toNat * sizeofUserProc : Nat) s = .ok ((0, sz'), s')) :
    ∃ t', (Opens t sz → ∀ o < count.toNat * sizeofUserProc, Access t' (sz + o)) ∧
      (¬ Opens t sz → ¬ Access t' sz) ∧
      (∀ va, byteAt s'.kmem.mem t.pa va =
        if Access t' va then some (cell u s.kmem.mem va) else none) ∧
      ∀ table, E.Fits count → ∃ s2, ps E t.pa sz 0 count table s = .ok ((sz, sz'), s2) ∧
        ∀ va, byteAt s2.kmem.mem t.pa va =
          if Access t' va then
            some (if Opens t sz ∧ sz ≤ va ∧ va < sz + count.toNat * sizeofUserProc then
              table (va - sz) else cell u s.kmem.mem va)
          else none := by
  obtain ⟨hpos, hlt⟩ := room_pos hcount
  obtain ⟨r, sz1, s1, t', new, hrun, hm, hkept, hcell, hnew, hres⟩ :=
    growproc_grows hE h hsz hpos hlt
  rw [hgrow] at hrun
  cases hrun
  obtain ⟨hr, _⟩ | ⟨_, hsum, hlen⟩ := hres
  · cases hr
  have haccess : ∀ {va}, sz ≤ va → va < sz + count.toNat * sizeofUserProc →
      (Opens t sz → Access t' va) ∧ (va = sz → ¬ Opens t sz → ¬ Access t' va) := by
    intro va hge hva
    exact access_grown hE h hsz hm hnew hlen hge (by omega)
  refine ⟨t', fun hopen o ho => (haccess (by omega) (by omega)).1 hopen,
    fun hopen => (haccess (le_refl _) (by omega)).2 rfl hopen, fun va => ?_, fun table hfits => ?_⟩
  · rw [← hcell, ← hm.pa]
    exact hm.space.byteAt hE va
  obtain ⟨r, s2, j, hcopy, hm2, hreached, hcells, _⟩ := copyout_cell hE hm.space sz table
    (count.toNat * sizeofUserProc)
  refine ⟨s2, ?_, fun va => ?_⟩
  · unfold ps
    rw [if_neg hcount, bind_of_ok hgrow]
    simp only
    rw [if_neg (by decide), if_neg (by decide), if_neg (not_not.mpr hfits), ← hm.pa,
      bind_of_ok hcopy]
    rfl
  · have hj : j = if Opens t sz then count.toNat * sizeofUserProc else 0 := by
      by_cases hopen : Opens t sz
      · rw [if_pos hopen]
        exact hreached.all (hreached.zero_iff.mpr fun k hk => (haccess (by omega) (by omega)).1
          hopen)
      · rw [if_neg hopen]
        by_contra hne
        exact (haccess (le_refl _) (by omega)).2 rfl hopen (hreached.access 0 (by omega))
    have hbyte := hm2.space.byteAt hE va
    rw [hm2.pa, hm.pa] at hbyte
    rw [hbyte, hcells va, hj, hcell]
    by_cases hopen : Opens t sz
    · simp only [hopen, if_true, true_and]
    · have hnone : ¬ (sz ≤ va ∧ va < sz) := by omega
      simp only [hopen, if_false, false_and, Nat.add_zero, hnone]

/-- Without room on the stack `ps` does not return. -/
theorem ps_overflows (hcount : count ≠ 0)
    (hgrow : growproc E t.pa sz (count.toNat * sizeofUserProc : Nat) s = .ok ((0, sz'), s'))
    (hfits : ¬ E.Fits count) (table : Bytes) :
    ps E t.pa sz 0 count table s = .error .overflow := by
  unfold ps
  rw [if_neg hcount, bind_of_ok hgrow]
  simp only
  rw [if_neg (by decide), if_neg (by decide), if_pos hfits]
  rfl

variable {start : UInt8}

theorem ps_beyond (hcount : count ≠ 0) (hstart : start ≠ 0)
    (hgrow : growproc E t.pa sz (count.toNat * sizeofUserProc : Nat) s = .ok ((0, sz'), s'))
    (table : Bytes) : ps E t.pa sz start count table s = .ok ((0, sz'), s') := by
  unfold ps
  rw [if_neg hcount, bind_of_ok hgrow]
  simp only
  rw [if_neg (by decide), if_pos hstart]
  rfl

/-! ## What is reported -/

/-- The processes from slot `start` on. -/
def live (proc : Fin NPROC → Proc) (start : Nat) : List (Fin NPROC) :=
  (List.finRange NPROC).filter fun p => start ≤ p.val && inUse proc p

/-- The array tells of the first `count` processes from slot `start` on, and
    where they end. -/
structure Tells (proc : Fin NPROC → Proc) (name : Fin NPROC → Bytes) (start count : Nat)
    (rec : Bytes) : Prop where
  records : ∀ i p, i < count → (live proc start)[i]? = some p → IsRecord proc name rec i p
  ends : (live proc start).length < count →
    rec.getLE ((live proc start).length * sizeofUserProc) 4 = procstateCode .UNUSED

/-- `ps` returns the old size, and the records of the processes are there. -/
def PsReports (E : Env) (pagetable sz : Nat) (start count : UInt8) (proc : Fin NPROC → Proc)
    (name : Fin NPROC → Bytes) (stack : Bytes) (s : Phys) : Prop :=
  ∃ sz' s' rec,
    ps E pagetable sz start count (locResult proc name count.toNat stack) s = .ok ((sz, sz'), s') ∧
    (∀ o < count.toNat * sizeofUserProc, byteAt s'.kmem.mem pagetable (sz + o) = some (rec o)) ∧
    Tells proc name start.toNat count.toNat rec

variable {proc : Fin NPROC → Proc} {name : Fin NPROC → Bytes}

theorem live_zero (proc : Fin NPROC → Proc) : ∃ rest, live proc 0 = inFront proc ++ rest := by
  refine ⟨((List.finRange NPROC).dropWhile (inUse proc)).filter (inUse proc), ?_⟩
  have hall : (fun p : Fin NPROC => decide (0 ≤ p.val) && inUse proc p) = inUse proc := by
    funext p
    simp
  have hfront : (inFront proc).filter (inUse proc) = inFront proc :=
    filter_eq_self.mpr fun p hp => mem_takeWhile_imp hp
  unfold live
  rw [hall, ← hfront]
  unfold inFront
  rw [← filter_append, takeWhile_append_dropWhile]

theorem state_of_mem_live {p : Fin NPROC} {start : Nat} (h : p ∈ live proc start) :
    procstateCode (proc p).state ≠ procstateCode .UNUSED := by
  have hp := (mem_filter.mp h).2
  rw [Bool.and_eq_true] at hp
  have hne : (proc p).state ≠ .UNUSED := of_decide_eq_true hp.2
  intro hcode
  apply hne
  cases hs : (proc p).state with
  | UNUSED => rfl
  | _ =>
    rw [hs] at hcode
    cases hcode

/-- The array tells of the processes if there is no `UNUSED` slot before one of
    them. -/
theorem locResult_tells_iff {count : Nat} (stack : Bytes) :
    Tells proc name 0 count (locResult proc name count stack) ↔
      min count (live proc 0).length ≤ (inFront proc).length := by
  obtain ⟨rest, hlive⟩ := live_zero proc
  have hlen : (live proc 0).length = (inFront proc).length + rest.length := by
    rw [hlive, length_append]
  constructor
  · intro htells
    by_contra hlt
    have hreported : reported proc count = inFront proc := take_of_length_le (by omega)
    -- the record of the process behind the first `UNUSED` slot ends the list
    obtain ⟨p, hp⟩ : ∃ p, (live proc 0)[(inFront proc).length]? = some p :=
      ⟨_, getElem?_eq_getElem (by omega)⟩
    have hstate := (htells.records _ p (by omega) hp).state
    rw [locResult_end stack (by rw [hreported]; omega), hreported, getLE_setLE_same] at hstate
    exact state_of_mem_live (mem_of_getElem? hp) hstate.symm
  · intro hle
    have hi : ∀ i p, i < count → (live proc 0)[i]? = some p →
        (reported proc count)[i]? = some p := by
      intro i p hi hp
      have := (List.getElem?_eq_some_iff.mp hp).1
      rw [hlive, getElem?_append_left (by omega)] at hp
      rw [reported, getElem?_take_of_lt hi, hp]
    refine ⟨fun i p hlt hp => locResult_isRecord stack (hi i p hlt hp), fun hshort => ?_⟩
    have hreported : (reported proc count).length = (live proc 0).length := by
      rw [reported, length_take]
      omega
    rw [locResult_end stack (by omega), hreported, getLE_setLE_same]
    rfl

theorem Tells.congr {start count : Nat} {rec rec' : Bytes} (h : Tells proc name start count rec)
    (he : ∀ o < count * sizeofUserProc, rec' o = rec o) : Tells proc name start count rec' := by
  refine ⟨fun i p hi hp => (h.records i p hi hp).congr fun a _ hlt => he a ?_, fun hshort => ?_⟩
  · exact lt_of_lt_of_le hlt (Nat.mul_le_mul_right _ hi)
  · rw [← h.ends hshort]
    refine getLE_congr fun a _ hlt => he a ?_
    simp only [sizeofUserProc] at *
    omega

section Reports

variable (hE : E.Ok) (h : Space E s tf t u F) (hsz : u.length = npages sz) {count : UInt8}
  (hcount : count ≠ 0)
  (hgrow : growproc E t.pa sz (count.toNat * sizeofUserProc : Nat) s = .ok ((0, sz'), s'))

include hE h hsz hcount hgrow

theorem psReports_zero (stack : Bytes) : PsReports E t.pa sz 0 count proc name stack s ↔
      E.Fits count ∧ Opens t sz ∧
        Tells proc name 0 count.toNat (locResult proc name count.toNat stack) := by
  by_cases hfits : E.Fits count
  swap
  · refine iff_of_false ?_ fun h => hfits h.1
    rintro ⟨sz'', s'', rec, hrun, _⟩
    rw [ps_overflows hcount hgrow hfits] at hrun
    cases hrun
  obtain ⟨t', haccess, hnot, _, hcopies⟩ := ps_copies hE h hsz hcount hgrow
  obtain ⟨s2, hrun, hbyte⟩ := hcopies (locResult proc name count.toNat stack) hfits
  have hfound : Opens t sz → ∀ o < count.toNat * sizeofUserProc,
      byteAt s2.kmem.mem t.pa (sz + o) = some (locResult proc name count.toNat stack o) := by
    intro hopen o ho
    rw [hbyte, if_pos (haccess hopen o ho), if_pos ⟨hopen, by omega, by omega⟩,
      Nat.add_sub_cancel_left]
  constructor
  · rintro ⟨sz'', s'', rec, hrun', hbytes, htells⟩
    rw [hrun] at hrun'
    cases hrun'
    have hopen : Opens t sz := by
      by_contra hopen
      have hfirst := hbytes 0 (Int.natCast_pos.mp (room_pos hcount).1)
      rw [hbyte, Nat.add_zero, if_neg (hnot hopen)] at hfirst
      cases hfirst
    refine ⟨hfits, hopen, htells.congr fun o ho => ?_⟩
    exact Option.some.inj ((hfound hopen o ho).symm.trans (hbytes o ho))
  · rintro ⟨_, hopen, htells⟩
    exact ⟨sz', s2, _, hrun, hfound hopen, htells⟩

theorem psReports_beyond (hstart : start ≠ 0) (stack : Bytes) :
    PsReports E t.pa sz start count proc name stack s ↔
      sz = 0 ∧ live proc start.toNat = [] := by
  have hpos : 0 < count.toNat := Nat.pos_of_ne_zero fun h0 => hcount (UInt8.toNat_inj.mp h0)
  obtain ⟨t', haccess, _, hgrown, _⟩ := ps_copies hE h hsz hcount hgrow
  have hrun := ps_beyond hcount hstart hgrow (locResult proc name count.toNat stack)
  have hzero : sz = 0 → ∀ o < count.toNat * sizeofUserProc,
      byteAt s'.kmem.mem t.pa (sz + o) = some 0 := by
    intro hsz0 o ho
    have hnil : u = [] := by
      rw [hsz0, npages_zero] at hsz
      exact length_eq_zero_iff.mp hsz
    have hopen : Opens t sz := .inl (by rw [hsz0, zero_mod])
    rw [hgrown, if_pos (haccess hopen o ho), hnil]
    rfl
  constructor
  · rintro ⟨sz'', s'', rec, hrun', hbytes, htells⟩
    rw [hrun] at hrun'
    injection hrun' with hrun'
    injection hrun' with hr hs
    injection hr with hsz0 _
    subst hs
    refine ⟨hsz0.symm, eq_nil_iff_forall_not_mem.mpr fun p hp => ?_⟩
    obtain ⟨q, hq⟩ := exists_getElem? (length_pos_of_mem hp)
    have hstate := (htells.records 0 q hpos hq).state
    have hrec : rec.getLE (0 * sizeofUserProc) 4 = Bytes.zero.getLE (0 * sizeofUserProc) 4 := by
      refine getLE_congr fun a _ hlt => ?_
      have ha : a < count.toNat * sizeofUserProc := by
        simp only [sizeofUserProc] at *
        omega
      exact Option.some.inj ((hbytes a ha).symm.trans (hzero hsz0.symm a ha))
    rw [hrec, getLE_zero] at hstate
    exact state_of_mem_live (mem_of_getElem? hq) hstate.symm
  · rintro ⟨hsz0, hnil⟩
    refine ⟨sz', s', Bytes.zero, ?_, hzero hsz0, fun i p _ hp => ?_, fun _ => getLE_zero _ _⟩
    · rw [hsz0] at hrun ⊢
      exact hrun
    · rw [hnil] at hp
      cases hp

end Reports

/-- **When `ps` reports the process table**: it starts at slot 0, the stack has
    room for the array, no `UNUSED` slot comes before one of the processes that
    it should tell of, and the end of memory was not in a page that is not the
    user's. (A caller without memory that starts elsewhere gets address 0, which
    is right, and finds zeroes there, which is right if there are no processes
    to tell of.) -/
theorem ps_reports_iff (hE : E.Ok) (h : Space E s tf t u F) (hsz : u.length = npages sz)
    (proc : Fin NPROC → Proc) (name : Fin NPROC → Bytes) (stack : Bytes) (start : UInt8)
    {count : UInt8} (hcount : count ≠ 0)
    (hgrow : growproc E t.pa sz (count.toNat * sizeofUserProc : Nat) s = .ok ((0, sz'), s')) :
    PsReports E t.pa sz start count proc name stack s ↔
      (start = 0 ∧ E.Fits count ∧ Opens t sz ∧
        min count.toNat (live proc 0).length ≤ (inFront proc).length) ∨
      (start ≠ 0 ∧ sz = 0 ∧ live proc start.toNat = []) := by
  by_cases hstart : start = 0
  · subst hstart
    rw [psReports_zero hE h hsz hcount hgrow, locResult_tells_iff]
    simp
  · rw [psReports_beyond hE h hsz hcount hgrow hstart]
    simp [hstart]

/-! ## What of the stack is copied -/

/-- Two calls that differ in what was on the stack give the program the same. -/
def LeaksNothing (E : Env) (pagetable sz : Nat) (start count : UInt8) (proc : Fin NPROC → Proc)
    (name : Fin NPROC → Bytes) (s : Phys) : Prop :=
  ∀ stack stack' r r' s₁ s₂,
    ps E pagetable sz start count (locResult proc name count.toNat stack) s = .ok (r, s₁) →
    ps E pagetable sz start count (locResult proc name count.toNat stack') s = .ok (r', s₂) →
    r = r' ∧ ∀ va, byteAt s₁.kmem.mem pagetable va = byteAt s₂.kmem.mem pagetable va

/-- `growproc` makes room for the records. -/
def MakesRoom (E : Env) (pagetable sz : Nat) (count : UInt8) (s : Phys) : Prop :=
  ∃ sz' s', growproc E pagetable sz (count.toNat * sizeofUserProc : Nat) s = .ok ((0, sz'), s')

/-- The first `count` slots have processes, each with a parent. -/
def FrontOfChildren (proc : Fin NPROC → Proc) (count : Nat) : Prop :=
  (reported proc count).length = count ∧ ∀ p ∈ reported proc count, (proc p).parent ≠ none

/-- Unless the array is one of `count` children, some byte of it is the
    stack's. -/
theorem exists_stack_byte {count : Nat} (h : ¬ FrontOfChildren proc count) :
    ∃ a < count * sizeofUserProc, ∀ stack, locResult proc name count stack a = stack a := by
  by_cases hlen : (reported proc count).length = count
  · have hsome : ∃ p ∈ reported proc count, (proc p).parent = none := by
      by_contra hnone
      exact h ⟨hlen, fun p hp hpar => hnone ⟨p, hp, hpar⟩⟩
    obtain ⟨p, hp, hpar⟩ := hsome
    obtain ⟨i, hi, hget⟩ := getElem_of_mem hp
    have hget : (reported proc count)[i]? = some p := by rw [getElem?_eq_getElem hi, hget]
    refine ⟨i * sizeofUserProc + 16, ?_, fun stack => locResult_parentless stack hget hpar⟩
    simp only [sizeofUserProc]
    omega
  · have hle : (reported proc count).length ≤ count := length_take_le _ _
    have hlt : (reported proc count).length < count := by omega
    refine ⟨(reported proc count).length * sizeofUserProc + 4, ?_,
      fun stack => locResult_killed stack hlt⟩
    simp only [sizeofUserProc]
    omega

/-- Where nothing is copied, the array does not matter. -/
theorem ps_table_unused (hE : E.Ok) (h : Space E s tf t u F) (hsz : u.length = npages sz)
    (hno : ¬ (count ≠ 0 ∧ MakesRoom E t.pa sz count s ∧ start = 0)) (table table' : Bytes) :
    ps E t.pa sz start count table s = ps E t.pa sz start count table' s := by
  unfold ps
  by_cases hcount : count = 0
  · rw [if_pos hcount, if_pos hcount]
  · obtain ⟨r, sz', s', t', u', hrun, _⟩ := growproc_spec hE h hsz
      (count.toNat * sizeofUserProc : Nat)
    rw [if_neg hcount, if_neg hcount, bind_of_ok hrun, bind_of_ok hrun]
    simp only
    by_cases hr : r < 0
    · rw [if_pos hr, if_pos hr]
    · by_cases hstart : start = 0
      · obtain ⟨r', _, _, _, _, hrun', _, _, _, _, hres⟩ :=
          growproc_grows hE h hsz (room_pos hcount).1 (room_pos hcount).2
        rw [hrun] at hrun'
        cases hrun'
        obtain ⟨hr', _⟩ | ⟨rfl, _⟩ := hres
        · omega
        · exact absurd ⟨hcount, ⟨sz', s', hrun⟩, hstart⟩ hno
      · rw [if_neg hr, if_neg hr, if_pos hstart, if_pos hstart]

/-- A byte of the stack in the array is a byte of the stack in the program's
    memory. -/
theorem not_leaksNothing (hE : E.Ok) (h : Space E s tf t u F) (hsz : u.length = npages sz)
    (hcount : count ≠ 0) (hroom : MakesRoom E t.pa sz count s) (hfits : E.Fits count)
    (hopen : Opens t sz)
    (hfront : ¬ FrontOfChildren proc count.toNat) :
    ¬ LeaksNothing E t.pa sz 0 count proc name s := by
  intro hleak
  obtain ⟨sz', s', hgrow⟩ := hroom
  obtain ⟨a, ha, hstack⟩ : ∃ a < count.toNat * sizeofUserProc,
      ∀ stack, locResult proc name count.toNat stack a = stack a := exists_stack_byte hfront
  obtain ⟨t', haccess, _, _, hcopies⟩ := ps_copies hE h hsz hcount hgrow
  have hfound : ∀ stack : Bytes, ∃ s2,
      ps E t.pa sz 0 count (locResult proc name count.toNat stack) s = .ok ((sz, sz'), s2) ∧
      byteAt s2.kmem.mem t.pa (sz + a) = some (stack a) := by
    intro stack
    obtain ⟨s2, hrun, hbyte⟩ := hcopies (locResult proc name count.toNat stack) hfits
    refine ⟨s2, hrun, ?_⟩
    rw [hbyte, if_pos (haccess hopen a ha), if_pos ⟨hopen, by omega, by omega⟩,
      Nat.add_sub_cancel_left, hstack]
  obtain ⟨s1, hrun1, hbyte1⟩ := hfound fun _ => 0
  obtain ⟨s2, hrun2, hbyte2⟩ := hfound fun _ => 1
  have hsame := (hleak _ _ _ _ s1 s2 hrun1 hrun2).2 (sz + a)
  rw [hbyte1, hbyte2] at hsame
  exact absurd (Option.some.inj hsame) (by decide)

/-- **When `ps` leaks nothing of the kernel stack**: it copies nothing, or does
    not return, or the first `count` slots of the table all have processes with
    a parent. -/
theorem ps_leaks_nothing_iff (hE : E.Ok) (h : Space E s tf t u F) (hsz : u.length = npages sz)
    (proc : Fin NPROC → Proc) (name : Fin NPROC → Bytes) (start count : UInt8) :
    LeaksNothing E t.pa sz start count proc name s ↔
      (count ≠ 0 → MakesRoom E t.pa sz count s → start = 0 → E.Fits count → Opens t sz →
        FrontOfChildren proc count.toNat) := by
  constructor
  · rintro hleak hcount hroom rfl hfits hopen
    by_contra hfront
    exact not_leaksNothing hE h hsz hcount hroom hfits hopen hfront hleak
  · intro hcond stack stack' r r' s1 s2 hrun1 hrun2
    by_cases hcopy : count ≠ 0 ∧ MakesRoom E t.pa sz count s ∧ start = 0
    · obtain ⟨hcount, ⟨sz', s', hgrow⟩, rfl⟩ := hcopy
      have hfits : E.Fits count := by
        by_contra hfits
        rw [ps_overflows hcount hgrow hfits] at hrun1
        cases hrun1
      obtain ⟨t', _, _, _, hcopies⟩ := ps_copies hE h hsz hcount hgrow
      obtain ⟨_, hrun1', hbyte1⟩ := hcopies (locResult proc name count.toNat stack) hfits
      obtain ⟨_, hrun2', hbyte2⟩ := hcopies (locResult proc name count.toNat stack') hfits
      rw [hrun1] at hrun1'
      rw [hrun2] at hrun2'
      cases hrun1'
      cases hrun2'
      refine ⟨rfl, fun va => ?_⟩
      rw [hbyte1, hbyte2]
      by_cases hin : Opens t sz ∧ sz ≤ va ∧ va < sz + count.toNat * sizeofUserProc
      · obtain ⟨hlen, hparent⟩ := hcond hcount ⟨sz', s', hgrow⟩ rfl hfits hin.1
        rw [if_pos hin, if_pos hin, locResult_congr stack stack' hlen hparent (by omega)]
      · rw [if_neg hin, if_neg hin]
    · rw [ps_table_unused hE h hsz hcopy _ (locResult proc name count.toNat stack'), hrun2] at hrun1
      cases hrun1
      exact ⟨rfl, fun va => rfl⟩

/-! ## When it returns 0 -/

/-- A call that returns 0 leaves the caller's size and mappings, and the free
    pages but for those that have become tables. -/
def FailsClean (E : Env) (t : PageTree 2) (sz : Nat) (start count : UInt8) (table : Bytes)
    (s : Phys) : Prop :=
  ∀ sz' s', ps E t.pa sz start count table s = .ok ((0, sz'), s') →
    sz' = sz ∧
    (∀ va < VASPACE, entryAt s'.kmem.mem va 0 2 t.pa = entryAt s.kmem.mem va 0 2 t.pa) ∧
    ∃ t' : PageTree 2, t'.pa = t.pa ∧ t'.Rep s'.kmem.mem ∧
      s'.kmem.freelist.length + t'.pages.length = s.kmem.freelist.length + t.pages.length

section Fails

variable (hE : E.Ok) (h : Space E s tf t u F) (hsz : u.length = npages sz) (table : Bytes)

include hE h hsz

/-- **A failing `ps`**, in an environment `A` in which `growproc` and `copyout`
    do what they do in `E` if they return at all. -/
theorem failsClean_iff {A : Env}
    (hgrow : ∀ x s', growproc A t.pa sz (count.toNat * sizeofUserProc : Nat) s = .ok (x, s') →
      growproc E t.pa sz (count.toNat * sizeofUserProc : Nat) s = .ok (x, s'))
    (hcopy : ∀ s' x s'', s'.Counted →
      copyout E t.pa sz table (count.toNat * sizeofUserProc) s' = .ok (x, s'') →
      copyout A t.pa sz table (count.toNat * sizeofUserProc) s' = .ok (x, s'')) :
    FailsClean A t sz start count table s ↔
      (count ≠ 0 → MakesRoom A t.pa sz count s → start = 0 ∧ (A.Fits count → sz ≠ 0)) := by
  by_cases hcount : count = 0
  · refine iff_of_true (fun sz' s' hrun => ?_) fun h0 => absurd hcount h0
    unfold ps at hrun
    rw [if_pos hcount] at hrun
    cases hrun
    exact ⟨rfl, fun _ _ => rfl, t, rfl, h.rep, rfl⟩
  obtain ⟨hpos, hlt⟩ := room_pos hcount
  obtain ⟨r, sz1, s1, t', new, hrun, hm, hkept, _, _, hres⟩ := growproc_grows hE h hsz hpos hlt
  constructor
  · rintro hclean - ⟨sz', s', hroom⟩
    obtain ⟨⟩ := hrun.symm.trans (hgrow _ _ hroom)
    obtain ⟨hr, _⟩ | ⟨_, hsum, _⟩ := hres
    · cases hr
    by_contra hnot
    have hzero : ∃ s', ps A t.pa sz start count table s = .ok ((0, sz1), s') := by
      by_cases hstart : start = 0
      · obtain ⟨hfits, hsz0⟩ : A.Fits count ∧ sz = 0 := by simpa [hstart] using hnot
        obtain ⟨x, s2, _, hcopied, _⟩ := copyout_cell hE hm.space sz table
          (count.toNat * sizeofUserProc)
        rw [hm.pa] at hcopied
        refine ⟨s2, ?_⟩
        unfold ps
        rw [if_neg hcount, bind_of_ok hroom]
        simp only
        rw [if_neg (by decide), if_neg (not_not.mpr hstart), if_neg (not_not.mpr hfits),
          bind_of_ok (hcopy _ _ _ hm.space.counted hcopied), hsz0]
        rfl
      · exact ⟨s1, ps_beyond hcount hstart hroom table⟩
    obtain ⟨s', hzero⟩ := hzero
    have := (hclean _ _ hzero).1
    omega
  · intro hcond sz' s' hps
    unfold ps at hps
    rw [if_neg hcount] at hps
    obtain ⟨x, s2, hroom, hps⟩ := bind_eq_ok.mp hps
    obtain ⟨⟩ := hrun.symm.trans (hgrow _ _ hroom)
    obtain ⟨rfl, rfl, rfl⟩ | ⟨rfl, -, -⟩ := hres
    · cases hps
      rw [append_nil] at hm
      have hlen := h.acct.length_eq hm.space.acct
      simp only [length_append] at hlen
      exact ⟨rfl, (Unmoved.of_moved hE h hsz hm hkept).mapping, t', hm.pa, hm.space.rep, by omega⟩
    · obtain ⟨hstart, hsz0⟩ := hcond hcount ⟨_, _, hroom⟩
      simp only at hps
      rw [if_neg (by decide), if_neg (not_not.mpr hstart)] at hps
      by_cases hfits : A.Fits count
      · rw [if_neg (not_not.mpr hfits)] at hps
        obtain ⟨_, _, _, hps⟩ := bind_eq_ok.mp hps
        cases hps
        exact absurd rfl (hsz0 hfits)
      · rw [if_pos hfits] at hps
        cases hps

/-- **When a failing `ps` leaves the caller alone**: if `growproc` fails, or the
    call does not return 0 after it. With the assertion in `kalloc` the same
    holds. -/
theorem ps_fails_clean_iff (start count : UInt8) :
    (FailsClean E t sz start count table s ↔
      (count ≠ 0 → MakesRoom E t.pa sz count s → start = 0 ∧ (E.Fits count → sz ≠ 0))) ∧
    (E.FirstFree → (FailsClean E.asserting t sz start count table s ↔
      (count ≠ 0 → MakesRoom E.asserting t.pa sz count s →
        start = 0 ∧ (E.Fits count → sz ≠ 0)))) := by
  refine ⟨failsClean_iff hE h hsz table (fun _ _ hg => hg) fun _ _ _ _ hc => hc, fun hfirst => ?_⟩
  refine failsClean_iff hE h hsz table (fun x s' hg => ?_) fun s' x s'' hs' hc => ?_
  · obtain ⟨r, sz', s1, _, _, hrun, _⟩ := growproc_spec hE h hsz
      (count.toNat * sizeofUserProc : Nat)
    obtain ⟨_, ⟨_, hsame⟩ | ⟨_, _, hstop⟩⟩ :=
      (growproc_tracks hfirst ..).run s (r, sz') s1 h.counted hrun
    · exact hrun.trans (hsame.symm.trans hg)
    · cases hstop.symm.trans hg
  · obtain ⟨_, ⟨_, hsame⟩ | ⟨_, hfalse, _⟩⟩ := (copyout_same hfirst ..).run s' x s'' hs' hc
    · exact hsame
    · exact hfalse.elim

end Fails

end Calls

/-! ## Two processes -/

section Samples

/-- A process with this state, pid and parent. -/
def sampleProc (state : ProcState) (pid : BitVec 32) (parent : Option (Fin NPROC)) : Proc where
  state := state
  chan := 0
  killed := 0
  xstate := 0
  pid := pid
  parent := parent
  sz := 0
  pagetable := 0
  trapframe := 0
  ofile := fun _ => none

/-- `init` in slot 0 and its child in slot `i`. -/
def initAndChild (i p : Fin NPROC) : Proc :=
  if p = 0 then sampleProc .SLEEPING 1 none
  else if p = i then sampleProc .RUNNING 2 (some 0)
  else sampleProc .UNUSED 0 none

/-- A process of 4096 bytes, with memory for two records and for 114. -/
theorem exists_room :
    ∃ s t u sz' s', Space (smallEnv 9) s (PHYSTOP - PGSIZE) t u [PHYSTOP - PGSIZE] ∧
      u.length = npages 4096 ∧
      growproc (smallEnv 9) t.pa 4096 ((2 : UInt8).toNat * sizeofUserProc : Nat) s =
        .ok ((0, sz'), s') ∧ MakesRoom (smallEnv 9) t.pa 4096 114 s := by
  obtain ⟨s, t, u, hsp, hsz, htest⟩ := exists_small_space
    (fun pagetable s => [2, 114].all fun count : UInt8 => (growproc (smallEnv 9) pagetable 4096
      (count.toNat * sizeofUserProc : Nat)).check s fun r _ => r.1 == 0) (by decide +kernel)
  have hroom : ∀ count ∈ [2, 114], MakesRoom (smallEnv 9) t.pa 4096 count s := by
    intro count hmem
    obtain ⟨⟨r, sz'⟩, s', hrun, hr⟩ := exists_of_check (all_eq_true.mp htest count hmem)
    obtain rfl : r = 0 := beq_iff_eq.mp hr
    exact ⟨sz', s', hrun⟩
  obtain ⟨sz', s', hrun⟩ := hroom 2 (by decide)
  exact ⟨s, t, u, sz', s', hsp, hsz, hrun, hroom 114 (by decide)⟩

theorem ps_reports_iff_two :
    ∃ s t u, Space (smallEnv 9) s (PHYSTOP - PGSIZE) t u [PHYSTOP - PGSIZE] ∧
      u.length = npages 4096 ∧
      PsReports (smallEnv 9) t.pa 4096 0 2 (initAndChild 1) (fun _ => Bytes.zero) Bytes.zero s := by
  obtain ⟨s, t, u, sz', s', hsp, hsz, hgrow, _⟩ := exists_room
  refine ⟨s, t, u, hsp, hsz, ?_⟩
  rw [ps_reports_iff smallEnv_nine hsp hsz _ _ _ _ (by decide) hgrow]
  exact .inl ⟨rfl, by decide, .inl (by decide), by decide⟩

/-- **`ps(1, 2)`, `ps(0, 2)` with a gap, and `ps(0, 114)`**: with `init` in slot
    0 and its child in slot 1, `ps` from slot 1 on returns 0; with the child in
    slot 2 instead, `ps` from slot 0 on tells of `init` only; and 114 records
    are more than a page of stack. -/
theorem ps_misses_processes :
    ∃ s t u, Space (smallEnv 9) s (PHYSTOP - PGSIZE) t u [PHYSTOP - PGSIZE] ∧
      u.length = npages 4096 ∧ MakesRoom (smallEnv 9) t.pa 4096 2 s ∧
      (∃ sz' s', ps (smallEnv 9) t.pa 4096 1 2
        (locResult (initAndChild 1) (fun _ => Bytes.zero) 2 Bytes.zero) s = .ok ((0, sz'), s')) ∧
      ¬ PsReports (smallEnv 9) t.pa 4096 1 2 (initAndChild 1) (fun _ => Bytes.zero) Bytes.zero s ∧
      ¬ PsReports (smallEnv 9) t.pa 4096 0 2 (initAndChild 2) (fun _ => Bytes.zero) Bytes.zero s ∧
      MakesRoom (smallEnv 9) t.pa 4096 114 s ∧
      ∀ table, ps (smallEnv 9) t.pa 4096 0 114 table s = .error .overflow := by
  obtain ⟨s, t, u, sz', s', hsp, hsz, hgrow, hroom⟩ := exists_room
  refine ⟨s, t, u, hsp, hsz, ⟨sz', s', hgrow⟩, ⟨sz', s', ps_beyond (by decide) (by decide) hgrow _⟩,
    ?_, ?_, hroom, fun table => ?_⟩
  · rw [psReports_beyond smallEnv_nine hsp hsz (by decide) hgrow (by decide)]
    decide
  · rw [psReports_zero smallEnv_nine hsp hsz (by decide) hgrow, show (2 : UInt8).toNat = 2 from rfl,
      locResult_tells_iff]
    exact fun h => absurd h.2.2 (by decide)
  · obtain ⟨_, _, hgrow⟩ := hroom
    exact ps_overflows (by decide) hgrow (by decide) table

/-- One child in slot 0, of a parent in slot 1. -/
theorem ps_leaks_nothing_iff_one :
    ∃ s t u, Space (smallEnv 9) s (PHYSTOP - PGSIZE) t u [PHYSTOP - PGSIZE] ∧
      u.length = npages 4096 ∧
      LeaksNothing (smallEnv 9) t.pa 4096 0 1
        (fun _ => sampleProc .RUNNING 2 (some 1)) (fun _ => Bytes.zero) s := by
  obtain ⟨s, t, u, sz', s', hsp, hsz, _⟩ := exists_room
  refine ⟨s, t, u, hsp, hsz, ?_⟩
  rw [ps_leaks_nothing_iff smallEnv_nine hsp hsz]
  refine fun _ _ _ _ _ => ⟨by decide, fun p _ => ?_⟩
  exact Option.some_ne_none 1

/-- **`ps(0, 2)` shows the stack**: with `init` and its child in the table,
    `init`'s `parent_id` is what was on the kernel stack. -/
theorem ps_leaks_stack :
    ∃ s t u, Space (smallEnv 9) s (PHYSTOP - PGSIZE) t u [PHYSTOP - PGSIZE] ∧
      u.length = npages 4096 ∧
      ¬ LeaksNothing (smallEnv 9) t.pa 4096 0 2 (initAndChild 1) (fun _ => Bytes.zero) s := by
  obtain ⟨s, t, u, sz', s', hsp, hsz, hgrow, _⟩ := exists_room
  refine ⟨s, t, u, hsp, hsz, not_leaksNothing smallEnv_nine hsp hsz
    (by decide) ⟨sz', s', hgrow⟩ (by decide) (.inl (by decide)) fun hfront => ?_⟩
  exact hfront.2 0 (by decide) rfl

/-- A call that returns the old size. -/
theorem ps_fails_clean_iff_two :
    ∃ s t u, Space (smallEnv 9) s (PHYSTOP - PGSIZE) t u [PHYSTOP - PGSIZE] ∧
      u.length = npages 4096 ∧ FailsClean (smallEnv 9) t 4096 0 2 Bytes.zero s := by
  obtain ⟨s, t, u, _, _, hsp, hsz, _⟩ := exists_room
  exact ⟨s, t, u, hsp, hsz, (ps_fails_clean_iff smallEnv_nine hsp hsz
    Bytes.zero 0 2).1.mpr fun _ _ => ⟨rfl, fun _ => by decide⟩⟩

/-- **`ps(1, 2)` grows its caller**: it returns 0, and the caller has 72 bytes
    more. -/
theorem ps_fails_grown :
    ∃ s t u, Space (smallEnv 9) s (PHYSTOP - PGSIZE) t u [PHYSTOP - PGSIZE] ∧
      u.length = npages 4096 ∧
      ∃ s', ps (smallEnv 9) t.pa 4096 1 2 Bytes.zero s = .ok ((0, 4168), s') := by
  obtain ⟨s, t, u, sz', s', hsp, hsz, hgrow, _⟩ := exists_room
  refine ⟨s, t, u, hsp, hsz, s', ?_⟩
  obtain ⟨_, _, _, _, _, hrun, _, _, _, _, hres⟩ := growproc_grows
    smallEnv_nine hsp hsz (n := 72) (by decide) (by decide)
  obtain ⟨⟩ := hrun.symm.trans hgrow
  obtain ⟨hr, _⟩ | ⟨_, hsum, _⟩ := hres
  · cases hr
  · rw [ps_beyond (by decide) (by decide) hgrow, show sz' = 4168 by omega]

end Samples

end Xv6
