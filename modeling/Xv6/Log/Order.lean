import Xv6.Log.Commit

/-!
# The order of `commit()`'s steps

A program that is run one step at a time is known by what is left of it. Two
things about what is left are enough for every argument about `commit()` among
other processes, and both pass from a list to its tail: every step in it is one
that `commit()` has (`Shape`), and no step stands after one that must come later
(`Before`).
-/

namespace Xv6
namespace Log

open List Nat

/-- The steps of `commit()` that matter, for a header that lists `bs`. -/
def Shape (start : Nat) (bs : List Nat) : Instr → Prop
  | .copyWrite src dst => ∃ j b, bs[j]? = some b ∧
      ((src = b ∧ dst = start + j + 1) ∨ (src = start + j + 1 ∧ dst = b))
  | .headWrite b => b = start
  | .bunpin b => b ∈ bs
  | _ => True

/-- What may stand after what: no write to the log area after a copy out of it,
    nothing about a block after its `bunpin`, and neither copies nor `bunpin`s
    once the header is cleared. -/
def Before (start size : Nat) : Instr → Instr → Prop
  | .copyWrite src _, .copyWrite _ dst => InLog start size src → ¬ InLog start size dst
  | .bunpin b, .copyWrite _ dst => dst ≠ b
  | .bunpin b, .bunpin b' => b ≠ b'
  | .clear, .copyWrite _ _ => False
  | .clear, .bunpin _ => False
  | _, _ => True

/-! ## Which steps a program has -/

attribute [local simp] writeLogAt bread brelse installAt writeHead mem_loopFrom

section Mem

variable {start : Nat} {bs : List Nat} {src dst b : Nat}

theorem copyWrite_mem_writeLog : .copyWrite src dst ∈ writeLog start bs ↔
    ∃ (j : Nat) (h : j < bs.length), src = bs[j] ∧ dst = start + j + 1 := by
  simp [writeLog]

theorem copyWrite_mem_installTrans : .copyWrite src dst ∈ installTrans start false bs ↔
    ∃ (j : Nat) (h : j < bs.length), src = start + j + 1 ∧ dst = bs[j] := by
  simp [installTrans]

theorem bunpin_mem_installTrans : .bunpin b ∈ installTrans start false bs ↔ b ∈ bs := by
  have : .bunpin b ∈ installTrans start false bs ↔ ∃ (j : Nat) (h : j < bs.length), b = bs[j] := by
    simp [installTrans]
  rw [this, mem_iff_getElem]
  simp only [eq_comm]

theorem bunpin_not_mem_writeLog : .bunpin b ∉ writeLog start bs := by
  simp [writeLog]

theorem clear_not_mem_writeLog : .clear ∉ writeLog start bs := by
  simp [writeLog]

theorem headWrite_not_mem_writeLog : .headWrite b ∉ writeLog start bs := by
  simp [writeLog]

theorem headWrite_not_mem_installTrans : .headWrite b ∉ installTrans start false bs := by
  simp [installTrans]

theorem mem_commitProg {i : Instr} : i ∈ commitProg start bs ↔ bs ≠ [] ∧
    (i ∈ writeLog start bs ∨ i ∈ writeHead start ∨ i ∈ installTrans start false bs ∨
      i = .clear) := by
  unfold commitProg
  split
  · simp [*]
  · rename_i h
    simp only [mem_append, mem_singleton, h, ne_eq, not_false_iff, true_and]
    tauto

/-- Every block the header lists is copied to the log, copied home, and
    unpinned. -/
theorem commitProg_block {j : Nat} (hb : bs[j]? = some b) :
    .copyWrite b (start + j + 1) ∈ commitProg start bs ∧
      .copyWrite (start + j + 1) b ∈ commitProg start bs ∧ .bunpin b ∈ commitProg start bs := by
  obtain ⟨hj, rfl⟩ := List.getElem?_eq_some_iff.mp hb
  have hne : bs ≠ [] := by rintro rfl; cases hj
  refine ⟨mem_commitProg.mpr ⟨hne, .inl ?_⟩, mem_commitProg.mpr ⟨hne, .inr (.inr (.inl ?_))⟩,
    mem_commitProg.mpr ⟨hne, .inr (.inr (.inl ?_))⟩⟩
  · exact copyWrite_mem_writeLog.mpr ⟨j, hj, rfl, rfl⟩
  · exact copyWrite_mem_installTrans.mpr ⟨j, hj, rfl, rfl⟩
  · exact bunpin_mem_installTrans.mpr (getElem_mem hj)

theorem commitProg_shape : ∀ i ∈ commitProg start bs, Shape start bs i := by
  intro i hi
  obtain ⟨_, hi⟩ := mem_commitProg.mp hi
  cases i with
  | copyWrite src dst =>
    rcases hi with hi | hi | hi | hi
    · obtain ⟨j, hj, hs⟩ := copyWrite_mem_writeLog.mp hi
      exact ⟨j, _, getElem?_eq_getElem hj, .inl hs⟩
    · simp at hi
    · obtain ⟨j, hj, hs⟩ := copyWrite_mem_installTrans.mp hi
      exact ⟨j, _, getElem?_eq_getElem hj, .inr hs⟩
    · cases hi
  | headWrite b =>
    rcases hi with hi | hi | hi | hi
    · exact absurd hi headWrite_not_mem_writeLog
    · simp only [writeHead, bread, brelse, cons_append, nil_append, mem_cons,
        not_mem_nil, or_false, reduceCtorEq, false_or, Instr.headWrite.injEq] at hi
      exact hi
    · exact absurd hi headWrite_not_mem_installTrans
    · cases hi
  | bunpin b =>
    rcases hi with hi | hi | hi | hi
    · exact absurd hi bunpin_not_mem_writeLog
    · simp at hi
    · exact bunpin_mem_installTrans.mp hi
    · cases hi
  | bget | lock | unlock | put | clear => trivial

end Mem

/-! ## Their order -/

theorem pairwise_loopFrom {R : Instr → Instr → Prop} {body : Nat → Nat → List Instr}
    (hbody : ∀ t b, (body t b).Pairwise R) {tail : Nat} {bs : List Nat}
    (hcross : ∀ (i j : Nat) (hi : i < bs.length) (hj : j < bs.length), i < j →
      ∀ x ∈ body (tail + i) bs[i], ∀ y ∈ body (tail + j) bs[j], R x y) :
    (loopFrom body tail bs).Pairwise R := by
  induction bs generalizing tail with
  | nil => exact List.Pairwise.nil
  | cons b bs ih =>
    refine pairwise_append.mpr ⟨hbody tail b, ih fun i j hi hj hij => ?_, ?_⟩
    · have := hcross (i + 1) (j + 1) (succ_lt_succ hi) (succ_lt_succ hj) (by omega)
      rw [show tail + 1 + i = tail + (i + 1) by omega, show tail + 1 + j = tail + (j + 1) by omega]
      exact this
    · intro x hx y hy
      obtain ⟨j, hj, hy⟩ := mem_loopFrom.mp hy
      rw [show tail + 1 + j = tail + (j + 1) by omega] at hy
      exact hcross 0 (j + 1) (succ_pos _) (succ_lt_succ hj) (by omega) x hx y hy

section Order

variable {start size : Nat} {bs : List Nat}

/-- Before a step that is neither a copy, nor a `bunpin`, anything may stand. -/
theorem before_of_plain {x y : Instr} (hc : ∀ src dst, y ≠ .copyWrite src dst)
    (hu : ∀ b, y ≠ .bunpin b) : Before start size x y := by
  cases y with
  | copyWrite src dst => exact absurd rfl (hc src dst)
  | bunpin b => exact absurd rfl (hu b)
  | _ => cases x <;> trivial

theorem before_installTrans (hout : ∀ b ∈ bs, ¬ InLog start size b) {x y : Instr}
    (hx : (∀ b, x ≠ .bunpin b) ∧ x ≠ .clear) (hy : y ∈ installTrans start false bs) :
    Before start size x y := by
  cases y with
  | copyWrite src dst =>
    obtain ⟨j, hj, _, rfl⟩ := copyWrite_mem_installTrans.mp hy
    cases x with
    | copyWrite _ _ => exact fun _ => hout _ (getElem_mem hj)
    | bunpin b => exact absurd rfl (hx.1 b)
    | clear => exact absurd rfl hx.2
    | _ => trivial
  | bunpin b =>
    cases x with
    | bunpin b' => exact absurd rfl (hx.1 b')
    | clear => exact absurd rfl hx.2
    | _ => trivial
  | _ => cases x <;> trivial

theorem writeLog_order (hout : ∀ b ∈ bs, ¬ InLog start size b) :
    (writeLog start bs).Pairwise (Before start size) := by
  refine pairwise_of_forall_mem_list fun x hx y hy => ?_
  cases x with
  | copyWrite src dst =>
    obtain ⟨j, hj, rfl, _⟩ := copyWrite_mem_writeLog.mp hx
    cases y with
    | copyWrite _ _ => exact fun hin => absurd hin (hout _ (getElem_mem hj))
    | _ => trivial
  | bunpin b => exact absurd hx bunpin_not_mem_writeLog
  | clear => exact absurd hx clear_not_mem_writeLog
  | _ => cases y <;> trivial

theorem installTrans_order (hnd : bs.Nodup) (hout : ∀ b ∈ bs, ¬ InLog start size b) :
    (installTrans start false bs).Pairwise (Before start size) := by
  refine pairwise_loopFrom (fun t b => by simp [Before]) ?_
  intro i j hi hj hij x hx y hy
  have hne : bs[j] ≠ bs[i] := fun e => by
    have := (hnd.getElem_inj_iff).mp e
    omega
  cases y with
  | copyWrite src dst =>
    have hd : dst = bs[j] := by
      simp at hy
      exact hy.2
    subst hd
    cases x with
    | copyWrite _ _ => exact fun _ => hout _ (getElem_mem hj)
    | bunpin b =>
      have hb : b = bs[i] := by simpa using hx
      exact hb ▸ hne
    | clear => simp at hx
    | _ => trivial
  | bunpin b' =>
    have hb' : b' = bs[j] := by simpa using hy
    cases x with
    | bunpin b =>
      have hb : b = bs[i] := by simpa using hx
      exact fun e => hne (hb'.symm.trans (e.symm.trans hb))
    | clear => simp at hx
    | _ => trivial
  | _ => cases x <;> trivial

/-- **The steps of `commit()` are in order.** -/
theorem commitProg_order (hnd : bs.Nodup) (hout : ∀ b ∈ bs, ¬ InLog start size b) :
    (commitProg start bs).Pairwise (Before start size) := by
  have hhead : ∀ x, ∀ y ∈ writeHead start, Before start size x y := fun x y hy =>
    before_of_plain (fun _ _ e => by simp [e] at hy)
      (fun _ e => by simp [e] at hy)
  have hheads : (writeHead start).Pairwise (Before start size) :=
    pairwise_of_forall_mem_list fun x _ y hy => hhead x y hy
  unfold commitProg
  split
  · exact List.Pairwise.nil
  refine pairwise_append.mpr ⟨?_, hheads, fun x _ y hy => hhead x y hy⟩
  refine pairwise_append.mpr ⟨?_, pairwise_singleton _ _, fun x _ y hy => ?_⟩
  · refine pairwise_append.mpr ⟨?_, installTrans_order hnd hout, fun x hx y hy => ?_⟩
    · exact pairwise_append.mpr ⟨writeLog_order hout, hheads, fun x _ y hy => hhead x y hy⟩
    · refine before_installTrans hout ⟨?_, ?_⟩ hy
      · rintro b rfl
        rcases mem_append.mp hx with hx | hx
        · exact bunpin_not_mem_writeLog hx
        · simp at hx
      · rintro rfl
        rcases mem_append.mp hx with hx | hx
        · exact clear_not_mem_writeLog hx
        · simp at hx
  · rw [mem_singleton.mp hy]
    exact before_of_plain (fun _ _ => nofun) (fun _ => nofun)

end Order

end Log
end Xv6
