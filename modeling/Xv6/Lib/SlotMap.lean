import Mathlib.Data.List.Basic

/-!
# Tables of slots

A finite map kept in a table: a slot is free, or it holds a key with its value.
A lookup takes the first slot with the key, an insertion the first free slot or
a new one at the end, and a deletion frees the slot. As long as no key is in two
slots (`Uniq`), the table is a map (`get`), an insertion of a new key and a
deletion change it at that key only, and it does not matter which slot is taken.
-/

namespace Xv6.SlotMap

open Function List

variable {α β : Type}

/-- No key is in two slots. -/
def Uniq (t : List (Option (α × β))) : Prop :=
  ∀ (j k : Nat) (a : α) (b b' : β), t[j]? = some (some (a, b)) →
    t[k]? = some (some (a, b')) → j = k

/-- The first slot with the key, and the value in it. -/
def find [DecidableEq α] (a : α) : List (Option (α × β)) → Option (Nat × β)
  | [] => none
  | none :: t => (find a t).map fun p => (p.1 + 1, p.2)
  | some (a', b) :: t => if a' = a then some (0, b) else (find a t).map fun p => (p.1 + 1, p.2)

/-- The map. -/
def get [DecidableEq α] (t : List (Option (α × β))) (a : α) : Option β :=
  (find a t).map Prod.snd

/-- The first free slot, or the end. -/
def vacant : List (Option (α × β)) → Nat
  | [] => 0
  | none :: _ => 0
  | some _ :: t => vacant t + 1

/-- The table with another slot `k`, which may be the one after the last. -/
def put (t : List (Option (α × β))) (k : Nat) (e : Option (α × β)) : List (Option (α × β)) :=
  t.take k ++ e :: t.drop (k + 1)

/-! ## Free slots -/

theorem vacant_le (t : List (Option (α × β))) : vacant t ≤ t.length := by
  induction t with
  | nil => exact Nat.le_refl 0
  | cons e t ih =>
    cases e with
    | none => exact Nat.zero_le _
    | some p => exact Nat.succ_le_succ ih

theorem getElem?_vacant (t : List (Option (α × β))) :
    t[vacant t]? = some none ∨ vacant t = t.length ∧ ∀ e ∈ t, e ≠ none := by
  induction t with
  | nil => exact .inr ⟨rfl, nofun⟩
  | cons e t ih =>
    cases e with
    | none => exact .inl rfl
    | some p =>
      refine ih.imp id fun h => ⟨congrArg (· + 1) h.1, fun e he => ?_⟩
      rcases mem_cons.mp he with rfl | he
      · exact nofun
      · exact h.2 e he

theorem vacant_lt_iff (t : List (Option (α × β))) : vacant t < t.length ↔ none ∈ t := by
  constructor
  · intro h
    rcases getElem?_vacant t with hv | hv
    · exact mem_of_getElem? hv
    · omega
  · intro h
    by_contra hv
    rcases getElem?_vacant t with h1 | h1
    · rw [getElem?_eq_none (by omega)] at h1
      cases h1
    · exact h1.2 none h rfl

/-! ## Setting a slot -/

theorem getElem?_put {t : List (Option (α × β))} {k : Nat} (hk : k ≤ t.length)
    (e : Option (α × β)) (j : Nat) : (put t k e)[j]? = if j = k then some e else t[j]? := by
  have hlen : (t.take k).length = k := by
    rw [length_take]
    omega
  unfold put
  rcases Nat.lt_trichotomy j k with h | rfl | h
  · rw [if_neg (by omega), getElem?_append_left (by omega), getElem?_take_of_lt h]
  · rw [if_pos rfl, getElem?_append_right (by omega), hlen, Nat.sub_self]
    rfl
  · obtain ⟨i, rfl⟩ := Nat.exists_eq_add_of_lt h
    rw [if_neg (by omega), getElem?_append_right (by omega), hlen,
      show k + i + 1 - k = i + 1 by omega, getElem?_cons_succ, getElem?_drop,
      show k + 1 + i = k + i + 1 by omega]

/-- A table without free slots but at its end. -/
theorem Uniq.of_nodup {es : List (α × β)} (h : (es.map Prod.fst).Nodup) (n : Nat) :
    Uniq (es.map some ++ List.replicate n none) := by
  have hkey : ∀ {k : Nat} {a : α} {b : β},
      (es.map some ++ List.replicate n none)[k]? = some (some (a, b)) →
      k < (es.map Prod.fst).length ∧ (es.map Prod.fst)[k]? = some a := by
    intro k a b hk
    by_cases hlt : k < es.length
    · rw [getElem?_append_left (by rw [length_map]; exact hlt), getElem?_map] at hk
      obtain ⟨e, he, hsome⟩ := Option.map_eq_some_iff.mp hk
      refine ⟨by rw [length_map]; exact hlt, ?_⟩
      rw [getElem?_map, he, Option.some.inj hsome]
      rfl
    · rw [getElem?_append_right (by rw [length_map]; omega), getElem?_replicate] at hk
      split_ifs at hk
      cases hk
  intro j k a b b' hj hk
  exact (getElem?_inj (hkey hj).1 h).mp ((hkey hj).2.trans (hkey hk).2.symm)

/-! ## Lookups -/

section Get

variable [DecidableEq α] {t : List (Option (α × β))} {a : α} {b : β} {k : Nat}

theorem getElem?_of_find (h : find a t = some (k, b)) : t[k]? = some (some (a, b)) := by
  have hnext : ∀ {e : Option (α × β)} {t : List (Option (α × β))} {k : Nat},
      (∀ {k}, find a t = some (k, b) → t[k]? = some (some (a, b))) →
      ((find a t).map fun p => (p.1 + 1, p.2)) = some (k, b) →
      (e :: t)[k]? = some (some (a, b)) := by
    intro e t k ih h
    obtain ⟨⟨j, b'⟩, hj, heq⟩ := Option.map_eq_some_iff.mp h
    cases heq
    exact ih hj
  induction t generalizing k with
  | nil => cases h
  | cons e t ih =>
    cases e with
    | none => exact hnext ih h
    | some p =>
      rw [find] at h
      split_ifs at h with ha
      · cases h
        rw [← ha]
        rfl
      · exact hnext ih h

theorem find_eq_none : find a t = none ↔ ∀ (k : Nat) (b : β), t[k]? ≠ some (some (a, b)) := by
  constructor
  · intro h k b hk
    induction t generalizing k with
    | nil => cases hk
    | cons e t ih =>
      have htail : find a t = none → k ≠ 0 → False := by
        intro htail hk0
        obtain ⟨j, rfl⟩ := Nat.exists_eq_succ_of_ne_zero hk0
        exact ih htail j hk
      cases e with
      | none =>
        refine htail (Option.map_eq_none_iff.mp h) ?_
        rintro rfl
        cases hk
      | some p =>
        rw [find] at h
        split_ifs at h with ha
        refine htail (Option.map_eq_none_iff.mp h) ?_
        rintro rfl
        cases hk
        exact ha rfl
  · intro h
    cases hf : find a t with
    | none => rfl
    | some p => exact absurd (getElem?_of_find hf) (h p.1 p.2)

theorem get_eq_none : get t a = none ↔ ∀ (k : Nat) (b : β), t[k]? ≠ some (some (a, b)) :=
  Option.map_eq_none_iff.trans find_eq_none

theorem Uniq.find_iff (h : Uniq t) : find a t = some (k, b) ↔ t[k]? = some (some (a, b)) := by
  refine ⟨getElem?_of_find, fun hk => ?_⟩
  cases hf : find a t with
  | none => exact absurd hk (find_eq_none.mp hf k b)
  | some p =>
    have hp := getElem?_of_find hf
    have hj := h _ _ _ _ _ hp hk
    rw [← hj, hp] at hk
    cases hk
    rw [← hj]

theorem Uniq.get_iff (h : Uniq t) : get t a = some b ↔ ∃ k : Nat, t[k]? = some (some (a, b)) := by
  constructor
  · intro hg
    obtain ⟨⟨k, b'⟩, hf, rfl⟩ := Option.map_eq_some_iff.mp hg
    exact ⟨k, getElem?_of_find hf⟩
  · rintro ⟨k, hk⟩
    unfold get
    rw [h.find_iff.mpr hk]
    rfl

/-- **An insertion** of a new key, in a free slot or at the end. -/
theorem Uniq.insert (h : Uniq t) (hk : k ≤ t.length) (hfree : ∀ e, t[k]? ≠ some (some e))
    (hnew : get t a = none) (b : β) : Uniq (put t k (some (a, b))) ∧
      get (put t k (some (a, b))) = update (get t) a (some b) := by
  have hno := get_eq_none.mp hnew
  have hput := getElem?_put hk (some (a, b))
  have huniq : Uniq (put t k (some (a, b))) := by
    intro i j x y y' hi hj
    rw [hput] at hi hj
    split_ifs at hi hj with h1 h2 h2
    · rw [h1, h2]
    · cases hi
      exact absurd hj (hno _ _)
    · cases hj
      exact absurd hi (hno _ _)
    · exact h _ _ _ _ _ hi hj
  refine ⟨huniq, funext fun x => Option.ext fun y => ?_⟩
  rw [huniq.get_iff]
  by_cases hx : x = a
  · subst hx
    rw [update_self]
    constructor
    · rintro ⟨j, hj⟩
      rw [hput] at hj
      split_ifs at hj
      · cases hj
        rfl
      · exact absurd hj (hno _ _)
    · rintro ⟨⟩
      exact ⟨k, (hput k).trans (if_pos rfl)⟩
  · rw [update_of_ne hx, h.get_iff]
    refine exists_congr fun j => ?_
    rw [hput]
    split_ifs with hj
    · subst hj
      refine iff_of_false (fun he => ?_) (hfree _)
      cases he
      exact hx rfl
    · exact Iff.rfl

/-- **A deletion.** -/
theorem Uniq.delete (h : Uniq t) (hk : t[k]? = some (some (a, b))) : Uniq (put t k none) ∧
    get (put t k none) = update (get t) a none := by
  have hput := getElem?_put (Nat.le_of_lt (List.getElem?_eq_some_iff.mp hk).1) none
  have huniq : Uniq (put t k none) := by
    intro i j x y y' hi hj
    rw [hput] at hi hj
    split_ifs at hi hj
    · cases hi
    · cases hi
    · cases hj
    · exact h _ _ _ _ _ hi hj
  refine ⟨huniq, funext fun x => Option.ext fun y => ?_⟩
  rw [huniq.get_iff]
  by_cases hx : x = a
  · subst hx
    rw [update_self]
    refine iff_of_false ?_ nofun
    rintro ⟨j, hj⟩
    rw [hput] at hj
    split_ifs at hj with hjk
    · cases hj
    · exact hjk (h _ _ _ _ _ hj hk)
  · rw [update_of_ne hx, h.get_iff]
    refine exists_congr fun j => ?_
    rw [hput]
    split_ifs with hj
    · subst hj
      rw [hk]
      refine iff_of_false nofun fun he => ?_
      cases he
      exact hx rfl
    · exact Iff.rfl

end Get

end Xv6.SlotMap
