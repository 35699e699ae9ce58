import Mathlib.Data.List.TakeWhile
import Xv6.Fs.ByteArray
import Xv6.Lib.SlotMap

/-!
# Directory entries

A name in a buffer ends at its first 0 or after `DIRSIZ` bytes, and what is in
the buffer after that is left over from before. `strncmp` and `strncpy` do not
look at it, so a name may be taken as the list of its bytes. The contents of a
directory are a table of slots of `DESIZE` bytes: a slot whose inode number is 0
is free, any other one binds a name to a number.
-/

namespace Xv6
namespace Fs

open Function List Bytes

/-! ## Names -/

/-- The string in the `n` bytes from `o` on: those before the first 0. -/
def cstr (b : Bytes) (o n : Nat) : Name := (b.slice o n).takeWhile (· != 0)

theorem slice_succ (b : Bytes) (o n : Nat) : b.slice o (n + 1) = b o :: b.slice (o + 1) n := by
  unfold Bytes.slice
  rw [range_succ_eq_map, map_cons, map_map]
  congr 1
  refine map_congr_left fun j _ => congrArg b ?_
  omega

variable {b : Bytes} {bs c : List UInt8} {name : Name} {o : Nat}

theorem cstr_stop (h : b o = 0) (n : Nat) : cstr b o n = [] := by
  cases n with
  | zero => rfl
  | succ n =>
    unfold cstr
    rw [slice_succ, takeWhile_cons_of_neg (by simp [h])]

theorem cstr_cons (h : b o ≠ 0) (n : Nat) : cstr b o (n + 1) = b o :: cstr b (o + 1) n := by
  unfold cstr
  rw [slice_succ, takeWhile_cons_of_pos (by simp [h])]

theorem cstr_congr {b' : Bytes} {o' n : Nat} (h : ∀ j < n, b (o + j) = b' (o' + j)) :
    cstr b o n = cstr b' o' n := by
  unfold cstr Bytes.slice
  rw [map_congr_left fun j hj => h j (mem_range.mp hj)]

theorem ofList_cons_succ (x : UInt8) (l : List UInt8) (a : Nat) :
    Bytes.ofList (x :: l) (a + 1) = Bytes.ofList l a := by
  simp [Bytes.ofList]

theorem cstr_ofList (h : 0 ∉ name) (n : Nat) : cstr (Bytes.ofList name) 0 n = name.take n := by
  induction n generalizing name with
  | zero => rfl
  | succ n ih =>
    cases name with
    | nil => exact cstr_stop rfl _
    | cons x l =>
      have hx : Bytes.ofList (x :: l) 0 ≠ 0 := fun hx => h (hx ▸ mem_cons_self)
      rw [cstr_cons hx, take_succ_cons, ← ih fun hl => h (mem_cons_of_mem _ hl)]
      refine congrArg (x :: ·) (cstr_congr fun j _ => ?_)
      rw [Nat.zero_add, Nat.zero_add, Nat.add_comm, ofList_cons_succ]

/-- **`strncmp`** compares the strings in two buffers. -/
theorem strncmp_eq_zero (p q : Bytes) (n i : Nat) :
    strncmp p q n i = 0 ↔ cstr p i n = cstr q i n := by
  induction n generalizing i with
  | zero => exact iff_of_true rfl rfl
  | succ n ih =>
    rw [strncmp]
    by_cases hp : p i = 0
    · rw [if_neg fun h => h.1 hp, cstr_stop hp, hp]
      by_cases hq : q i = 0
      · rw [hq, cstr_stop hq]
        exact iff_of_true rfl rfl
      · rw [cstr_cons hq]
        refine iff_of_false (fun h => hq (UInt8.toNat_inj.mp ?_)) nofun
        have h0 : (0 : UInt8).toNat = 0 := rfl
        rw [h0] at h ⊢
        omega
    · by_cases hpq : p i = q i
      · rw [if_pos ⟨hp, hpq⟩, ih, cstr_cons hp, cstr_cons (hpq ▸ hp), hpq, cons_inj_right]
      · rw [if_neg fun h => hpq h.2, cstr_cons hp]
        refine iff_of_false (fun h => hpq (UInt8.toNat_inj.mp (by omega))) fun h => ?_
        by_cases hq : q i = 0
        · rw [cstr_stop hq] at h
          cases h
        · rw [cstr_cons hq] at h
          exact hpq (List.cons.inj h).1

theorem namecmp_eq_zero (h : 0 ∉ name) (de : Bytes) (o : Nat) :
    namecmp name de o = 0 ↔ deName de o = name.take DIRSIZ := by
  have hde : cstr (fun i => de (o + 2 + i)) 0 DIRSIZ = deName de o :=
    cstr_congr fun j _ => by rw [Nat.zero_add]
  unfold namecmp
  rw [strncmp_eq_zero, cstr_ofList h, hde, eq_comm]

/-- `strncpy(s + o, t, n)`, from position `i` on. -/
def strncpy (s : Bytes) (o : Nat) (t : Bytes) : Nat → Nat → Bytes
  | 0, _ => s
  | n + 1, i =>
    if t i ≠ 0 then strncpy (update s (o + i) (t i)) o t n (i + 1)
    else s.fill (o + i) (n + 1) 0

theorem strncpy_apply (s : Bytes) (o : Nat) (t : Bytes) (n i a : Nat) :
    strncpy s o t n i a = if o + i ≤ a ∧ a < o + i + n then
      Bytes.ofList (cstr t i n) (a - (o + i)) else s a := by
  induction n generalizing s i with
  | zero => exact (if_neg (by omega)).symm
  | succ n ih =>
    rw [strncpy]
    by_cases ht : t i = 0
    · rw [if_neg (not_not_intro ht), cstr_stop ht]
      by_cases ha : o + i ≤ a ∧ a < o + i + (n + 1)
      · rw [if_pos ha, fill_inside ha.1 ha.2]
        rfl
      · rw [if_neg ha, fill_outside (by omega)]
    · rw [if_pos ht, ih, cstr_cons ht]
      by_cases ha : a = o + i
      · rw [if_neg (by omega), if_pos (by omega), ha, update_self, Nat.sub_self]
        rfl
      · rw [update_of_ne ha]
        by_cases hin : o + (i + 1) ≤ a ∧ a < o + (i + 1) + n
        · rw [if_pos hin, if_pos (by omega), show a - (o + i) = a - (o + (i + 1)) + 1 by omega,
            ofList_cons_succ]
        · rw [if_neg hin, if_neg (by omega)]

/-! ## Entries -/

theorem deInum_mkDirent (name : Name) {inum : Nat} (h : inum < 2 ^ 16) :
    deInum (mkDirent name inum) 0 = inum := by
  unfold deInum mkDirent
  rw [getLE_setLE_same]
  exact Nat.mod_eq_of_lt h

theorem deName_mkDirent (h : 0 ∉ name) (inum : Nat) :
    deName (mkDirent name inum) 0 = name.take DIRSIZ := by
  rw [← cstr_ofList h]
  refine cstr_congr fun j hj => ?_
  unfold mkDirent
  rw [setLE_outside (by omega), blit_inside (by omega) (by omega)]
  congr 1
  omega

/-- **Leftovers do not matter.** `namecmp` on a buffer and an entry finds out
    whether the names in them are the same, and the entry that `dirlink` makes
    with `strncpy` in its own buffer, whatever was in that, is `mkDirent`. -/
theorem names_in_buffers (buf de : Bytes) (inum : Nat) :
    (∀ o, strncmp buf (fun i => de (o + 2 + i)) DIRSIZ 0 = 0 ↔
      cstr buf 0 DIRSIZ = deName de o) ∧
    ∀ a < DESIZE, (strncpy de 2 buf DIRSIZ 0).setLE 0 2 inum a =
      mkDirent (cstr buf 0 DIRSIZ) inum a := by
  refine ⟨fun o => ?_, fun a ha => ?_⟩
  · have hde : cstr (fun i => de (o + 2 + i)) 0 DIRSIZ = deName de o :=
      cstr_congr fun j _ => by rw [Nat.zero_add]
    rw [strncmp_eq_zero, hde]
  · unfold mkDirent
    by_cases h2 : a < 2
    · unfold Bytes.setLE
      rw [if_pos (by omega), if_pos (by omega)]
    · have hin : a < 2 + DIRSIZ := ha
      rw [setLE_outside (by omega), setLE_outside (by omega), strncpy_apply,
        if_pos (by omega), blit_inside (by omega) (by omega), Nat.zero_add]

/-- The slot at `o`: free, or a name with its inode number. -/
def slotAt (b : Bytes) (o : Nat) : Option (Name × Nat) :=
  if deInum b o = 0 then none else some (deName b o, deInum b o)

theorem slotAt_congr {b' : Bytes} {o' : Nat} (h : ∀ j < DESIZE, b (o + j) = b' (o' + j)) :
    slotAt b o = slotAt b' o' := by
  have hinum : deInum b o = deInum b' o' := by
    have h0 := h 0 (by decide)
    have h1 := h 1 (by decide)
    unfold deInum
    simp only [Bytes.getLE]
    rw [show b o = b' o' from h0, h1]
  have hname : deName b o = deName b' o' := cstr_congr fun j hj => by
    have hin : 2 + j < DESIZE := Nat.add_lt_add_left hj 2
    rw [Nat.add_assoc, Nat.add_assoc]
    exact h (2 + j) hin
  unfold slotAt
  rw [hinum, hname]

theorem slotAt_mkDirent (h : 0 ∉ name) {inum : Nat} (h0 : inum ≠ 0)
    (hlt : inum < 2 ^ 16) : slotAt (mkDirent name inum) 0 = some (name.take DIRSIZ, inum) := by
  unfold slotAt
  rw [deInum_mkDirent name hlt, deName_mkDirent h, if_neg h0]

theorem slotAt_zero (o : Nat) : slotAt Bytes.zero o = none := by
  unfold slotAt deInum
  rw [getLE_zero]
  rfl

/-! ## The table -/

/-- The slots of a directory with the given contents. -/
def dirSlots (c : List UInt8) : List (Option (Name × Nat)) :=
  (List.range (c.length / DESIZE)).map fun k => slotAt (Bytes.ofList c) (DESIZE * k)

@[simp] theorem length_dirSlots (c : List UInt8) : (dirSlots c).length = c.length / DESIZE := by
  simp [dirSlots]

theorem getElem?_dirSlots {k : Nat} (h : k < c.length / DESIZE) :
    (dirSlots c)[k]? = some (slotAt (Bytes.ofList c) (DESIZE * k)) := by
  unfold dirSlots
  rw [getElem?_map, getElem?_range h]
  rfl

theorem ofList_splice {off : Nat} (h : off ≤ c.length) (a : Nat) :
    Bytes.ofList (splice c off bs) a =
      if off ≤ a ∧ a < off + bs.length then Bytes.ofList bs (a - off) else Bytes.ofList c a := by
  have hlen : (c.take off).length = off := by
    rw [length_take]
    omega
  have hlen' : (c.take off ++ bs).length = off + bs.length := by
    rw [length_append, hlen]
  unfold Bytes.ofList splice
  simp only [getD_eq_getElem?_getD]
  by_cases h1 : a < off
  · rw [if_neg (by omega), getElem?_append_left (by omega),
      getElem?_append_left (by omega), getElem?_take_of_lt h1]
  · by_cases h2 : a < off + bs.length
    · rw [if_pos (by omega), getElem?_append_left (by omega),
        getElem?_append_right (by omega), hlen]
    · rw [if_neg (by omega), getElem?_append_right (by omega), getElem?_drop, hlen']
      congr 2
      omega

theorem length_splice {off : Nat} (h : off ≤ c.length) :
    (splice c off bs).length = max c.length (off + bs.length) := by
  unfold splice
  rw [length_append, length_append, length_take, length_drop]
  omega

/-- **Writing an entry is setting a slot.** -/
theorem dirSlots_splice {k : Nat} (hc : c.length % DESIZE = 0)
    (hk : DESIZE * k ≤ c.length) (hbs : bs.length = DESIZE) :
    dirSlots (splice c (DESIZE * k) bs) =
      SlotMap.put (dirSlots c) k (slotAt (Bytes.ofList bs) 0) := by
  have hk' : k ≤ (dirSlots c).length := by
    rw [length_dirSlots]
    simp only [DESIZE] at *
    omega
  have hlen : (splice c (DESIZE * k) bs).length / DESIZE = max (c.length / DESIZE) (k + 1) := by
    rw [length_splice hk, hbs]
    simp only [DESIZE] at *
    omega
  apply ext_getElem?
  intro j
  rw [SlotMap.getElem?_put hk']
  by_cases hj : j < max (c.length / DESIZE) (k + 1)
  · rw [getElem?_dirSlots (by rw [hlen]; exact hj)]
    by_cases hjk : j = k
    · rw [if_pos hjk, hjk]
      refine congrArg some (slotAt_congr fun a ha => ?_)
      rw [ofList_splice hk, if_pos (by omega)]
      congr 1
      omega
    · have hold : j < c.length / DESIZE := by
        rw [length_dirSlots] at hk'
        omega
      rw [if_neg hjk, getElem?_dirSlots hold]
      refine congrArg some (slotAt_congr fun a ha => ?_)
      rw [ofList_splice hk, if_neg]
      simp only [DESIZE] at *
      omega
  · rw [if_neg (by omega), getElem?_eq_none (by rw [length_dirSlots, hlen]; omega),
      getElem?_eq_none (by rw [length_dirSlots]; omega)]

theorem holds_slice (b : Bytes) (n : Nat) : Holds (.kernel b) (b.slice 0 n) := by
  intro a ha
  show some (b a) = some (b.slice 0 n)[a]
  simp [Bytes.slice]

theorem ofList_slice {n a : Nat} (h : a < n) : Bytes.ofList (b.slice 0 n) a = b a := by
  unfold Bytes.ofList Bytes.slice
  rw [getD_eq_getElem?_getD, getElem?_map, getElem?_range h, Option.map_some,
    Nat.zero_add]
  rfl

end Fs
end Xv6
