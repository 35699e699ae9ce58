import Mathlib.Data.List.TakeWhile
import Mathlib.Data.List.Forall2

/-!
# `grep`

`user/grep.c`: the matcher, and the loop that takes lines out of a buffer. A C
string is the list of its bytes without the NUL, and a pointer into it is the
rest of the string.

`matchhere` and `matchstar` walk down the pattern and the text, and the pattern
is never put into another form. What it means is said apart from that: a pattern
is a list of items, and a text matches if it is a concatenation of what the
items read.

The two recurse down the pattern, with a frame or two for each item of it. The
stack of the process is assumed to suffice for that, as in `User.Grammar`.
-/

namespace Xv6
namespace Grep

open List Bool

/-! ## The matcher -/

/-- `matchstar(c, re, text)`, where `here` is `matchhere(re, ·)` -/
def matchstar (c : UInt8) (here : List UInt8 → Bool) : List UInt8 → Bool
  | [] => here []
  | a :: text => here (a :: text) || ((a == c || c == 46) && matchstar c here text)

/-- `matchhere(re, text)`, with 42 for `*`, 36 for `$` and 46 for `.` -/
def matchhere : List UInt8 → List UInt8 → Bool
  | [], _ => true
  | x :: 42 :: re, text => matchstar x (fun text => matchhere re text) text
  | [36], text => text.isEmpty
  | x :: re, a :: text => (x == 46 || x == a) && matchhere re text
  | _ :: _, [] => false

/-- The loop of `match` over the starts of the text; the empty text is one,
    too. -/
def matchFrom (re : List UInt8) : List UInt8 → Bool
  | [] => matchhere re []
  | a :: text => matchhere re (a :: text) || matchFrom re text

/-- `match(re, text)`, with 94 for `^` -/
def matchText : List UInt8 → List UInt8 → Bool
  | 94 :: re, text => matchhere re text
  | re, text => matchFrom re text

/-! ## What a pattern means -/

inductive Item where
  /-- `x*` -/
  | star (x : UInt8)
  | one (x : UInt8)

/-- `.` stands for any character, and the others for themselves. -/
def Stands (x c : UInt8) : Prop := x = 46 ∨ x = c

def Item.Reads : Item → List UInt8 → Prop
  | star x, s => ∀ c ∈ s, Stands x c
  | one x, s => ∃ c, s = [c] ∧ Stands x c

structure Pattern where
  caret : Bool
  items : List Item
  dollar : Bool

/-- The items of a pattern without its `^`, and whether a `$` ends it. -/
def readItems : List UInt8 → List Item × Bool
  | [] => ([], false)
  | x :: 42 :: re => (.star x :: (readItems re).1, (readItems re).2)
  | [36] => ([], true)
  | x :: re => (.one x :: (readItems re).1, (readItems re).2)

def readPattern : List UInt8 → Pattern
  | 94 :: re => ⟨true, (readItems re).1, (readItems re).2⟩
  | re => ⟨false, (readItems re).1, (readItems re).2⟩

/-- Part of the text, at its start after a `^` and at its end before a `$`, is
    what the items read one after the other. -/
def Pattern.Matches (p : Pattern) (text : List UInt8) : Prop :=
  ∃ before parts after, text = before ++ parts.flatten ++ after ∧ Forall₂ Item.Reads p.items parts ∧
    (p.caret = true → before = []) ∧ (p.dollar = true → after = [])

variable {c : UInt8} {re text line : List UInt8}

theorem matchstar_iff {here : List UInt8 → Bool} : matchstar c here text = true ↔
      ∃ run rest, text = run ++ rest ∧ (Item.star c).Reads run ∧ here rest = true := by
  induction text with
  | nil => simp [matchstar, Item.Reads]
  | cons a text ih =>
    have hstands : (a == c || c == 46) = true ↔ Stands c a := by
      simp only [or_eq_true, beq_iff_eq, Stands]
      exact or_comm.trans (or_congr_right eq_comm)
    simp only [matchstar, or_eq_true (here _), and_eq_true, ih, hstands]
    constructor
    · rintro (h | ⟨ha, run, rest, rfl, hrun, h⟩)
      · exact ⟨[], a :: text, rfl, nofun, h⟩
      · exact ⟨a :: run, rest, rfl, forall_mem_cons.mpr ⟨ha, hrun⟩, h⟩
    · rintro ⟨run, rest, heq, hrun, h⟩
      cases run with
      | nil => exact .inl (heq ▸ h)
      | cons b run =>
        obtain ⟨rfl, rfl⟩ := cons.inj heq
        obtain ⟨hb, hrun⟩ := forall_mem_cons.mp hrun
        exact .inr ⟨hb, run, rest, rfl, hrun, h⟩

theorem readItems_one {x : UInt8} (hstar : ∀ re', re = 42 :: re' → False)
    (hdollar : x = 36 → re = [] → False) :
    readItems (x :: re) = (.one x :: (readItems re).1, (readItems re).2) := by
  rw [readItems]
  · exact hstar
  · exact hdollar

/-- **`matchhere`** finds the items at the start of the text. -/
theorem matchhere_iff (re text : List UInt8) :
    matchhere re text = true ↔ ∃ parts after, text = parts.flatten ++ after ∧
      Forall₂ Item.Reads (readItems re).1 parts ∧ ((readItems re).2 = true → after = []) := by
  fun_induction matchhere re text with
  | case1 text => simp [readItems]
  | case2 x re text ih =>
    simp only [matchstar_iff, ih, readItems, forall₂_cons_left_iff]
    constructor
    · rintro ⟨run, _, rfl, hrun, parts, after, rfl, hparts, hend⟩
      exact ⟨run :: parts, after, by simp, ⟨run, parts, hrun, hparts, rfl⟩, hend⟩
    · rintro ⟨_, after, rfl, ⟨run, parts, hrun, hparts, rfl⟩, hend⟩
      exact ⟨run, _, by simp, hrun, parts, after, rfl, hparts, hend⟩
  | case3 text =>
    simp only [readItems, forall₂_nil_left_iff, List.isEmpty_iff]
    constructor
    · rintro rfl
      exact ⟨[], [], rfl, rfl, fun _ => rfl⟩
    · rintro ⟨_, after, rfl, rfl, hend⟩
      exact hend trivial
  | case4 x re a text hstar hdollar ih =>
    simp only [and_eq_true, or_eq_true, beq_iff_eq, ih, readItems_one hstar hdollar,
      forall₂_cons_left_iff]
    constructor
    · rintro ⟨ha, parts, after, rfl, hparts, hend⟩
      exact ⟨[a] :: parts, after, rfl, ⟨[a], parts, ⟨a, rfl, ha⟩, hparts, rfl⟩, hend⟩
    · rintro ⟨_, after, heq, ⟨_, parts, ⟨c, rfl, hc⟩, hparts, rfl⟩, hend⟩
      obtain ⟨rfl, rfl⟩ := cons.inj heq
      exact ⟨hc, parts, after, rfl, hparts, hend⟩
  | case5 x re hstar hdollar =>
    refine iff_of_false nofun ?_
    simp only [readItems_one hstar hdollar, forall₂_cons_left_iff]
    rintro ⟨_, after, heq, ⟨_, parts, ⟨c, rfl, _⟩, _, rfl⟩, _⟩
    cases heq

theorem matchFrom_iff :
    matchFrom re text = true ↔ ∃ before rest, text = before ++ rest ∧ matchhere re rest = true := by
  induction text with
  | nil => simp [matchFrom]
  | cons a text ih =>
    rw [matchFrom, or_eq_true, ih]
    constructor
    · rintro (h | ⟨before, rest, rfl, h⟩)
      · exact ⟨[], _, rfl, h⟩
      · exact ⟨a :: before, rest, rfl, h⟩
    · rintro ⟨before, rest, heq, h⟩
      cases before with
      | nil => exact .inl (heq ▸ h)
      | cons b before =>
        obtain ⟨rfl, rfl⟩ := cons.inj heq
        exact .inr ⟨before, rest, rfl, h⟩

/-- **The matcher decides its pattern language.** -/
theorem matchText_iff (re text : List UInt8) :
    matchText re text = true ↔ (readPattern re).Matches text := by
  unfold matchText readPattern Pattern.Matches
  split
  · rename_i re text
    rw [matchhere_iff]
    constructor
    · rintro ⟨parts, after, rfl, hparts, hend⟩
      exact ⟨[], parts, after, rfl, hparts, fun _ => rfl, hend⟩
    · rintro ⟨before, parts, after, rfl, hparts, hstart, hend⟩
      exact ⟨parts, after, by rw [hstart rfl]; rfl, hparts, hend⟩
  · rename_i re text _
    simp only [matchFrom_iff, matchhere_iff]
    constructor
    · rintro ⟨before, _, rfl, parts, after, rfl, hparts, hend⟩
      exact ⟨before, parts, after, (append_assoc ..).symm, hparts, nofun, hend⟩
    · rintro ⟨before, parts, after, rfl, hparts, _, hend⟩
      exact ⟨before, _, append_assoc .., parts, after, rfl, hparts, hend⟩

/-! ## The lines -/

/-- `strchr(s, c)`, as an offset -/
def strchr (c : UInt8) : List UInt8 → Option Nat
  | [] => none
  | a :: s => if a = 0 then none else if a = c then some 0 else (strchr c s).map (· + 1)

theorem strchr_lt {q : Nat} (h : strchr c text = some q) : q < text.length := by
  induction text generalizing q with
  | nil => cases h
  | cons a s ih =>
    unfold strchr at h
    split_ifs at h
    · cases h
      exact Nat.succ_pos _
    · obtain ⟨q, hq, rfl⟩ := Option.map_eq_some_iff.mp h
      exact Nat.succ_lt_succ (ih hq)

/-- The loop over the lines in the buffer, from `p` to `buf + m`: what is
    written, and what is left from `p` on. -/
def scan (pattern p : List UInt8) : List UInt8 × List UInt8 :=
  match _h : strchr 10 p with
  | none => ([], p)
  | some q =>
    let r := scan pattern (p.drop (q + 1))
    ((if matchText pattern (p.take q) then p.take (q + 1) else []) ++ r.1, r.2)
termination_by p.length
decreasing_by
  have := strchr_lt _h
  rw [length_drop]
  omega

/-- `sizeof(buf)` -/
def BUFSIZE : Nat := 1024

/-- The loop of `grep` from its `i`-th `read` on, with the bytes `held` in the
    buffer and `input` still to be read. A `read` returns as many bytes as it
    likes, but at least one if there is one and room for it. -/
def grepFrom (pattern : List UInt8) (cuts : Nat → Nat) (i : Nat) (held input : List UInt8) :
    List UInt8 :=
  let n := min (cuts i + 1) (min (BUFSIZE - held.length - 1) input.length)
  if 0 < n then
    let r := scan pattern (held ++ input.take n)
    r.1 ++ grepFrom pattern cuts (i + 1) r.2 (input.drop n)
  else []
termination_by input.length
decreasing_by
  rw [length_drop]
  omega

/-- What `grep` writes. -/
def grep (pattern : List UInt8) (cuts : Nat → Nat) (input : List UInt8) : List UInt8 :=
  grepFrom pattern cuts 0 [] input

/-- The lines that end in a text of which `line` comes before, without their
    newlines, and the line that does not. -/
def lines (line : List UInt8) : List UInt8 → List (List UInt8) × List UInt8
  | [] => ([], line)
  | c :: text =>
    if c = 10 then (line :: (lines [] text).1, (lines [] text).2) else lines (line ++ [c]) text

/-- The lines that match, each with its newline. -/
def matching (pattern : List UInt8) (ls : List (List UInt8)) : List UInt8 :=
  (ls.filter (matchText pattern)).flatMap (· ++ [10])

/-- A line that the buffer has room for, with its newline. -/
def short (line : List UInt8) : Bool := line.length + 1 < BUFSIZE

variable (pattern : List UInt8) (cuts : Nat → Nat)

theorem matching_append (ls ls' : List (List UInt8)) :
    matching pattern (ls ++ ls') = matching pattern ls ++ matching pattern ls' := by
  simp [matching]

theorem lines_append (line text more : List UInt8) :
    lines line (text ++ more) = ((lines line text).1 ++ (lines (lines line text).2 more).1,
      (lines (lines line text).2 more).2) := by
  fun_induction lines line text with
  | case1 => rfl
  | case2 line text ih => simp [lines, ih]
  | case3 line c text hc ih => simp [lines, hc, ih]

/-- Lines are not longer than the text, and neither is what is left. -/
theorem lines_length (line text : List UInt8) :
    (∀ l ∈ (lines line text).1, l.length < line.length + text.length) ∧
      (lines line text).2.length ≤ line.length + text.length := by
  fun_induction lines line text with
  | case1 => simp
  | case2 line text ih =>
    refine ⟨forall_mem_cons.mpr ⟨by simp, fun l hl => ?_⟩, ?_⟩
    · have := ih.1 l hl
      simp at *
      omega
    · have := ih.2
      simp at *
      omega
  | case3 line c text hc ih =>
    simp only [length_append, length_cons, length_nil] at *
    exact ⟨fun l hl => by have := ih.1 l hl; omega, by omega⟩

theorem mem_lines (h : c ∈ (lines line text).2) : c ∈ line ∨ c ∈ text ∧ c ≠ 10 := by
  fun_induction lines line text with
  | case1 => exact .inl h
  | case2 line text ih =>
    exact .inr (((ih h).resolve_left not_mem_nil).imp_left (mem_cons_of_mem _))
  | case3 line d text hd ih =>
    rcases ih h with h | ⟨h, hc⟩
    · rcases mem_append.mp h with h | h
      · exact .inl h
      · cases mem_singleton.mp h
        exact .inr ⟨mem_cons_self, hd⟩
    · exact .inr ⟨mem_cons_of_mem _ h, hc⟩

theorem lines_of_not_mem (h : 10 ∉ text) : lines line text = ([], line ++ text) := by
  fun_induction lines line text with
  | case1 => simp
  | case2 => simp at h
  | case3 line c text hc ih => simpa using ih fun h' => h (mem_cons_of_mem _ h')

/-- What came before is the start of the first line. -/
theorem lines_head {l : List UInt8} {ls : List (List UInt8)}
    (h : (lines line text).1 = l :: ls) : line.length ≤ l.length := by
  fun_induction lines line text with
  | case1 => cases h
  | case2 line text ih =>
    cases h
    exact le_refl _
  | case3 line c text hc ih =>
    have := ih h
    rw [length_append] at this
    omega

theorem strchr_lines (line : List UInt8) (h0 : 0 ∉ text) : match strchr 10 text with
    | none => lines line text = ([], line ++ text)
    | some q => text.take (q + 1) = text.take q ++ [10] ∧ lines line text =
        ((line ++ text.take q) :: (lines [] (text.drop (q + 1))).1,
          (lines [] (text.drop (q + 1))).2) := by
  induction text generalizing line with
  | nil => simp [strchr, lines]
  | cons a s ih =>
    obtain ⟨ha, h0⟩ := not_or.mp (mem_cons.not.mp h0)
    rw [strchr, if_neg (Ne.symm ha)]
    by_cases hc : a = 10
    · simp [hc, lines]
    · have := ih (line ++ [a]) h0
      rw [if_neg hc, lines, if_neg hc]
      cases hq : strchr 10 s with
      | none => simpa [hq] using this
      | some q => simpa [hq] using this

theorem scan_eq {p : List UInt8} (h0 : 0 ∉ p) :
    scan pattern p = (matching pattern (lines [] p).1, (lines [] p).2) := by
  fun_induction scan pattern p with
  | case1 p hq =>
    have := strchr_lines [] h0
    rw [hq] at this
    simp [this, matching]
  | case2 p q hq r ih =>
    have := strchr_lines [] h0
    rw [hq] at this
    obtain ⟨htake, hlines⟩ := this
    rw [hlines, show r = _ from ih fun h => h0 (mem_of_mem_drop h), htake]
    by_cases hm : matchText pattern (p.take q) = true <;> simp [matching, hm]

/-- **`grep` writes the matching lines before the first that the buffer has no
    room for**, however its input comes. -/
theorem grepFrom_eq (i : Nat) {held input : List UInt8}
    (hheld : 10 ∉ held) (h0 : 0 ∉ held ++ input) (hroom : held.length < BUFSIZE) :
    grepFrom pattern cuts i held input =
      matching pattern ((lines held input).1.takeWhile short) := by
  fun_induction grepFrom pattern cuts i held input with
  | case1 i held input n hn r ih =>
    have hle : n ≤ BUFSIZE - held.length - 1 := (min_le_right ..).trans (min_le_left ..)
    have hlines : lines [] (held ++ input.take n) = lines held (input.take n) := by
      rw [lines_append, lines_of_not_mem hheld]
      rfl
    have hr : r =
        (matching pattern (lines held (input.take n)).1, (lines held (input.take n)).2) := by
      rw [← hlines]
      exact scan_eq pattern fun h => h0 (by simp at h ⊢; exact h.imp_right mem_of_mem_take)
    obtain ⟨hshort, hrest⟩ := lines_length held (input.take n)
    rw [length_take] at hshort hrest
    have hall : ∀ l ∈ (lines held (input.take n)).1, short l = true := fun l hl => by
      have := hshort l hl
      simp only [short, decide_eq_true_eq]
      omega
    have hlast : ∀ c ∈ r.2, c ∈ held ∨ c ∈ input.take n ∧ c ≠ 10 := fun c hc =>
      mem_lines (by rwa [hr] at hc)
    have hroom' : r.2.length < BUFSIZE := by
      rw [hr]
      simp only
      omega
    rw [ih (fun h => (hlast 10 h).elim hheld fun h => h.2 rfl) (fun h => h0 ?_) hroom', hr]
    · conv => rhs; rw [← take_append_drop n input, lines_append]
      rw [takeWhile_append_of_pos hall, matching_append]
    · rcases mem_append.mp h with h | h
      · exact mem_append.mpr ((hlast 0 h).imp_right fun h => mem_of_mem_take h.1)
      · exact mem_append_right _ (mem_of_mem_drop h)
  | case2 i held input n hn =>
    by_cases hfull : held.length + 1 = BUFSIZE
    · -- no room is left, and the first line has started with what is held
      cases hls : (lines held input).1 with
      | nil => rfl
      | cons l ls =>
        have := lines_head hls
        rw [takeWhile_cons_of_neg (by simp only [short, decide_eq_true_eq]; omega)]
        rfl
    · have hnil : input = [] := eq_nil_of_length_eq_zero (by omega)
      rw [hnil]
      rfl

theorem grep_eq {input : List UInt8} (h0 : 0 ∉ input) :
    grep pattern cuts input = matching pattern ((lines [] input).1.takeWhile short) :=
  grepFrom_eq pattern cuts 0 not_mem_nil h0 (by decide)

/-- **When the output of `grep` is right**: if no line that matches comes after
    a line that the buffer has no room for, nor is one. -/
theorem grep_output_iff (pattern : List UInt8) {input : List UInt8} (h0 : 0 ∉ input) :
    (∀ cuts, grep pattern cuts input = matching pattern (lines [] input).1) ↔
      ∀ l ∈ (lines [] input).1.dropWhile short, matchText pattern l = false := by
  have hsplit : matching pattern (lines [] input).1 =
      matching pattern ((lines [] input).1.takeWhile short) ++
        matching pattern ((lines [] input).1.dropWhile short) := by
    rw [← matching_append, takeWhile_append_dropWhile]
  simp only [grep_eq pattern _ h0, hsplit, self_eq_append_right, forall_const]
  simp [matching]

theorem grep_output_iff_two :
    0 ∉ [97, 10, 98, 10] ∧ ∀ cuts, grep [97] cuts [97, 10, 98, 10] = [97, 10] :=
  ⟨by decide, (grep_output_iff [97] (show 0 ∉ [97, 10, 98, 10] by decide)).mpr (by decide)⟩

/-- **A line of 1023 characters** fills the buffer: the next `read` is one of no
    bytes, and `grep` takes it for the end. -/
theorem grep_loses_long_line :
    (∀ cuts, grep [] cuts (replicate 1023 97 ++ [10]) = []) ∧
      matching [] (lines [] (replicate 1023 97 ++ [10])).1 = replicate 1023 97 ++ [10] := by
  have hchars : ∀ c ∈ replicate 1023 (97 : UInt8), c = 97 := fun c hc => eq_of_mem_replicate hc
  have hlen : (replicate 1023 (97 : UInt8)).length = 1023 := length_replicate
  generalize replicate 1023 (97 : UInt8) = line at hchars hlen ⊢
  have hlines : lines [] (line ++ [10]) = ([line], []) := by
    rw [lines_append, lines_of_not_mem fun h => absurd (hchars 10 h) (by decide)]
    rfl
  have h0 : 0 ∉ line ++ [10] := fun h =>
    (mem_append.mp h).elim (fun h => absurd (hchars 0 h) (by decide)) (by decide)
  refine ⟨fun cuts => ?_, ?_⟩
  · rw [grep_eq [] cuts h0, hlines, takeWhile_cons_of_neg (by simp [short, BUFSIZE, hlen])]
    rfl
  · have hempty : ∀ text, matchText [] text = true := fun text => by
      cases text <;> rfl
    simp [hlines, matching, hempty]

end Grep
end Xv6
