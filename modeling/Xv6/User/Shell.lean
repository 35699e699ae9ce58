import Mathlib.Data.List.TakeWhile
import Mathlib.Data.List.Basic

/-!
# How the shell gets its command lines

`main` of `sh.c` has two loops around `parse_buffer`. The interactive one calls
`getcmd`, which clears the buffer and lets `gets` read one line into it. The
other one, for `sh script`, fills the buffer with plain `read`s of `sizeof(buf)`
bytes and never looks for a line end. Both hand `parse_buffer` the C string that
starts at `buf`.

The shell's memory is the list of bytes from `buf` on: the buffer itself and
whatever the linker put behind it, which a string without a NUL in the buffer
runs into. `fork1` is taken to succeed.
-/

namespace Xv6
namespace Sh

open List

/-- `static char buf[120]` -/
def BUFSIZE : Nat := 120

/-- The characters at which `gets` stops: `'\n'` and `'\r'`. -/
def lineEnd (c : UInt8) : Bool := c == 10 || c == 13

/-- The C string at the start of a stretch of memory. -/
def cstr (mem : List UInt8) : List UInt8 := mem.takeWhile (· != 0)

/-- Bytes stored from the start of a stretch of memory on. -/
def store (mem data : List UInt8) : List UInt8 := data ++ mem.drop data.length

/-- `parse_buffer` as the loops see it: `none` if it ends the shell, or the
    memory when it comes back. A `cd` is carried out by the shell itself, after
    the last character of the line has been overwritten; everything else is left
    to a child. -/
def parseBuffer (mem : List UInt8) : Option (List UInt8) :=
  if mem.take 3 = [99, 100, 32] then
    some (mem.set ((cstr mem).length - 1) 0)
  else if mem.take 4 = [101, 120, 105, 116] then
    none
  else
    some mem

/-! ## The loop for `sh script` -/

/-- `do parse_buffer(buf); while (read(shfd, buf, sizeof(buf)) == sizeof(buf))`:
    the strings handed to `parse_buffer`, with `file` what is still to be read.
    A shorter read ends the loop. -/
def scriptLoop (mem file : List UInt8) : List (List UInt8) :=
  cstr mem ::
    match parseBuffer mem with
    | none => []
    | some mem =>
      if BUFSIZE ≤ file.length then
        scriptLoop (store mem (file.take BUFSIZE)) (file.drop BUFSIZE)
      else []
termination_by file.length
decreasing_by
  rw [length_drop]
  simp only [BUFSIZE] at *
  omega

/-- `sh script`: the first `read` may return less than a buffer. -/
def script (behind file : List UInt8) : List (List UInt8) :=
  scriptLoop (store (List.replicate BUFSIZE 0 ++ behind) (file.take BUFSIZE)) (file.drop BUFSIZE)

/-! ## The interactive loop -/

/-- The loop of `gets` with `room = max - 1 - i`: the bytes put into the buffer,
    and the input that is left. -/
def getsLoop : Nat → List UInt8 → List UInt8 × List UInt8
  | 0, input => ([], input)
  | _ + 1, [] => ([], [])
  | room + 1, c :: input =>
    if lineEnd c then ([c], input)
    else (c :: (getsLoop room input).1, (getsLoop room input).2)

/-- `gets(buf, max)` -/
def gets (mem : List UInt8) (max : Nat) (input : List UInt8) : List UInt8 × List UInt8 :=
  (store mem ((getsLoop (max - 1) input).1 ++ [0]), (getsLoop (max - 1) input).2)

/-- `getcmd(buf, nbuf)`: `none` for the return value -1. -/
def getcmd (mem : List UInt8) (nbuf : Nat) (input : List UInt8) :
    Option (List UInt8 × List UInt8) :=
  let r := gets (store mem (List.replicate nbuf 0)) nbuf input
  if r.1.head? = some 0 then none else some r

/-- Nothing of the input is lost. -/
theorem getsLoop_append (room : Nat) (input : List UInt8) :
    (getsLoop room input).1 ++ (getsLoop room input).2 = input := by
  induction room generalizing input with
  | zero => rfl
  | succ room ih =>
    cases input with
    | nil => rfl
    | cons c input =>
      rw [getsLoop]
      split
      · rfl
      · rw [cons_append, ih]

/-- A command has at least one character, so every turn of the loop consumes
    input. -/
theorem getcmd_consumes {mem mem' input rest : List UInt8} {nbuf : Nat}
    (h : getcmd mem nbuf input = some (mem', rest)) : rest.length < input.length := by
  simp only [getcmd] at h
  split at h
  · cases h
  · rename_i hne
    injection h with h
    have hrest : rest = (getsLoop (nbuf - 1) input).2 := congrArg Prod.snd h.symm
    have hsplit := getsLoop_append (nbuf - 1) input
    cases hl : (getsLoop (nbuf - 1) input).1 with
    | nil => exact absurd (by simp [gets, hl, store]) hne
    | cons c l =>
      rw [hl, ← hrest] at hsplit
      rw [← hsplit, cons_append, length_cons, length_append]
      omega

/-- `while (getcmd(buf, sizeof(buf)) >= 0) parse_buffer(buf)`: the strings
    handed to `parse_buffer`. -/
def interactiveLoop (mem input : List UInt8) : List (List UInt8) :=
  match _h : getcmd mem BUFSIZE input with
  | none => []
  | some (mem, rest) =>
    cstr mem ::
      match parseBuffer mem with
      | none => []
      | some mem => interactiveLoop mem rest
termination_by input.length
decreasing_by exact getcmd_consumes _h

/-- The shell with the same bytes arriving on file descriptor 0. -/
def interactive (behind input : List UInt8) : List (List UInt8) :=
  interactiveLoop (List.replicate BUFSIZE 0 ++ behind) input

/-! ## Lines -/

/-- The lines of a text, each with the character that ends it. -/
def lines : List UInt8 → List (List UInt8)
  | [] => []
  | c :: s =>
    if lineEnd c then [c] :: lines s
    else match lines s with
      | [] => [[c]]
      | l :: ls => (c :: l) :: ls

/-- The characters of a line before the one that ends it. -/
def body (l : List UInt8) : List UInt8 := l.takeWhile (! lineEnd ·)

variable {l s : List UInt8} {ls : List (List UInt8)}

theorem lines_eq_nil (h : lines s = []) : s = [] := by
  cases s with
  | nil => rfl
  | cons c s =>
    rw [lines] at h
    split at h
    · cases h
    · split at h <;> cases h

theorem flatten_lines (s : List UInt8) : (lines s).flatten = s := by
  induction s with
  | nil => rfl
  | cons c s ih =>
    rw [lines]
    split
    · rw [flatten_cons, ih]; rfl
    · split
      · rename_i hs
        rw [lines_eq_nil hs]; rfl
      · rename_i l ls hs
        rw [hs] at ih
        rw [← ih]; rfl

theorem length_flatten_le {n : Nat} (h : ∀ l ∈ ls, l.length ≤ n) :
    ls.flatten.length ≤ n * ls.length := by
  induction ls with
  | nil => rfl
  | cons l ls ih =>
    obtain ⟨hl, hls⟩ := forall_mem_cons.mp h
    rw [flatten_cons, length_append, length_cons, Nat.mul_succ, Nat.add_comm]
    exact Nat.add_le_add (ih hls) hl

/-- `gets` reads the first line, whole, if its body leaves room for the line end
    and the NUL. -/
theorem getsLoop_lines {room : Nat} (h : lines s = l :: ls) (hroom : (body l).length < room) :
    (getsLoop room s).1 = l ∧ lines (getsLoop room s).2 = ls := by
  induction s generalizing l ls room with
  | nil => cases h
  | cons c s ih =>
    cases room with
    | zero => cases hroom
    | succ room =>
      rw [lines] at h
      rw [getsLoop]
      by_cases hc : lineEnd c = true
      · rw [if_pos hc] at h ⊢
        injection h with hl hls
        exact ⟨hl, hls⟩
      · rw [if_neg hc] at h ⊢
        cases hs : lines s with
        | nil =>
          rw [hs] at h
          injection h with hl hls
          subst hl
          rw [lines_eq_nil hs]
          refine ⟨?_, ?_⟩
          · cases room <;> rfl
          · rw [← hls]
            cases room <;> rfl
        | cons l' ls' =>
          rw [hs] at h
          injection h with hl hls
          subst hl hls
          have hbody : body (c :: l') = c :: body l' := by
            simp [body, hc]
          rw [hbody, length_cons] at hroom
          obtain ⟨h1, h2⟩ := ih hs (Nat.lt_of_succ_lt_succ hroom)
          exact ⟨by rw [h1], h2⟩

/-! ## C strings -/

theorem cstr_append_zero (s mem : List UInt8) : cstr (s ++ 0 :: mem) = cstr s := by
  induction s with
  | nil => rfl
  | cons c s ih =>
    simp only [cstr, cons_append, takeWhile_cons] at ih ⊢
    rw [ih]

theorem cstr_eq_self (h : 0 ∉ s) : cstr s = s := by
  refine takeWhile_eq_self_iff.mpr fun c hc => ?_
  simp only [bne_iff_ne]
  exact fun e => h (e ▸ hc)

/-- A text without NULs is an initial part of the string at its start. -/
theorem length_le_cstr_append (h : 0 ∉ s) (mem : List UInt8) :
    s.length ≤ (cstr (s ++ mem)).length := by
  rw [cstr, takeWhile_append_of_pos (takeWhile_eq_self_iff.mp (cstr_eq_self h)), length_append]
  omega

/-! ## What the interactive loop hands on -/

theorem length_le_body : ∀ l ∈ lines s, 0 < l.length ∧ l.length ≤ (body l).length + 1 := by
  induction s with
  | nil => exact fun l hl => absurd hl not_mem_nil
  | cons c s ih =>
    rw [lines]
    by_cases hc : lineEnd c = true
    · rw [if_pos hc]
      refine forall_mem_cons.mpr ⟨?_, ih⟩
      simp
    · rw [if_neg hc]
      have hbody : ∀ l, body (c :: l) = c :: body l := fun l => by simp [body, hc]
      cases hs : lines s with
      | nil =>
        simp only [mem_singleton, forall_eq]
        simp
      | cons l' ls' =>
        rw [hs] at ih
        obtain ⟨hl', hls'⟩ := forall_mem_cons.mp ih
        refine forall_mem_cons.mpr ⟨?_, hls'⟩
        simp only [hbody, length_cons]
        omega

theorem interactiveLoop_nil (mem : List UInt8) : interactiveLoop mem [] = [] := by
  have hcmd : getcmd mem BUFSIZE [] = none := by
    simp [getcmd, gets, getsLoop, BUFSIZE, store]
  unfold interactiveLoop
  split
  · rfl
  · rename_i h
    rw [hcmd] at h
    cases h

theorem getcmd_line (mem : List UInt8)
    (h : lines s = l :: ls) (hl : l.head? ≠ some 0) (hb : (body l).length ≤ 118) :
    ∃ mem' rest, getcmd mem BUFSIZE s = some (mem', rest) ∧ cstr mem' = cstr l ∧
      lines rest = ls := by
  obtain ⟨h1, h2⟩ := getsLoop_lines h (show (body l).length < BUFSIZE - 1 by
    simp only [BUFSIZE]; omega)
  have hmem : ∃ more,
      (gets (store mem (List.replicate BUFSIZE 0)) BUFSIZE s).1 = l ++ 0 :: more := by
    rw [gets, h1, store, append_assoc]
    exact ⟨_, rfl⟩
  obtain ⟨more, hmem⟩ := hmem
  refine ⟨_, _, if_neg fun hz => hl ?_,
    (congrArg cstr hmem).trans (cstr_append_zero l more), h2⟩
  -- the line is not empty, so it is the line that the buffer starts with
  have hpos := (length_le_body l (by rw [h]; exact mem_cons_self)).1
  rwa [hmem, head?_append_of_ne_nil _ (length_pos_iff.mp hpos)] at hz

/-- A line that does not start with a NUL is handed on, and after the last one
    the loop ends. -/
theorem interactiveLoop_cons (mem : List UInt8)
    (h : lines s = l :: ls) (hl : l.head? ≠ some 0) (hb : (body l).length ≤ 118) :
    ∃ more, interactiveLoop mem s = cstr l :: more ∧ (ls = [] → more = []) := by
  obtain ⟨mem1, rest1, hget, hstr, hrest⟩ := getcmd_line mem h hl hb
  unfold interactiveLoop
  split
  · rename_i hcmd
    rw [hget] at hcmd
    cases hcmd
  · rename_i mem' rest hcmd
    rw [hget] at hcmd
    cases hcmd
    refine ⟨_, by rw [hstr], fun hls => ?_⟩
    rw [lines_eq_nil (hrest.trans hls)]
    cases parseBuffer mem1 with
    | none => rfl
    | some mem => exact interactiveLoop_nil mem

/-- A line that starts with a NUL ends the loop: `getcmd` takes it for the end
    of the input. -/
theorem interactiveLoop_zero (mem : List UInt8) (hl : s.head? = some 0) :
    interactiveLoop mem s = [] := by
  obtain ⟨s', rfl⟩ := head?_eq_some_iff.mp hl
  unfold interactiveLoop
  split
  · rfl
  · rename_i h
    simp [getcmd, gets, getsLoop, BUFSIZE, store, lineEnd] at h

/-! ## What the loop for scripts hands on -/

/-- A short script fits into the buffer and is handed on in one piece. -/
theorem script_short {behind : List UInt8} (hlen : s.length < BUFSIZE) :
    script behind s = [cstr s] := by
  have htake : s.take BUFSIZE = s := take_of_length_le (le_of_lt hlen)
  have hdrop : s.drop BUFSIZE = [] := drop_eq_nil_of_le (le_of_lt hlen)
  obtain ⟨k, hk⟩ : ∃ k, BUFSIZE - s.length = k + 1 := ⟨BUFSIZE - s.length - 1, by omega⟩
  have hstr : cstr (store (List.replicate BUFSIZE 0 ++ behind) s) = cstr s := by
    rw [store, drop_append, drop_replicate, hk, replicate_succ, cons_append]
    exact cstr_append_zero _ _
  rw [script, htake, hdrop, scriptLoop, hstr]
  cases parseBuffer (store (List.replicate BUFSIZE 0 ++ behind) s) with
  | none => rfl
  | some mem => rfl

/-- After the first string there is at most one for every full buffer. -/
theorem length_scriptLoop (mem file : List UInt8) :
    (scriptLoop mem file).length ≤ file.length / BUFSIZE + 1 := by
  fun_induction scriptLoop mem file with
  | case1 mem file ih =>
    cases hparse : parseBuffer mem with
    | none => simp
    | some mem' =>
      by_cases hfull : BUFSIZE ≤ file.length
      · have hrest := ih mem' hfull
        rw [length_drop] at hrest
        have hdiv := Nat.div_eq_sub_div (show 0 < BUFSIZE by decide) hfull
        simp only [length_cons, if_pos hfull]
        omega
      · simp [if_neg hfull]

/-- The first string of a longer one is at least as long as the buffer. -/
theorem script_long {behind : List UInt8} (h : 0 ∉ s) (hlen : BUFSIZE ≤ s.length) :
    ∃ cmd more, script behind s = cmd :: more ∧ BUFSIZE ≤ cmd.length := by
  rw [script, scriptLoop]
  refine ⟨_, _, rfl, ?_⟩
  have hbuf := length_le_cstr_append (s := s.take BUFSIZE) (fun hm => h (mem_of_mem_take hm))
    ((List.replicate BUFSIZE 0 ++ behind).drop (s.take BUFSIZE).length)
  have hfull : (s.take BUFSIZE).length = BUFSIZE := length_take_of_le hlen
  exact hfull.symm.le.trans hbuf

theorem script_ne_nil (behind s : List UInt8) : script behind s ≠ [] := by
  rw [script, scriptLoop]
  exact nofun

/-! ## Agreement -/

theorem lines_eq_singleton (h : lines s = s :: ls) : lines s = [s] := by
  obtain ⟨h1, h2⟩ := getsLoop_lines h (Nat.lt_succ_self _)
  have hsplit := getsLoop_append ((body s).length + 1) s
  rw [h1] at hsplit
  rw [append_right_eq_self.mp hsplit] at h2
  rw [h, ← h2]
  rfl

section Agreement

variable (behind : List UInt8) {s : List UInt8} (hlines : ∀ l ∈ lines s, (body l).length ≤ 118)

include hlines

/-- A single line that does not start with a NUL is handed on by both loops. -/
theorem agree_of_line (h0 : s.head? ≠ some 0) (hs : lines s = [s]) :
    script behind s = [cstr s] ∧ interactive behind s = [cstr s] := by
  have hmem : s ∈ lines s := by
    rw [hs]
    exact mem_cons_self
  have hb := hlines s hmem
  obtain ⟨more, hmore, hnone⟩ := interactiveLoop_cons (List.replicate BUFSIZE 0 ++ behind) hs h0 hb
  refine ⟨script_short ?_, by rw [interactive, hmore, hnone rfl]⟩
  have := (length_le_body s hmem).2
  simp only [BUFSIZE]
  omega

/-- A text without NULs on which the two loops agree is a single line. -/
theorem lines_eq_of_agree (h0 : 0 ∉ s) (h : script behind s = interactive behind s) :
    lines s = [s] := by
  cases hs : lines s with
  | nil =>
    -- `sh` of an empty file hands on the empty string
    rw [lines_eq_nil hs, interactive, interactiveLoop_nil] at h
    exact absurd h (script_ne_nil _ _)
  | cons l ls =>
    have hmem : l ∈ lines s := by
      rw [hs]
      exact mem_cons_self
    have hl : 0 ∉ l := fun hm => h0 (by
      rw [← flatten_lines s, hs]
      exact mem_append_left _ hm)
    obtain ⟨more, hmore, -⟩ := interactiveLoop_cons (List.replicate BUFSIZE 0 ++ behind) hs
      (fun e => hl (mem_of_mem_head? e)) (hlines l hmem)
    rw [interactive, hmore, cstr_eq_self hl] at h
    by_cases hlen : s.length < BUFSIZE
    · rw [script_short hlen, cstr_eq_self h0] at h
      injection h with hsl
      rw [← hs]
      exact lines_eq_singleton (hs.trans (by rw [hsl]))
    · obtain ⟨cmd, more', hcmd, hlong⟩ := script_long h0 (not_lt.mp hlen)
      rw [hcmd] at h
      injection h with hcl
      have hbody := hlines l hmem
      have := (length_le_body l hmem).2
      rw [hcl] at hlong
      simp only [BUFSIZE] at hlong
      omega

/-- A script hands on fewer strings than it has lines, unless it has one line: a
    line is shorter than the buffer. -/
theorem lines_eq_of_length (h : (script behind s).length = (lines s).length) : lines s = [s] := by
  have hlen := length_flatten_le fun l hl =>
    (length_le_body l hl).2.trans (Nat.succ_le_succ (hlines l hl))
  have hfew := length_scriptLoop (store (List.replicate BUFSIZE 0 ++ behind) (s.take BUFSIZE))
    (s.drop BUFSIZE)
  have hpos := length_pos_iff.mpr (script_ne_nil behind s)
  rw [← script, length_drop] at hfew
  rw [flatten_lines] at hlen
  simp only [BUFSIZE] at hfew
  obtain ⟨l, hl⟩ := length_eq_one_iff.mp (show (lines s).length = 1 by omega)
  have hs := flatten_lines s
  rw [hl, flatten_singleton] at hs
  rw [hl, hs]

/-- **Script mode and interactive mode agree on a single line, and on nothing
    else.** For a text without NULs the two loops hand on the same strings
    exactly if it is one line. For arbitrary bytes they hand on the same
    strings, one for each line and all of them, exactly if there is one line and
    it does not start with a NUL. -/
theorem script_agrees_iff :
    (0 ∉ s → (script behind s = interactive behind s ↔ lines s = [s])) ∧
      ((script behind s = interactive behind s ∧ interactive behind s = (lines s).map cstr) ↔
        lines s = [s] ∧ s.head? ≠ some 0) := by
  refine ⟨fun h0 => ⟨lines_eq_of_agree behind hlines h0, fun hs => ?_⟩, fun h => ?_, fun h => ?_⟩
  · obtain ⟨h1, h2⟩ := agree_of_line behind hlines (fun e => h0 (mem_of_mem_head? e)) hs
    rw [h1, h2]
  · obtain ⟨h, hall⟩ := h
    have hs := lines_eq_of_length behind hlines (by rw [h, hall, length_map])
    refine ⟨hs, fun h0 => ?_⟩
    rw [interactive, interactiveLoop_zero _ h0, hs] at hall
    cases hall
  · obtain ⟨h1, h2⟩ := agree_of_line behind hlines h.2 h.1
    rw [h1, h2, h.1]
    exact ⟨rfl, rfl⟩

end Agreement

/-- The script `ls` on one line. -/
theorem script_agrees_iff_ls :
    script [] [108, 115, 10] = interactive [] [108, 115, 10] ∧
      interactive [] [108, 115, 10] = [[108, 115, 10]] :=
  (script_agrees_iff [] (by decide)).2.mpr ⟨by decide, by decide⟩

/-- The two lines `a` and `b`: `sh` takes them for one command. -/
theorem script_joins_lines :
    (∀ l ∈ lines [97, 10, 98, 10], (body l).length ≤ 118) ∧
      script [] [97, 10, 98, 10] = [[97, 10, 98, 10]] ∧
        interactive [] [97, 10, 98, 10] = [[97, 10], [98, 10]] := by
  exact ⟨by decide, script_short (by decide), by decide +kernel⟩

end Sh
end Xv6
