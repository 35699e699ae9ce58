import Xv6.User.Grammar

/-!
# The words of a command line

Every string of the tree that `parsecmd` returns is a word of the line, where it
stands in the line: `nulterminate` then ends each of them by a NUL in the line
itself. A NUL goes to the end of a word, which is never a character of another
word, so reading a string of the tree from the line gives the word.
-/

namespace Xv6
namespace Sh

open List

/-! ## The words of the tree -/

/-- The counted strings of a command, in the order in which `nulterminate` ends
    them. -/
def Cmd.strings : Cmd → List (Nat × Nat)
  | exec argv => argv
  | redir cmd file efile _ _ => cmd.strings ++ [(file, efile)]
  | pipe left right => left.strings ++ right.strings
  | list left right => left.strings ++ right.strings
  | back cmd => cmd.strings

/-- The string is a word of the line. -/
def IsWord (ts : List Token) (w : Nat × Nat) : Prop :=
  ∃ t ∈ ts, t.kind = .word ∧ w = (t.q, t.eq)

theorem IsWord.mono {ts ts' : List Token} {w : Nat × Nat} (h : IsWord ts w) (hsub : ts ⊆ ts') :
    IsWord ts' w := by
  obtain ⟨t, ht, hk, hw⟩ := h
  exact ⟨t, hsub ht, hk, hw⟩

theorem strings_foldl_wrap (rs : List Redir) (c : Cmd) :
    (rs.foldl Redir.wrap c).strings = c.strings ++ rs.map fun r => (r.file, r.efile) := by
  induction rs generalizing c with
  | nil => exact (append_nil _).symm
  | cons r rs ih =>
    rw [foldl_cons, ih, map_cons, append_cons]
    rfl

theorem strings_backs (n : Nat) (c : Cmd) : (backs n c).strings = c.strings := by
  induction n generalizing c with
  | zero => rfl
  | succ n ih => exact ih (.back c)

variable {ts : List Token}

theorem Redirs.isWord {rs : List Redir} (h : Redirs ts rs) :
    ∀ r ∈ rs, IsWord ts (r.file, r.efile) := by
  induction h with
  | nil => exact fun r hr => absurd hr not_mem_nil
  | @cons op w mode fd ts rs hmode hw hrs ih =>
    refine forall_mem_cons.mpr ⟨⟨w, by simp, hw, rfl⟩, fun r hr => (ih r hr).mono ?_⟩
    exact fun t ht => mem_cons_of_mem _ (mem_cons_of_mem _ ht)

theorem Words.isWord {ws : List (Nat × Nat)} {rs : List Redir}
    (h : Words ts ws rs) : (∀ w ∈ ws, IsWord ts w) ∧ ∀ r ∈ rs, IsWord ts (r.file, r.efile) := by
  induction h with
  | nil => exact ⟨fun w hw => absurd hw not_mem_nil, fun r hr => absurd hr not_mem_nil⟩
  | @cons w ts ts' ws rs rs' hw hrs hwords ih =>
    have hfirst : ts ⊆ w :: (ts ++ ts') :=
      fun t ht => mem_cons_of_mem _ (mem_append_left _ ht)
    have hrest : ts' ⊆ w :: (ts ++ ts') :=
      fun t ht => mem_cons_of_mem _ (mem_append_right _ ht)
    refine ⟨forall_mem_cons.mpr ⟨⟨w, mem_cons_self, hw, rfl⟩, fun w' hw' => ?_⟩, ?_⟩
    · exact (ih.1 w' hw').mono hrest
    · refine forall_mem_append.mpr ⟨fun r hr => ?_, fun r hr => ?_⟩
      · exact (hrs.isWord r hr).mono hfirst
      · exact (ih.2 r hr).mono hrest

/-- Every string of the tree is a word of the line. -/
theorem Derives.isWord {sym : Sym} {c : Cmd} (h : Derives sym ts c) :
    ∀ w ∈ c.strings, IsWord ts w := by
  induction h with
  | @line ts amps c hpipe hamps ih =>
    rw [strings_backs]
    exact fun w hw => (ih w hw).mono (subset_append_left _ _)
  | @list ts amps ts' semi c c' hpipe hamps hsemi hline ih ih' =>
    refine forall_mem_append.mpr ⟨?_, fun w hw => (ih' w hw).mono fun t ht => by simp [ht]⟩
    rw [strings_backs]
    exact fun w hw => (ih w hw).mono fun t ht => by simp [ht]
  | pipe hcmd ih => exact ih
  | @pipes ts ts' bar c c' hcmd hbar hpipe ih ih' =>
    exact forall_mem_append.mpr ⟨fun w hw => (ih w hw).mono fun t ht => by simp [ht],
      fun w hw => (ih' w hw).mono fun t ht => by simp [ht]⟩
  | @block l r ts ts' c rs hl hline hr hrs ih =>
    rw [strings_foldl_wrap]
    refine forall_mem_append.mpr ⟨fun w hw => (ih w hw).mono fun t ht => by simp [ht], ?_⟩
    exact forall_mem_map.mpr fun r hr => (hrs.isWord r hr).mono fun t ht => by simp [ht]
  | @simple ts ts' ws rs rs' hrs hwords hlen =>
    rw [strings_foldl_wrap]
    refine forall_mem_append.mpr ⟨fun w hw => ?_, forall_mem_map.mpr ?_⟩
    · exact (hwords.isWord.1 w hw).mono (subset_append_right _ _)
    · refine forall_mem_append.mpr ⟨fun r hr => ?_, fun r hr => ?_⟩
      · exact (hrs.isWord r hr).mono (subset_append_left _ _)
      · exact (hwords.isWord.2 r hr).mono (subset_append_right _ _)

/-! ## Ending the words in place -/

theorem nulterminate_eq (c : Cmd) (mem : List UInt8) :
    nulterminate c mem = c.strings.foldl (fun mem w => mem.set w.2 0) mem := by
  induction c generalizing mem with
  | exec argv => rfl
  | redir cmd file efile mode fd ih =>
    rw [nulterminate, Cmd.strings, foldl_append, ih]
    rfl
  | pipe left right ihl ihr => rw [nulterminate, Cmd.strings, foldl_append, ihl, ihr]
  | list left right ihl ihr => rw [nulterminate, Cmd.strings, foldl_append, ihl, ihr]
  | back cmd ih => exact ih mem

theorem byteAt_set (mem : List UInt8) (e i : Nat) :
    byteAt (mem.set e 0) i = if i = e then 0 else byteAt mem i := by
  unfold byteAt
  rw [getD_eq_getElem?_getD, getD_eq_getElem?_getD, getElem?_set]
  by_cases hi : i = e
  · rw [if_pos hi, if_pos hi.symm]
    split_ifs <;> rfl
  · rw [if_neg hi, if_neg (Ne.symm hi)]

theorem byteAt_foldl_set (ws : List (Nat × Nat)) (mem : List UInt8) (i : Nat) :
    byteAt (ws.foldl (fun mem w => mem.set w.2 0) mem) i =
      if i ∈ ws.map Prod.snd then 0 else byteAt mem i := by
  induction ws generalizing mem with
  | nil => rfl
  | cons w ws ih =>
    rw [foldl_cons, ih, byteAt_set, map_cons]
    by_cases hw : i = w.2
    · simp only [hw, mem_cons_self, if_true, ite_self]
    · simp only [hw, mem_cons, false_or, if_false]

theorem byteAt_eq_headD (mem : List UInt8) (q : Nat) : byteAt mem q = (mem.drop q).headD 0 := by
  rw [byteAt, getD_eq_getElem?_getD, ← head?_drop, headD_eq_head?_getD]

theorem drop_of_byteAt_ne {mem : List UInt8} {q : Nat} (h : byteAt mem q ≠ 0) :
    mem.drop q = byteAt mem q :: mem.drop (q + 1) := by
  rw [byteAt_eq_headD] at h ⊢
  rw [← tail_drop]
  cases hd : mem.drop q with
  | nil =>
    rw [hd] at h
    exact absurd rfl h
  | cons c cs => rfl

theorem cstr_drop_eq {mem mem' : List UInt8} {q n : Nat}
    (hsame : ∀ i, q ≤ i → i < q + n → byteAt mem' i = byteAt mem i ∧ byteAt mem i ≠ 0)
    (hend : byteAt mem' (q + n) = 0) :
    cstr (mem'.drop q) = (mem.drop q).take n := by
  induction n generalizing q with
  | zero =>
    rw [Nat.add_zero, byteAt_eq_headD] at hend
    cases hd : mem'.drop q with
    | nil => rfl
    | cons c cs =>
      rw [hd, headD_cons] at hend
      rw [hend]
      rfl
  | succ n ih =>
    obtain ⟨heq, hne⟩ := hsame q (le_refl q) (by omega)
    have hrest := ih (q := q + 1) (fun i hi hlt => hsame i (by omega) (by omega))
      (by rw [← hend]; congr 1; omega)
    rw [drop_of_byteAt_ne (heq ▸ hne), drop_of_byteAt_ne hne, take_succ_cons, ← hrest, heq]
    exact takeWhile_cons_of_pos (bne_iff_ne.mpr hne)

theorem firstToken_word {c : UInt8} {cs : List UInt8} (h : (firstToken c cs).1 = .word) :
    (firstToken c cs).2 = ((c :: cs).takeWhile wordChar).length := by
  unfold firstToken at h ⊢
  cases hs : symbol c with
  | none => rfl
  | some k =>
    have hfirst := first_of_symbol hs
    rw [hs] at h
    cases k with
    | gt =>
      dsimp only at h
      split_ifs at h
    | word => cases hfirst
    | _ => cases h

/-- A word is the longest run of word characters from its start on. -/
theorem lex_word {l : List UInt8} {p : Nat} {t : Token} (h : t ∈ lex p l) (hk : t.kind = .word) :
    ∃ a b, l = a ++ b ∧ t.q = p + a.length ∧ t.eq = t.q + (b.takeWhile wordChar).length := by
  induction hn : l.length using Nat.strong_induction_on generalizing l p with
  | _ n ih =>
    cases l with
    | nil => exact absurd h not_mem_nil
    | cons c cs =>
      cases hc : blank c with
      | true =>
        rw [lex_blank hc] at h
        obtain ⟨a, b, hl, hq, heq⟩ := ih cs.length (by rw [← hn]; exact Nat.lt_succ_self _) h rfl
        refine ⟨c :: a, b, by rw [hl]; rfl, ?_, heq⟩
        rw [hq, length_cons]
        omega
      | false =>
        rw [lex_token hc] at h
        obtain rfl | h := mem_cons.mp h
        · refine ⟨[], c :: cs, rfl, rfl, ?_⟩
          rw [← firstToken_word hk]
        · have hpos := firstToken_pos cs hc
          have hle := firstToken_le c cs
          obtain ⟨a, b, hl, hq, heq⟩ := ih _ (by rw [← hn, length_drop]; omega) h rfl
          refine ⟨(c :: cs).take (firstToken c cs).2 ++ a, b, ?_, ?_, heq⟩
          · rw [append_assoc, ← hl, take_append_drop]
          · rw [hq, length_append, length_take_of_le hle]
            omega

/-- The characters of a word, and the one after it. -/
theorem IsWord.chars {mem : List UInt8} {w : Nat × Nat} (h : IsWord (lex 0 (cstr mem)) w) :
    w.1 ≤ w.2 ∧
    (∀ i, w.1 ≤ i → i < w.2 → wordChar (byteAt mem i) = true ∧ byteAt mem i ≠ 0) ∧
    (wordChar (byteAt mem w.2) = false ∨ byteAt mem w.2 = 0) := by
  obtain ⟨t, ht, hk, rfl⟩ := h
  obtain ⟨a, b, hl, hq, heq⟩ := lex_word ht hk
  rw [Nat.zero_add] at hq
  have hlen := (takeWhile_sublist wordChar (l := b)).length_le
  have hall : (cstr mem).length = a.length + b.length := by rw [hl, length_append]
  have hdrop : ∀ j, (cstr mem).drop (a.length + j) = b.drop j := by
    intro j
    rw [hl, ← drop_drop, drop_left]
  refine ⟨?_, fun i hi hlt => ?_, ?_⟩
  · dsimp only
    omega
  · dsimp only at hi hlt
    obtain ⟨j, rfl⟩ : ∃ j, i = a.length + j := ⟨i - a.length, by omega⟩
    have hlt : j < (b.takeWhile wordChar).length := by omega
    obtain ⟨c, cs, hc⟩ := exists_cons_of_length_pos
      (l := (b.takeWhile wordChar).drop j) (by rw [length_drop]; omega)
    have hmem : c ∈ b.takeWhile wordChar := mem_of_mem_drop (hc ▸ mem_cons_self)
    have hbyte : byteAt mem (a.length + j) = c := by
      rw [byteAt_eq (by omega), hdrop, ← takeWhile_append_dropWhile (p := wordChar) (l := b),
        drop_append_of_le_length (le_of_lt hlt), hc]
      rfl
    rw [hbyte]
    refine ⟨mem_takeWhile_imp hmem, @mem_cstr_ne c mem ?_⟩
    rw [hl]
    exact mem_append_right _ ((takeWhile_sublist _).subset hmem)
  · dsimp only
    rw [heq, hq, byteAt_eq (by omega), hdrop, drop_length_takeWhile]
    cases hd : b.dropWhile wordChar with
    | nil => exact .inr rfl
    | cons c cs =>
      have hhead := head?_dropWhile_not wordChar b
      rw [hd] at hhead
      exact .inl (by simpa using hhead)

/-- **Ending the words in place keeps them.** -/
theorem nulterminate_keeps_words {mem mem' : List UInt8} {c : Cmd}
    (h : parsecmd mem = .ok (c, mem')) :
    ∀ w ∈ c.strings, IsWord (lex 0 (cstr mem)) w ∧
      cstr (mem'.drop w.1) = (mem.drop w.1).take (w.2 - w.1) ∧
      byteAt mem' w.2 = 0 ∧
      ∀ w' ∈ c.strings, ¬ (w.1 ≤ w'.2 ∧ w'.2 < w.2) := by
  obtain ⟨⟨p, hp⟩, rfl⟩ := parsecmd_eq_ok.mp h
  have hwords := ((parsewhole_sound mem).ok hp).isWord
  have hbyte : ∀ i, byteAt (nulterminate c mem) i =
      if i ∈ c.strings.map Prod.snd then 0 else byteAt mem i := by
    intro i
    rw [nulterminate_eq, byteAt_foldl_set]
  intro w hw
  obtain ⟨hle, hin, -⟩ := (hwords w hw).chars
  have hend : byteAt (nulterminate c mem) w.2 = 0 := by
    rw [hbyte, if_pos (mem_map_of_mem hw)]
  have hapart : ∀ w' ∈ c.strings, ¬ (w.1 ≤ w'.2 ∧ w'.2 < w.2) := by
    rintro w' hw' ⟨hge, hlt⟩
    obtain ⟨-, -, hout⟩ := (hwords w' hw').chars
    obtain ⟨hchar, hne⟩ := hin w'.2 hge hlt
    obtain hout | hout := hout
    · exact Bool.noConfusion (hchar.symm.trans hout)
    · exact hne hout
  refine ⟨hwords w hw, ?_, hend, hapart⟩
  refine cstr_drop_eq (fun i hi hlt => ⟨?_, (hin i hi (by omega)).2⟩) ?_
  · rw [hbyte, if_neg]
    intro hmem
    obtain ⟨w', hw', rfl⟩ := mem_map.mp hmem
    exact hapart w' hw' ⟨hi, by omega⟩
  · rw [Nat.add_sub_cancel' hle]
    exact hend

/-- `ls a>f|w` -/
theorem nulterminate_keeps_words_pipe :
    ∃ c mem', parsecmd (['l', 's', ' ', 'a', '>', 'f', '|', 'w'].map ch ++ [0]) = .ok (c, mem') ∧
      c = .pipe (.redir (.exec [(0, 2), (3, 4)]) 5 6 (O_WRONLY ||| O_CREATE ||| O_TRUNC) 1)
        (.exec [(7, 8)]) ∧
      ∀ w ∈ c.strings, cstr (mem'.drop w.1) =
        ((['l', 's', ' ', 'a', '>', 'f', '|', 'w'].map ch ++ [0]).drop w.1).take (w.2 - w.1) := by
  have hrun : parsecmd (['l', 's', ' ', 'a', '>', 'f', '|', 'w'].map ch ++ [0]) =
      .ok (.pipe (.redir (.exec [(0, 2), (3, 4)]) 5 6 (O_WRONLY ||| O_CREATE ||| O_TRUNC) 1)
        (.exec [(7, 8)]), ['l', 's', '\x00', 'a', '\x00', 'f', '\x00', 'w'].map ch ++ [0]) := by
    rfl
  exact ⟨_, _, hrun, rfl, fun w hw => (nulterminate_keeps_words hrun w hw).2.1⟩

end Sh
end Xv6
