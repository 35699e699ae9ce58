import Xv6.Fs.Code

/-!
# Copying between the kernel and a process

`either_copyin` and `either_copyout` byte by byte. A source or destination is a
sequence of bytes, some of which a process may not have mapped (`Ptr.get`); a
copy goes page by page and stops at the first byte that is not there.
-/

namespace Xv6
namespace Fs

open Function Nat

/-- The byte at a user address, if its page is mapped. -/
def userByte (u : Umem) (va : Nat) : Option UInt8 :=
  (u (PGROUNDDOWN va)).map fun page => page (va % PGSIZE)

/-- The byte at distance `a` from a pointer. -/
def Ptr.get : Ptr → Nat → Option UInt8
  | .kernel buf, a => some (buf a)
  | .user u va, a => userByte u ((va + a) % 2 ^ 64)

/-! ## Within a page -/

section Page

variable {va a : Nat} (hva : va < 2 ^ 64) (ha : a < PGSIZE - va % PGSIZE)

include hva ha

theorem add_lt_of_page : va + a < 2 ^ 64 := by
  simp only [PGSIZE] at ha
  omega

theorem userByte_page (u : Umem) : userByte u ((va + a) % 2 ^ 64) =
      (u (PGROUNDDOWN va)).map fun page => page (va % PGSIZE + a) := by
  have hdiv : (va + a) / PGSIZE = va / PGSIZE := by
    simp only [PGSIZE] at *
    omega
  have hmod : (va + a) % PGSIZE = va % PGSIZE + a := by
    simp only [PGSIZE] at *
    omega
  unfold userByte
  rw [mod_eq_of_lt (add_lt_of_page hva ha), hmod]
  unfold PGROUNDDOWN
  rw [hdiv]

end Page

theorem next_page {va a : Nat} : ((PGROUNDDOWN va + PGSIZE) % 2 ^ 64 + a) % 2 ^ 64 =
      (va + (PGSIZE - va % PGSIZE + a)) % 2 ^ 64 := by
  unfold PGROUNDDOWN
  simp only [PGSIZE]
  omega

/-! ## `copyin` -/

/-- `p` bytes have been copied to offset `o` of `dst`: all of the `len`, or
    those before the first that is not there. -/
structure CopiedIn (get : Nat → Option UInt8) (dst : Bytes) (o len : Nat) (r : Bytes × Int)
    (p : Nat) : Prop where
  le : p ≤ len
  some : ∀ a < p, (get a).isSome
  bytes : ∀ a, r.1 a = if o ≤ a ∧ a < o + p then (get (a - o)).getD 0 else dst a
  ret : (r.2 = 0 ∧ p = len) ∨ (r.2 = -1 ∧ p < len ∧ get p = none)

theorem copyinLoop_spec (u : Umem) (fuel : Nat) (dst : Bytes) (o va len : Nat) (hfuel : len ≤ fuel)
    (hva : va < 2 ^ 64) :
    ∃ p, CopiedIn (fun a => userByte u ((va + a) % 2 ^ 64)) dst o len
      (copyinLoop u fuel dst o va len) p := by
  induction fuel generalizing dst o va len with
  | zero =>
    obtain rfl : len = 0 := Nat.le_zero.mp hfuel
    exact ⟨0, le_refl _, nofun, fun a => (if_neg (by omega)).symm, .inl ⟨rfl, rfl⟩⟩
  | succ fuel ih =>
    unfold copyinLoop
    by_cases hlen : len > 0
    · simp only [if_pos hlen, sub_PGROUNDDOWN]
      have hoff : 0 < PGSIZE - va % PGSIZE := Nat.sub_pos_of_lt (mod_lt _ (by decide))
      cases hu : u (PGROUNDDOWN va) with
      | none =>
        refine ⟨0, Nat.zero_le _, nofun, fun a => (if_neg (by omega)).symm, .inr ⟨rfl, hlen, ?_⟩⟩
        show userByte u ((va + 0) % 2 ^ 64) = none
        rw [userByte_page hva hoff, hu]
        rfl
      | some page =>
        generalize hn : min (PGSIZE - va % PGSIZE) len = n
        obtain ⟨p, h⟩ := ih (dst.blit o page (va % PGSIZE) n) (o + n)
          ((PGROUNDDOWN va + PGSIZE) % 2 ^ 64) (len - n) (by omega) (mod_lt _ (by decide))
        -- the bytes of this page, and those the rest of the loop finds
        have hhere : ∀ a < n, userByte u ((va + a) % 2 ^ 64) = some (page (va % PGSIZE + a)) := by
          intro a ha
          rw [userByte_page hva (by omega), hu]
          rfl
        have hthere : ∀ a, n < len →
            userByte u (((PGROUNDDOWN va + PGSIZE) % 2 ^ 64 + a) % 2 ^ 64) =
              userByte u ((va + (n + a)) % 2 ^ 64) := by
          intro a hlt
          rw [next_page, show PGSIZE - va % PGSIZE = n by omega]
        have hle := h.le
        refine ⟨n + p, by omega, fun a ha => ?_, fun a => ?_, ?_⟩
        · by_cases han : a < n
          · rw [hhere a han]
            rfl
          · have := h.some (a - n) (by omega)
            rw [hthere _ (by omega), show n + (a - n) = a by omega] at this
            exact this
        · rw [h.bytes]
          by_cases h1 : o + n ≤ a ∧ a < o + n + p
          · rw [if_pos h1, if_pos (by omega), hthere _ (by omega),
              show n + (a - (o + n)) = a - o by omega]
          · rw [if_neg h1]
            by_cases h2 : o ≤ a ∧ a < o + n
            · rw [Bytes.blit_inside h2.1 h2.2, if_pos (by omega), hhere _ (by omega)]
              rfl
            · rw [Bytes.blit_outside (by omega), if_neg (by omega)]
        · rcases h.ret with ⟨h0, hp⟩ | ⟨h0, hp, hget⟩
          · exact .inl ⟨h0, by omega⟩
          · refine .inr ⟨h0, by omega, ?_⟩
            rw [hthere _ (by omega)] at hget
            exact hget
    · rw [if_neg hlen]
      exact ⟨0, Nat.zero_le _, nofun, fun a => (if_neg (by omega)).symm, .inl ⟨rfl, by omega⟩⟩

/-- **`either_copyin`** copies up to the first byte that is not there. -/
theorem eitherCopyin_spec (dst : Bytes) (o : Nat) (src : Ptr) (done len : Nat) :
    ∃ p, CopiedIn (fun a => src.get (done + a)) dst o len (eitherCopyin dst o src done len) p := by
  cases src with
  | kernel buf =>
    refine ⟨len, le_refl _, fun _ _ => rfl, fun a => ?_, .inl ⟨rfl, rfl⟩⟩
    by_cases h : o ≤ a ∧ a < o + len
    · rw [if_pos h]
      exact Bytes.blit_inside h.1 h.2
    · rw [if_neg h]
      exact Bytes.blit_outside (by omega)
  | user u va =>
    have hget : (fun a => (Ptr.user u va).get (done + a)) =
        fun a => userByte u (((va + done) % 2 ^ 64 + a) % 2 ^ 64) := by
      funext a
      show userByte u ((va + (done + a)) % 2 ^ 64) = _
      congr 1
      omega
    rw [hget]
    exact copyinLoop_spec u len dst o _ len (le_refl _) (mod_lt _ (by decide))

/-! ## `copyout` -/

theorem userByte_store (u : Umem) {va n x : Nat} {page src : Bytes} {o : Nat}
    (hu : u (PGROUNDDOWN va) = some page) (hn : n ≤ PGSIZE - va % PGSIZE) :
    userByte (update u (PGROUNDDOWN va) (some (page.blit (va % PGSIZE) src o n))) x =
      if va ≤ x ∧ x < va + n then some (src (o + (x - va))) else userByte u x := by
  unfold userByte
  by_cases hp : PGROUNDDOWN x = PGROUNDDOWN va
  · have hdiv : x / PGSIZE = va / PGSIZE := by
      unfold PGROUNDDOWN at hp
      simp only [PGSIZE] at *
      omega
    rw [hp, update_self, hu, Option.map_some, Option.map_some]
    have hmod : va ≤ x ∧ x < va + n ↔ va % PGSIZE ≤ x % PGSIZE ∧ x % PGSIZE < va % PGSIZE + n := by
      simp only [PGSIZE] at *
      omega
    by_cases h : va ≤ x ∧ x < va + n
    · have h' := hmod.mp h
      have hsub : x % PGSIZE - va % PGSIZE = x - va := by
        simp only [PGSIZE] at *
        omega
      rw [if_pos h, Bytes.blit_inside h'.1 h'.2, hsub]
    · rw [if_neg h, Bytes.blit_outside (by omega)]
  · rw [update_of_ne hp, if_neg]
    intro h
    apply hp
    have hdiv : x / PGSIZE = va / PGSIZE := by
      simp only [PGSIZE] at *
      omega
    unfold PGROUNDDOWN
    rw [hdiv]

/-- **`copyout`** to memory that is mapped. Addresses wrap around. -/
theorem copyoutLoop_spec (src : Bytes) (fuel : Nat) (u : Umem) (va o len : Nat) (hfuel : len ≤ fuel)
    (hva : va < 2 ^ 64) (hlen : len ≤ 2 ^ 64)
    (hmap : ∀ a < len, userByte u ((va + a) % 2 ^ 64) ≠ none) :
    (copyoutLoop src fuel u va o len).2 = 0 ∧
      ∀ a < 2 ^ 64, userByte (copyoutLoop src fuel u va o len).1 ((va + a) % 2 ^ 64) =
        if a < len then some (src (o + a)) else userByte u ((va + a) % 2 ^ 64) := by
  induction fuel generalizing u va o len with
  | zero =>
    obtain rfl : len = 0 := Nat.le_zero.mp hfuel
    exact ⟨rfl, fun a _ => (if_neg (Nat.not_lt_zero a)).symm⟩
  | succ fuel ih =>
    unfold copyoutLoop
    by_cases hpos : len > 0
    · simp only [if_pos hpos, sub_PGROUNDDOWN]
      have hoff : 0 < PGSIZE - va % PGSIZE := Nat.sub_pos_of_lt (mod_lt _ (by decide))
      cases hu : u (PGROUNDDOWN va) with
      | none =>
        refine absurd ?_ (hmap 0 hpos)
        rw [userByte_page hva hoff, hu]
        rfl
      | some page =>
        simp only
        generalize hn : min (PGSIZE - va % PGSIZE) len = n
        generalize hu' : update u (PGROUNDDOWN va)
          (some (page.blit (va % PGSIZE) src o n)) = u'
        -- what the memory holds after this page
        have hstore : ∀ a < 2 ^ 64, userByte u' ((va + a) % 2 ^ 64) =
            if a < n then some (src (o + a)) else userByte u ((va + a) % 2 ^ 64) := by
          intro a ha
          rw [← hu', userByte_store u hu (by omega)]
          have hfit : va + n ≤ 2 ^ 64 := by
            simp only [PGSIZE] at *
            omega
          by_cases han : a < n
          · rw [if_pos (by omega), if_pos han]
            congr 3
            omega
          · rw [if_neg (by omega), if_neg han]
        by_cases hrest : n < len
        · have hnext : ∀ a, ((PGROUNDDOWN va + PGSIZE) % 2 ^ 64 + a) % 2 ^ 64 =
              (va + (n + a)) % 2 ^ 64 := by
            intro a
            rw [next_page, show PGSIZE - va % PGSIZE = n by omega]
          obtain ⟨h0, hbytes⟩ := ih u' ((PGROUNDDOWN va + PGSIZE) % 2 ^ 64) (o + n) (len - n)
            (by omega) (mod_lt _ (by decide)) (by omega) (by
              intro a ha
              rw [hnext, hstore _ (by omega), if_neg (by omega)]
              exact hmap _ (by omega))
          refine ⟨h0, fun a ha => ?_⟩
          by_cases han : a < n
          · -- before this page's end: as the rest of the loop leaves it
            have := hbytes (a + 2 ^ 64 - n) (by omega)
            rw [hnext, show (va + (n + (a + 2 ^ 64 - n))) % 2 ^ 64 = (va + a) % 2 ^ 64 by omega,
              if_neg (by omega), hstore a ha, if_pos han] at this
            rw [this, if_pos (by omega)]
          · have := hbytes (a - n) (by omega)
            rw [hnext, show n + (a - n) = a by omega, show o + n + (a - n) = o + a by omega] at this
            rw [this, hstore a ha, if_neg han]
            by_cases hal : a < len
            · rw [if_pos hal, if_pos (by omega)]
            · rw [if_neg hal, if_neg (by omega)]
        · have hz : len - n = 0 := by omega
          have hdone : ∀ w : Umem, ∀ v p, copyoutLoop src fuel w v p 0 = (w, 0) := by
            intro w v p
            cases fuel with
            | zero => rfl
            | succ fuel =>
              unfold copyoutLoop
              rfl
          rw [hz, hdone]
          refine ⟨rfl, fun a ha => ?_⟩
          rw [hstore a ha, show n = len by omega]
    · rw [if_neg hpos]
      exact ⟨rfl, fun a _ => (if_neg (by omega)).symm⟩

/-- **`either_copyout`** to a destination that is all there. -/
theorem eitherCopyout_spec (dst : Ptr) (done : Nat) (src : Bytes) (o len : Nat)
    (hfit : done + len ≤ 2 ^ 64) (hmap : ∀ a < len, dst.get (done + a) ≠ none) :
    (eitherCopyout dst done src o len).2 = 0 ∧
      ∀ a < 2 ^ 64, (eitherCopyout dst done src o len).1.get a =
        if done ≤ a ∧ a < done + len then some (src (o + (a - done))) else dst.get a := by
  cases dst with
  | kernel buf =>
    refine ⟨rfl, fun a _ => ?_⟩
    show some (buf.blit done src o len a) = _
    by_cases h : done ≤ a ∧ a < done + len
    · rw [if_pos h, Bytes.blit_inside h.1 h.2]
    · rw [if_neg h, Bytes.blit_outside (by omega)]
      rfl
  | user u va =>
    have hget : ∀ (w : Umem) a, (Ptr.user w va).get (done + a) =
        userByte w (((va + done) % 2 ^ 64 + a) % 2 ^ 64) := by
      intro w a
      show userByte w ((va + (done + a)) % 2 ^ 64) = _
      congr 1
      omega
    obtain ⟨h0, hbytes⟩ := copyoutLoop_spec src len u ((va + done) % 2 ^ 64) o len (le_refl _)
      (mod_lt _ (by decide)) (by omega) fun a ha => by rw [← hget]; exact hmap a ha
    refine ⟨h0, fun a ha => ?_⟩
    by_cases hd : done ≤ a
    · have := hbytes (a - done) (by omega)
      rw [← hget, ← hget, show done + (a - done) = a by omega] at this
      refine this.trans ?_
      by_cases h : a < done + len
      · rw [if_pos (by omega), if_pos ⟨hd, h⟩]
      · rw [if_neg (by omega), if_neg fun e => h e.2]
    · -- an address before the destination
      have := hbytes (a + 2 ^ 64 - done) (by omega)
      have hwrap : ((va + done) % 2 ^ 64 + (a + 2 ^ 64 - done)) % 2 ^ 64 = (va + a) % 2 ^ 64 := by
        omega
      rw [hwrap, if_neg (by omega)] at this
      rw [if_neg fun e => hd e.1]
      exact this

end Fs
end Xv6
