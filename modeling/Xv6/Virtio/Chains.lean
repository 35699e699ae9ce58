import Mathlib.Data.List.Nodup
import Xv6.Virtio.Driver

/-!
# Who has which descriptor

What a thread relies on at each place of the code (`At`), and the two facts
about all threads together that let it: each descriptor that is not free is one
thread's (`Chains`), and only the thread that holds `vdisk_lock` is inside
(`Threads`).
-/

namespace Xv6

open Function

namespace Virtio

variable {P B : Type}

/-- The rest of the chain from descriptor `i` on. -/
def Idx.rest (x : Idx) (i : Nat) : List Nat :=
  if i = x.i0 then [x.i0, x.i1, x.i2] else if i = x.i1 then [x.i1, x.i2] else [x.i2]

namespace Pc

/-- The call the thread is in. -/
def call : Pc B → Option (Call B)
  | .enter c | .alloc c _ | .undo c _ | .doze c | .format c _ | .enqueue c _ | .publish c _
  | .wait c _ | .asleep c _ | .freeing c _ _ | .exit c _ => some c
  | .idle | .intrEnter | .intrLoop | .intrEntry _ | .intrExit => none

/-- The thread holds `vdisk_lock`. -/
def holds : Pc B → Bool
  | .idle | .enter _ | .doze _ | .asleep _ _ | .intrEnter => false
  | _ => true

/-- The descriptors it has. -/
def owned : Pc B → List Nat
  | .alloc _ got => got
  | .undo _ rest => rest
  | .format _ x | .enqueue _ x | .publish _ x | .wait _ x | .asleep _ x => x.toList
  | .freeing _ x i => x.rest i
  | _ => []

/-- It waits for the device. -/
def waiting : Pc B → Option (Call B × Idx)
  | .wait c x | .asleep c x => some (c, x)
  | _ => none

/-- Its chain is in memory and not yet taken apart. -/
def inFlight : Pc B → Option (Call B × Idx)
  | .enqueue c x | .publish c x | .wait c x | .asleep c x => some (c, x)
  | _ => none

theorem call_of_waiting {l : Pc B} {c : Call B} {x : Idx} (h : l.waiting = some (c, x)) :
    l.call = some c := by
  cases l with
  | wait c' x' | asleep c' x' =>
    injection h with h
    injection h with h
    rw [call, h]
  | _ => cases h

theorem owned_of_waiting {l : Pc B} {c : Call B} {x : Idx} (h : l.waiting = some (c, x)) :
    l.owned = x.toList := by
  cases l with
  | wait c' x' | asleep c' x' =>
    injection h with h
    injection h with _ h
    rw [owned, h]
  | _ => cases h

end Pc

/-- The descriptor of a chain at `j`. -/
def Call.descAt (c : Call B) (x : Idx) (j : Nat) : Desc B :=
  if j = x.i0 then c.desc0 x else if j = x.i1 then c.desc1 x else c.desc2 x

/-- The call's request, as the device should read it. -/
def Call.req (c : Call B) (x : Idx) : Req B :=
  { head := x.i0, op := c.op, data := c.b, status := x.i0 }

namespace State

/-- The avail entries the device has not consumed. -/
def avail (s : State P B) : List Nat := Ring.contents NUM s.availRing s.lastAvail s.availIdx

/-- The used entries `virtio_disk_intr` has not read. -/
def unread (s : State P B) : List Nat := Ring.contents NUM s.usedRing s.lookedIdx s.usedIdx

/-- The device has not completed the call's request. -/
def Fresh (s : State P B) (c : Call B) : Prop := c.n ∉ s.completed.map fun r => r.op.call

/-- The chain is in memory. -/
structure Formed (s : State P B) (c : Call B) (x : Idx) : Prop where
  desc : ∀ j ∈ x.toList, s.desc j = c.descAt x j
  ops : s.ops x.i0 = c.op
  info : (s.info x.i0).b = some c.b

/-- What a waiting thread knows of its request: the buffer is given back only
    when the device has completed it, and once completed it is unread or the
    buffer has been given back. -/
structure Waits (s : State P B) (c : Call B) (x : Idx) : Prop where
  done : s.disk c.b = false → c.req x ∈ s.completed
  told : s.Fresh c ∨ s.disk c.b = false ∨ ∃ r ∈ s.completed.drop s.seen, r.op.call = c.n

/-- What a thread relies on. -/
def At (s : State P B) : Pc B → Prop
  | .enter c | .alloc c _ | .undo c _ | .doze c | .format c _ => s.Fresh c
  | .enqueue c x => s.Fresh c ∧ s.Formed c x ∧ s.disk c.b = true
  | .publish c x =>
    s.Fresh c ∧ s.Formed c x ∧ s.disk c.b = true ∧
      s.availRing (s.availIdx.toNat % NUM) = x.i0
  | .wait c x | .asleep c x => s.Formed c x ∧ s.Waits c x
  | .freeing c x i =>
    i ∈ x.toList ∧ x.toList.Nodup ∧ (∀ j ∈ x.rest i, s.desc j = c.descAt x j) ∧
      c.req x ∈ s.completed
  | .exit c x => c.req x ∈ s.completed
  | .intrEntry id => s.unread.head? = some id
  | .idle | .intrEnter | .intrLoop | .intrExit => True

variable {s s' : State P B} {l l' : Pc B} {c : Call B} {x : Idx} {p q : P}

theorem At.of_waiting (h : s.At l) (hl : l.waiting = some (c, x)) : s.Formed c x ∧ s.Waits c x := by
  cases l with
  | wait c' x' | asleep c' x' =>
    injection hl with hl
    injection hl with hc hx
    subst hc hx
    exact h
  | _ => cases hl

/-- `s'` keeps what a thread at `l` relies on in `s`. -/
structure Spares (s s' : State P B) (l : Pc B) : Prop where
  desc : ∀ j ∈ l.owned, s'.desc j = s.desc j
  ops : ∀ j ∈ l.owned, s'.ops j = s.ops j
  info : ∀ j ∈ l.owned, (s'.info j).b = (s.info j).b
  disk : ∀ c, l.call = some c → l.waiting = none → s'.disk c.b = s.disk c.b
  fresh : ∀ c, l.call = some c → l.waiting = none → s.Fresh c → s'.Fresh c
  waits : ∀ c x, l.waiting = some (c, x) → s.Waits c x → s'.Waits c x
  ring : l.holds = true → s'.availRing = s.availRing ∧ s'.availIdx = s.availIdx
  unread : l.holds = true → ∀ id, s.unread.head? = some id → s'.unread.head? = some id
  completed : ∀ r ∈ s.completed, r ∈ s'.completed

theorem Waits.of_eq (h : s.Waits c x) (hdisk : s'.disk c.b = s.disk c.b)
    (hcompleted : s'.completed = s.completed) (hseen : s'.seen = s.seen) : s'.Waits c x := by
  refine ⟨?_, ?_⟩
  · rw [hdisk, hcompleted]
    exact h.done
  · unfold Fresh
    rw [hdisk, hcompleted, hseen]
    exact h.told

theorem Spares.of_eq (hdesc : s'.desc = s.desc) (hops : s'.ops = s.ops)
    (hinfo : ∀ j, (s'.info j).b = (s.info j).b)
    (hdisk : s'.disk = s.disk) (hring : s'.availRing = s.availRing)
    (hidx : s'.availIdx = s.availIdx) (hunread : s'.unread = s.unread)
    (hcompleted : s'.completed = s.completed) (hseen : s'.seen = s.seen) : Spares s s' l := by
  refine ⟨?_, ?_, fun j _ => hinfo j, ?_, ?_, ?_, fun _ => ⟨hring, hidx⟩, ?_, ?_⟩
  · intro j _
    rw [hdesc]
  · intro j _
    rw [hops]
  · intro c _ _
    rw [hdisk]
  · intro c _ _ hfresh
    unfold Fresh
    rw [hcompleted]
    exact hfresh
  · intro c x _ hwaits
    exact hwaits.of_eq (by rw [hdisk]) hcompleted hseen
  · intro _ id hid
    rw [hunread]
    exact hid
  · intro r hr
    rw [hcompleted]
    exact hr

theorem Spares.formed (h : Spares s s' l) (hl : l.owned = x.toList) (hf : s.Formed c x) :
    s'.Formed c x := by
  have hi0 : x.i0 ∈ l.owned := by simp [hl, Idx.toList]
  refine ⟨?_, ?_, ?_⟩
  · intro j hj
    rw [h.desc j (by rw [hl]; exact hj)]
    exact hf.desc j hj
  · rw [h.ops x.i0 hi0]
    exact hf.ops
  · rw [h.info x.i0 hi0]
    exact hf.info

theorem Spares.at (h : Spares s s' l) (hat : s.At l) : s'.At l := by
  cases l with
  | enter c | alloc c got | undo c rest | doze c | format c x => exact h.fresh c rfl rfl hat
  | enqueue c x =>
    obtain ⟨hfresh, hformed, hdisk⟩ := hat
    refine ⟨h.fresh c rfl rfl hfresh, h.formed rfl hformed, ?_⟩
    rw [h.disk c rfl rfl]
    exact hdisk
  | publish c x =>
    obtain ⟨hfresh, hformed, hdisk, hring⟩ := hat
    refine ⟨h.fresh c rfl rfl hfresh, h.formed rfl hformed, ?_, ?_⟩
    · rw [h.disk c rfl rfl]
      exact hdisk
    · rw [(h.ring rfl).1, (h.ring rfl).2]
      exact hring
  | wait c x | asleep c x => exact ⟨h.formed rfl hat.1, h.waits c x rfl hat.2⟩
  | freeing c x i =>
    obtain ⟨hi, hnodup, hdesc, hdone⟩ := hat
    refine ⟨hi, hnodup, ?_, h.completed _ hdone⟩
    intro j hj
    rw [h.desc j hj]
    exact hdesc j hj
  | exit c x => exact h.completed _ hat
  | intrEntry id => exact h.unread rfl id hat
  | idle | intrEnter | intrLoop | intrExit => trivial

/-! ## Threads -/

/-- Only the holder of the lock is inside, and no two calls share a buffer or a
    number. -/
structure Threads (s : State P B) : Prop where
  lock : ∀ p, (s.pc p).holds = true ↔ s.lock = some p
  call : ∀ p c, (s.pc p).call = some c → c.n < s.calls ∧ s.locked c.b = true
  buf : ∀ p q c c', (s.pc p).call = some c → (s.pc q).call = some c' → c.b = c'.b → p = q
  num : ∀ p q c c', (s.pc p).call = some c → (s.pc q).call = some c' → c.n = c'.n → p = q

theorem Threads.alone (h : s.Threads) (hp : (s.pc p).holds = true) (hq : (s.pc q).holds = true) :
    q = p := by
  have hlock := (h.lock p).mp hp
  rw [(h.lock q).mp hq] at hlock
  injection hlock

theorem Threads.move (h : s.Threads) (hpc : ∀ q, q ≠ p → s'.pc q = s.pc q)
    (hcall : (s'.pc p).call = (s.pc p).call) (hself : (s'.pc p).holds = true ↔ s'.lock = some p)
    (hlock : ∀ q, q ≠ p → (s'.lock = some q ↔ s.lock = some q))
    (hcalls : s'.calls = s.calls) (hlocked : s'.locked = s.locked) : s'.Threads := by
  have hsame : ∀ q, (s'.pc q).call = (s.pc q).call := by
    intro q
    by_cases hq : q = p
    · rw [hq, hcall]
    · rw [hpc q hq]
  refine ⟨?_, ?_, ?_, ?_⟩
  · intro q
    by_cases hq : q = p
    · rw [hq]
      exact hself
    · rw [hpc q hq, hlock q hq]
      exact h.lock q
  · intro q c hc
    rw [hsame] at hc
    rw [hcalls, hlocked]
    exact h.call q c hc
  · intro q q' c c' hc hc'
    rw [hsame] at hc hc'
    exact h.buf q q' c c' hc hc'
  · intro q q' c c' hc hc'
    rw [hsame] at hc hc'
    exact h.num q q' c c' hc hc'

theorem Threads.device (h : s.Threads) (hpc : s'.pc = s.pc) (hlock : s'.lock = s.lock)
    (hcalls : s'.calls = s.calls) (hlocked : s'.locked = s.locked) : s'.Threads := by
  refine ⟨?_, ?_, ?_, ?_⟩
  · rw [hpc, hlock]
    exact h.lock
  · rw [hpc, hcalls, hlocked]
    exact h.call
  · rw [hpc]
    exact h.buf
  · rw [hpc]
    exact h.num

/-! ## Descriptors -/

/-- Every descriptor is free or is one thread's. -/
structure Chains (s : State P B) : Prop where
  nodup : ∀ p, (s.pc p).owned.Nodup
  taken : ∀ p i, i ∈ (s.pc p).owned → i < NUM ∧ s.free i = false
  inj : ∀ p q i, i ∈ (s.pc p).owned → i ∈ (s.pc q).owned → p = q
  owner : ∀ i, i < NUM → s.free i = false → ∃ p, i ∈ (s.pc p).owned

theorem Chains.keep (h : s.Chains) (hpc : ∀ q, q ≠ p → s'.pc q = s.pc q)
    (howned : (s'.pc p).owned = (s.pc p).owned) (hfree : s'.free = s.free) : s'.Chains := by
  have hsame : ∀ q, (s'.pc q).owned = (s.pc q).owned := by
    intro q
    by_cases hq : q = p
    · rw [hq, howned]
    · rw [hpc q hq]
  refine ⟨?_, ?_, ?_, ?_⟩
  · intro q
    rw [hsame]
    exact h.nodup q
  · intro q i hi
    rw [hsame] at hi
    rw [hfree]
    exact h.taken q i hi
  · intro q q' i hi hi'
    rw [hsame] at hi hi'
    exact h.inj q q' i hi hi'
  · intro i hlt hi
    rw [hfree] at hi
    obtain ⟨q, hq⟩ := h.owner i hlt hi
    refine ⟨q, ?_⟩
    rw [hsame]
    exact hq

theorem Chains.device (h : s.Chains) (hpc : s'.pc = s.pc) (hfree : s'.free = s.free) :
    s'.Chains := by
  refine ⟨?_, ?_, ?_, ?_⟩
  · rw [hpc]
    exact h.nodup
  · rw [hpc, hfree]
    exact h.taken
  · rw [hpc]
    exact h.inj
  · rw [hpc, hfree]
    exact h.owner

theorem Chains.take {i : Nat} (h : s.Chains) (hlt : i < NUM) (hi : s.free i = true)
    (hpc : ∀ q, q ≠ p → s'.pc q = s.pc q) (howned : (s'.pc p).owned = (s.pc p).owned ++ [i])
    (hfree : s'.free = update s.free i false) : s'.Chains := by
  have hnew : ∀ q, i ∉ (s.pc q).owned := by
    intro q hq
    rw [(h.taken q i hq).2] at hi
    cases hi
  have hmem : ∀ q j, j ∈ (s'.pc q).owned ↔ j ∈ (s.pc q).owned ∨ (q = p ∧ j = i) := by
    intro q j
    by_cases hq : q = p
    · subst hq
      rw [howned]
      simp
    · rw [hpc q hq]
      simp [hq]
  refine ⟨?_, ?_, ?_, ?_⟩
  · intro q
    by_cases hq : q = p
    · subst hq
      rw [howned, List.nodup_append]
      refine ⟨h.nodup q, by simp, ?_⟩
      intro a ha b hb heq
      rw [List.mem_singleton.mp hb] at heq
      rw [heq] at ha
      exact hnew q ha
    · rw [hpc q hq]
      exact h.nodup q
  · intro q j hj
    rw [hfree]
    rcases (hmem q j).mp hj with hj | ⟨-, rfl⟩
    · have hne : j ≠ i := by
        intro heq
        rw [heq] at hj
        exact hnew q hj
      rw [update_of_ne hne]
      exact h.taken q j hj
    · exact ⟨hlt, by simp⟩
  · intro q q' j hj hj'
    rcases (hmem q j).mp hj with hj | ⟨rfl, rfl⟩
    · rcases (hmem q' j).mp hj' with hj' | ⟨rfl, rfl⟩
      · exact h.inj q q' j hj hj'
      · exact absurd hj (hnew q)
    · rcases (hmem q' j).mp hj' with hj' | ⟨rfl, -⟩
      · exact absurd hj' (hnew q')
      · rfl
  · intro j hjlt hj
    rw [hfree] at hj
    by_cases hji : j = i
    · exact ⟨p, (hmem p j).mpr (.inr ⟨rfl, hji⟩)⟩
    · rw [update_of_ne hji] at hj
      obtain ⟨q, hq⟩ := h.owner j hjlt hj
      exact ⟨q, (hmem q j).mpr (.inl hq)⟩

theorem Chains.give {i : Nat} (h : s.Chains) (hpc : ∀ q, q ≠ p → s'.pc q = s.pc q)
    (howned : (s.pc p).owned = i :: (s'.pc p).owned)
    (hfree : s'.free = update s.free i true) : s'.Chains := by
  have hnodup : (i :: (s'.pc p).owned).Nodup := by
    rw [← howned]
    exact h.nodup p
  have hmine : i ∈ (s.pc p).owned := by simp [howned]
  have hmem : ∀ q j, j ∈ (s'.pc q).owned → j ∈ (s.pc q).owned ∧ j ≠ i := by
    intro q j hj
    by_cases hq : q = p
    · subst hq
      refine ⟨by simp [howned, hj], ?_⟩
      intro heq
      rw [heq] at hj
      exact (List.nodup_cons.mp hnodup).1 hj
    · rw [hpc q hq] at hj
      refine ⟨hj, ?_⟩
      intro heq
      rw [heq] at hj
      exact hq (h.inj q p i hj hmine)
  refine ⟨?_, ?_, ?_, ?_⟩
  · intro q
    by_cases hq : q = p
    · subst hq
      exact (List.nodup_cons.mp hnodup).2
    · rw [hpc q hq]
      exact h.nodup q
  · intro q j hj
    obtain ⟨hj, hne⟩ := hmem q j hj
    rw [hfree, update_of_ne hne]
    exact h.taken q j hj
  · intro q q' j hj hj'
    exact h.inj q q' j (hmem q j hj).1 (hmem q' j hj').1
  · intro j hlt hj
    rw [hfree] at hj
    have hne : j ≠ i := by
      intro heq
      rw [heq, update_self] at hj
      cases hj
    rw [update_of_ne hne] at hj
    obtain ⟨q, hq⟩ := h.owner j hlt hj
    refine ⟨q, ?_⟩
    by_cases hqp : q = p
    · subst hqp
      rw [howned] at hq
      rcases List.mem_cons.mp hq with hq | hq
      · exact absurd hq hne
      · exact hq
    · rw [hpc q hqp]
      exact hq

end State

end Virtio

end Xv6
