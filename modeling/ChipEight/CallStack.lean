import ChipEight.Bank
import ChipEight.Layout

/-!
# The call stack

Sixteen slots for return addresses, and the number of them in use. Returning frees a slot without
clearing it.

* `CallStack` : the slots and the depth;
* `CallStack.entries` : the return addresses in use, the oldest first;
* `CallStack.push?`, `CallStack.pop?` : calling and returning, which a full or an empty stack
  refuses.
-/

namespace ChipEight

/-- Slots for return addresses; the first `depth` of them are in use. -/
structure CallStack where
  /-- The slots, whether in use or not. -/
  slots : Bank 4 Word
  /-- The number of slots in use. -/
  depth : Nat
  /-- No more slots are in use than there are. -/
  depth_le : depth ≤ stackSize := by decide
deriving DecidableEq

namespace CallStack

/-- Nothing has been called; all slots hold zero. -/
def empty : CallStack := { slots := Bank.replicate 0, depth := 0 }

/-- The place of the slot with number `k`. -/
def slot (k : Nat) : BitVec 4 := BitVec.ofNat 4 k

variable (s : CallStack)

/-- The return addresses in use, the oldest first. -/
def entries : List Word := (List.range s.depth).map fun k => s.slots.get (slot k)

/-- The stack with one more return address; a full stack has no room for it. -/
def push? (w : Word) : Option CallStack :=
  if h : s.depth < stackSize then
    some { slots := s.slots.set (slot s.depth) w, depth := s.depth + 1, depth_le := h }
  else none

/-- The newest return address and the stack without it, if there is one. -/
def pop? : Option (Word × CallStack) :=
  match h : s.depth with
  | 0 => none
  | d + 1 =>
    some (s.slots.get (slot d),
      { s with depth := d, depth_le := Nat.le_of_succ_le (h ▸ s.depth_le) })

/-! ### The view through `entries` -/

variable {s}

theorem push?_eq_none_iff {w : Word} : s.push? w = none ↔ s.depth = stackSize := by
  have := s.depth_le
  simp only [push?, dite_eq_right_iff, reduceCtorEq, imp_false]
  omega

theorem pop?_eq_none_iff : s.pop? = none ↔ s.depth = 0 := by
  unfold pop?
  split
  · rename_i h
    simp [h]
  · rename_i h
    simp [h]

/-- Calling writes the first free slot. -/
theorem push?_eq_some {t : CallStack} {w : Word} (h : s.push? w = some t) :
    s.depth < stackSize ∧ t.slots = s.slots.set (slot s.depth) w ∧ t.depth = s.depth + 1 := by
  unfold push? at h
  split at h
  · rename_i hd
    obtain rfl := Option.some.inj h
    exact ⟨hd, rfl, rfl⟩
  · simp at h

/-- Returning reads the last slot in use and changes none. -/
theorem pop?_eq_some {t : CallStack} {w : Word} (h : s.pop? = some (w, t)) :
    s.depth = t.depth + 1 ∧ w = s.slots.get (slot t.depth) ∧ t.slots = s.slots := by
  unfold pop? at h
  split at h
  · simp at h
  · rename_i d hd
    obtain ⟨rfl, rfl⟩ := Prod.mk.inj (Option.some.inj h)
    exact ⟨hd, rfl, rfl⟩

/-- What holds of all slots and of the return address still holds of all slots after the call. -/
theorem forall_slot_of_push? {t : CallStack} {w : Word} {P : Word → Prop} (h : s.push? w = some t)
    (hs : ∀ k, P (s.slots.get k)) (hw : P w) (k : BitVec 4) : P (t.slots.get k) := by
  obtain ⟨-, hslots, -⟩ := push?_eq_some h
  rw [hslots, Bank.get_set]
  split
  · exact hw
  · exact hs k

theorem slot_ne {j k : Nat} (hj : j < k) (hk : k < stackSize) : slot k ≠ slot j := by
  intro h
  have := congrArg BitVec.toNat h
  simp only [slot, BitVec.toNat_ofNat] at this
  simp only [stackSize] at hk
  omega

@[simp] theorem length_entries : s.entries.length = s.depth := by
  simp [entries]

theorem entries_of_push? {t : CallStack} {w : Word} (h : s.push? w = some t) :
    t.entries = s.entries ++ [w] := by
  obtain ⟨hd, hslots, hdepth⟩ := push?_eq_some h
  simp only [entries, hslots, hdepth, List.range_succ, List.map_append, List.map_cons,
    List.map_nil, Bank.get_set_self]
  congr 1
  refine List.map_congr_left fun k hk => ?_
  exact Bank.get_set_of_ne _ _ (slot_ne (List.mem_range.1 hk) hd)

theorem entries_of_pop? {t : CallStack} {w : Word} (h : s.pop? = some (w, t)) :
    s.entries = t.entries ++ [w] := by
  obtain ⟨hd, rfl, hslots⟩ := pop?_eq_some h
  simp [entries, hd, hslots, List.range_succ]

theorem exists_push? (h : s.entries.length < stackSize) (w : Word) :
    ∃ t, s.push? w = some t ∧ t.entries = s.entries ++ [w] := by
  rw [length_entries] at h
  cases hp : s.push? w with
  | none => exact absurd (push?_eq_none_iff.1 hp) (Nat.ne_of_lt h)
  | some t => exact ⟨t, rfl, entries_of_push? hp⟩

theorem exists_pop? {entries : List Word} {w : Word} (h : s.entries = entries ++ [w]) :
    ∃ t, s.pop? = some (w, t) ∧ t.entries = entries := by
  cases hp : s.pop? with
  | none =>
    have hd : s.entries.length = 0 := by rw [length_entries, pop?_eq_none_iff.1 hp]
    rw [h, List.length_append] at hd
    cases hd
  | some p =>
    obtain ⟨v, t⟩ := p
    obtain ⟨he, hv⟩ := List.append_singleton_inj.1 ((entries_of_pop? hp).symm.trans h)
    exact ⟨t, by rw [hv], he⟩

end CallStack

end ChipEight
