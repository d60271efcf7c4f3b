import ChipEight.Proofs.Checks.Machine
import ChipEight.Proofs.KeyWait
import Mathlib.Data.List.Induction

/-!
# Keys over a history

A keypad after any number of presses and releases. A key may be named by any byte, of which the low
digit counts, so several bytes name the same key, and a press under one name is undone by a release
under another one. Of all the moves of a key only the last one matters: the key is down if this was
a press, and without any move it is as it was at the start.

Comparing two keypads then comes down to the moves that have led to them. The key that is found
fresh is the least one that is down on the later keypad and up on the earlier one. It is found by
searching the keys from the least one on; counting the zeros below the lowest bit of the fresh keys
gives the same key.

* `KeyMove`, `KeyMove.Names` : a key going down or up, and the bytes that name it;
* `Keypad.moved`, `Keypad.LastMove` : the keypad after several moves, and the last move of a key;
* `Keypad.isDown_moved_iff` : the last move of a key decides whether it is down;
* `Keypad.getLsbD_freshBits_iff` : the fresh keys, by the bytes that name them;
* `Keypad.keys_of_moves` : the result.
-/

namespace ChipEight

/-- A key goes down or up. -/
structure KeyMove where
  /-- The byte that names the key. -/
  key : Byte
  /-- Whether the key goes down. -/
  down : Bool
deriving DecidableEq, Repr

namespace KeyMove

/-- The change of the keypad. -/
def edit (move : KeyMove) : KeyEdit := if move.down then .press move.key else .release move.key

/-- Whether a byte names the key that moves: its low digit is the same. -/
def Names (move : KeyMove) (key : Byte) : Prop := move.key.toNat % 16 = key.toNat % 16

end KeyMove

namespace Keypad

/-- The keypad after several moves. -/
def moved (p : Keypad) (moves : List KeyMove) : Keypad :=
  (moves.map KeyMove.edit).foldl KeyEdit.apply p

/-- Of the moves of the key that a byte names, `last` is the last one. -/
def LastMove (moves : List KeyMove) (key : Byte) (last : KeyMove) : Prop :=
  ∃ before after, moves = before ++ last :: after ∧ last.Names key ∧
    ∀ move ∈ after, ¬ move.Names key

variable {p q : Keypad} {move last : KeyMove} {moves : List KeyMove} {key : Byte}

/-! ### One move -/

theorem toNat_keyOf (key : Byte) : (keyOf key).toNat = key.toNat % 16 := BitVec.toNat_setWidth ..

theorem keyOf_eq_iff : keyOf key = keyOf move.key ↔ move.Names key := by
  rw [← BitVec.toNat_inj, toNat_keyOf, toNat_keyOf, KeyMove.Names, eq_comm]

theorem isDown_eq_getLsbD : p.isDown key = p.bits.getLsbD (key.toNat % 16) := by
  rw [isDown, holds, toNat_keyOf]

theorem holds_edit (k : Digit) :
    (move.edit.apply p).holds k = if k = keyOf move.key then move.down else p.holds k := by
  cases hd : move.down with
  | true =>
    rw [KeyMove.edit, hd, if_pos rfl, KeyEdit.apply, holds_press]
    by_cases hk : k = keyOf move.key
    · simp [hk]
    · simp [hk]
  | false =>
    rw [KeyMove.edit, hd, if_neg (by simp), KeyEdit.apply, holds_release]
    by_cases hk : k = keyOf move.key
    · simp [hk]
    · simp [hk]

theorem isDown_edit_of_names (h : move.Names key) : (move.edit.apply p).isDown key = move.down := by
  rw [isDown, holds_edit, if_pos (keyOf_eq_iff.2 h)]

theorem isDown_edit_of_not_names (h : ¬ move.Names key) :
    (move.edit.apply p).isDown key = p.isDown key := by
  rw [isDown, holds_edit, if_neg (mt keyOf_eq_iff.1 h), isDown]

/-! ### Several moves -/

theorem moved_concat : p.moved (moves ++ [move]) = move.edit.apply (p.moved moves) := by
  rw [moved, List.map_append, List.foldl_append]
  rfl

/-- Behind any moves one more is the last one of its key, and of no other key. -/
theorem lastMove_concat :
    LastMove (moves ++ [move]) key last ↔
      move.Names key ∧ last = move ∨ ¬ move.Names key ∧ LastMove moves key last := by
  constructor
  · rintro ⟨before, after, h, hlast, hafter⟩
    -- either `last` is the move at the end itself, or this comes after it and is of another key
    rcases List.eq_nil_or_concat after with rfl | ⟨rest, other, rfl⟩
    · obtain ⟨-, hmove⟩ := List.append_inj' h rfl
      obtain rfl : move = last := List.singleton_inj.1 hmove
      exact .inl ⟨hlast, rfl⟩
    · rw [List.concat_eq_append, ← List.cons_append, ← List.append_assoc] at h
      obtain ⟨hmoves, hmove⟩ := List.append_inj' h rfl
      obtain rfl : move = other := List.singleton_inj.1 hmove
      exact .inr ⟨hafter _ (by simp), before, rest, hmoves, hlast,
        fun move hm => hafter move (by simp [hm])⟩
  · rintro (⟨h, rfl⟩ | ⟨h, before, after, rfl, hlast, hafter⟩)
    · exact ⟨moves, [], rfl, h, by simp⟩
    · refine ⟨before, after ++ [move], by simp, hlast, fun other hother => ?_⟩
      rcases List.mem_append.1 hother with hm | hm
      · exact hafter other hm
      · rwa [List.mem_singleton.1 hm]

/-- The last move of a key decides whether it is down; without one it stays as it is. -/
theorem isDown_moved_iff :
    (p.moved moves).isDown key = true ↔
      (∃ last, LastMove moves key last ∧ last.down = true) ∨
        (∀ move ∈ moves, ¬ move.Names key) ∧ p.isDown key = true := by
  induction moves using List.reverseRecOn with
  | nil => simp [moved, LastMove]
  | append_singleton moves move ih =>
    rw [moved_concat]
    by_cases h : move.Names key
    · have hmoved : ¬ ∀ other ∈ moves ++ [move], ¬ other.Names key :=
        fun hnone => hnone move (by simp) h
      rw [isDown_edit_of_names h, or_iff_left fun hnone => hmoved hnone.1]
      simp [lastMove_concat, h]
    · rw [isDown_edit_of_not_names h, ih]
      simp [lastMove_concat, h, or_imp, forall_and]

/-! ### Fresh keys -/

theorem getLsbD_freshBits_iff {j : Nat} :
    (p.freshBits q).getLsbD j = true ↔
      j ≤ 15 ∧ p.isDown (BitVec.ofNat 8 j) = true ∧ q.isDown (BitVec.ofNat 8 j) = false := by
  rw [isDown_eq_getLsbD, isDown_eq_getLsbD, BitVec.toNat_ofNat]
  by_cases hj : j ≤ 15
  · have hkey : j % 256 % 16 = j := by omega
    have hlt : j < 16 := Nat.lt_succ_of_le hj
    simp [freshBits, hkey, hj, hlt]
  · refine iff_of_false (fun h => hj ?_) fun h => hj h.1
    exact Nat.le_of_lt_succ (BitVec.lt_of_getLsbD h)

theorem freshBits_eq_zero_iff :
    p.freshBits q = 0 ↔
      ¬ ∃ j ≤ 15, p.isDown (BitVec.ofNat 8 j) = true ∧ q.isDown (BitVec.ofNat 8 j) = false := by
  constructor
  · rintro h ⟨j, hj⟩
    rw [← getLsbD_freshBits_iff, h] at hj
    simp at hj
  · intro h
    refine BitVec.eq_of_getLsbD_eq fun j _ => ?_
    have hj : ¬ (p.freshBits q).getLsbD j = true := fun hj => h ⟨j, getLsbD_freshBits_iff.1 hj⟩
    simpa using hj

/-- **The keypad after every history.** The key that a byte names is down if and only if the last
move of this key was a press, or it has not moved and its bit was set at the start. Between any two
keypads with a history, the fresh key that is found, be it by searching the keys or by counting
zeros, is the least one that is down on the later keypad and up on the earlier one, and none is
found if and only if there is no such key. -/
theorem keys_of_moves (start before : BitVec 16) (moves earlier : List KeyMove) :
    let p := (⟨start⟩ : Keypad).moved moves
    let q := (⟨before⟩ : Keypad).moved earlier
    (∀ key, p.isDown key = true ↔
      (∃ last, LastMove moves key last ∧ last.down = true) ∨
        (∀ move ∈ moves, ¬ move.Names key) ∧ start.getLsbD (key.toNat % 16) = true) ∧
      (∀ k, p.freshKey? q = some k ↔
        IsLeast {j | j ≤ 15 ∧ p.isDown (BitVec.ofNat 8 j) = true ∧
          q.isDown (BitVec.ofNat 8 j) = false} k.toNat) ∧
      (p.freshKey? q = none ↔
        ¬ ∃ j ≤ 15, p.isDown (BitVec.ofNat 8 j) = true ∧ q.isDown (BitVec.ofNat 8 j) = false) ∧
      p.newKey? q = (p.freshKey? q).map fun k => k.setWidth 8 := by
  intro p q
  refine ⟨fun key => ?_, fun k => ?_, ?_, newKey?_eq⟩
  · rw [isDown_moved_iff, isDown_eq_getLsbD]
  · rw [freshKey?_eq_some]
    simp only [getLsbD_freshBits_iff]
  · rw [freshKey?_eq_none, freshBits_eq_zero_iff]

end Keypad

end ChipEight
