import ChipEight.Word

/-!
# Banks of cells

A bank holds one cell for every word of its width. A place outside a bank cannot be named, so
reading and writing are total, and arithmetic on places wraps exactly at the end of the bank.
Memory, the registers, the slots of the call stack and the rows of the frame are banks.

* `Bank.get`, `Bank.set` : one cell;
* `Bank.ofFn` : all cells at once;
* `Bank.get_set`, `Bank.get_ofFn`, `Bank.ext` : a bank is the function that `get` makes of it.
-/

namespace ChipEight

/-- One cell for each word of `w` bits. -/
structure Bank (w : Nat) (α : Type) where
  /-- The cells, in ascending order of their places. -/
  cells : Vector α (wordCount w)
deriving DecidableEq

namespace Bank

variable {w : Nat} {α : Type}

/-- The number of a place among the cells. -/
def position (a : BitVec w) : Fin (wordCount w) := ⟨a.toNat, toNat_lt_wordCount a⟩

/-- The cell at place `a`. -/
def get (b : Bank w α) (a : BitVec w) : α := b.cells.get (position a)

/-- The bank with `v` at place `a`. -/
def set (b : Bank w α) (a : BitVec w) (v : α) : Bank w α :=
  ⟨b.cells.set (position a) v (position a).isLt⟩

/-- The bank whose cell at place `a` is `f a`. -/
def ofFn (f : BitVec w → α) : Bank w α := ⟨Vector.ofFn fun k => f (BitVec.ofNat w k)⟩

/-- The bank with the same cell everywhere. -/
def replicate (v : α) : Bank w α := ofFn fun _ => v

/-- The cells, in ascending order of their places. -/
def toList (b : Bank w α) : List α := b.cells.toList

/-! ### The view through `get` -/

theorem get_eq_getElem (b : Bank w α) (a : BitVec w) : b.get a = b.cells[position a] := rfl

theorem get_set (b : Bank w α) (a c : BitVec w) (v : α) :
    (b.set a v).get c = if a = c then v else b.get c := by
  simp only [get_eq_getElem, set, Fin.getElem_fin, Vector.getElem_set, position, BitVec.toNat_inj]

@[simp] theorem get_set_self (b : Bank w α) (a : BitVec w) (v : α) : (b.set a v).get a = v := by
  rw [get_set, if_pos rfl]

theorem get_set_of_ne (b : Bank w α) {a c : BitVec w} (v : α) (h : a ≠ c) :
    (b.set a v).get c = b.get c := by
  rw [get_set, if_neg h]

theorem get_set_eq_or (b : Bank w α) (a c : BitVec w) (v : α) :
    (b.set a v).get c = b.get c ∨ c = a := by
  by_cases h : a = c
  · exact .inr h.symm
  · exact .inl (get_set_of_ne b v h)

@[simp] theorem get_ofFn (f : BitVec w → α) (a : BitVec w) : (ofFn f).get a = f a := by
  simp [get_eq_getElem, ofFn, position]

@[simp] theorem get_replicate (v : α) (a : BitVec w) : (replicate v : Bank w α).get a = v :=
  get_ofFn _ a

theorem get_ofNat (b : Bank w α) {k : Nat} (h : k < wordCount w) :
    b.get (BitVec.ofNat w k) = b.cells[k] := by
  have hk : (BitVec.ofNat w k).toNat = k := by
    rw [BitVec.toNat_ofNat]
    exact Nat.mod_eq_of_lt h
  simp only [get_eq_getElem, position, Fin.getElem_fin, hk]

@[ext] theorem ext {b c : Bank w α} (h : ∀ a, b.get a = c.get a) : b = c := by
  obtain ⟨b⟩ := b
  obtain ⟨c⟩ := c
  congr 1
  refine Vector.ext fun k hk => ?_
  have := h (BitVec.ofNat w k)
  rwa [get_ofNat _ hk, get_ofNat _ hk] at this

theorem set_set (b : Bank w α) (a : BitVec w) (u v : α) : (b.set a u).set a v = b.set a v := by
  ext c
  by_cases h : a = c
  · rw [h, get_set_self, get_set_self]
  · rw [get_set_of_ne _ _ h, get_set_of_ne _ _ h, get_set_of_ne _ _ h]

theorem set_get (b : Bank w α) (a : BitVec w) : b.set a (b.get a) = b := by
  ext c
  by_cases h : a = c
  · rw [h, get_set_self]
  · rw [get_set_of_ne _ _ h]

@[simp] theorem length_toList (b : Bank w α) : b.toList.length = wordCount w := by
  rw [toList, Vector.length_toList]

theorem getElem?_toList (b : Bank w α) {k : Nat} (h : k < wordCount w) :
    b.toList[k]? = some (b.get (BitVec.ofNat w k)) := by
  rw [toList, Vector.getElem?_toList, Vector.getElem?_eq_getElem h, get_ofNat b h]

theorem length_take_toList (b : Bank w α) {n : Nat} (h : n ≤ wordCount w) :
    (b.toList.take n).length = n := by
  rw [List.length_take, length_toList]
  exact Nat.min_eq_left h

theorem take_toList (b : Bank w α) {n : Nat} (h : n ≤ wordCount w) :
    b.toList.take n = (List.range n).map fun k => b.get (BitVec.ofNat w k) := by
  refine List.ext_getElem? fun k => ?_
  rw [List.getElem?_take, List.getElem?_map]
  by_cases hk : k < n
  · rw [if_pos hk, getElem?_toList b (Nat.lt_of_lt_of_le hk h), List.getElem?_range hk]
    rfl
  · rw [if_neg hk, List.getElem?_eq_none (by simpa using hk)]
    rfl

end Bank

end ChipEight
