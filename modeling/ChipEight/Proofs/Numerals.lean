import ChipEight.Text.Hex
import Mathlib.Data.List.Induction

/-!
# Reading hexadecimal numerals

A numeral is read digit by digit from the left, and zeros in front do not count. What is written
for a number is read as that number, so no two numbers have the same numeral. And as zeros stand in
front only up to a width, a number has one numeral of each width.

* `Hex.digitValue?`, `Hex.value?` : the number that digits stand for, if they all are digits;
* `Hex.Spells` : a numeral of a number, with zeros in front only up to a width;
* `Hex.Fills` : a numeral of just so many digits;
* `Hex.spells_numeral`, `Hex.fills_numeral` : what is written for a number is such a numeral;
* `Hex.Spells.unique` : there is no other one.
-/

namespace ChipEight

namespace Hex

/-- The number that a digit stands for; its letters are upper-case. -/
def digitValue? (c : Char) : Option Nat :=
  if '0' ≤ c ∧ c ≤ '9' then some (c.toNat - '0'.toNat)
  else if 'A' ≤ c ∧ c ≤ 'F' then some (c.toNat - 'A'.toNat + 10)
  else none

/-- The number that digits stand for, the most significant one first. -/
def value? (s : List Char) : Option Nat :=
  s.foldlM (fun n c => (digitValue? c).map (16 * n + ·)) 0

/-- The text stands for the number `n` and has at least `width` digits; if it has more, then there
is no zero in front. -/
structure Spells (width n : Nat) (s : String) : Prop where
  /-- Its characters are digits that stand for the number. -/
  value : value? s.toList = some n
  /-- There are enough of them. -/
  width_le : width ≤ s.length
  /-- There are no more of them than needed. -/
  head_ne : width < s.length → s.toList.head? ≠ some '0'

/-- The text stands for the number `n` and has just `width` digits. -/
structure Fills (width n : Nat) (s : String) : Prop extends Spells width n s where
  /-- This is how many digits there are. -/
  length_eq : s.length = width

variable {n width : Nat} {s t : List Char} {c : Char}

theorem value?_concat :
    value? (s ++ [c]) = (value? s).bind fun n => (digitValue? c).map (16 * n + ·) := by
  rw [value?, List.foldlM_append]
  simp [value?]

theorem value?_singleton : value? [c] = digitValue? c := by
  simp [value?]

theorem value?_zeros (k : Nat) : value? (List.replicate k '0' ++ s) = value? s := by
  have hzero : digitValue? '0' = some 0 := by decide
  induction k with
  | zero => rfl
  | succ k ih =>
    rw [← ih, List.replicate_succ, List.cons_append, value?, List.foldlM_cons, hzero]
    rfl

theorem digitValue?_of_mem (h : value? s = some n) (hc : c ∈ s) : (digitValue? c).isSome := by
  obtain ⟨first, rest, rfl⟩ := List.append_of_mem hc
  rw [value?, List.foldlM_append] at h
  cases hd : digitValue? c with
  | some d => rfl
  | none => simp [hd] at h

theorem digitValue?_digitChar : ∀ d < 16, digitValue? (Nat.digitChar d).toUpper = some d := by
  decide

theorem code_of_digitValue? {d : Nat} (h : digitValue? c = some d) :
    d < 16 ∧ c.toNat = if d < 10 then d + 48 else d + 55 := by
  have hle (a b : Char) : a ≤ b ↔ a.toNat ≤ b.toNat := Iff.rfl
  simp only [digitValue?, hle, Char.reduceToNat] at h
  split at h
  next hc =>
    obtain rfl := Option.some.inj h
    rw [if_pos (by omega)]
    omega
  next =>
    split at h
    next hc =>
      obtain rfl := Option.some.inj h
      rw [if_neg (by omega)]
      omega
    next => cases h

theorem value?_concat_eq_some (h : value? (s ++ [c]) = some n) :
    value? s = some (n / 16) ∧ digitValue? c = some (n % 16) := by
  rw [value?_concat] at h
  obtain ⟨m, hm, hc⟩ := Option.bind_eq_some_iff.1 h
  obtain ⟨d, hd, rfl⟩ := Option.map_eq_some_iff.1 hc
  have hlt := (code_of_digitValue? hd).1
  have hdiv : (16 * m + d) / 16 = m := by omega
  have hmod : (16 * m + d) % 16 = d := by omega
  rw [hm, hd, hdiv, hmod]
  exact ⟨rfl, rfl⟩

/-- As many digits for the same number are the same digits. -/
theorem eq_of_value?_eq (hlength : s.length = t.length) (hs : value? s = some n)
    (ht : value? t = some n) : s = t := by
  induction s using List.reverseRecOn generalizing t n with
  | nil => exact (List.eq_nil_of_length_eq_zero hlength.symm).symm
  | append_singleton s c ih =>
    rcases List.eq_nil_or_concat t with rfl | ⟨t, c', rfl⟩
    · simp at hlength
    · rw [List.concat_eq_append] at ht hlength ⊢
      obtain ⟨hs', hc⟩ := value?_concat_eq_some hs
      obtain ⟨ht', hc'⟩ := value?_concat_eq_some ht
      have hcode := (code_of_digitValue? hc).2.trans (code_of_digitValue? hc').2.symm
      rw [ih (by simpa using hlength) hs' ht', Char.toNat_inj.1 hcode]

namespace Spells

variable {s t : String}

theorem length_le (hs : Spells width n s) (ht : Spells width n t) : t.length ≤ s.length := by
  by_contra hlt
  -- with zeros in front, the shorter text is the longer one, which begins with no zero
  have hzeros : List.replicate (t.length - s.length) '0' ++ s.toList = t.toList := by
    refine eq_of_value?_eq ?_ ((value?_zeros _).trans hs.value) ht.value
    simp only [List.length_append, List.length_replicate, String.length_toList]
    omega
  obtain ⟨k, hk⟩ : ∃ k, t.length - s.length = k + 1 := ⟨t.length - s.length - 1, by omega⟩
  rw [hk] at hzeros
  refine ht.head_ne (Nat.lt_of_le_of_lt hs.width_le (by omega)) ?_
  rw [← hzeros]
  rfl

/-- A number has one numeral of each width. -/
theorem unique (hs : Spells width n s) (ht : Spells width n t) : s = t := by
  refine String.toList_inj.1 (eq_of_value?_eq ?_ hs.value ht.value)
  rw [String.length_toList, String.length_toList]
  exact Nat.le_antisymm (ht.length_le hs) (hs.length_le ht)

end Spells

/-! ### The digits of a number -/

theorem digits_of_lt (h : n < 16) : digits n = [(Nat.digitChar n).toUpper] := by
  rw [digits, Nat.toDigits_of_lt_base h]
  rfl

theorem digits_of_le (h : 16 ≤ n) :
    digits n = digits (n / 16) ++ [(Nat.digitChar (n % 16)).toUpper] := by
  rw [digits, Nat.toDigits_eq_if (by decide), if_neg (by omega), List.map_append]
  rfl

theorem digits_ne_nil (n : Nat) : digits n ≠ [] := by
  simp [digits, Nat.toDigits_ne_nil]

theorem value?_digits (n : Nat) : value? (digits n) = some n := by
  induction n using Nat.strongRecOn with
  | ind n ih =>
    by_cases h : n < 16
    · rw [digits_of_lt h, value?_singleton, digitValue?_digitChar n h]
    · have hlast : n % 16 < 16 := Nat.mod_lt n (by decide)
      rw [digits_of_le (by omega), value?_concat, ih (n / 16) (by omega),
        digitValue?_digitChar _ hlast]
      simp only [Option.bind_some, Option.map_some, Option.some.injEq]
      omega

/-- Only zero begins with a zero. -/
theorem head?_digits_ne (h : 0 < n) : (digits n).head? ≠ some '0' := by
  induction n using Nat.strongRecOn with
  | ind n ih =>
    by_cases hn : n < 16
    · intro hhead
      have hvalue := value?_digits n
      rw [digits_of_lt hn] at hhead hvalue
      rw [Option.some.inj hhead] at hvalue
      have : n = 0 := (Option.some.inj hvalue).symm
      omega
    · obtain ⟨d, rest, hd⟩ := List.exists_cons_of_ne_nil (digits_ne_nil (n / 16))
      have hfirst := ih (n / 16) (by omega) (by omega)
      rw [digits_of_le (by omega)]
      rw [hd] at hfirst ⊢
      exact hfirst

/-! ### Numerals -/

theorem toList_numeral :
    (numeral width n).toList = List.replicate (width - (digits n).length) '0' ++ digits n := by
  rw [numeral, String.toList_ofList, List.leftpad]

/-- What is written for a number is read as that number. -/
theorem value?_numeral (width n : Nat) : value? (numeral width n).toList = some n := by
  rw [toList_numeral, value?_zeros, value?_digits]

theorem length_numeral : (numeral width n).length = max width (digits n).length := by
  rw [numeral, String.length_ofList, List.length_leftpad]

/-- A number is written with as many digits as asked for, and with more only if it needs them. -/
theorem spells_numeral (h : 0 < width) (n : Nat) : Spells width n (numeral width n) where
  value := value?_numeral width n
  width_le := by
    rw [length_numeral]
    exact Nat.le_max_left _ _
  head_ne hlong := by
    have hdigits : width < (digits n).length := by
      rw [length_numeral] at hlong
      omega
    have hpos : 0 < n := by
      refine Nat.pos_of_ne_zero ?_
      rintro rfl
      rw [digits_of_lt (by decide), List.length_singleton] at hdigits
      omega
    rw [toList_numeral, Nat.sub_eq_zero_of_le (by omega)]
    exact head?_digits_ne hpos

theorem notMem_numeral (hc : digitValue? c = none) : c ∉ (numeral width n).toList := by
  intro hmem
  have := digitValue?_of_mem (value?_numeral width n) hmem
  rw [hc] at this
  cases this

/-- A number that has room in `width` digits is written with just so many. -/
theorem length_numeral_of_lt (h : 0 < width) (hn : n < wordCount (4 * width)) :
    (numeral width n).length = width := by
  have hdigits : (digits n).length ≤ width := by
    rw [digits, List.length_map, Nat.length_toDigits_le_iff (by decide) h]
    exact Nat.lt_of_lt_of_eq hn (Nat.pow_mul 2 4 width)
  rw [length_numeral]
  omega

theorem fills_numeral (h : 0 < width) (hn : n < wordCount (4 * width)) :
    Fills width n (numeral width n) :=
  ⟨spells_numeral h n, length_numeral_of_lt h hn⟩

end Hex

end ChipEight
