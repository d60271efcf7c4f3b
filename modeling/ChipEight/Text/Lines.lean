/-!
# Lines of text

A line of a text ends with a line feed, and a carriage return just before the line feed belongs to
that end. What stands behind the last line feed is a line as well, unless it is empty.

* `Lines.split` : the lines of a text;
* `Lines.join` : texts one after the other, each with a line feed behind it;
* `Lines.split_join` : **the lines of joined texts** are those of each text in turn, so a text that
  holds line feeds spreads over several lines.
-/

namespace ChipEight

namespace Lines

/-- A character in front of the first of some lines. -/
def push (c : Char) : List (List Char) → List (List Char)
  | [] => [[c]]
  | line :: lines => (c :: line) :: lines

/-- The lines of a text, without their ends. -/
def split : List Char → List (List Char)
  | [] => []
  | '\n' :: rest => [] :: split rest
  | '\r' :: '\n' :: rest => [] :: split rest
  | c :: rest => push c (split rest)

/-- The texts one after the other, each with a line feed behind it. -/
def join (texts : List (List Char)) : List Char := texts.flatMap (· ++ ['\n'])

theorem push_append {c : Char} {lines : List (List Char)} (h : lines ≠ [])
    (more : List (List Char)) : push c (lines ++ more) = push c lines ++ more := by
  cases lines with
  | nil => contradiction
  | cons line lines => rfl

theorem split_ne_nil {text : List Char} (h : text ≠ []) : split text ≠ [] := by
  fun_cases split text with
  | case1 => contradiction
  | case2 => simp
  | case3 => simp
  | case4 c rest => cases hs : split rest <;> simp [push]

theorem split_cons_cons {c d : Char} (hc : c ≠ '\n') (hd : c = '\r' → d ≠ '\n')
    (rest : List Char) : split (c :: d :: rest) = push c (split (d :: rest)) := by
  rw [split]
  · exact hc
  · intro _ hr h
    exact hd hr (List.cons.inj h).1

/-- A line feed parts the lines of a text: what follows it has no part in the lines before. -/
theorem split_append_lineFeed (a b : List Char) :
    split (a ++ '\n' :: b) = split (a ++ ['\n']) ++ split b := by
  fun_induction split a with
  | case1 => rfl
  | case2 rest ih => simp [split, ih]
  | case3 rest ih => simp [split, ih]
  | case4 c rest hc hr ih =>
    cases rest with
    | nil =>
      by_cases h : c = '\r'
      · subst h; rfl
      · simp [split, push, h]
    | cons d rest =>
      have hd : c = '\r' → d ≠ '\n' := fun h hd => hr rest h (by rw [hd])
      simp only [List.cons_append] at ih ⊢
      rw [split_cons_cons hc hd, split_cons_cons hc hd, ih, push_append (split_ne_nil (by simp))]

/-- **The lines of joined texts** are the lines of each of them in turn. -/
theorem split_join (texts : List (List Char)) :
    split (join texts) = texts.flatMap fun text => split (text ++ ['\n']) := by
  induction texts with
  | nil => rfl
  | cons text texts ih =>
    rw [List.flatMap_cons, ← ih, ← split_append_lineFeed]
    simp [join]

end Lines

end ChipEight
