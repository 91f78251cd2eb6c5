/-!
# Lines of a text

A line ends with `\n` or `\r\n`; what follows the last line end is a line too, unless it is empty.
-/

namespace SchemaFragments.Text

/-- Takes the `\r` of a line end off a line that is held back to front. -/
private def dropReturn : List Char → List Char
  | '\r' :: line => line
  | line => line

private def linesAfter (held : List Char) : List Char → List (List Char)
  | [] => if held.isEmpty then [] else [held.reverse]
  | c :: rest =>
    if c = '\n' then (dropReturn held).reverse :: linesAfter [] rest
    else linesAfter (c :: held) rest

def lines (text : List Char) : List (List Char) := linesAfter [] text

private theorem linesAfter_append {held line : List Char} (rest : List Char) (h : '\n' ∉ line) :
    linesAfter held (line ++ '\n' :: rest) = (dropReturn (line.reverse ++ held)).reverse :: lines rest := by
  induction line generalizing held with
  | nil => simp [linesAfter, lines]
  | cons c line ih =>
    simp only [List.mem_cons, not_or] at h
    rw [List.cons_append, linesAfter, if_neg (Ne.symm h.1), ih h.2]
    simp

private theorem linesAfter_eq {held line : List Char} (h : '\n' ∉ line) :
    linesAfter held line = if line.reverse ++ held = [] then [] else [(line.reverse ++ held).reverse] := by
  induction line generalizing held with
  | nil => cases held <;> simp [linesAfter]
  | cons c line ih =>
    simp only [List.mem_cons, not_or] at h
    rw [linesAfter, if_neg (Ne.symm h.1), ih h.2]
    simp

private theorem notMem_linesAfter {held text : List Char} (h : '\n' ∉ held) :
    ∀ line ∈ linesAfter held text, '\n' ∉ line := by
  induction text generalizing held with
  | nil => cases held <;> simp_all [linesAfter]
  | cons c text ih =>
    rw [linesAfter]
    split
    · intro line hl
      rcases List.mem_cons.1 hl with rfl | hl
      · simp only [List.mem_reverse]
        unfold dropReturn
        split
        · exact fun hm => h (.tail _ hm)
        · exact h
      · exact ih (by simp) line hl
    · rename_i hc
      exact ih (by simp [Ne.symm hc, h])

/-- A line with its end, in front of others. -/
theorem lines_append (line rest : List Char) (h : '\n' ∉ line) :
    lines (line ++ '\n' :: rest) = (if line.getLast? = some '\r' then line.dropLast else line) :: lines rest := by
  rw [lines, linesAfter_append rest h, List.append_nil, List.getLast?_eq_head?_reverse]
  cases hr : line.reverse with
  | nil => simp_all [dropReturn]
  | cons c back =>
    obtain rfl : line = back.reverse ++ [c] := by rw [← List.reverse_reverse line, hr, List.reverse_cons]
    by_cases hc : c = '\r' <;> simp [dropReturn, hc]

/-- A last line without an end. -/
theorem lines_of_notMem {line : List Char} (h : '\n' ∉ line) : lines line = if line = [] then [] else [line] := by
  rw [lines, linesAfter_eq h]
  simp

theorem notMem_of_mem_lines {text line : List Char} (h : line ∈ lines text) : '\n' ∉ line :=
  notMem_linesAfter (by simp) line h

/-! ## The last line -/

/-- The last line of a text has its end. -/
def EndsLine (text : List Char) : Prop := text.getLast? = some '\n'

instance (text : List Char) : Decidable (EndsLine text) := inferInstanceAs (Decidable (_ = _))

theorem EndsLine.append {text : List Char} (h : EndsLine text) (before : List Char) : EndsLine (before ++ text) := by
  rw [EndsLine, List.getLast?_append, h]
  rfl

theorem EndsLine.ne_nil {text : List Char} (h : EndsLine text) : text ≠ [] := by
  rintro rfl
  cases h

/-- A text, with an end of its last line. -/
def withLineEnd (text : String) : String := if EndsLine text.toList then text else text ++ "\n"

theorem withLineEnd_of_endsLine {text : String} (h : EndsLine text.toList) : withLineEnd text = text := if_pos h

/-! ## Pieces -/

/-- The line of a one based number, empty where there is none. -/
def lineAt (text : List Char) (number : Nat) : List Char := ((lines text)[number - 1]?).getD []

/-- Pieces between the separators, at least one. -/
def splitAt (separator : Char) : List Char → List (List Char)
  | [] => [[]]
  | c :: rest =>
    if c = separator then [] :: splitAt separator rest
    else match splitAt separator rest with
      | [] => [[c]]
      | piece :: pieces => (c :: piece) :: pieces

/-- Cuts a text at the last character of a class; none where there is no such character. -/
def cutAtLast (wanted : Char → Bool) (text : List Char) : Option (List Char × List Char) :=
  let back := text.reverse
  match back.dropWhile (!wanted ·) with
  | [] => none
  | _ :: before => some (before.reverse, (back.takeWhile (!wanted ·)).reverse)

example : lines "a\r\nb\n\nc\r".toList = ["a".toList, "b".toList, [], "c\r".toList] := by decide
example : lines "a\n".toList = ["a".toList] := by decide
example : splitAt ',' "a,,b".toList = ["a".toList, [], "b".toList] := by decide

end SchemaFragments.Text
