/-!
# Similar names

How much alike two names are, by the measure of Jaro and Winkler, and the suggestion of names that are like
one that is unknown.
-/

namespace SchemaFragments.Text

/-- What was found of one name in another. -/
structure Matching where
  /-- Whether each character of the other name is taken. -/
  taken : List Bool
  matched : Nat := 0
  /-- Matches that stand before the match of the character before. -/
  swapped : Nat := 0
  last : Nat := 0
deriving Repr

/-- The first free character equal to `c` in the window from `first` to `last`. -/
def freeIndex? (other : List Char) (taken : List Bool) (c : Char) (first last : Nat) : Option Nat :=
  ((other.zip taken).zipIdx.find? fun ((d, taken), index) =>
    first ≤ index && index ≤ last && d == c && !taken).map (·.2)

/-- Matches the character at an index of a name with one at most `range` away in the other name. -/
def Matching.add (other : List Char) (range : Nat) (found : Matching) (next : Char × Nat) : Matching :=
  let (c, index) := next
  match freeIndex? other found.taken c (index - range) (index + range) with
  | none => found
  | some place =>
    { taken := found.taken.set place true
      matched := found.matched + 1
      swapped := if place < found.last then found.swapped + 1 else found.swapped
      last := place }

/-- The similarity of Jaro: the part of both names that is matched, and of the matches those in order. -/
def jaro (a b : List Char) : Float :=
  match a, b with
  | [], [] => 1
  | [], _ | _, [] => 0
  | [c], [d] => if c = d then 1 else 0
  | a, b =>
    let range := max a.length b.length / 2 - 1
    let found := a.zipIdx.foldl (Matching.add b range) { taken := b.map fun _ => false }
    let matched := found.matched.toFloat
    if found.matched = 0 then 0
    else (1.0 / 3.0) * (matched / a.length.toFloat + matched / b.length.toFloat +
      (matched - found.swapped.toFloat) / matched)

/-- How many characters two texts have in common at their front. -/
def commonStart : List Char → List Char → Nat
  | c :: a, d :: b => if c = d then commonStart a b + 1 else 0
  | _, _ => 0

/-- The similarity of Winkler favours names that start alike, however long that start is. -/
def similarity (a b : String) : Float :=
  let base := jaro a.toList b.toList
  let score := base + 0.1 * (commonStart a.toList b.toList).toFloat * (1 - base)
  if score ≤ 1 then score else 1

/-- Names that are this similar are suggested. -/
def similarityBound : Float := 0.8

/-- How many names are suggested. -/
def suggestionLimit : Nat := 3

/-- Whether a scored name comes before another: the better one, of equals the lesser in order. -/
def comesBefore (a b : Float × String) : Bool :=
  a.1 > b.1 || (!(b.1 > a.1) && a.2 ≤ b.2)

/-- The names most like a name, best first. -/
def similarNames (name : String) (names : List String) : List String :=
  let scored := (names.map fun other => (similarity name other, other)).filter (·.1 > similarityBound)
  ((scored.mergeSort comesBefore).take suggestionLimit).map (·.2)

/-- A question that suggests similar names, to be put behind a sentence. -/
def suggestion (name : String) (names : List String) : Option String :=
  match (similarNames name names).map fun other => "`" ++ other ++ "`" with
  | [] => none
  | [only] => some (" Did you mean " ++ only ++ "?")
  | several => some (" Did you mean one of " ++ ", ".intercalate several ++ "?")

end SchemaFragments.Text
