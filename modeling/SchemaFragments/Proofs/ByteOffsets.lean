import SchemaFragments.Proofs.BlockStrings
import SchemaFragments.Proofs.WrittenDirectives
/-!
# Byte offsets in directives

A directive can be read with offsets in bytes: where the first quote is found, and the last one of its kind, and what
stands between them. On every line at all each of the offsets lies between two characters: `readAtOffsets_eq`.
-/

namespace SchemaFragments

/-! ## Offsets in a text -/

namespace Text

open Document (dropBytes dropBytes_append)

/-- The offset of the first character of a class. -/
def find? (wanted : Char → Bool) (text : List Char) : Option Nat :=
  if text.any wanted then some (byteLength (text.takeWhile (!wanted ·))) else none

/-- The offset of the last character of a class. -/
def findLast? (wanted : Char → Bool) (text : List Char) : Option Nat :=
  (cutAtLast wanted text).map fun (before, _) => byteLength before

/-- What stands between two offsets. None if one of them is out of bounds or inside a character, or the second one is in
front of the first. -/
def slice? (start stop : Nat) (text : List Char) : Option (List Char) :=
  if start ≤ stop then (dropBytes start text).bind fun rest =>
    (dropBytes (stop - start) rest).map fun behind => rest.take (rest.length - behind.length)
  else none

/-- A difference of offsets; none if the second one is the greater. -/
def difference? (a b : Nat) : Option Nat := if b ≤ a then some (a - b) else none

theorem slice?_append (front middle back : List Char) :
    slice? (byteLength front) (byteLength (front ++ middle)) (front ++ middle ++ back) = some middle := by
  have hstart : dropBytes (byteLength front) (front ++ middle ++ back) = some (middle ++ back) := by
    rw [List.append_assoc]
    exact (dropBytes_append front (middle ++ back) 0).trans (by rw [dropBytes])
  have hstop : dropBytes (byteLength middle) (middle ++ back) = some back :=
    (dropBytes_append middle back 0).trans (by rw [dropBytes])
  rw [slice?, byteLength_append, if_pos (Nat.le_add_right ..), Nat.add_sub_cancel_left, hstart, Option.bind_some, hstop,
    Option.map_some, List.length_append, Nat.add_sub_cancel_right, List.take_left]

theorem find?_append {wanted : Char → Bool} {front back : List Char} {c : Char} (hc : wanted c = true)
    (hfront : ∀ c ∈ front, wanted c = false) : find? wanted (front ++ c :: back) = some (byteLength front) := by
  have hnot : ∀ c ∈ front, (!wanted c) = true := by simpa using hfront
  rw [find?, if_pos (by simp [hc]), List.takeWhile_append_of_pos hnot, List.takeWhile_cons_of_neg (by simp [hc]),
    List.append_nil]

theorem find?_eq_none {wanted : Char → Bool} {text : List Char} (h : ∀ c ∈ text, wanted c = false) :
    find? wanted text = none := by
  rw [find?, if_neg (by simpa using h)]

theorem findLast?_append {wanted : Char → Bool} {front back : List Char} {c : Char} (hc : wanted c = true)
    (hback : ∀ c ∈ back, wanted c = false) : findLast? wanted (front ++ c :: back) = some (byteLength front) := by
  rw [findLast?, Document.cutAtLast_append hc hback, Option.map_some]

end Text

/-! ## Directives by their offsets -/

namespace Import

/-- What a line asks for in front of one offset, and the path between them; the rest of the line stands behind the word
`import`. -/
def readBetween (line rest : List Char) (opening closing : Nat) : Option (Option Directive) := do
  let head ← Text.slice? 0 opening rest
  match readHead head with
  | none => return none
  | some selection =>
    let path ← Text.slice? (opening + 1) closing rest
    let before ← Text.difference? (Text.byteLength line) (Text.byteLength rest)
    return some ⟨String.ofList path, before + opening + 2, selection⟩

/-- Reads a line as a directive with offsets in bytes. None if an offset is none of the text that it is used for. -/
def readAtOffsets (line : List Char) : Option (Option Directive) :=
  match afterKeyword line with
  | none => some none
  | some rest =>
    if !rest.head?.any fun c => Text.isBlank c || isQuote c then some none
    else match Text.find? isQuote rest with
      | none => some none
      | some opening => (Text.slice? opening (Text.byteLength rest) rest).bind fun quoted =>
        match quoted.head?.bind fun quote => Text.findLast? (· == quote) rest with
        | none => some none
        | some closing => if closing ≤ opening + 1 then some none else readBetween line rest opening closing

variable {line rest front quoted path back : List Char} {quote : Char} {directive : Directive}

theorem utf8Size_of_isQuote (h : isQuote quote = true) : quote.utf8Size = 1 := by
  simp only [isQuote, Bool.or_eq_true, beq_iff_eq] at h
  rcases h with rfl | rfl <;> rfl

theorem byteLength_eq_zero_iff : Text.byteLength path = 0 ↔ path = [] := by
  cases path with
  | nil => simp [Text.byteLength]
  | cons c path =>
    have hc := c.utf8Size_pos
    simp only [Text.byteLength, List.cons_ne_nil, iff_false]
    omega

/-- Only white space, the mark of a comment and the word `import` stand in front. -/
theorem suffix_of_afterKeyword (h : afterKeyword line = some rest) :
    ∃ before, line = before ++ rest ∧ ∀ c ∈ before, isQuote c = false := by
  obtain ⟨comment, hcomment, hrest⟩ := Option.bind_eq_some_iff.1 h
  have hblank (text : List Char) : ∀ c ∈ text.takeWhile Text.isBlank, isQuote c = false :=
    fun c hc => (of_isBlank (List.mem_takeWhile_imp hc)).1
  have hline : line = line.takeWhile Text.isBlank ++ Text.trimStart line := List.takeWhile_append_dropWhile.symm
  have hbehind : comment = comment.takeWhile Text.isBlank ++ Text.trimStart comment :=
    List.takeWhile_append_dropWhile.symm
  rw [eq_append_of_cutWord hcomment] at hline
  rw [eq_append_of_cutWord hrest] at hbehind
  refine ⟨line.takeWhile Text.isBlank ++ '#' :: (comment.takeWhile Text.isBlank ++ "import".toList), ?_, ?_⟩
  · rw [List.append_assoc, List.cons_append, List.append_assoc, ← hbehind]
    exact hline
  · have hall : ∀ c ∈ "import".toList, isQuote c = false := Document.forall_mem_of_all (by decide)
    intro c hc
    simp only [List.mem_append, List.mem_cons] at hc
    rcases hc with hc | rfl | hc | hc
    · exact hblank line c hc
    · decide
    · exact hblank comment c hc
    · exact hall c hc

/-- The first quote of a text, if there is one. -/
theorem exists_firstQuote (rest : List Char) : (∀ c ∈ rest, isQuote c = false) ∨
    ∃ front quote quoted, rest = front ++ quote :: quoted ∧ isQuote quote = true ∧ ∀ c ∈ front, isQuote c = false := by
  have hsplit : rest = rest.takeWhile (!isQuote ·) ++ rest.dropWhile (!isQuote ·) :=
    List.takeWhile_append_dropWhile.symm
  have hfront : ∀ c ∈ rest.takeWhile (!isQuote ·), isQuote c = false :=
    fun c hc => by simpa using List.mem_takeWhile_imp hc
  cases hdrop : rest.dropWhile (!isQuote ·) with
  | nil =>
    rw [hdrop, List.append_nil] at hsplit
    exact .inl (hsplit ▸ hfront)
  | cons quote quoted =>
    have hquote := List.head?_dropWhile_not (!isQuote ·) rest
    rw [hdrop] at hquote hsplit
    exact .inr ⟨_, quote, quoted, hsplit, by simpa using hquote, hfront⟩

/-- The line behind the first quote as the reader of directives takes it apart. -/
theorem takeWhile_firstQuote (hquote : isQuote quote = true) (hfront : ∀ c ∈ front, isQuote c = false)
    (quoted : List Char) : (front ++ quote :: quoted).takeWhile (!isQuote ·) = front ∧
      (front ++ quote :: quoted).dropWhile (!isQuote ·) = quote :: quoted := by
  have hnot : ∀ c ∈ front, (!isQuote c) = true := fun c hc => by rw [hfront c hc]; rfl
  rw [List.takeWhile_append_of_pos hnot, List.dropWhile_append_of_pos hnot,
    List.takeWhile_cons_of_neg (by simp [hquote]), List.dropWhile_cons_of_neg (by simp [hquote]), List.append_nil]
  exact ⟨rfl, rfl⟩

/-- What stands in front of the path, with its quote. -/
theorem take_quoted (before front quoted : List Char) (quote : Char) :
    (before ++ (front ++ quote :: quoted)).take ((before ++ (front ++ quote :: quoted)).length - quoted.length) =
      before ++ front ++ [quote] := by
  have hsplit : before ++ (front ++ quote :: quoted) = (before ++ front ++ [quote]) ++ quoted := by simp
  rw [hsplit, List.length_append, Nat.add_sub_cancel_right, List.take_left]

/-- What is read between two quotes. -/
theorem readBetween_eq {before : List Char} (hquote : isQuote quote = true) :
    readBetween (before ++ (front ++ quote :: (path ++ quote :: back))) (front ++ quote :: (path ++ quote :: back))
        (Text.byteLength front) (Text.byteLength (front ++ quote :: path)) =
      some ((readHead front).map fun selection =>
        ⟨String.ofList path, Text.byteLength (before ++ front ++ [quote]) + 1, selection⟩) := by
  have hsize := utf8Size_of_isQuote hquote
  have hhead : Text.slice? 0 (Text.byteLength front) (front ++ quote :: (path ++ quote :: back)) = some front :=
    Text.slice?_append [] front _
  have hopen : Text.byteLength front + 1 = Text.byteLength (front ++ [quote]) := by
    rw [Text.byteLength_append, Text.byteLength, hsize]
    rfl
  have hpath : Text.slice? (Text.byteLength front + 1) (Text.byteLength (front ++ quote :: path))
      (front ++ quote :: (path ++ quote :: back)) = some path := by
    have hslice := Text.slice?_append (front ++ [quote]) path (quote :: back)
    simp only [List.append_assoc, List.singleton_append] at hslice
    rw [hopen]
    exact hslice
  have hbefore (text : List Char) : Text.difference? (Text.byteLength (before ++ text)) (Text.byteLength text) =
      some (Text.byteLength before) := by
    rw [Text.difference?, Text.byteLength_append, if_pos (Nat.le_add_left ..), Nat.add_sub_cancel]
  rw [readBetween, hhead]
  cases hread : readHead front with
  | none => simp [hread]
  | some selection =>
    have hcolumn : Text.byteLength before + Text.byteLength front + 2 = Text.byteLength (before ++ front ++ [quote]) + 1 := by
      rw [List.append_assoc, Text.byteLength_append, ← hopen]
      omega
    simp only [hread, hpath, hbefore, Option.bind_eq_bind, Option.bind_some, hcolumn]
    rfl

/-- With its offsets every line is read, and as it is read without them. -/
theorem readAtOffsets_eq (line : List Char) : readAtOffsets line = some (readDirective line) := by
  rw [readAtOffsets, readDirective]
  cases hkeyword : afterKeyword line with
  | none => rfl
  | some rest =>
    obtain ⟨before, rfl, -⟩ := suffix_of_afterKeyword hkeyword
    dsimp only [Option.bind_eq_bind, Option.bind_some]
    split
    · rfl
    rcases exists_firstQuote rest with hnone | ⟨front, quote, quoted, rfl, hquote, hfront⟩
    · rw [Text.find?_eq_none hnone, List.dropWhile_eq_nil_iff.2 fun c hc => by rw [hnone c hc]; rfl]
    · obtain ⟨htake, hdrop⟩ := takeWhile_firstQuote hquote hfront quoted
      have hslice := Text.slice?_append front (quote :: quoted) []
      rw [List.append_nil] at hslice
      rw [Text.find?_append hquote hfront, hdrop, htake]
      dsimp only
      rw [hslice]
      dsimp only [Option.bind_some, List.head?_cons]
      by_cases hclose : ∃ c ∈ quoted, (c == quote) = true
      · obtain ⟨path, other, back, rfl, hother, hback⟩ := exists_last hclose
        obtain rfl : other = quote := by simpa using hother
        have hlast := @Text.findLast?_append (· == other) (front ++ other :: path) back other hother hback
        rw [List.append_assoc, List.cons_append] at hlast
        have hsize : Text.byteLength (front ++ other :: path) = Text.byteLength front + 1 + Text.byteLength path := by
          rw [Text.byteLength_append, Text.byteLength, utf8Size_of_isQuote hquote, Nat.add_assoc]
        have hempty : Text.byteLength (front ++ other :: path) ≤ Text.byteLength front + 1 ↔ path = [] := by
          rw [hsize, ← byteLength_eq_zero_iff]
          omega
        rw [hlast, @Document.cutAtLast_append (· == other) path back other hother hback, take_quoted]
        dsimp only [Option.bind_some]
        by_cases hpath : path = []
        · rw [if_pos (hempty.2 hpath), if_pos (by simp [hpath])]
        · rw [if_neg (mt hempty.1 hpath), if_neg (by simpa using hpath), readBetween_eq hquote]
          cases readHead front <;> rfl
      · have hnone : ∀ c ∈ quoted, (c == quote) = false := fun c hc => Bool.eq_false_iff.2 fun he => hclose ⟨c, hc, he⟩
        rw [Text.findLast?_append (by simp) hnone, Document.cutAtLast_eq_none hnone]
        dsimp only
        rw [if_pos (Nat.le_succ _)]
        rfl

/-- The path of a directive stands between quotes: the first quote of its line, and the last one of the same kind. -/
inductive QuotedPath : List Char → Directive → Prop
  | intro {before path after : List Char} {quote : Char} {selection : Selection} :
    isQuote quote = true → (∀ c ∈ before, isQuote c = false) → quote ∉ after → path ≠ [] →
      QuotedPath (before ++ quote :: (path ++ quote :: after))
        ⟨String.ofList path, Text.byteLength (before ++ [quote]) + 1, selection⟩

theorem quotedPath_of_readDirective (h : readDirective line = some directive) : QuotedPath line directive := by
  obtain ⟨rest, quote, quoted, path, back, selection, hkeyword, -, hdrop, hcut, hne, -, rfl⟩ :=
    readDirective_eq_some_iff.1 h
  obtain ⟨before, rfl, hbefore⟩ := suffix_of_afterKeyword hkeyword
  rcases exists_firstQuote rest with hnone | ⟨front, first, later, rfl, hfirst, hfront⟩
  · rw [List.dropWhile_eq_nil_iff.2 fun c hc => by rw [hnone c hc]; rfl] at hdrop
    cases hdrop
  rw [(takeWhile_firstQuote hfirst hfront later).2] at hdrop
  obtain ⟨rfl, rfl⟩ := List.cons.inj hdrop
  obtain ⟨other, rfl, hother, hback⟩ := of_cutAtLast hcut
  obtain rfl : other = first := by simpa using hother
  rw [take_quoted, ← List.append_assoc before]
  refine .intro hfirst (fun c hc => ?_) (fun hm => ?_) hne
  · exact (List.mem_append.1 hc).elim (hbefore c) (hfront c)
  · simpa using hback other hm

/-- Every directive that is written is read back. Whatever a line is, its offsets are offsets of it, and where it is taken
for a directive the path stands between quotes at its column. -/
theorem directive_forms (written : WrittenDirective) (line : List Char) :
    readDirective written.text =
        some ⟨String.ofList written.path, Text.byteLength written.before + 1, written.selection⟩ ∧
      readAtOffsets line = some (readDirective line) ∧
        ∀ directive, readDirective line = some directive → QuotedPath line directive :=
  ⟨readDirective_written written, readAtOffsets_eq line, fun _ => quotedPath_of_readDirective⟩

/-! ## A line -/

def noBlanks : Blanks := ⟨[], by simp⟩

def oneBlank : Blanks := ⟨[' '], Document.forall_mem_of_all (by decide)⟩

/-- A field of a type, all of another one, and one more field of the first, from a path with quotes. -/
def writtenBooks : WrittenDirective where
  margin := oneBlank
  indent := noBlanks
  names := some {
    gap := oneBlank
    gap_ne := List.cons_ne_nil _ _
    first := .field ⟨"Query", by decide⟩ ⟨"books", by decide⟩
    others := [(oneBlank, noBlanks, .whole ⟨"Author", by decide⟩),
      (noBlanks, oneBlank, .field ⟨"Query", by decide⟩ ⟨"authors", by decide⟩)]
    gap' := oneBlank
    gap'_ne := List.cons_ne_nil _ _ }
  gap := noBlanks
  quote := '"'
  isQuote := rfl
  path := "a \"b\" 'c'".toList
  path_ne := by decide
  trailing := " d".toList
  notMem_trailing := by decide

theorem writtenBooks_read :
    String.ofList writtenBooks.text = " #import Query.books ,Author.*, Query.authors from\"a \"b\" 'c'\" d" ∧
      readDirective writtenBooks.text =
        some ⟨"a \"b\" 'c'", 52, .types [("Query", .only ["books", "authors"]), ("Author", .all)]⟩ ∧
      QuotedPath writtenBooks.text ⟨"a \"b\" 'c'", 52, .types [("Query", .only ["books", "authors"]), ("Author", .all)]⟩ := by
  have hvalue : (⟨String.ofList writtenBooks.path, Text.byteLength writtenBooks.before + 1, writtenBooks.selection⟩ :
      Directive) = ⟨"a \"b\" 'c'", 52, .types [("Query", .only ["books", "authors"]), ("Author", .all)]⟩ := by
    decide +kernel
  obtain ⟨hread, -, hplace⟩ := directive_forms writtenBooks writtenBooks.text
  rw [hvalue] at hread
  exact ⟨by decide +kernel, hread, hplace _ hread⟩

end Import

end SchemaFragments
