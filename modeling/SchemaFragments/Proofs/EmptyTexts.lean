import SchemaFragments.Proofs.CommentDirectives
import SchemaFragments.Proofs.Loading
/-!
# Texts that hold nothing

The loader looks for definitions line by line before it has a text parsed, whatever the tokens of the text are. Both say
of the same texts that they hold nothing exactly if no line is read in two ways: `holdsDefinitions_alike_iff`.
-/

namespace SchemaFragments

/-! ## Lines that are passed over -/

/-- What stands in front of the first `#` of a line; without one it is the whole line. -/
def Text.beforeHash (line : List Char) : List Char := line.takeWhile (· ≠ '#')

namespace Import

theorem head_trim (line : List Char) : (Text.trim line).head? = (Text.trimStart line).head? := by
  rw [Text.trim, Text.trimEnd]
  cases hstart : Text.trimStart line with
  | nil => rfl
  | cons c rest =>
    have hc : Text.isBlank c = false := by
      have hhead := List.head?_dropWhile_not Text.isBlank line
      rw [← Text.trimStart, hstart] at hhead
      simpa using hhead
    rw [List.reverse_cons, List.dropWhile_append]
    split
    · simp [hc]
    · rw [List.reverse_append]
      rfl

/-- The loader passes over a line in which only white space stands in front of a `#`. -/
theorem isPassed_iff (line : List Char) :
    (!(Text.trim line).isEmpty && (Text.trim line).head? != some '#') = false ↔
      ∀ c ∈ Text.beforeHash line, Text.isBlank c = true := by
  have hempty : (Text.trim line).isEmpty = (Text.trim line).head?.isNone := by cases Text.trim line <;> rfl
  rw [hempty, head_trim, Text.beforeHash]
  clear hempty
  induction line with
  | nil => simp [Text.trimStart]
  | cons c line ih =>
    by_cases hhash : c = '#'
    · subst hhash
      have hstart : Text.trimStart ('#' :: line) = '#' :: line := List.dropWhile_cons_of_neg (by decide)
      simp [hstart]
    · rw [List.takeWhile_cons_of_pos (by simp [hhash]), List.forall_mem_cons, Text.trimStart]
      cases hblank : Text.isBlank c with
      | true =>
        rw [List.dropWhile_cons_of_pos hblank, and_iff_right rfl]
        exact ih
      | false =>
        rw [List.dropWhile_cons_of_neg (by simp [hblank])]
        simp [hhash]

theorem holdsDefinitions_eq_false_iff (text : String) : holdsDefinitions text = false ↔
    ∀ line ∈ Text.lines text.toList, ∀ c ∈ Text.beforeHash line, Text.isBlank c = true := by
  rw [holdsDefinitions, List.any_map, List.any_eq_false]
  refine forall₂_congr fun line _ => ?_
  rw [Bool.not_eq_true]
  exact isPassed_iff line

end Import

/-! ## Lines without tokens -/

namespace Document

variable {line text rest : List Char} {position : Position} {inComment : Bool}

/-- What stands in a line from the carriage return on that ends its comment. -/
def fromReturn (line : List Char) : List Char := (line.dropWhile (· ≠ '#')).dropWhile (· ≠ '\r')

theorem skipped_newline_iff : (skipIgnored inComment position (text ++ '\n' :: rest)).2 = [] ↔
    (skipIgnored inComment position text).2 = [] ∧ (skipIgnored false position rest).2 = [] := by
  cases hskip : (skipIgnored inComment position text).2 with
  | nil =>
    obtain ⟨inside, hinside, -⟩ := exists_skipped_append hskip
    have hline : commentAfter inside '\n' = some false := by cases inside <;> rfl
    rw [hinside, skipped_cons, hline, Option.map_some, Option.getD_some]
    simp
  | cons c later =>
    obtain ⟨-, -, hstop⟩ := skipped_stop hskip
    rw [hstop]
    simp

theorem skipped_return_iff : (skipIgnored inComment position (text ++ ['\r'])).2 = [] ↔
    (skipIgnored inComment position text).2 = [] := by
  cases hskip : (skipIgnored inComment position text).2 with
  | nil =>
    obtain ⟨inside, hinside, -⟩ := exists_skipped_append hskip
    rw [hinside]
    cases inside <;> simp [skipIgnored]
  | cons c later =>
    obtain ⟨-, -, hstop⟩ := skipped_stop hskip
    rw [hstop]
    simp

/-- A text is skipped as a whole if each of its lines is. -/
theorem skipped_eq_nil_iff (text : List Char) (position : Position) :
    (skipIgnored false position text).2 = [] ↔ ∀ line ∈ Text.lines text, IsComment line := by
  have hcomment (line : List Char) : (skipIgnored false position line).2 = [] ↔ IsComment line := by
    rw [skipped_eq false position ⟨1, 1⟩, IsComment]
  induction hlength : text.length using Nat.strong_induction_on generalizing text with
  | _ length ih =>
    by_cases hend : '\n' ∈ text
    · obtain ⟨first, rest, rfl, hfirst⟩ := List.eq_append_cons_of_mem hend
      have hshort : rest.length < length := by
        rw [← hlength, List.length_append, List.length_cons]
        omega
      rw [Text.lines_append first rest hfirst, List.forall_mem_cons, skipped_newline_iff]
      refine and_congr ?_ (ih _ hshort rest rfl)
      split
      · rename_i hreturn
        obtain ⟨line, rfl⟩ := List.getLast?_eq_some_iff.1 hreturn
        rw [List.dropLast_concat, skipped_return_iff, hcomment]
      · exact hcomment first
    · rw [Text.lines_of_notMem hend, hcomment]
      split
      · rename_i hnil
        subst hnil
        exact iff_of_true rfl (by simp)
      · simp

/-- In a comment everything is skipped up to the carriage return that ends it. -/
theorem skipped_inComment (hline : '\n' ∉ line) : (skipIgnored true position line).2 =
    (skipIgnored false position (line.dropWhile (· ≠ '\r'))).2 := by
  induction line with
  | nil => rfl
  | cons c line ih =>
    rw [List.mem_cons, not_or] at hline
    by_cases hc : c = '\r'
    · subst hc
      rw [List.dropWhile_cons_of_neg (by simp), skipped_cons, skipped_cons]
      rfl
    · have hinside : commentAfter true c = some true := by simp [commentAfter, hc, Ne.symm hline.1]
      rw [List.dropWhile_cons_of_pos (by simp [hc]), skipped_cons, hinside]
      exact ih hline.2

/-- A line holds no token if only ignored characters stand in front of its comment, and nothing is read behind it. -/
theorem isComment_iff (hline : '\n' ∉ line) :
    IsComment line ↔ (∀ c ∈ Text.beforeHash line, c ∈ gaps) ∧ IsComment (fromReturn line) := by
  rw [IsComment, IsComment, fromReturn, Text.beforeHash]
  induction line with
  | nil => simp
  | cons c line ih =>
    rw [List.mem_cons, not_or] at hline
    by_cases hhash : c = '#'
    · subst hhash
      have hinside : commentAfter false '#' = some true := rfl
      rw [skipped_cons, hinside, Option.map_some, Option.getD_some, skipped_inComment hline.2]
      simp
    · rw [List.takeWhile_cons_of_pos (by simp [hhash]), List.dropWhile_cons_of_pos (by simp [hhash]),
        List.forall_mem_cons, skipped_cons]
      by_cases hgap : c ∈ gaps
      · have hall : ∀ c ∈ gaps, commentAfter false c = some false := forall_mem_of_all (by decide)
        rw [hall c hgap, Option.map_some, Option.getD_some, ih hline.2]
        simp [hgap]
      · have hnone : commentAfter false c = none := by
          refine commentAfter_of_notMem ?_
          simp only [gaps, List.mem_cons, List.not_mem_nil, or_false, not_or] at hgap
          simp [ignored, hgap, hhash, Ne.symm hline.1]
        simp [hnone, hgap]

/-- The reader of tokens finds nothing in a text, and nothing that it cannot read. -/
def HoldsNothing (text : String) : Prop := (tokens text).list = [] ∧ (tokens text).fault = none

instance : DecidablePred HoldsNothing := fun _ => inferInstanceAs (Decidable (_ ∧ _))

theorem holdsNothing_iff (text : String) :
    HoldsNothing text ↔ ∀ line ∈ Text.lines text.toList, IsComment line := by
  rw [← skipped_eq_nil_iff text.toList ⟨1, 1⟩, HoldsNothing, tokens, tokensFrom_eq]
  cases (skipIgnored false ⟨1, 1⟩ text.toList).2 with
  | nil => simp [tokensAt]
  | cons c rest =>
    simp only [tokensAt]
    split
    · simp
    · split <;> simp

theorem parse_of_holdsNothing {text : String} (h : HoldsNothing text) :
    parse text = .error (.malformed (tokens text).stop [.unexpectedEnd]) := by
  have hnone : definitions [] = .error .endOfTokens := rfl
  rw [parse, h.1, hnone]
  simp [Failure.toParseError, h.2]

end Document

/-! ## Two ways to read a text -/

namespace Import

open Document

/-- What a text says: one that holds nothing has no definitions, all others are parsed. -/
def meaning (text : String) : Except ParseError (List Definition) :=
  if HoldsNothing text then .ok [] else Document.parse text

/-- What the loader takes a text for. -/
def taken (text : String) : Except ParseError (List Definition) :=
  if holdsDefinitions text then Document.parse text else .ok []

/-- What is recorded of a text that is read under a path: its definitions, or the problem with it. None when it is torn. -/
def record (path : Path) (contents : String) :
    Except ParseError (List Definition) → Option (List Definition × List Problem)
  | .ok definitions => some (definitions, [])
  | .error (.malformed position complaints) => some ([], [.malformed path contents position complaints])
  | .error .tornBlockString => none

theorem Loader.addFile_eq (loader : Loader) (path : Path) (identity : Location) (contents : String) :
    loader.addFile path identity contents = (record path contents (taken contents)).map fun (definitions, problems) =>
      (⟨loader.files ++ [⟨path, identity, contents, definitions, []⟩], loader.problems ++ problems⟩,
        pendingOf loader.files.length path contents) := by
  simp only [addFile, ← taken.eq_def]
  split <;> simp only [*, record] <;> rfl

/-- What has to hold of a text for it to be passed over just when it holds nothing. -/
structure EmptyAlike (text : String) : Prop where
  /-- In a text that is passed over nothing but spaces, tabs and carriage returns stand outside of comments. -/
  plain : holdsDefinitions text = false → ∀ line ∈ Text.lines text.toList, ∀ c ∈ Text.beforeHash line,
    c ∈ [' ', '\t', '\r']
  /-- No comment of such a text is ended within its line, so that something could be read behind it. -/
  ended : holdsDefinitions text = false → ∀ line ∈ Text.lines text.toList, IsComment (fromReturn line)
  /-- In a text that holds nothing no comma and no byte order mark stand outside of comments. -/
  marked : HoldsNothing text → ∀ line ∈ Text.lines text.toList, ∀ c ∈ Text.beforeHash line, c ≠ ',' ∧ c ≠ '\ufeff'

theorem emptyAlike_iff (text : String) : EmptyAlike text ↔ (holdsDefinitions text = false ↔ HoldsNothing text) := by
  have hnothing : HoldsNothing text ↔ ∀ line ∈ Text.lines text.toList,
      (∀ c ∈ Text.beforeHash line, c ∈ gaps) ∧ IsComment (fromReturn line) := by
    rw [holdsNothing_iff]
    exact forall₂_congr fun line hl => isComment_iff (Text.notMem_of_mem_lines hl)
  constructor
  · intro halike
    constructor
    · intro hpassed
      have hgaps : ∀ c ∈ [' ', '\t', '\r'], c ∈ gaps := forall_mem_of_all (by decide)
      exact hnothing.2 fun line hl => ⟨fun c hc => hgaps c (halike.plain hpassed line hl c hc), halike.ended hpassed line hl⟩
    · intro hempty
      refine (holdsDefinitions_eq_false_iff text).2 fun line hl c hc => ?_
      obtain ⟨hcomma, hmark⟩ := halike.marked hempty line hl c hc
      exact isBlank_of_gap ((hnothing.1 hempty line hl).1 c hc) hcomma hmark
  · intro hsame
    constructor
    case plain =>
      intro hpassed line hl c hc
      have hblank := (holdsDefinitions_eq_false_iff text).1 hpassed line hl c hc
      have hgap := (hnothing.1 (hsame.1 hpassed) line hl).1 c hc
      have hall : ∀ c ∈ gaps, Text.isBlank c = true → c ∈ [' ', '\t', '\r'] := forall_mem_of_all (by decide)
      exact hall c hgap hblank
    case ended => exact fun hpassed line hl => (hnothing.1 (hsame.1 hpassed) line hl).2
    case marked =>
      intro hempty line hl c hc
      have hblank := (holdsDefinitions_eq_false_iff text).1 (hsame.2 hempty) line hl c hc
      constructor <;> rintro rfl <;> cases hblank

theorem taken_eq_meaning_iff (text : String) :
    taken text = meaning text ↔ (holdsDefinitions text = false ↔ HoldsNothing text) := by
  unfold taken meaning
  by_cases hempty : HoldsNothing text
  · -- the parser refuses a text that holds nothing
    cases hholds : holdsDefinitions text <;> simp [hempty, parse_of_holdsNothing hempty]
  · cases hholds : holdsDefinitions text with
    | true => simp [hempty]
    | false =>
      refine iff_of_false (fun hparse => ?_) (by simp [hempty])
      rw [if_neg hempty] at hparse
      exact (of_parse hparse.symm).1.ne_nil rfl

/-- A text is passed over just when it holds nothing, and is then taken for what it says, exactly if no line is read in
two ways. -/
theorem holdsDefinitions_alike_iff (text : String) :
    ((holdsDefinitions text = false ↔ HoldsNothing text) ↔ EmptyAlike text) ∧
      (taken text = meaning text ↔ EmptyAlike text) := by
  rw [emptyAlike_iff, taken_eq_meaning_iff]
  exact ⟨Iff.rfl, Iff.rfl⟩

/-! ## Some texts -/

/-- A comment that ends at a carriage return, and a type behind it. -/
def returnedType : String := "# books\rtype Book \x7b\r  id: ID\r\x7d\r"

/-- A character that is no token, and is white space to the loader. -/
def foreignBlank : String := "\u000b\n"

/-- A directive behind a byte order mark, and nothing else. -/
def markedDirective : String := "\ufeff# import * from \"b\"\n"

/-- The first text is parsed to a type that the loader does not see, the second has a fault that it does not report, and
of the third it reports that it holds nothing. -/
theorem texts_not_alike :
    (¬ (holdsDefinitions returnedType = false ↔ HoldsNothing returnedType) ∧
      (taken returnedType).toOption.any (·.isEmpty) = true ∧
        (Document.parse returnedType).toOption.any (·.length = 1) = true) ∧
    (¬ (holdsDefinitions foreignBlank = false ↔ HoldsNothing foreignBlank) ∧
      (taken foreignBlank).toOption.any (·.isEmpty) = true ∧ (tokens foreignBlank).fault = some (.character '\x0b')) ∧
    (¬ (holdsDefinitions markedDirective = false ↔ HoldsNothing markedDirective) ∧
      HoldsNothing markedDirective ∧ (taken markedDirective).toOption.isNone = true) := by
  decide +kernel

end Import

end SchemaFragments
