import SchemaFragments.Message
import SchemaFragments.Proofs.Linking
import SchemaFragments.Proofs.TokenPlaces
import SchemaFragments.Proofs.TokensLeft
/-!
# Lines of keywords

A message about a type shows the line at the position of the type. It is the line on which the keyword of the type stands,
unless a carriage return ends a comment in front of it: `keyword_line`.
-/

namespace SchemaFragments

/-! ## Words on a line -/

namespace Text

variable {word before after line : List Char}

/-- A word stands on a line of a text: that starts behind a line end and goes on to the next one. -/
inductive OnLine (word : List Char) : (before after line : List Char) → Prop
  | intro {upto left right later : List Char} : (upto = [] ∨ EndsLine upto) → '\n' ∉ left ++ word ++ right →
    (later = [] ∨ ∃ ending more, EndOf (left ++ word ++ right) ending ∧ later = ending ++ more) →
    OnLine word (upto ++ left) (right ++ later) (left ++ word ++ right)

/-- Line ends in front of a word count the lines in front of its own. -/
theorem OnLine.getElem? (h : OnLine word before after line) (hne : word ≠ []) :
    (lines (before ++ word ++ after))[before.count '\n']? = some line := by
  obtain @⟨upto, left, right, later, hupto, hline, hlater⟩ := h
  have hwritten : WrittenLines later [left ++ word ++ right] (left ++ word ++ right ++ later) := .last hline hlater
  have hlines := lines_append_written hupto hwritten (by simp [hne])
  have hcount : (upto ++ left).count '\n' = (lines upto).length := by
    have hleft : '\n' ∉ left := fun hm => hline (List.mem_append_left _ (List.mem_append_left _ hm))
    rw [List.count_append, List.count_eq_zero_of_not_mem hleft, Nat.add_zero]
    rcases hupto with rfl | hends
    · rfl
    · exact (lines_of_endsLine hends).2.symm
  have htext : upto ++ left ++ word ++ (right ++ later) = upto ++ (left ++ word ++ right ++ later) := by
    simp only [List.append_assoc]
  rw [htext, hlines, hcount, List.append_assoc, List.getElem?_append_right (Nat.le_refl _), Nat.sub_self]
  rfl

/-- What stands between the last line end and the end of a text. -/
theorem exists_upto (before : List Char) : ∃ upto left, before = upto ++ left ∧ (upto = [] ∨ EndsLine upto) ∧ '\n' ∉ left := by
  induction before with
  | nil => exact ⟨[], [], rfl, .inl rfl, by simp⟩
  | cons c before ih =>
    obtain ⟨upto, left, rfl, hupto, hleft⟩ := ih
    rcases hupto with rfl | hends
    · by_cases hc : c = '\n'
      · exact ⟨[c], left, rfl, .inr (congrArg some hc), hleft⟩
      · exact ⟨[], c :: left, rfl, .inl rfl, by simp [Ne.symm hc, hleft]⟩
    · exact ⟨c :: upto, left, rfl, .inr (hends.append [c]), hleft⟩

/-- A word without line ends stands on a line. -/
theorem exists_onLine (hne : word ≠ []) (hnewline : '\n' ∉ word) (hreturn : '\r' ∉ word) (before after : List Char) :
    ∃ line, OnLine word before after line := by
  obtain ⟨upto, left, rfl, hupto, hleft⟩ := exists_upto before
  by_cases hend : '\n' ∈ after
  · obtain ⟨first, more, rfl, hfirst⟩ := List.eq_append_cons_of_mem hend
    by_cases hlast : (left ++ word ++ first).getLast? = some '\r'
    · -- the carriage return stands behind the word, since there is none in it
      have hfirst' : first ≠ [] := by
        rintro rfl
        rw [List.append_nil, List.getLast?_append_of_ne_nil _ hne] at hlast
        exact hreturn (List.mem_of_getLast? hlast)
      rw [List.getLast?_append_of_ne_nil _ hfirst'] at hlast
      obtain ⟨right, rfl⟩ := List.getLast?_eq_some_iff.1 hlast
      have hright : '\n' ∉ right := fun hm => hfirst (List.mem_append_left _ hm)
      refine ⟨left ++ word ++ right, ?_⟩
      rw [List.append_assoc right]
      exact .intro hupto (by simp [hleft, hnewline, hright]) (.inr ⟨_, more, .returnNewline, rfl⟩)
    · exact ⟨left ++ word ++ first, .intro hupto (by simp [hleft, hnewline, hfirst])
        (.inr ⟨_, more, .newline hlast, rfl⟩)⟩
  · refine ⟨left ++ word ++ after, ?_⟩
    have honline := @OnLine.intro word upto left after [] hupto (by simp [hleft, hnewline, hend]) (.inl rfl)
    rwa [List.append_nil] at honline

end Text

/-! ## Keywords in a text -/

namespace Document

/-- A token of a text, with the tokens and the characters in front of it and behind it. -/
structure PlacedToken (text : String) where
  token : Token
  front : List Token
  back : List Token
  before : List Char
  after : List Char
  text_eq : text.toList = before ++ token.text.toList ++ after
  tokens_eq : (tokens text).list = front ++ token :: back
  /-- What stands in front of the token has just the tokens in front of it, and ends at its position. -/
  before_eq : tokensFrom 0 ⟨1, 1⟩ before = ⟨front, token.position, none⟩

variable {text : String} {document : List Definition} {index : Nat} {type : TypeDefinition}

theorem PlacedToken.line (placed : PlacedToken text) :
    placed.token.position.line = placed.before.count '\n' + 1 + commentReturns placed.before := by
  have hline := @line_stop 0 ⟨1, 1⟩ placed.before (congrArg Tokens.fault placed.before_eq)
  rw [placed.before_eq] at hline
  exact hline.trans (by dsimp only; omega)

/-- A token of a text is the keyword of the type at an index of the document that the text is parsed to. -/
structure PlacedToken.Heads (keyword : PlacedToken text) (document : List Definition) (index : Nat)
    (type : TypeDefinition) : Prop where
  /-- The name of the type stands behind it. -/
  named : ∃ named ∈ keyword.back.head?, type.HeadedBy keyword.token named
  /-- From it, or from a description in front of it, the type is read, and from what is in front the types before it. -/
  read : ∃ (described : Option Token) (rest : List Token), (∀ token ∈ described, Parser.isString token = true) ∧
    ReadUpTo (tokens text).list (document.take index) (described.toList ++ keyword.token :: keyword.back) ∧
      definition (described.toList ++ keyword.token :: keyword.back) = .ok (.type type, rest)

/-- Every type of a document has its keyword in the text. -/
theorem exists_heads (h : parse text = .ok document) (htype : document[index]? = some (.type type)) :
    ∃ keyword : PlacedToken text, keyword.Heads document index type := by
  obtain ⟨between, rest, hupto, hread⟩ := (readUpTo_parse h).exists_read htype
  obtain ⟨described, keyword, named, back, rfl, hdescribed, hhead⟩ := head_definition hread
  obtain ⟨earlier, hearlier⟩ := hupto.suffix
  have htokens : (tokens text).list = (earlier ++ described.toList) ++ keyword :: named :: back := by
    rw [← hearlier, List.append_assoc]
  obtain ⟨before, after, htext, hbefore⟩ := exists_before htokens
  exact ⟨⟨keyword, _, _, before, after, htext, htokens, hbefore⟩, ⟨named, rfl, hhead⟩,
    described, rest, hdescribed, hupto, hread⟩

/-- A keyword is a word without line ends. -/
theorem text_of_typeKeyword {token : Token} {kind : TypeKind} (h : typeKeyword? token = some kind) :
    token.text.toList ≠ [] ∧ '\n' ∉ token.text.toList ∧ '\r' ∉ token.text.toList := by
  have hall : ∀ entry ∈ typeKeywords, entry.1.toList ≠ [] ∧ '\n' ∉ entry.1.toList ∧ '\r' ∉ entry.1.toList := by
    decide
  rw [typeKeyword?] at h
  split at h
  · obtain ⟨earlier, later, hentries, -⟩ := List.lookup_eq_some_iff.1 h
    exact hall (token.text, kind) (hentries ▸ by simp)
  · cases h

/-- The position of a type is on the line of its keyword, moved by the comments in front that a carriage return ends; where
there are none that line is shown. -/
theorem keyword_line (hparse : parse text = .ok document) (htype : document[index]? = some (.type type)) :
    ∃ keyword : PlacedToken text, keyword.Heads document index type ∧
      ∃ line, Text.OnLine keyword.token.text.toList keyword.before keyword.after line ∧
        (Text.lines text.toList)[keyword.before.count '\n']? = some line ∧
        type.position.line = keyword.before.count '\n' + 1 + commentReturns keyword.before ∧
        (commentReturns keyword.before = 0 →
          ∀ help, (Message.Place.ofText text type.position help).line = String.ofList line) := by
  obtain ⟨keyword, hheads⟩ := exists_heads hparse htype
  obtain ⟨named, -, hhead⟩ := hheads.named
  obtain ⟨hne, hnewline, hreturn⟩ := text_of_typeKeyword hhead.kind
  obtain ⟨line, hline⟩ := Text.exists_onLine hne hnewline hreturn keyword.before keyword.after
  have hget := hline.getElem? hne
  rw [← keyword.text_eq] at hget
  have hposition := keyword.line
  rw [hhead.position] at hposition
  refine ⟨keyword, hheads, line, hline, hget, hposition, fun hnone help => ?_⟩
  have hnumber : type.position.line - 1 = keyword.before.count '\n' := by omega
  rw [Message.Place.ofText, Text.lineAt, hnumber, hget, Option.getD_some]

/-! ## Some texts -/

/-- A description over lines that carriage returns end too, and a comment that only a line end ends. -/
def foldedType : String := "# books\n\"\"\"\r\nA # book\r\n\"\"\"\r\ntype Book\r\n"

/-- Every line ends with a carriage return as well, that of the comment too. -/
def returnedComment : String := "# note\r\ntype Book\r\n"

/-- The first definition of a text, if it is a type with a property. -/
def firstType (p : TypeDefinition → Bool) (document : List Definition) : Bool :=
  (document[0]?.bind Definition.type?).any p

theorem exists_firstType {p : TypeDefinition → Bool} (h : (parse text).toOption.any (firstType p) = true) :
    ∃ document type, parse text = .ok document ∧ document[0]? = some (.type type) ∧ p type = true := by
  obtain ⟨document, hparse, hfirst⟩ := exists_ok_of_any h
  unfold firstType at hfirst
  cases hread : document[0]? with
  | none => simp [hread] at hfirst
  | some first =>
    cases first with
    | type type => exact ⟨document, type, hparse, hread, by simpa [hread, Definition.type?] using hfirst⟩
    | schema | extension | directive => simp [hread, Definition.type?] at hfirst

theorem foldedType_line :
    ∃ document type, parse foldedType = .ok document ∧ document[0]? = some (.type type) ∧
      ∃ keyword : PlacedToken foldedType, keyword.Heads document 0 type ∧
        type.position.line = keyword.before.count '\n' + 1 + commentReturns keyword.before := by
  obtain ⟨document, type, hparse, htype, -⟩ := @exists_firstType foldedType (fun _ => true) (by decide +kernel)
  obtain ⟨keyword, hheads, line, -, -, hposition, -⟩ := keyword_line hparse htype
  exact ⟨document, type, hparse, htype, keyword, hheads, hposition⟩

/-- The keyword is on the second line, and the line that is shown is the third one, which does not exist. -/
theorem returnedComment_line :
    ∃ document type, parse returnedComment = .ok document ∧ document[0]? = some (.type type) ∧
      Text.lines returnedComment.toList = ["# note".toList, "type Book".toList] ∧
        (Message.Place.ofText returnedComment type.position none).line = "" := by
  obtain ⟨document, type, hparse, htype, hline⟩ := @exists_firstType returnedComment
    (fun type => (Message.Place.ofText returnedComment type.position none).line = "") (by decide +kernel)
  exact ⟨document, type, hparse, htype, by decide +kernel, by simpa using hline⟩

end Document

end SchemaFragments
