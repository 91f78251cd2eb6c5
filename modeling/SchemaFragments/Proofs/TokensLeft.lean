import SchemaFragments.Proofs.Parsed
/-!
# Tokens that are left

Every reader of the grammar leaves the tokens at the end of those that it is given. So the definitions of a document
stand one after the other in its tokens, and a type definition starts with its keyword and its name.
-/

namespace SchemaFragments.Document

open SchemaFragments.Document.Parser

variable {α β : Type} {tokens between rest : List Token}

/-! ## Readers -/

/-- A reader takes tokens only from the front. -/
def Takes (reader : Parser α) : Prop := ∀ tokens value rest, reader tokens = .ok (value, rest) → rest <:+ tokens

theorem bind_eq_ok {reader : Parser α} {next : α → Parser β} {value : β} :
    (reader >>= next) tokens = .ok (value, rest) ↔
      ∃ first between, reader tokens = .ok (first, between) ∧ next first between = .ok (value, rest) := by
  simp only [Bind.bind, StateT.bind, Except.bind]
  cases reader tokens with
  | error failure => simp
  | ok result =>
    obtain ⟨first, between⟩ := result
    simp

theorem takes_pure (value : α) : Takes (pure value : Parser α) := by
  rintro tokens _ _ ⟨⟩
  exact List.suffix_rfl

theorem takes_fail (failure : Failure) : Takes (fail failure : Parser α) := nofun

theorem takes_unexpected : Takes (unexpected : Parser α) := by
  intro tokens value rest h
  cases tokens <;> cases h

theorem Takes.bind {reader : Parser α} {next : α → Parser β} (h : Takes reader) (hn : ∀ value, Takes (next value)) :
    Takes (reader >>= next) := by
  intro tokens value rest hread
  obtain ⟨first, between, hfirst, hnext⟩ := bind_eq_ok.1 hread
  exact (hn first between value rest hnext).trans (h tokens first between hfirst)

theorem Takes.end {reader : Parser α} {make : α → β} (h : Takes reader) : Takes (do return make (← reader)) :=
  h.bind fun _ => takes_pure _

theorem takes_ite {c : Prop} [Decidable c] {a b : Parser α} (ha : Takes a) (hb : Takes b) :
    Takes (if c then a else b) := by
  split
  · exact ha
  · exact hb

theorem takes_at {accepts : Token → Bool} {next : Bool → Parser β} (h : ∀ answer, Takes (next answer)) :
    Takes (atToken accepts >>= next) := by
  refine Takes.bind ?_ h
  rintro tokens _ _ ⟨⟩
  exact List.suffix_rfl

theorem takes_token (accepts : Token → Bool) : Takes (token accepts) := by
  rintro (_ | ⟨first, others⟩) value rest h
  · cases h
  · simp only [token] at h
    split at h <;> cases h
    exact List.suffix_cons first others

theorem Takes.perhaps {starts : Token → Bool} {item : Parser α} (h : Takes item) : Takes (perhaps starts item) :=
  takes_at fun _ => takes_ite h.end (takes_pure none)

theorem Takes.many {starts : Token → Bool} {item : Parser α} (h : Takes item) : Takes (many starts item) := by
  intro tokens
  fun_induction Parser.many starts item tokens with
  | case1 => rintro _ _ ⟨⟩
  | case2 => rintro _ _ ⟨⟩
  | case3 tokens hany first between hitem hlt others rest hmany ih =>
    rintro _ _ ⟨⟩
    exact (ih others rest hmany).trans (h tokens first between hitem)
  | case4 tokens hany first between hitem hlt =>
    rintro _ _ ⟨⟩
    exact h tokens first between hitem
  | case5 =>
    rintro _ _ ⟨⟩
    exact List.suffix_rfl

theorem Takes.many1 {starts : Token → Bool} {item : Parser α} (h : Takes item) : Takes (many1 starts item) :=
  h.bind fun _ => h.many.end

theorem Takes.discarded {reader : Parser α} (h : Takes reader) : Takes (discard reader) := by
  intro tokens value rest hread
  simp only [discard, Functor.mapConst, StateT.map, Function.comp_apply, Bind.bind, Except.bind] at hread
  split at hread
  · cases hread
  · rename_i result hfirst
    obtain ⟨first, between⟩ := result
    cases hread
    exact h tokens first between hfirst

theorem takes_punct (text : String) : Takes (punct text) := (takes_token _).discarded

theorem takes_name : Takes name := (takes_token _).end

theorem Takes.separated {item : Parser α} (text : String) (h : Takes item) : Takes (separated text item) :=
  (takes_punct text).perhaps.discarded.bind fun _ => h.bind fun _ => ((takes_punct text).bind fun _ => h).many.end

/-! ## The readers of the grammar -/

theorem takes_stringText (token : Token) : Takes (stringText token) := by
  unfold stringText
  split <;> split <;> first
    | exact takes_pure _
    | exact takes_fail _

theorem takes_description : Takes description := ((takes_token isString).bind takes_stringText).perhaps

theorem takes_leafValue : Takes leafValue := by
  refine (takes_token isLeaf).bind fun first => ?_
  cases first.kind with
  | name => exact takes_pure _
  | int => exact takes_ite (takes_fail _) (takes_ite (takes_fail _) (takes_pure _))
  | float =>
    simp only [floatValue]
    split
    · exact takes_pure _
    · exact takes_fail _
  | punctuator | string | blockString => exact (takes_stringText first).end

theorem takes_entry {reader : Parser Value} (h : Takes reader) : Takes (do
    let key ← name
    punct ":"
    return (key, ← reader)) :=
  takes_name.bind fun _ => (takes_punct ":").bind fun _ => h.end

theorem takes_value (allowVariables : Bool) (depth : Nat) : Takes (value allowVariables depth) := by
  induction depth with
  | zero => exact takes_leafValue
  | succ depth ih =>
    refine takes_at fun _ => takes_ite ?_ (takes_at fun _ => takes_ite ?_ (takes_at fun _ =>
      takes_ite ?_ takes_leafValue))
    · exact (takes_punct "[").bind fun _ => ih.many.bind fun _ => (takes_punct "]").bind fun _ => takes_pure _
    · exact (takes_punct "\x7b").bind fun _ => (takes_entry ih).many.bind fun _ => (takes_punct "\x7d").bind fun _ =>
        takes_pure _
    · exact (takes_punct "$").bind fun _ => takes_name.end

theorem takes_typeRef (depth : Nat) : Takes (typeRef depth) := by
  induction depth with
  | zero => exact takes_name.end
  | succ depth ih =>
    have hinner : Takes (do
        if ← atToken (isPunct "[") then
          punct "["
          let inner ← typeRef depth
          punct "]"
          return .list inner
        else return .named (← name) : Parser TypeRef) :=
      takes_at fun _ => takes_ite ((takes_punct "[").bind fun _ => ih.bind fun _ => (takes_punct "]").bind fun _ =>
        takes_pure _) takes_name.end
    refine hinner.bind fun inner => (takes_punct "!").perhaps.bind fun marked => ?_
    cases marked <;> exact takes_pure _

/-- Items between an opening and a closing punctuator, or none. -/
theorem takes_bracketed {starts inside : Token → Bool} {item : Parser α} (opening closing : String) (h : Takes item) :
    Takes (perhaps starts (do
      punct opening
      let items ← many1 inside item
      punct closing
      return items)) :=
  ((takes_punct opening).bind fun _ => h.many1.bind fun _ => (takes_punct closing).bind fun _ => takes_pure _).perhaps

theorem takes_directives : Takes directives :=
  ((takes_punct "@").bind fun _ => takes_name.bind fun _ =>
    (takes_bracketed "(" ")" (takes_entry (takes_value true nestingLimit))).bind fun _ => takes_pure _).many

theorem takes_inputValue : Takes inputValue :=
  takes_description.bind fun _ => takes_name.bind fun _ => (takes_punct ":").bind fun _ =>
    (takes_typeRef nestingLimit).bind fun _ =>
      ((takes_punct "=").bind fun _ => takes_value false nestingLimit).perhaps.bind fun _ => takes_directives.end

theorem takes_arguments : Takes arguments := (takes_bracketed "(" ")" takes_inputValue).end

theorem takes_field : Takes field :=
  takes_description.bind fun _ => takes_name.bind fun _ => takes_arguments.bind fun _ =>
    (takes_punct ":").bind fun _ => (takes_typeRef nestingLimit).bind fun _ => takes_directives.end

theorem takes_enumValue : Takes enumValue :=
  takes_description.bind fun _ => takes_name.bind fun _ => takes_directives.end

theorem takes_block {item : Parser α} (h : Takes item) : Takes (block item) := (takes_bracketed "\x7b" "\x7d" h).end

theorem takes_interfaces : Takes interfaces :=
  ((takes_token _).discarded.bind fun _ => takes_name.separated "&").perhaps.end

theorem takes_members : Takes members := ((takes_punct "=").bind fun _ => takes_name.separated "|").perhaps.end

/-- What is read of a type definition behind its keyword and its name. -/
theorem takes_typeDefinition (description : Option String) : Takes (typeDefinition description) := by
  refine (takes_token _).bind fun first => takes_name.bind fun called => ?_
  dsimp only
  cases (typeKeyword? first).getD .scalar with
  | scalar => exact takes_directives.end
  | object | interface =>
    exact takes_interfaces.bind fun _ => takes_directives.bind fun _ => (takes_block takes_field).end
  | union => exact takes_directives.bind fun _ => takes_members.end
  | enum => exact takes_directives.bind fun _ => (takes_block takes_enumValue).end
  | inputObject => exact takes_directives.bind fun _ => (takes_block takes_inputValue).end

theorem takes_extension : Takes extension :=
  (takes_token _).discarded.bind fun _ => (takes_typeDefinition none).bind fun _ =>
    takes_ite (takes_pure _) (takes_fail _)

theorem takes_schemaDefinition : Takes schemaDefinition :=
  (takes_token _).bind fun _ => takes_directives.bind fun _ => (takes_punct "\x7b").bind fun _ =>
    ((takes_token _).bind fun _ => (takes_punct ":").bind fun _ => takes_name.end).many.bind fun _ =>
      (takes_punct "\x7d").bind fun _ => takes_ite (takes_pure _) (takes_fail _)

theorem takes_directiveDefinition (description : Option String) : Takes (directiveDefinition description) := by
  have hlocation : Takes directiveLocation :=
    (takes_token _).bind fun _ => takes_ite (takes_pure _) (takes_fail _)
  exact (takes_token _).bind fun _ => (takes_punct "@").bind fun _ => takes_name.bind fun _ =>
    takes_arguments.bind fun _ => (takes_token _).perhaps.bind fun _ => (takes_token _).discarded.bind fun _ =>
      (hlocation.separated "|").perhaps.end

theorem takes_definition : Takes definition :=
  takes_at fun _ => takes_ite takes_schemaDefinition.end (takes_at fun _ => takes_ite takes_extension
    (takes_description.bind fun description => takes_at fun _ => takes_ite (takes_directiveDefinition description).end
      (takes_at fun _ => takes_ite (takes_typeDefinition description).end takes_unexpected)))

/-! ## Definitions -/

theorem token_eq_ok {accepts : Token → Bool} {first : Token} (h : token accepts tokens = .ok (first, rest)) :
    tokens = first :: rest ∧ accepts first = true := by
  cases tokens with
  | nil => cases h
  | cons head others =>
    simp only [token] at h
    split at h <;> cases h
    exact ⟨rfl, ‹_›⟩

/-- All that a reader gives is of a class. -/
def Gives (P : α → Prop) (reader : Parser α) : Prop := ∀ tokens value rest, reader tokens = .ok (value, rest) → P value

theorem gives_end {P : β → Prop} {reader : Parser α} {make : α → β} (h : ∀ value, P (make value)) :
    Gives P (do return make (← reader)) := by
  intro tokens value rest hread
  obtain ⟨first, between, -, hpure⟩ := bind_eq_ok.1 hread
  cases hpure
  exact h first

theorem gives_next {P : β → Prop} {reader : Parser α} {next : α → Parser β} (h : ∀ value, Gives P (next value)) :
    Gives P (reader >>= next) := by
  intro tokens value rest hread
  obtain ⟨first, between, -, hnext⟩ := bind_eq_ok.1 hread
  exact h first between value rest hnext

/-- A type has the category of a keyword, the position of it, and the name behind it. -/
structure TypeDefinition.HeadedBy (keyword named : Token) (type : TypeDefinition) : Prop where
  kind : typeKeyword? keyword = some type.kind
  position : keyword.position = type.position
  name : named.text = type.name

/-- A type definition starts with its keyword and its name. -/
theorem head_typeDefinition {description : Option String} {type : TypeDefinition}
    (h : typeDefinition description tokens = .ok (type, rest)) :
    ∃ keyword named back, tokens = keyword :: named :: back ∧ type.HeadedBy keyword named := by
  obtain ⟨keyword, behind, hkeyword, hnext⟩ := bind_eq_ok.1 h
  obtain ⟨rfl, hsome⟩ := token_eq_ok hkeyword
  obtain ⟨called, back, hname, hbody⟩ := bind_eq_ok.1 hnext
  obtain ⟨named, between, hnamed, hpure⟩ := bind_eq_ok.1 hname
  obtain ⟨rfl, -⟩ := token_eq_ok hnamed
  cases hpure
  obtain ⟨kind, hkind⟩ := Option.isSome_iff_exists.1 hsome
  refine ⟨keyword, named, back, rfl, ?_⟩
  -- whatever is read behind the name becomes the body of a type of the category that the keyword stands for
  dsimp only at hbody
  rw [hkind, Option.getD_some] at hbody
  cases kind with
  | scalar => exact gives_end (P := TypeDefinition.HeadedBy _ _) (fun _ => ⟨hkind, rfl, rfl⟩) back type rest hbody
  | object | interface =>
    exact gives_next (P := TypeDefinition.HeadedBy _ _) (fun _ => gives_next fun _ => gives_end fun _ =>
      ⟨hkind, rfl, rfl⟩) back type rest hbody
  | union | enum | inputObject =>
    exact gives_next (P := TypeDefinition.HeadedBy _ _) (fun _ => gives_end fun _ => ⟨hkind, rfl, rfl⟩) back type rest
      hbody

/-- What is read of a description: nothing, or one string. -/
theorem head_description {found : Option String} (h : description tokens = .ok (found, rest)) :
    ∃ described : Option Token, tokens = described.toList ++ rest ∧ ∀ token ∈ described, isString token = true := by
  obtain ⟨answer, between, hat, hread⟩ := bind_eq_ok.1 h
  cases hat
  split at hread
  · obtain ⟨text, behind, hstring, hpure⟩ := bind_eq_ok.1 hread
    cases hpure
    obtain ⟨first, others, hfirst, htext⟩ := bind_eq_ok.1 hstring
    obtain ⟨rfl, hkind⟩ := token_eq_ok hfirst
    obtain ⟨rfl, -⟩ := stringText_eq_ok hkind htext
    exact ⟨some first, rfl, by simpa using hkind⟩
  · cases hread
    exact ⟨none, rfl, by simp⟩

/-- Only a keyword and a name make a definition a type definition, and only a description stands in front of them. -/
theorem head_definition {type : TypeDefinition} (h : definition tokens = .ok (.type type, rest)) :
    ∃ (described : Option Token) (keyword named : Token) (back : List Token),
      tokens = described.toList ++ keyword :: named :: back ∧ (∀ token ∈ described, isString token = true) ∧
        type.HeadedBy keyword named := by
  obtain ⟨answer, between, hat, hread⟩ := bind_eq_ok.1 h
  cases hat
  split at hread
  · obtain ⟨schema, behind, -, hpure⟩ := bind_eq_ok.1 hread
    cases hpure
  obtain ⟨answer, between, hat, hplain⟩ := bind_eq_ok.1 hread
  cases hat
  split at hplain
  · obtain ⟨-, behind, -, hextension⟩ := bind_eq_ok.1 hplain
    obtain ⟨addition, behind, -, hmade⟩ := bind_eq_ok.1 hextension
    split at hmade <;> cases hmade
  obtain ⟨found, between, hdescription, hbehind⟩ := bind_eq_ok.1 hplain
  obtain ⟨described, rfl, hdescribed⟩ := head_description hdescription
  obtain ⟨answer, behind, hat, hnext⟩ := bind_eq_ok.1 hbehind
  cases hat
  split at hnext
  · obtain ⟨directive, behind, -, hpure⟩ := bind_eq_ok.1 hnext
    cases hpure
  obtain ⟨answer, behind, hat, hlast⟩ := bind_eq_ok.1 hnext
  cases hat
  split at hlast
  · obtain ⟨read, behind, htype, hpure⟩ := bind_eq_ok.1 hlast
    cases hpure
    obtain ⟨keyword, named, back, rfl, hhead⟩ := head_typeDefinition htype
    exact ⟨described, keyword, named, back, rfl, hdescribed, hhead⟩
  · exact absurd hlast (by unfold unexpected; split <;> simp)

/-! ## Documents -/

/-- Definitions are read one after the other from the front of some tokens, up to the others. -/
inductive ReadUpTo : List Token → List Definition → List Token → Prop
  | nil {tokens : List Token} : ReadUpTo tokens [] tokens
  | cons {tokens between rest : List Token} {first : Definition} {others : List Definition} :
    definition tokens = .ok (first, between) → ReadUpTo between others rest → ReadUpTo tokens (first :: others) rest

theorem ReadUpTo.suffix {document : List Definition} (h : ReadUpTo tokens document rest) : rest <:+ tokens := by
  induction h with
  | nil => exact List.suffix_rfl
  | cons hfirst _ ih => exact ih.trans (takes_definition _ _ _ hfirst)

theorem readUpTo_many {starts : Token → Bool} {document : List Definition}
    (h : many starts definition tokens = .ok (document, rest)) : ReadUpTo tokens document rest := by
  fun_induction Parser.many starts definition tokens generalizing document rest with
  | case1 | case2 => cases h
  | case3 tokens hany first between hitem hlt others rest hmany ih =>
    cases h
    exact .cons hitem (ih hmany)
  | case4 tokens hany first between hitem =>
    cases h
    exact .cons hitem .nil
  | case5 =>
    cases h
    exact .nil

/-- Where a definition of a document is read. -/
theorem ReadUpTo.exists_read {document : List Definition} {index : Nat} {read : Definition}
    (h : ReadUpTo tokens document rest) (hread : document[index]? = some read) :
    ∃ between behind, ReadUpTo tokens (document.take index) between ∧ definition between = .ok (read, behind) := by
  induction h generalizing index with
  | nil => cases hread
  | @cons tokens between rest first others hfirst _ ih =>
    cases index with
    | zero =>
      cases hread
      exact ⟨tokens, between, .nil, hfirst⟩
    | succ index =>
      obtain ⟨start, behind, hupto, hdefinition⟩ := ih hread
      exact ⟨start, behind, .cons hfirst hupto, hdefinition⟩

theorem readUpTo_parse {text : String} {document : List Definition} (h : parse text = .ok document) :
    ReadUpTo (Document.tokens text).list document [] := by
  unfold parse at h
  dsimp only at h
  cases hread : definitions (Document.tokens text).list with
  | error failure => simp [hread] at h
  | ok result =>
    obtain ⟨document', rest⟩ := result
    obtain rfl := definitions_rest hread
    rw [hread] at h
    dsimp only at h
    split at h <;> cases h
    obtain ⟨read, between, hmany, hend⟩ := bind_eq_ok.1 hread
    obtain ⟨answer, behind, hat, hend⟩ := bind_eq_ok.1 hend
    cases hat
    split at hend
    · exact absurd hend (by unfold unexpected; split <;> simp)
    · cases hend
      obtain ⟨first, behind, hfirst, hothers⟩ := bind_eq_ok.1 hmany
      obtain ⟨others, rest, hothers, hpure⟩ := bind_eq_ok.1 hothers
      cases hpure
      exact .cons hfirst (readUpTo_many hothers)

end SchemaFragments.Document
