import SchemaFragments.Document.Grammar
/-!
# Reading without positions

The grammar looks at the kinds and texts of tokens. Their positions only get into the positions of definitions
and into complaints, so that texts with the same tokens at other places are parsed to the same definitions.
-/

namespace SchemaFragments.Document

open SchemaFragments.Document.Parser

/-! ## What is left without positions -/

def Token.unplaced (token : Token) : Token := { token with position := ⟨0, 0⟩ }

def TypeDefinition.unplaced (type : TypeDefinition) : TypeDefinition := { type with position := ⟨0, 0⟩ }

def SchemaDefinition.unplaced (schema : SchemaDefinition) : SchemaDefinition := { schema with position := ⟨0, 0⟩ }

def DirectiveDefinition.unplaced (directive : DirectiveDefinition) : DirectiveDefinition :=
  { directive with position := ⟨0, 0⟩ }

def Definition.unplaced : Definition → Definition
  | .schema definition => .schema definition.unplaced
  | .type definition => .type definition.unplaced
  | .extension addition => .extension addition.unplaced
  | .directive definition => .directive definition.unplaced

/-! ## Readers -/

section Readers

variable {α β : Type} {strip : α → α} {strip' : β → β}

/-- From tokens without positions the second reader gives what the first gives from the tokens, without positions
as well, and where the first fails the second does. -/
def ReadsAlike (strip : α → α) (reader reader' : Parser α) : Prop :=
  ∀ tokens, (reader' (tokens.map Token.unplaced)).toOption =
    (reader tokens).toOption.map fun (value, rest) => (strip value, rest.map Token.unplaced)

/-- Positions do not get into what a reader gives. -/
abbrev Placeless (reader : Parser α) : Prop := ReadsAlike id reader reader

theorem readsAlike_pure (value : α) : ReadsAlike strip (pure value) (pure (strip value)) := fun _ => rfl

theorem placeless_pure (value : α) : Placeless (pure value : Parser α) := fun _ => rfl

theorem readsAlike_fail (failure failure' : Failure) : ReadsAlike strip (fail failure) (fail failure') := fun _ => rfl

theorem readsAlike_unexpected : ReadsAlike strip unexpected unexpected := by
  intro tokens
  cases tokens <;> rfl

theorem ReadsAlike.bind {reader reader' : Parser α} {next next' : α → Parser β} (h : ReadsAlike strip reader reader')
    (hn : ∀ value, ReadsAlike strip' (next value) (next' (strip value))) :
    ReadsAlike strip' (reader >>= next) (reader' >>= next') := by
  intro tokens
  have hfirst := h tokens
  simp only [Bind.bind, StateT.bind, Except.bind]
  cases hr : reader tokens with
  | error failure =>
    cases hr' : reader' (tokens.map Token.unplaced) with
    | error failure' => rfl
    | ok result =>
      rw [hr, hr'] at hfirst
      cases hfirst
  | ok result =>
    obtain ⟨value, rest⟩ := result
    cases hr' : reader' (tokens.map Token.unplaced) with
    | error failure =>
      rw [hr, hr'] at hfirst
      cases hfirst
    | ok result' =>
      rw [hr, hr'] at hfirst
      obtain rfl := Option.some.inj hfirst
      exact hn value rest

theorem ReadsAlike.end {reader reader' : Parser α} {make make' : α → β} (h : ReadsAlike strip reader reader')
    (hm : ∀ value, make' (strip value) = strip' (make value)) :
    ReadsAlike strip' (do return make (← reader)) (do return make' (← reader')) :=
  h.bind fun value => by
    rw [hm]
    exact readsAlike_pure _

/-- A reader into which no positions get, and another one after it. -/
theorem Placeless.next {reader : Parser α} {next next' : α → Parser β} (h : Placeless reader)
    (hn : ∀ value, ReadsAlike strip' (next value) (next' value)) : ReadsAlike strip' (reader >>= next) (reader >>= next') :=
  h.bind hn

theorem readsAlike_ite {c : Prop} [Decidable c] {a b a' b' : Parser α} (ha : ReadsAlike strip a a')
    (hb : ReadsAlike strip b b') : ReadsAlike strip (if c then a else b) (if c then a' else b') := by
  split
  · exact ha
  · exact hb

theorem readsAlike_at {accepts : Token → Bool} {next next' : Bool → Parser β}
    (haccepts : ∀ token, accepts token.unplaced = accepts token)
    (h : ∀ answer, ReadsAlike strip' (next answer) (next' answer)) :
    ReadsAlike strip' (atToken accepts >>= next) (atToken accepts >>= next') := by
  intro tokens
  have hanswer : (tokens.map Token.unplaced).head?.any accepts = tokens.head?.any accepts := by
    cases tokens with
    | nil => rfl
    | cons first others => exact haccepts first
  show (next' ((tokens.map Token.unplaced).head?.any accepts) _).toOption = _
  rw [hanswer]
  exact h _ tokens

theorem readsAlike_token {accepts : Token → Bool} (haccepts : ∀ token, accepts token.unplaced = accepts token) :
    ReadsAlike Token.unplaced (token accepts) (token accepts) := by
  intro tokens
  cases tokens with
  | nil => rfl
  | cons first others =>
    simp only [List.map_cons, token, haccepts]
    split <;> rfl

theorem ReadsAlike.perhaps {starts : Token → Bool} {item item' : Parser α}
    (hstarts : ∀ token, starts token.unplaced = starts token) (h : ReadsAlike strip item item') :
    ReadsAlike (Option.map strip) (perhaps starts item) (perhaps starts item') :=
  readsAlike_at hstarts fun _ => readsAlike_ite (h.end fun _ => rfl) (readsAlike_pure none)

theorem Placeless.perhaps {starts : Token → Bool} {item : Parser α}
    (hstarts : ∀ token, starts token.unplaced = starts token) (h : Placeless item) : Placeless (perhaps starts item) := by
  have hid : (id : Option α → Option α) = Option.map id := Option.map_id.symm
  rw [Placeless, hid]
  exact ReadsAlike.perhaps hstarts h

/-- What the second reader gives where the first succeeds, and that it fails where the first does. -/
theorem ReadsAlike.of_ok {reader reader' : Parser α} (h : ReadsAlike strip reader reader') {tokens rest : List Token}
    {value : α} (hr : reader tokens = .ok (value, rest)) :
    reader' (tokens.map Token.unplaced) = .ok (strip value, rest.map Token.unplaced) := by
  have heq := h tokens
  rw [hr] at heq
  cases hr' : reader' (tokens.map Token.unplaced) with
  | error failure =>
    rw [hr'] at heq
    cases heq
  | ok result =>
    rw [hr'] at heq
    exact congrArg Except.ok (Option.some.inj heq)

theorem ReadsAlike.of_error {reader reader' : Parser α} (h : ReadsAlike strip reader reader') {tokens : List Token}
    {failure : Failure} (hr : reader tokens = .error failure) :
    ∃ failure', reader' (tokens.map Token.unplaced) = .error failure' := by
  have heq := h tokens
  rw [hr] at heq
  cases hr' : reader' (tokens.map Token.unplaced) with
  | error failure' => exact ⟨failure', rfl⟩
  | ok result =>
    rw [hr'] at heq
    cases heq

theorem ReadsAlike.many {starts : Token → Bool} {item : Parser α}
    (hstarts : ∀ token, starts token.unplaced = starts token) (h : ReadsAlike strip item item) :
    ReadsAlike (List.map strip) (many starts item) (many starts item) := by
  intro tokens
  have hhead (tokens : List Token) : (tokens.map Token.unplaced).head?.any starts = tokens.head?.any starts := by
    cases tokens with
    | nil => rfl
    | cons first others => exact hstarts first
  fun_induction Parser.many starts item tokens with
  | case1 tokens hany failure hitem =>
    obtain ⟨failure', hitem'⟩ := h.of_error hitem
    rw [Parser.many, hhead, if_pos hany, hitem']
    rfl
  | case2 tokens hany first rest hitem hlt failure hmany ih =>
    rw [Parser.many, hhead, if_pos hany, h.of_ok hitem]
    simp only [List.length_map, hlt, if_true]
    rw [hmany] at ih
    cases hmany' : Parser.many starts item (rest.map Token.unplaced) with
    | error failure' => rfl
    | ok result =>
      rw [hmany'] at ih
      cases ih
  | case3 tokens hany first rest hitem hlt others rest' hmany ih =>
    rw [Parser.many, hhead, if_pos hany, h.of_ok hitem]
    simp only [List.length_map, hlt, if_true]
    rw [hmany] at ih
    cases hmany' : Parser.many starts item (rest.map Token.unplaced) with
    | error failure' =>
      rw [hmany'] at ih
      cases ih
    | ok result =>
      rw [hmany'] at ih
      obtain rfl := Option.some.inj ih
      rfl
  | case4 tokens hany first rest hitem hlt =>
    rw [Parser.many, hhead, if_pos hany, h.of_ok hitem]
    simp only [List.length_map, hlt, if_false]
    rfl
  | case5 tokens hany =>
    rw [Parser.many, hhead, if_neg hany]
    rfl

theorem Placeless.many {starts : Token → Bool} {item : Parser α}
    (hstarts : ∀ token, starts token.unplaced = starts token) (h : Placeless item) : Placeless (many starts item) := by
  have hid : (id : List α → List α) = List.map id := List.map_id_fun.symm
  rw [Placeless, hid]
  exact ReadsAlike.many hstarts h

theorem ReadsAlike.many1 {starts : Token → Bool} {item : Parser α}
    (hstarts : ∀ token, starts token.unplaced = starts token) (h : ReadsAlike strip item item) :
    ReadsAlike (List.map strip) (many1 starts item) (many1 starts item) :=
  h.bind fun _ => (ReadsAlike.many hstarts h).end fun _ => rfl

theorem Placeless.many1 {starts : Token → Bool} {item : Parser α}
    (hstarts : ∀ token, starts token.unplaced = starts token) (h : Placeless item) : Placeless (many1 starts item) :=
  h.next fun _ => (Placeless.many hstarts h).end fun _ => rfl

/-! ### Single tokens -/

theorem ReadsAlike.discarded {reader : Parser α} (h : ReadsAlike strip reader reader) :
    Placeless (discard reader) := by
  intro tokens
  simp only [discard, Functor.mapConst, StateT.map, Function.comp_apply, Bind.bind, Except.bind]
  cases hr : reader tokens with
  | error failure =>
    obtain ⟨failure', hr'⟩ := h.of_error hr
    rw [hr']
    rfl
  | ok result =>
    rw [h.of_ok hr]
    rfl

theorem placeless_punct (text : String) : Placeless (punct text) := (readsAlike_token fun _ => rfl).discarded

theorem placeless_name : Placeless name := (readsAlike_token fun _ => rfl).end fun _ => rfl

theorem readsAlike_keyword (text : String) : ReadsAlike Token.unplaced (keyword text) (keyword text) :=
  readsAlike_token fun _ => rfl

theorem Placeless.separated {item : Parser α} (text : String) (h : Placeless item) : Placeless (separated text item) :=
  (Placeless.perhaps (fun _ => rfl) (placeless_punct text)).discarded.next fun _ => h.next fun _ =>
    (Placeless.many (fun _ => rfl) ((placeless_punct text).next fun _ => h)).end fun _ => rfl

end Readers

/-! ## Values and types -/

theorem readsAlike_stringText (token : Token) : ReadsAlike id (stringText token) (stringText token.unplaced) := by
  have hkind : token.unplaced.kind = token.kind := rfl
  have htext : token.unplaced.text = token.text := rfl
  unfold stringText
  rw [hkind, htext]
  split
  · split
    · exact placeless_pure _
    · exact readsAlike_fail _ _
  · split
    · exact placeless_pure _
    · exact readsAlike_fail _ _

theorem placeless_description : Placeless description :=
  Placeless.perhaps (fun _ => rfl) ((readsAlike_token fun _ => rfl).bind readsAlike_stringText)

theorem placeless_leafValue : Placeless leafValue := by
  refine (readsAlike_token fun _ => rfl).bind fun first => ?_
  have hkind : first.unplaced.kind = first.kind := rfl
  rw [hkind]
  cases first.kind with
  | name => exact placeless_pure _
  | int => exact readsAlike_ite (readsAlike_fail _ _) (readsAlike_ite (readsAlike_fail _ _) (placeless_pure _))
  | float =>
    have htext : first.unplaced.text = first.text := rfl
    simp only [floatValue, htext]
    split
    · exact placeless_pure _
    · exact readsAlike_fail _ _
  | punctuator | string | blockString => exact (readsAlike_stringText first).end fun _ => rfl

theorem placeless_entry {reader : Parser Value} (h : Placeless reader) : Placeless (do
    let key ← name
    punct ":"
    return (key, ← reader)) :=
  placeless_name.next fun _ => (placeless_punct ":").next fun _ => h.end fun _ => rfl

theorem startsValue_unplaced (allowVariables : Bool) (token : Token) :
    startsValue allowVariables token.unplaced = startsValue allowVariables token := rfl

theorem placeless_value (allowVariables : Bool) (depth : Nat) : Placeless (value allowVariables depth) := by
  induction depth with
  | zero => exact placeless_leafValue
  | succ depth ih =>
    refine readsAlike_at (fun _ => rfl) fun _ => readsAlike_ite ?_ (readsAlike_at (fun _ => rfl) fun _ =>
      readsAlike_ite ?_ (readsAlike_at (fun _ => rfl) fun _ => readsAlike_ite ?_ placeless_leafValue))
    · exact (placeless_punct "[").next fun _ => (Placeless.many (startsValue_unplaced _) ih).next fun _ =>
        (placeless_punct "]").next fun _ => placeless_pure _
    · exact (placeless_punct "\x7b").next fun _ => (Placeless.many (fun _ => rfl) (placeless_entry ih)).next fun _ =>
        (placeless_punct "\x7d").next fun _ => placeless_pure _
    · exact (placeless_punct "$").next fun _ => placeless_name.end fun _ => rfl

theorem placeless_typeRef (depth : Nat) : Placeless (typeRef depth) := by
  induction depth with
  | zero => exact placeless_name.end fun _ => rfl
  | succ depth ih =>
    have hinner : Placeless (do
        if ← atToken (isPunct "[") then
          punct "["
          let inner ← typeRef depth
          punct "]"
          return .list inner
        else return .named (← name) : Parser TypeRef) :=
      readsAlike_at (fun _ => rfl) fun _ => readsAlike_ite ((placeless_punct "[").next fun _ => ih.next fun _ =>
        (placeless_punct "]").next fun _ => placeless_pure _) (placeless_name.end fun _ => rfl)
    refine hinner.next fun inner => (Placeless.perhaps (fun _ => rfl) (placeless_punct "!")).next fun marked => ?_
    cases marked <;> exact placeless_pure _

/-! ## Parts of definitions -/

theorem placeless_directives : Placeless directives := by
  have harguments : Placeless (do
      punct "("
      let arguments ← many1 isName (do
        let key ← name
        punct ":"
        return (key, ← value true nestingLimit))
      punct ")"
      return arguments) :=
    (placeless_punct "(").next fun _ =>
      (Placeless.many1 (fun _ => rfl) (placeless_entry (placeless_value true nestingLimit))).next fun _ =>
        (placeless_punct ")").next fun _ => placeless_pure _
  exact Placeless.many (fun _ => rfl) ((placeless_punct "@").next fun _ => placeless_name.next fun _ =>
    (Placeless.perhaps (fun _ => rfl) harguments).next fun _ => placeless_pure _)

theorem placeless_inputValue : Placeless inputValue :=
  placeless_description.next fun _ => placeless_name.next fun _ => (placeless_punct ":").next fun _ =>
    (placeless_typeRef nestingLimit).next fun _ =>
      (Placeless.perhaps (fun _ => rfl) ((placeless_punct "=").next fun _ => placeless_value false nestingLimit)).next
        fun _ => placeless_directives.end fun _ => rfl

theorem placeless_arguments : Placeless arguments :=
  (Placeless.perhaps (fun _ => rfl) ((placeless_punct "(").next fun _ =>
    (Placeless.many1 (fun _ => rfl) placeless_inputValue).next fun _ =>
      (placeless_punct ")").next fun _ => placeless_pure _)).end fun _ => rfl

theorem placeless_field : Placeless field :=
  placeless_description.next fun _ => placeless_name.next fun _ => placeless_arguments.next fun _ =>
    (placeless_punct ":").next fun _ => (placeless_typeRef nestingLimit).next fun _ =>
      placeless_directives.end fun _ => rfl

theorem placeless_enumValue : Placeless enumValue :=
  placeless_description.next fun _ => placeless_name.next fun _ => placeless_directives.end fun _ => rfl

theorem placeless_block {α : Type} {item : Parser α} (h : Placeless item) : Placeless (block item) :=
  (Placeless.perhaps (fun _ => rfl) ((placeless_punct "\x7b").next fun _ =>
    (Placeless.many1 (fun _ => rfl) h).next fun _ => (placeless_punct "\x7d").next fun _ => placeless_pure _)).end
    fun _ => rfl

theorem placeless_interfaces : Placeless interfaces :=
  (Placeless.perhaps (fun _ => rfl) ((readsAlike_keyword "implements").discarded.next fun _ =>
    placeless_name.separated "&")).end fun _ => rfl

theorem placeless_members : Placeless members :=
  (Placeless.perhaps (fun _ => rfl) ((placeless_punct "=").next fun _ => placeless_name.separated "|")).end fun _ => rfl

/-! ## Definitions -/

theorem readsAlike_typeDefinition (description : Option String) :
    ReadsAlike TypeDefinition.unplaced (typeDefinition description) (typeDefinition description) := by
  refine (readsAlike_token fun _ => rfl).bind fun first => placeless_name.next fun called => ?_
  have hkeyword : typeKeyword? first.unplaced = typeKeyword? first := rfl
  dsimp only
  rw [hkeyword]
  cases (typeKeyword? first).getD .scalar with
  | scalar => exact placeless_directives.end fun _ => rfl
  | object | interface =>
    exact placeless_interfaces.next fun _ => placeless_directives.next fun _ =>
      (placeless_block placeless_field).end fun _ => rfl
  | union => exact placeless_directives.next fun _ => placeless_members.end fun _ => rfl
  | enum => exact placeless_directives.next fun _ => (placeless_block placeless_enumValue).end fun _ => rfl
  | inputObject => exact placeless_directives.next fun _ => (placeless_block placeless_inputValue).end fun _ => rfl

theorem readsAlike_extension : ReadsAlike Definition.unplaced extension extension :=
  (readsAlike_keyword "extend").discarded.next fun _ => (readsAlike_typeDefinition none).bind fun _ =>
    readsAlike_ite (readsAlike_pure _) (readsAlike_fail _ _)

/-- A name before a colon, with its token, and the name of a root. -/
def unplacedRoot (root : Token × String) : Token × String := (root.1.unplaced, root.2)

theorem firstRoot_unplaced (roots : List (Token × String)) (operation : Operation) :
    firstRoot (roots.map unplacedRoot) operation = firstRoot roots operation := by
  rw [firstRoot, firstRoot, List.find?_map, Option.map_map]
  rfl

theorem rootComplaints_unplaced (seen : List Operation) (roots : List (Token × String)) :
    rootComplaints seen (roots.map unplacedRoot) = rootComplaints seen roots := by
  fun_induction rootComplaints seen roots with
  | case1 => rfl
  | case2 seen token name rest hnone ih =>
    have htoken : operation? (unplacedRoot (token, name)).1.text = none := hnone
    rw [List.map_cons, rootComplaints, htoken, ih]
    rfl
  | case3 seen token name rest operation hsome hseen ih =>
    have htoken : operation? (unplacedRoot (token, name)).1.text = some operation := hsome
    rw [List.map_cons, rootComplaints, htoken]
    simp only [hseen, if_true, ih]
  | case4 seen token name rest operation hsome hseen ih =>
    have htoken : operation? (unplacedRoot (token, name)).1.text = some operation := hsome
    rw [List.map_cons, rootComplaints, htoken]
    simp only [hseen, ih]
    rfl

theorem readsAlike_schemaDefinition : ReadsAlike SchemaDefinition.unplaced schemaDefinition schemaDefinition := by
  have hroot : ReadsAlike unplacedRoot (do
      let operation ← token isName
      punct ":"
      return (operation, ← name)) (do
      let operation ← token isName
      punct ":"
      return (operation, ← name)) :=
    (readsAlike_token fun _ => rfl).bind fun _ => (placeless_punct ":").next fun _ => placeless_name.end fun _ => rfl
  refine (readsAlike_keyword "schema").bind fun first => placeless_directives.next fun _ =>
    (placeless_punct "\x7b").next fun _ => (ReadsAlike.many (fun _ => rfl) hroot).bind fun roots =>
      (placeless_punct "\x7d").next fun _ => ?_
  simp only [rootComplaints_unplaced, firstRoot_unplaced]
  exact readsAlike_ite (readsAlike_pure _) (readsAlike_fail _ _)

theorem readsAlike_directiveDefinition (description : Option String) :
    ReadsAlike DirectiveDefinition.unplaced (directiveDefinition description) (directiveDefinition description) := by
  have hlocation : Placeless directiveLocation :=
    (readsAlike_token fun _ => rfl).bind fun _ => readsAlike_ite (placeless_pure _) (readsAlike_fail _ _)
  refine (readsAlike_keyword "directive").bind fun first => (placeless_punct "@").next fun _ =>
    placeless_name.next fun _ => placeless_arguments.next fun _ =>
      (ReadsAlike.perhaps (fun _ => rfl) (readsAlike_keyword "repeatable")).bind fun repeatable =>
        (readsAlike_keyword "on").discarded.next fun _ =>
          (Placeless.perhaps (fun _ => rfl) (hlocation.separated "|")).end fun _ => ?_
  cases repeatable <;> rfl

theorem readsAlike_definition : ReadsAlike Definition.unplaced definition definition := by
  refine readsAlike_at (fun _ => rfl) fun _ => readsAlike_ite ?_ (readsAlike_at (fun _ => rfl) fun _ =>
    readsAlike_ite readsAlike_extension (placeless_description.next fun description => readsAlike_at (fun _ => rfl)
      fun _ => readsAlike_ite ?_ (readsAlike_at (fun _ => rfl) fun _ => readsAlike_ite ?_ readsAlike_unexpected)))
  · exact readsAlike_schemaDefinition.end fun _ => rfl
  · exact (readsAlike_directiveDefinition description).end fun _ => rfl
  · exact (readsAlike_typeDefinition description).end fun _ => rfl

/-! ## Documents -/

theorem readsAlike_definitions : ReadsAlike (List.map Definition.unplaced) definitions definitions :=
  (ReadsAlike.many1 (fun _ => rfl) readsAlike_definition).bind fun _ => readsAlike_at (fun _ => rfl) fun _ =>
    readsAlike_ite readsAlike_unexpected (readsAlike_pure _)

/-- The tokens of a text without their positions, and why they stop. -/
def Tokens.unplaced (tokens : Tokens) : List Token × Option Fault := (tokens.list.map Token.unplaced, tokens.fault)

/-- Texts with the same tokens at any places are parsed to the same definitions at any places. -/
theorem parse_unplaced {text text' : String} {document : List Definition}
    (htokens : (tokens text').unplaced = (tokens text).unplaced) (h : parse text = .ok document) :
    ∃ document', parse text' = .ok document' ∧ document'.map Definition.unplaced = document.map Definition.unplaced := by
  obtain ⟨hlist, hfault⟩ := Prod.mk.inj htokens
  unfold parse at h ⊢
  dsimp only at h ⊢
  cases hread : definitions (tokens text).list with
  | error failure =>
    rw [hread] at h
    cases h
  | ok result =>
    obtain ⟨document₀, rest⟩ := result
    rw [hread] at h
    dsimp only at h
    split at h <;> cases h
    rename_i hnone
    have hstripped := readsAlike_definitions.of_ok hread
    cases hread' : definitions (tokens text').list with
    | error failure =>
      obtain ⟨failure', hfailure⟩ := readsAlike_definitions.of_error hread'
      rw [hlist, hstripped] at hfailure
      cases hfailure
    | ok result' =>
      obtain ⟨document', rest'⟩ := result'
      have hstripped' := readsAlike_definitions.of_ok hread'
      rw [hlist, hstripped] at hstripped'
      refine ⟨document', ?_, (Prod.mk.inj (Except.ok.inj hstripped')).1.symm⟩
      dsimp only
      rw [if_neg (by rwa [hfault])]

end SchemaFragments.Document
