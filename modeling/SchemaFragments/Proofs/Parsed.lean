import SchemaFragments.Proofs.Regular
/-!
# Parsed definitions are regular

The tokens of a text hold names of the language, and nowhere are more brackets open than allowed. So the
definitions that the grammar gives for them are regular; and the literals it takes have values.
-/

namespace SchemaFragments.Document

open SchemaFragments.Document.Parser

/-! ## Orderly tokens -/

/-- Brackets open after a token. -/
def Token.openAfter (depth : Nat) (token : Token) : Option Nat :=
  match token.text.toList with
  | c :: _ => if token.kind = .punctuator then Document.openAfter depth c else some depth
  | [] => some depth

/-- Tokens of a text, with some brackets open in front of them. -/
def Orderly : Nat → List Token → Prop
  | _, [] => True
  | depth, token :: rest => NamedToken token ∧ ∃ inside, token.openAfter depth = some inside ∧ Orderly inside rest

theorem orderly_tokensFrom (depth : Nat) (position : Position) (text : List Char) :
    Orderly depth (tokensFrom depth position text).list := by
  fun_induction tokensFrom depth position text with
  | case1 | case2 | case3 => trivial
  | case4 depth position text start c rest hskip kind length hlexeme inside hopen lexeme following ih =>
    refine ⟨?_, inside, ?_, ih⟩
    · rintro rfl
      exact isName_of_lexeme hlexeme
    · simpa [Token.openAfter, lexeme] using hopen

theorem openAfter_of_kind {token : Token} (h : token.kind ≠ .punctuator) (depth : Nat) :
    token.openAfter depth = some depth := by
  unfold Token.openAfter
  split <;> simp [h]

/-- The literal that a token is has a value. -/
def Token.HasValue (token : Token) : Prop :=
  match token.kind with
  | .punctuator | .name => True
  | .int => leastInt ≤ integerOfText token.text.toList ∧ integerOfText token.text.toList ≤ greatestInt
  | .float => (Number.readBinary64 token.text.toList).isSome = true
  | .string => ∃ text, decodeString (innerText 1 token.text) = .ok text
  | .blockString => (decodeBlockString (innerText 3 token.text)).isSome = true

theorem hasValue_of_kind {token : Token} (h : token.kind = .punctuator ∨ token.kind = .name) :
    token.HasValue := by
  rcases h with h | h <;> simp [Token.HasValue, h]

/-! ## Readers -/

section Readers

variable {α β : Type} {depth inside after : Nat} {P : α → Prop} {R : β → Prop}

/-- From orderly tokens a reader gives a value of a class and leaves orderly tokens, and all that it takes
have values. -/
def Yields (depth after : Nat) (P : α → Prop) (reader : Parser α) : Prop :=
  ∀ tokens value rest, Orderly depth tokens → reader tokens = .ok (value, rest) →
    P value ∧ Orderly after rest ∧
      ((∀ token ∈ rest, token.HasValue) → ∀ token ∈ tokens, token.HasValue)

theorem Yields.mono {P' : α → Prop} {reader : Parser α} (h : Yields depth after P reader)
    (hp : ∀ value, P value → P' value) : Yields depth after P' reader := fun tokens value rest ho hr =>
  (h tokens value rest ho hr).imp_left (hp value)

theorem yields_pure {value : α} (h : P value) : Yields depth depth P (pure value) := by
  intro tokens value' rest ho hr
  obtain ⟨rfl, rfl⟩ := Prod.mk.inj (Except.ok.inj hr)
  exact ⟨h, ho, id⟩

theorem Yields.bind {reader : Parser α} {next : α → Parser β} (h : Yields depth inside P reader)
    (hn : ∀ value, P value → Yields inside after R (next value)) : Yields depth after R (reader >>= next) := by
  intro tokens value rest ho hr
  cases hfirst : reader tokens with
  | error failure => simp [Bind.bind, StateT.bind, Except.bind, hfirst] at hr
  | ok result =>
    obtain ⟨first, between⟩ := result
    obtain ⟨hp, ho', htaken⟩ := h tokens first between ho hfirst
    obtain ⟨hq, ho'', htaken'⟩ := hn first hp between value rest ho'
      (by simpa [Bind.bind, StateT.bind, Except.bind, hfirst] using hr)
    exact ⟨hq, ho'', fun hrest => htaken (htaken' hrest)⟩

theorem Yields.end {reader : Parser α} {make : α → β} (h : Yields depth after P reader)
    (hq : ∀ value, P value → R (make value)) : Yields depth after R (do return make (← reader)) :=
  h.bind fun value hp => yields_pure (hq value hp)

theorem yields_ite {c : Prop} [Decidable c] {a b : Parser α} (ha : Yields depth after P a)
    (hb : Yields depth after P b) : Yields depth after P (if c then a else b) := by
  split
  · exact ha
  · exact hb

theorem yields_fail {failure : Failure} : Yields depth after P (fail failure) := by
  intro tokens value rest _ hr
  cases hr

theorem yields_unexpected : Yields depth after P unexpected := by
  intro tokens value rest _ hr
  cases tokens <;> cases hr

theorem yields_at {accepts : Token → Bool} {next : Bool → Parser β}
    (h : ∀ answer, Yields depth after R (next answer)) : Yields depth after R (atToken accepts >>= next) :=
  fun tokens value rest ho hr => h (tokens.head?.any accepts) tokens value rest ho hr

theorem yields_perhaps {starts : Token → Bool} {item : Parser α} (h : Yields depth depth P item) :
    Yields depth depth (fun found => ∀ value ∈ found, P value) (perhaps starts item) :=
  yields_at fun _ => yields_ite (h.end fun value hp => by simpa using hp) (yields_pure (by simp))

theorem yields_many {starts : Token → Bool} {item : Parser α} (h : Yields depth depth P item) :
    Yields depth depth (fun items => ∀ item ∈ items, P item) (many starts item) := by
  intro tokens values rest ho hr
  fun_induction many starts item tokens generalizing values rest with
  | case1 | case2 => cases hr
  | case3 tokens _ first between hfirst _ others rest' _ ih =>
    obtain ⟨rfl, rfl⟩ := Prod.mk.inj (Except.ok.inj hr)
    obtain ⟨hp, ho', htaken⟩ := h tokens first between ho hfirst
    obtain ⟨hps, ho'', htaken'⟩ := ih others rest' ho' ‹_›
    exact ⟨List.forall_mem_cons.2 ⟨hp, hps⟩, ho'', fun hrest => htaken (htaken' hrest)⟩
  | case4 tokens _ first between hfirst =>
    obtain ⟨rfl, rfl⟩ := Prod.mk.inj (Except.ok.inj hr)
    obtain ⟨hp, hleft⟩ := h tokens first between ho hfirst
    exact ⟨List.forall_mem_cons.2 ⟨hp, by simp⟩, hleft⟩
  | case5 =>
    obtain ⟨rfl, rfl⟩ := Prod.mk.inj (Except.ok.inj hr)
    exact ⟨by simp, ho, id⟩

theorem yields_many1 {starts : Token → Bool} {item : Parser α} (h : Yields depth depth P item) :
    Yields depth depth (fun items => items ≠ [] ∧ ∀ item ∈ items, P item) (many1 starts item) :=
  h.bind fun _ hp => (yields_many h).end fun _ hps => ⟨by simp, List.forall_mem_cons.2 ⟨hp, hps⟩⟩

/-! ### Single tokens -/

theorem yields_token {accepts : Token → Bool} (h : ∀ token, accepts token = true → token.kind = .name) :
    Yields depth depth (fun token => accepts token = true ∧ IsName token.text) (token accepts) := by
  intro tokens value rest ho hr
  cases tokens with
  | nil => cases hr
  | cons first others =>
    unfold token at hr
    dsimp only at hr
    split at hr <;> cases hr
    rename_i ha
    have hkind := h value ha
    obtain ⟨hname, inside, hopen, ho⟩ := ho
    rw [openAfter_of_kind (by simp [hkind])] at hopen
    obtain rfl := Option.some.inj hopen
    exact ⟨⟨ha, hname hkind⟩, ho, fun hrest => List.forall_mem_cons.2 ⟨hasValue_of_kind (.inr hkind), hrest⟩⟩

theorem isName_kind {token : Token} (h : isName token = true) : token.kind = .name := by simpa [isName] using h

theorem isKeyword_kind {text : String} {token : Token} (h : isKeyword text token = true) : token.kind = .name := by
  simp only [isKeyword, Bool.and_eq_true, beq_iff_eq] at h
  exact h.1

theorem yields_name : Yields depth depth IsName name := (yields_token fun _ => isName_kind).end fun _ h => h.2

theorem yields_discard {p : Prop} {reader : Parser α} (h : Yields depth after (fun _ => p) reader) :
    Yields depth after (fun _ => p) (discard reader) :=
  h.bind fun _ hp => yields_pure hp

/-- A punctuator by its character. -/
theorem yields_punct {c : Char} {text : String} (htext : text.toList = [c])
    (hafter : ∀ inside, openAfter depth c = some inside → inside = after) :
    Yields depth after (fun _ => openAfter depth c = some after) (punct text) := by
  refine yields_discard fun tokens value rest ho hr => ?_
  cases tokens with
  | nil => cases hr
  | cons first others =>
    unfold token at hr
    dsimp only at hr
    split at hr <;> cases hr
    rename_i ha
    simp only [isPunct, Bool.and_eq_true, beq_iff_eq] at ha
    obtain ⟨-, inside, hopen, ho⟩ := ho
    simp only [Token.openAfter, ha, htext, if_true] at hopen
    obtain rfl := hafter inside hopen
    exact ⟨hopen, ho, fun hrest => List.forall_mem_cons.2 ⟨hasValue_of_kind (.inl ha.1), hrest⟩⟩

theorem yields_mark {c : Char} {text : String} (htext : text.toList = [c]) (h : isMark c = true) :
    Yields depth depth (fun _ => True) (punct text) :=
  (yields_punct htext fun inside hopen => by simpa [openAfter_of_isMark h, eq_comm] using hopen).mono
    fun _ _ => trivial

theorem Yields.mark {c : Char} {text : String} {next : Unit → Parser β} (htext : text.toList = [c])
    (h : isMark c = true) (hn : Yields depth after R (next ())) : Yields depth after R (punct text >>= next) :=
  (yields_mark htext h).bind fun _ _ => hn

theorem Yields.opening {c : Char} {text : String} {next : Unit → Parser β} (htext : text.toList = [c])
    (h : isOpening c = true) (hn : depth < nestingLimit → Yields (depth + 1) after R (next ())) :
    Yields depth after R (punct text >>= next) := by
  have hopen (inside : Nat) (ho : openAfter depth c = some inside) :
      depth < nestingLimit ∧ depth + 1 = inside := by
    simpa [openAfter, h] using ho
  exact (yields_punct htext fun inside ho => (hopen inside ho).2.symm).bind fun _ ho => hn (hopen _ ho).1

theorem Yields.closing {c : Char} {text : String} {next : Unit → Parser β} (htext : text.toList = [c])
    (h : isOpening c = false ∧ isClosing c = true) (hn : Yields depth after R (next ())) :
    Yields (depth + 1) after R (punct text >>= next) :=
  (yields_punct htext fun inside ho => by simpa [openAfter, h, eq_comm] using ho).bind fun _ _ => hn

theorem yields_separated {text : String} {item : Parser α}
    (hmark : Yields depth depth (fun _ => True) (punct text)) (h : Yields depth depth P item) :
    Yields depth depth (fun items => ∀ item ∈ items, P item) (separated text item) :=
  (yields_discard (p := True) ((yields_perhaps hmark).mono fun _ _ => trivial)).bind fun _ _ =>
    h.bind fun _ hp => (yields_many (hmark.bind fun _ _ => h)).end fun _ hps => List.forall_mem_cons.2 ⟨hp, hps⟩

/-- A literal: the token is taken first, and what it stands for is looked at then. -/
theorem yields_literal {accepts : Token → Bool} {next : Token → Parser α}
    (haccepts : ∀ token, accepts token = true → token.kind ≠ .punctuator)
    (h : ∀ token tokens value rest, NamedToken token → accepts token = true →
      next token tokens = .ok (value, rest) → rest = tokens ∧ P value ∧ token.HasValue) :
    Yields depth depth P (token accepts >>= next) := by
  intro tokens value rest ho hr
  cases tokens with
  | nil => cases hr
  | cons first others =>
    cases ha : accepts first with
    | false => simp [Bind.bind, StateT.bind, Except.bind, token, ha] at hr
    | true =>
      obtain ⟨hname, inside, hopen, ho⟩ := ho
      rw [openAfter_of_kind (haccepts first ha)] at hopen
      obtain rfl := Option.some.inj hopen
      obtain ⟨rfl, hp, hvalue⟩ := h first others value rest hname ha
        (by simpa [Bind.bind, StateT.bind, Except.bind, token, ha] using hr)
      exact ⟨hp, ho, fun hrest => List.forall_mem_cons.2 ⟨hvalue, hrest⟩⟩

/-- Items between brackets, or none at all. -/
theorem forall_getD {found : Option (List α)} (h : ∀ items ∈ found, ∀ item ∈ items, P item) :
    ∀ item ∈ found.getD [], P item := by
  cases found with
  | none => simp
  | some items => exact h items rfl

end Readers

/-! ## Values and types -/

section Grammar

variable {depth : Nat}

theorem stringText_eq_ok {token : Token} {tokens rest : List Token} {value : String}
    (hkind : isString token = true) (h : stringText token tokens = .ok (value, rest)) :
    rest = tokens ∧ token.HasValue := by
  unfold stringText at h
  unfold Token.HasValue
  simp only [isString, Bool.or_eq_true, beq_iff_eq] at hkind
  rcases hkind with hkind | hkind
  · rw [if_neg (by simp [hkind])] at h
    cases hdecoded : decodeString (innerText 1 token.text) with
    | error fault => simp [hdecoded, complain, fail] at h
    | ok text =>
      obtain ⟨-, rfl⟩ := Prod.mk.inj (Except.ok.inj (hdecoded ▸ h))
      simp [hkind]
  · rw [if_pos hkind] at h
    cases hdecoded : decodeBlockString (innerText 3 token.text) with
    | none => simp [hdecoded, fail] at h
    | some text =>
      obtain ⟨-, rfl⟩ := Prod.mk.inj (Except.ok.inj (hdecoded ▸ h))
      simp [hkind]

theorem isString_kind {token : Token} (h : isString token = true) : token.kind ≠ .punctuator := by
  intro hkind
  simp [isString, hkind] at h

theorem yields_description : Yields depth depth (fun _ => True) description :=
  (yields_perhaps (yields_literal (P := fun _ => True) (fun _ => isString_kind)
    fun _ _ _ _ _ hstring h =>
      (stringText_eq_ok hstring h).imp_right fun hvalue => ⟨trivial, hvalue⟩)).mono fun _ _ => trivial

theorem regular_nameValue {name : String} (allowed : Bool) (h : IsName name) :
    (nameValue name).Regular allowed depth := by
  unfold nameValue
  split
  · trivial
  · trivial
  · trivial
  · exact h

theorem yields_leafValue (allowed : Bool) : Yields depth depth (·.Regular allowed depth) leafValue := by
  refine yields_literal (fun token h => by simpa [isLeaf] using h) fun token tokens value rest hname hleaf h => ?_
  cases hkind : token.kind with
  | name =>
    simp only [hkind] at h
    obtain ⟨rfl, rfl⟩ := Prod.mk.inj (Except.ok.inj h)
    exact ⟨rfl, regular_nameValue allowed (hname hkind), hasValue_of_kind (.inr hkind)⟩
  | int =>
    simp only [hkind, intValue] at h
    split at h
    · cases h
    split at h
    · cases h
    obtain ⟨rfl, rfl⟩ := Prod.mk.inj (Except.ok.inj h)
    have hbounds : leastInt ≤ integerOfText token.text.toList ∧ integerOfText token.text.toList ≤ greatestInt := by
      omega
    exact ⟨rfl, hbounds, by simpa [Token.HasValue, hkind] using hbounds⟩
  | float =>
    simp only [hkind, floatValue] at h
    cases hread : Number.readBinary64 token.text.toList with
    | none => simp [hread, complain, fail] at h
    | some value =>
      obtain ⟨rfl, rfl⟩ := Prod.mk.inj (Except.ok.inj (hread ▸ h))
      exact ⟨rfl, trivial, by simp [Token.HasValue, hkind, hread]⟩
  | punctuator => simp [isLeaf, hkind] at hleaf
  | string | blockString =>
    have hstring : isString token = true := by simp [isString, hkind]
    simp only [hkind] at h
    cases hread : stringText token tokens with
    | error failure => simp [Bind.bind, StateT.bind, Except.bind, hread] at h
    | ok result =>
      obtain ⟨text, rest'⟩ := result
      obtain ⟨rfl, hvalue⟩ := stringText_eq_ok hstring hread
      simp only [Bind.bind, StateT.bind, Except.bind, hread] at h
      obtain ⟨rfl, rfl⟩ := Prod.mk.inj (Except.ok.inj h)
      exact ⟨rfl, trivial, hvalue⟩

theorem mem_of_mem_insertEntry {key : String} {value : Value} {entries : List (String × Value)}
    {entry : String × Value} (h : entry ∈ insertEntry key value entries) :
    entry = (key, value) ∨ entry ∈ entries := by
  fun_induction insertEntry key value entries with
  | case1 => simpa using h
  | case2 | case3 => grind
  | case4 => grind

theorem mem_of_mem_foldl_insertEntry {sorted entries : List (String × Value)} {entry : String × Value}
    (h : entry ∈ entries.foldl (fun sorted entry => insertEntry entry.1 entry.2 sorted) sorted) :
    entry ∈ sorted ∨ entry ∈ entries := by
  induction entries generalizing sorted with
  | nil => exact .inl h
  | cons first others ih =>
    rcases ih h with hm | hm
    · rcases mem_of_mem_insertEntry hm with rfl | hm
      · exact .inr (.head _)
      · exact .inl hm
    · exact .inr (.tail _ hm)

theorem mem_of_mem_sortEntries {entries : List (String × Value)} {entry : String × Value}
    (h : entry ∈ sortEntries entries) : entry ∈ entries := by
  simpa using mem_of_mem_foldl_insertEntry h

/-- A name, a colon and a value. -/
theorem yields_entry {allowed : Bool} {reader : Parser Value}
    (h : Yields depth depth (·.Regular allowed depth) reader) :
    Yields depth depth (RegularEntry allowed depth) (do
      let key ← name
      punct ":"
      return (key, ← reader)) :=
  yields_name.bind fun _ hkey => .mark rfl rfl <| h.end fun _ hvalue => ⟨hkey, hvalue⟩

theorem yields_value (allowed : Bool) (fuel : Nat) :
    Yields depth depth (·.Regular allowed depth) (value allowed fuel) := by
  induction fuel generalizing depth with
  | zero => exact yields_leafValue allowed
  | succ fuel ih =>
    refine yields_at fun _ => yields_ite ?_ (yields_at fun _ => yields_ite ?_ (yields_at fun atDollar => ?_))
    · exact .opening rfl rfl fun hdepth => (yields_many ih).bind fun _ hitems =>
        .closing rfl ⟨rfl, rfl⟩ <| yields_pure ⟨hdepth, regularItems_iff.2 hitems⟩
    · exact .opening rfl rfl fun hdepth => (yields_many (yields_entry ih)).bind fun _ hentries =>
        .closing rfl ⟨rfl, rfl⟩ <| yields_pure ⟨hdepth, regularEntries_iff.2 fun entry he =>
          hentries entry (mem_of_mem_sortEntries he)⟩
    · split
      · rename_i hallowed
        exact .mark rfl rfl <| yields_name.end fun _ hname => ⟨(Bool.and_eq_true_iff.1 hallowed).1, hname⟩
      · exact yields_leafValue allowed

/-- A non-null type is no type to be marked non-null. -/
theorem yields_typeRef (fuel : Nat) : Yields depth depth (·.Regular depth) (typeRef fuel) := by
  induction fuel generalizing depth with
  | zero => exact yields_name.end fun _ h => h
  | succ fuel ih =>
    -- the inner type comes without its mark
    have hinner : Yields depth depth (fun type : TypeRef => type.isNonNull = false ∧ type.Regular depth) (do
        if ← atToken (isPunct "[") then
          punct "["
          let inner ← typeRef fuel
          punct "]"
          return .list inner
        else return .named (← name)) :=
      yields_at fun _ => yields_ite (.opening rfl rfl fun hdepth => ih.bind fun _ h =>
        .closing rfl ⟨rfl, rfl⟩ <| yields_pure ⟨rfl, hdepth, h⟩) (yields_name.end fun _ h => ⟨rfl, h⟩)
    refine hinner.bind fun inner h => (yields_perhaps (yields_mark rfl rfl)).bind fun marked _ => ?_
    cases marked with
    | none => exact yields_pure h.2
    | some _ => exact yields_pure h

/-! ## Parts of definitions -/

theorem yields_directives : Yields depth depth (fun uses => ∀ use ∈ uses, use.Regular depth) directives := by
  refine yields_many (.mark rfl rfl <| yields_name.bind fun _ hname => ?_)
  have harguments : Yields depth depth (fun entries => ∀ entry ∈ entries, RegularEntry true (depth + 1) entry) (do
      punct "("
      let entries ← many1 isName (do
        let key ← name
        punct ":"
        return (key, ← value true nestingLimit))
      punct ")"
      return entries) :=
    .opening rfl rfl fun _ => (yields_many1 (yields_entry (yields_value true nestingLimit))).bind
      fun _ hentries => .closing rfl ⟨rfl, rfl⟩ <| yields_pure hentries.2
  exact (yields_perhaps harguments).bind fun _ hentries => yields_pure ⟨hname, forall_getD hentries⟩

theorem yields_inputValue : Yields depth depth (·.Regular depth) inputValue :=
  yields_description.bind fun _ _ => yields_name.bind fun _ hname => .mark rfl rfl <|
    (yields_typeRef nestingLimit).bind fun _ htype =>
      (yields_perhaps (.mark rfl rfl <| yields_value false nestingLimit)).bind fun _ hdefault =>
        yields_directives.end fun _ huses => ⟨hname, htype, hdefault, huses⟩

theorem yields_arguments :
    Yields depth depth (fun inputs => ∀ input ∈ inputs, input.Regular (depth + 1)) arguments := by
  have hinputs : Yields depth depth (fun inputs => ∀ input ∈ inputs, input.Regular (depth + 1)) (do
      punct "("
      let inputs ← many1 startsDescribed inputValue
      punct ")"
      return inputs) :=
    .opening rfl rfl fun _ => (yields_many1 yields_inputValue).bind fun _ hinputs =>
      .closing rfl ⟨rfl, rfl⟩ <| yields_pure hinputs.2
  exact (yields_perhaps hinputs).end fun _ h => forall_getD h

theorem yields_field : Yields depth depth (·.Regular depth) field :=
  yields_description.bind fun _ _ => yields_name.bind fun _ hname => yields_arguments.bind fun _ harguments =>
    .mark rfl rfl <| (yields_typeRef nestingLimit).bind fun _ htype =>
      yields_directives.end fun _ huses => ⟨hname, harguments, htype, huses⟩

theorem yields_enumValue : Yields depth depth (·.Regular depth) enumValue :=
  yields_description.bind fun _ _ => yields_name.bind fun _ hname =>
    yields_directives.end fun _ huses => ⟨hname, huses⟩

theorem yields_block {α : Type} {P : α → Prop} {item : Parser α} (h : Yields (depth + 1) (depth + 1) P item) :
    Yields depth depth (fun items => ∀ item ∈ items, P item) (block item) := by
  have hitems : Yields depth depth (fun items => ∀ item ∈ items, P item) (do
      punct "\x7b"
      let items ← many1 startsDescribed item
      punct "\x7d"
      return items) :=
    .opening rfl rfl fun _ => (yields_many1 h).bind fun _ hitems =>
      .closing rfl ⟨rfl, rfl⟩ <| yields_pure hitems.2
  exact (yields_perhaps hitems).end fun _ h => forall_getD h

theorem yields_keyword {text : String} : Yields depth depth (fun _ => True) (keyword text) :=
  (yields_token fun _ => isKeyword_kind).mono fun _ _ => trivial

theorem yields_interfaces : Yields depth depth (fun names => ∀ name ∈ names, IsName name) interfaces :=
  (yields_perhaps ((yields_discard yields_keyword).bind fun _ _ =>
    yields_separated (yields_mark rfl rfl) yields_name)).end
    fun _ h => forall_getD h

theorem yields_members : Yields depth depth (fun names => ∀ name ∈ names, IsName name) members :=
  (yields_perhaps (.mark rfl rfl <| yields_separated (yields_mark rfl rfl) yields_name)).end
    fun _ h => forall_getD h

end Grammar

/-! ## Definitions -/

theorem typeKeyword?_kind {token : Token} (h : (typeKeyword? token).isSome = true) : token.kind = .name := by
  unfold typeKeyword? at h
  split at h
  · exact isName_kind ‹_›
  · cases h

theorem yields_typeDefinition {description : Option String} :
    Yields 0 0 (·.Regular) (typeDefinition description) := by
  refine (yields_token fun _ => typeKeyword?_kind).bind fun first _ => yields_name.bind fun called hname => ?_
  dsimp only
  cases (typeKeyword? first).getD .scalar with
  | scalar => exact yields_directives.end fun _ huses => ⟨hname, huses, trivial⟩
  | object | interface =>
    exact yields_interfaces.bind fun _ hinterfaces => yields_directives.bind fun _ huses =>
      (yields_block yields_field).end fun _ hfields => ⟨hname, huses, hinterfaces, hfields⟩
  | union =>
    exact yields_directives.bind fun _ huses => yields_members.end fun _ hmembers => ⟨hname, huses, hmembers⟩
  | enum =>
    exact yields_directives.bind fun _ huses => (yields_block yields_enumValue).end
      fun _ hvalues => ⟨hname, huses, hvalues⟩
  | inputObject =>
    exact yields_directives.bind fun _ huses => (yields_block yields_inputValue).end
      fun _ hfields => ⟨hname, huses, hfields⟩

theorem isName_of_firstRoot {roots : List (Token × String)} (h : ∀ root ∈ roots, IsName root.2)
    (operation : Operation) : ∀ name ∈ firstRoot roots operation, IsName name := by
  intro name hname
  obtain ⟨root, hfind, rfl⟩ := Option.map_eq_some_iff.1 hname
  exact h root (List.mem_of_find?_eq_some hfind)

theorem yields_schemaDefinition : Yields 0 0 (·.Regular) schemaDefinition := by
  have hroot : Yields 1 1 (fun root : Token × String => IsName root.2) (do
      let operation ← token isName
      punct ":"
      return (operation, ← name)) :=
    (yields_token fun _ => isName_kind).bind fun _ _ => .mark rfl rfl <| yields_name.end fun _ h => h
  refine yields_keyword.bind fun _ _ => yields_directives.bind fun _ huses => .opening rfl rfl fun _ =>
    (yields_many hroot).bind fun roots hroots => .closing rfl ⟨rfl, rfl⟩ <|
      yields_ite (yields_pure ⟨huses, fun operation => ?_⟩) yields_fail
  cases operation <;> exact isName_of_firstRoot hroots _

theorem yields_directiveDefinition {description : Option String} :
    Yields 0 0 (fun _ => True) (directiveDefinition description) := by
  have hlocation : Yields 0 0 (fun _ => True) directiveLocation :=
    (yields_token fun _ => isName_kind).bind fun _ _ => yields_ite (yields_pure trivial) yields_fail
  exact yields_keyword.bind fun _ _ => .mark rfl rfl <| yields_name.bind fun _ _ =>
    yields_arguments.bind fun _ _ => (yields_perhaps yields_keyword).bind fun _ _ =>
      (yields_discard yields_keyword).bind fun _ _ =>
        (yields_perhaps (yields_separated (yields_mark rfl rfl) hlocation)).end fun _ _ => trivial

theorem yields_definition : Yields 0 0 (·.Regular) definition := by
  refine yields_at fun _ => yields_ite ?_ (yields_at fun _ => yields_ite ?_
    (yields_description.bind fun _ _ => yields_at fun _ => yields_ite ?_
      (yields_at fun _ => yields_ite ?_ yields_unexpected)))
  · exact yields_schemaDefinition.end fun _ h => h
  · exact (yields_discard yields_keyword).bind fun _ _ => yields_typeDefinition.bind fun _ _ =>
      yields_ite (yields_pure trivial) yields_fail
  · exact yields_directiveDefinition.end fun _ _ => trivial
  · exact yields_typeDefinition.end fun _ h => h

/-! ## Documents -/

/-- What the grammar makes sure of in a document. -/
structure RegularDocument (document : List Definition) : Prop where
  ne_nil : document ≠ []
  regular : ∀ definition ∈ document, definition.Regular

theorem yields_definitions : Yields 0 0 RegularDocument definitions :=
  (yields_many1 yields_definition).bind fun _ h => yields_at fun _ =>
    yields_ite yields_unexpected (yields_pure ⟨h.1, h.2⟩)

theorem definitions_rest {tokens rest : List Token} {document : List Definition}
    (h : definitions tokens = .ok (document, rest)) : rest = [] := by
  unfold definitions at h
  cases hread : many1 startsDefinition definition tokens with
  | error failure => simp [Bind.bind, StateT.bind, Except.bind, hread] at h
  | ok result =>
    obtain ⟨document', rest'⟩ := result
    cases rest' with
    | nil =>
      simp only [Bind.bind, StateT.bind, Except.bind, hread] at h
      exact (Prod.mk.inj (Except.ok.inj h)).2.symm
    | cons token rest' =>
      simp [Bind.bind, StateT.bind, Except.bind, hread, atToken, unexpected] at h

/-- A text is parsed only if all of it has tokens, and all of these have values. -/
theorem of_parse {text : String} {document : List Definition} (h : parse text = .ok document) :
    RegularDocument document ∧ (tokens text).fault = none ∧ ∀ token ∈ (tokens text).list, token.HasValue := by
  unfold parse at h
  dsimp only at h
  cases hread : definitions (tokens text).list with
  | error failure => simp [hread] at h
  | ok result =>
    obtain ⟨document', rest⟩ := result
    obtain ⟨hregular, -, hvalues⟩ := yields_definitions _ _ _ (orderly_tokensFrom ..) hread
    obtain rfl := definitions_rest hread
    rw [hread] at h
    dsimp only at h
    split at h <;> cases h
    rename_i hfault
    -- no tokens are left over that could be without values
    exact ⟨hregular, by simpa using hfault, hvalues (by simp)⟩

theorem TypeDefinition.Regular.wellNamed {type : TypeDefinition} (h : type.Regular) : WellNamed type := by
  refine ⟨h.name, ?_⟩
  have hbody := h.body
  cases hb : type.body with
  | object interfaces fields | interface interfaces fields =>
    rw [hb] at hbody
    simpa [TypeBody.fieldNames] using fun field hf => (hbody.2 field hf).name
  | inputObject fields =>
    rw [hb] at hbody
    simpa [TypeBody.fieldNames] using fun field hf => (hbody field hf).name
  | scalar | union | enum => simp [TypeBody.fieldNames]

/-- The types of a parsed document and their fields have names of the language. -/
theorem wellNamed_of_parse {text : String} {document : List Definition} {definition : Definition}
    {type : TypeDefinition} (h : parse text = .ok document) (hd : definition ∈ document)
    (ht : definition.type? = some type) : WellNamed type := by
  have hregular := (of_parse h).1.regular definition hd
  cases definition with
  | type type' =>
    obtain rfl := Option.some.inj ht
    exact TypeDefinition.Regular.wellNamed hregular
  | schema | extension | directive => cases ht

end SchemaFragments.Document
