import SchemaFragments.Proofs.Lexing
/-!
# Readers of words

A reader of the grammar takes the tokens of some words off the front and leaves what comes behind them, unless
that is a token it would take as well. Readers one after another take the words one after another, if the
words after each of them do not begin with such a token.
-/

namespace SchemaFragments.Document

open SchemaFragments.Document.Parser

variable {α β γ : Type} {avoid before : Token → Bool} {words others : List Word} {word : Word}
  {P : α → Prop} {Q : β → Prop}

/-- A reader takes the tokens of words off the front, whatever comes behind them but a token to avoid, and
gives a value of a class. -/
def Reads (avoid : Token → Bool) (words : List Word) (reader : Parser α) (P : α → Prop) : Prop :=
  ∀ tokens rest, List.Forall₂ Word.Is words tokens → rest.head?.any avoid = false →
    ∃ value, reader (tokens ++ rest) = .ok (value, rest) ∧ P value

/-- No token to avoid comes first, neither in the words nor behind them where they are none. -/
def Clear (avoid after : Token → Bool) (words : List Word) : Prop :=
  ∀ tokens rest, List.Forall₂ Word.Is words tokens → rest.head?.any after = false →
    (tokens ++ rest).head?.any avoid = false

/-- There is a first word, and its token is of a class or not. -/
def Begins (accepts : Token → Bool) (answer : Bool) (words : List Word) : Prop :=
  ∃ word others, words = word :: others ∧ ∀ position, accepts (word.token position) = answer

/-- The class of no token. -/
def nothing : Token → Bool := fun _ => false

theorem clear_nothing {after : Token → Bool} : Clear nothing after words := by
  intro tokens rest _ _
  cases (tokens ++ rest).head? <;> rfl

theorem clear_nil {after : Token → Bool} (h : ∀ token, avoid token = true → after token = true) :
    Clear avoid after [] := by
  rintro tokens rest (_ | _) hrest
  cases rest with
  | nil => rfl
  | cons token rest =>
    simp only [List.head?_cons, Option.any_some, List.nil_append] at hrest ⊢
    exact Bool.eq_false_iff.2 fun ha => Bool.eq_false_iff.1 hrest (h token ha)

theorem Begins.clear {after : Token → Bool} (h : Begins avoid false words) : Clear avoid after words := by
  obtain ⟨word, others, rfl, hword⟩ := h
  rintro tokens rest (_ | ⟨⟨position, rfl⟩, _⟩) _
  exact hword position

/-- The tokens of words in a row. -/
theorem exists_append_of_words {tokens : List Token} (h : List.Forall₂ Word.Is (words ++ others) tokens) :
    ∃ front back, tokens = front ++ back ∧ List.Forall₂ Word.Is words front ∧
      List.Forall₂ Word.Is others back := by
  refine ⟨tokens.take words.length, tokens.drop words.length, (List.take_append_drop ..).symm, ?_, ?_⟩
  · simpa using List.forall₂_take words.length h
  · simpa using List.forall₂_drop words.length h

theorem Clear.append {after : Token → Bool} (h : Clear avoid avoid words) (hothers : Clear avoid after others) :
    Clear avoid after (words ++ others) := by
  intro tokens rest his hrest
  obtain ⟨front, back, rfl, hfront, hback⟩ := exists_append_of_words his
  rw [List.append_assoc]
  exact h front _ hfront (hothers back rest hback hrest)

theorem Begins.nothing {accepts : Token → Bool} {answer : Bool} (h : Begins accepts answer words) :
    Begins nothing false words := by
  obtain ⟨word, others, rfl, -⟩ := h
  exact ⟨word, others, rfl, fun _ => rfl⟩

theorem Reads.mono {P' : α → Prop} {reader : Parser α} (h : Reads avoid words reader P)
    (hp : ∀ value, P value → P' value) : Reads avoid words reader P' := by
  intro tokens rest his hrest
  obtain ⟨value, hread, hv⟩ := h tokens rest his hrest
  exact ⟨value, hread, hp value hv⟩

theorem Reads.weaken {avoid' : Token → Bool} {reader : Parser α} (h : Reads avoid words reader P)
    (hsub : ∀ token, avoid token = true → avoid' token = true) : Reads avoid' words reader P :=
  fun tokens rest his hrest => h tokens rest his (clear_nil hsub [] rest .nil hrest)

theorem reads_pure {value : α} (h : P value) : Reads avoid [] (pure value) P := by
  rintro tokens rest (_ | _) _
  exact ⟨value, rfl, h⟩

theorem Reads.bind {reader : Parser α} {next : α → Parser β} (h : Reads before words reader P)
    (hn : ∀ value, P value → Reads avoid others (next value) Q) (hclear : Clear before avoid others) :
    Reads avoid (words ++ others) (reader >>= next) Q := by
  intro tokens rest his hrest
  obtain ⟨front, back, rfl, hfront, hback⟩ := exists_append_of_words his
  obtain ⟨first, hfirst, hp⟩ := h front (back ++ rest) hfront (hclear back rest hback hrest)
  obtain ⟨value, hvalue, hq⟩ := hn first hp back rest hback hrest
  refine ⟨value, ?_, hq⟩
  simp [Bind.bind, StateT.bind, Except.bind, hfirst, hvalue]

/-- A reader of one word, and another one after it. -/
theorem Reads.next {reader : Parser α} {next : α → Parser β} (h : Reads nothing [word] reader P)
    (hn : ∀ value, P value → Reads avoid others (next value) Q) :
    Reads avoid (word :: others) (reader >>= next) Q :=
  h.bind hn clear_nothing

theorem Reads.end {reader : Parser α} {make : α → β} (h : Reads avoid words reader P)
    (hq : ∀ value, P value → Q (make value)) :
    Reads avoid words (do return make (← reader)) Q := by
  rw [← List.append_nil words]
  exact h.bind (fun value hp => reads_pure (hq value hp)) (clear_nil fun _ => id)

/-- A reader that takes nothing, and another one after it. -/
theorem Reads.skip {reader : Parser α} {next : α → Parser β} (h : Reads before [] reader P)
    (hn : ∀ value, P value → Reads avoid words (next value) Q) (hclear : Clear before avoid words) :
    Reads avoid words (reader >>= next) Q :=
  h.bind hn hclear

theorem reads_token {accepts : Token → Bool} (h : ∀ position, accepts (word.token position) = true) :
    Reads nothing [word] (token accepts) word.Is := by
  rintro tokens rest (_ | ⟨⟨position, rfl⟩, _ | _⟩) _
  exact ⟨word.token position, by simp [token, h position], position, rfl⟩

theorem reads_discard {reader : Parser α} (h : Reads avoid words reader P) :
    Reads avoid words (discard reader) fun _ => True := by
  intro tokens rest his hrest
  obtain ⟨value, hread, -⟩ := h tokens rest his hrest
  exact ⟨(), by
    simp [discard, Functor.mapConst, StateT.map, Bind.bind, Except.bind, hread]
    rfl, trivial⟩

theorem reads_punct {c : Char} {text : String} (h : String.ofList [c] = text) :
    Reads nothing [.punct c] (punct text) fun _ => True :=
  reads_discard (reads_token fun position => by simp [isPunct, Word.token, Word.kind, Word.text, h])

theorem reads_name (text : String) : Reads nothing [.name text] name (· = text) := by
  refine (reads_token fun position => rfl).next fun token his => reads_pure ?_
  obtain ⟨position, rfl⟩ := his
  simp [Word.token, Word.text]

/-! ### Choices -/

theorem reads_at_true {accepts : Token → Bool} {next : Bool → Parser β} (h : Begins accepts true words)
    (hn : Reads avoid words (next true) Q) : Reads avoid words (atToken accepts >>= next) Q := by
  obtain ⟨word, others, rfl, hword⟩ := h
  rintro tokens rest his hrest
  obtain ⟨value, hvalue, hq⟩ := hn tokens rest his hrest
  obtain _ | ⟨⟨position, rfl⟩, -⟩ := his
  refine ⟨value, ?_, hq⟩
  show next (accepts (word.token position)) _ = _
  rw [hword position, hvalue]

theorem reads_at_false {accepts : Token → Bool} {next : Bool → Parser β} (h : Clear accepts avoid words)
    (hn : Reads avoid words (next false) Q) : Reads avoid words (atToken accepts >>= next) Q := by
  intro tokens rest his hrest
  obtain ⟨value, hvalue, hq⟩ := hn tokens rest his hrest
  refine ⟨value, ?_, hq⟩
  show next ((tokens ++ rest).head?.any accepts) _ = _
  rw [h tokens rest his hrest, hvalue]

/-- An item that is there. -/
theorem reads_perhaps (starts : Token → Bool) {item : Parser α} (hstarts : Begins starts true words)
    (h : Reads avoid words item P) :
    Reads avoid words (perhaps starts item) fun found => ∃ value, found = some value ∧ P value := by
  refine reads_at_true hstarts ?_
  rw [← List.append_nil words]
  exact h.bind (fun value hp => reads_pure ⟨value, rfl, hp⟩) (clear_nil fun _ => id)

/-- An item that is not there. -/
theorem reads_nothing (starts : Token → Bool) {item : Parser α} :
    Reads starts [] (perhaps starts item) (· = none) :=
  reads_at_false (clear_nil fun _ => id) (reads_pure rfl)

/-! ### Repetitions -/

theorem clear_flatMap {after : Token → Bool} {items : List γ} {wordsOf : γ → List Word}
    (h : ∀ x ∈ items, Begins avoid false (wordsOf x))
    (hafter : ∀ token, avoid token = true → after token = true) :
    Clear avoid after (items.flatMap wordsOf) := by
  induction items with
  | nil => exact clear_nil hafter
  | cons x items ih =>
    obtain ⟨hx, hitems⟩ := List.forall_mem_cons.1 h
    exact hx.clear.append (ih hitems)

theorem Begins.head_any {starts : Token → Bool} {answer : Bool} {tokens : List Token}
    (h : Begins starts answer words) (his : List.Forall₂ Word.Is words tokens) (rest : List Token) :
    (tokens ++ rest).head?.any starts = answer ∧ rest.length < (tokens ++ rest).length := by
  obtain ⟨word, others, rfl, hword⟩ := h
  obtain _ | ⟨⟨position, rfl⟩, hothers⟩ := his
  refine ⟨hword position, ?_⟩
  simp only [List.cons_append, List.length_cons, List.length_append]
  omega

/-- Items in a row: each of them starts with a token that starts items, which those before it leave. -/
theorem reads_many (starts : Token → Bool) {inner : Token → Bool} {item : Parser α} {items : List γ}
    {wordsOf : γ → List Word} {R : γ → α → Prop} (hitem : ∀ x ∈ items, Reads inner (wordsOf x) item (R x))
    (hstarts : ∀ x ∈ items, Begins starts true (wordsOf x))
    (hinner : ∀ x ∈ items, Begins inner false (wordsOf x)) :
    Reads (fun token => starts token || inner token) (items.flatMap wordsOf) (many starts item)
      (List.Forall₂ R items) := by
  induction items with
  | nil =>
    rintro tokens rest (_ | _) hrest
    have hclear : Clear starts (fun token => starts token || inner token) [] := clear_nil (by simp +contextual)
    have hend : rest.head?.any starts = false := hclear [] rest .nil hrest
    refine ⟨[], ?_, .nil⟩
    rw [many]
    simp [hend]
  | cons x items ih =>
    simp only [List.forall_mem_cons] at hitem hstarts hinner
    intro tokens rest his hrest
    obtain ⟨front, back, rfl, hfront, hback⟩ := exists_append_of_words his
    obtain ⟨hhead, hlength⟩ := hstarts.1.head_any hfront (back ++ rest)
    -- the first item stops where the next one starts, or where the words end
    have hclear : (back ++ rest).head?.any inner = false :=
      clear_flatMap hinner.2 (by simp +contextual) back rest hback hrest
    obtain ⟨first, hfirst, hr⟩ := hitem.1 front (back ++ rest) hfront hclear
    obtain ⟨others, hothers, hrs⟩ := ih hitem.2 hstarts.2 hinner.2 back rest hback hrest
    refine ⟨first :: others, ?_, .cons hr hrs⟩
    rw [List.append_assoc, many, if_pos hhead, hfirst]
    simp only [hlength, if_true, hothers]

theorem reads_many1 (starts : Token → Bool) {inner : Token → Bool} {item : Parser α} {items : List γ}
    {wordsOf : γ → List Word} {R : γ → α → Prop} (hne : items ≠ [])
    (hitem : ∀ x ∈ items, Reads inner (wordsOf x) item (R x))
    (hstarts : ∀ x ∈ items, Begins starts true (wordsOf x))
    (hinner : ∀ x ∈ items, Begins inner false (wordsOf x)) :
    Reads (fun token => starts token || inner token) (items.flatMap wordsOf) (many1 starts item)
      (List.Forall₂ R items) := by
  obtain ⟨x, items, rfl⟩ := List.exists_cons_of_ne_nil hne
  simp only [List.forall_mem_cons] at hitem hstarts hinner
  exact hitem.1.bind (fun first hr => (reads_many starts hitem.2 hstarts.2 hinner.2).end fun _ hrs => .cons hr hrs)
    (clear_flatMap hinner.2 (by simp +contextual))

/-- Names with a punctuator between them. -/
theorem reads_separated {c : Char} {text : String} (h : String.ofList [c] = text) (first : String)
    (rest : List String) :
    Reads (isPunct text) (.name first :: rest.flatMap fun name => [.punct c, .name name])
      (separated text name) (· = first :: rest) := by
  have hmore : Reads (isPunct text) (rest.flatMap fun name => [.punct c, .name name])
      (many (isPunct text) (do punct text; name)) (· = rest) := by
    have hname (x : String) : Reads nothing [.punct c, .name x] (do punct text; name) (· = x) :=
      (reads_punct h).next fun _ _ => reads_name x
    refine ((reads_many (isPunct text) (R := fun x value => value = x) (fun x _ => hname x) (fun x _ => ?_)
      (fun x _ => ⟨_, _, rfl, fun _ => rfl⟩)).mono fun values hr => ?_).weaken (by simp [nothing])
    · exact ⟨_, _, rfl, fun position => by simp [isPunct, Word.token, Word.kind, Word.text, h]⟩
    · exact (List.forall₂_eq_eq_eq ▸ hr.flip : values = rest)
  refine (reads_discard (reads_nothing _)).skip (fun _ _ => ?_) (Begins.clear ⟨_, _, rfl, fun _ => rfl⟩)
  refine (reads_name first).next fun value hvalue => hmore.end fun values hvalues => ?_
  rw [hvalue, hvalues]

/-! ### Brackets -/

/-- Items in brackets, or none without brackets. -/
theorem reads_bracketed (starts : Token → Bool) {inner : Token → Bool} {item : Parser α} {items : List γ}
    {wordsOf : γ → List Word} {R : γ → α → Prop} (opening closing : Char) {before after : String}
    (hbefore : String.ofList [opening] = before) (hafter : String.ofList [closing] = after)
    (hitem : ∀ x ∈ items, Reads inner (wordsOf x) item (R x))
    (hstarts : ∀ x ∈ items, Begins starts true (wordsOf x))
    (hinner : ∀ x ∈ items, Begins inner false (wordsOf x))
    (hclosing : ∀ position, (starts ((Word.punct closing).token position) ||
      inner ((Word.punct closing).token position)) = false) :
    Reads (isPunct before) (bracketed opening closing wordsOf items) (perhaps (isPunct before) (do
        punct before
        let items ← many1 starts item
        punct after
        return items)) fun found => List.Forall₂ R items (found.getD []) := by
  cases items with
  | nil =>
    refine (reads_nothing _).mono fun found hfound => ?_
    rw [hfound]
    exact .nil
  | cons x items =>
    have hmany := reads_many1 starts (by simp) hitem hstarts hinner
    have hitems : Reads nothing (bracketed opening closing wordsOf (x :: items)) (do
        punct before
        let items ← many1 starts item
        punct after
        return items) (List.Forall₂ R (x :: items)) :=
      Reads.next (reads_punct hbefore) fun _ _ => hmany.bind (fun values hvalues =>
        Reads.next (reads_punct hafter) fun _ _ => reads_pure hvalues) (Begins.clear ⟨_, _, rfl, hclosing⟩)
    refine ((reads_perhaps _ ⟨_, _, rfl, fun position => ?_⟩ hitems).weaken (by simp [nothing])).mono
      fun found hfound => ?_
    · simp [isPunct, Word.token, Word.kind, Word.text, hbefore]
    · obtain ⟨values, rfl, hvalues⟩ := hfound
      exact hvalues

theorem mem_bracketed {opening closing : Char} {wordsOf : α → List Word} {items : List α}
    {item : α} {word : Word} (hitem : item ∈ items) (hword : word ∈ wordsOf item) :
    word ∈ bracketed opening closing wordsOf items := by
  have hmem : word ∈ items.flatMap wordsOf := List.mem_flatMap.2 ⟨item, hitem, hword⟩
  have hne : items.isEmpty = false := by
    cases items with
    | nil => cases hitem
    | cons => rfl
  simp [bracketed, hne, hmem]

end SchemaFragments.Document
