import SchemaFragments.Document.Grammar
/-!
# Names in documents

Type and field names of a parsed document are names of the language: a letter or underscore, then letters,
digits and underscores. Tokens of that kind are, and the grammar takes names from them only.
-/

namespace SchemaFragments.Document

/-- A letter or underscore, then letters, digits and underscores. -/
def IsName (name : String) : Prop :=
  ∃ first rest, name.toList = first :: rest ∧ isNameStart first = true ∧ ∀ c ∈ rest, isNameChar c = true

def isNameText : List Char → Bool
  | [] => false
  | first :: rest => isNameStart first && rest.all isNameChar

theorem isNameText_iff {name : String} : isNameText name.toList = true ↔ IsName name := by
  unfold IsName
  cases name.toList with
  | nil => simp [isNameText]
  | cons first rest =>
    simp only [isNameText, Bool.and_eq_true, List.all_eq_true]
    constructor
    · exact fun h => ⟨first, rest, rfl, h⟩
    · rintro ⟨_, _, heq, h⟩
      obtain ⟨rfl, rfl⟩ := List.cons.inj heq
      exact h

instance : DecidablePred IsName := fun _ => decidable_of_iff _ isNameText_iff

theorem isNameChar_of_start {c : Char} (h : isNameStart c = true) : isNameChar c = true := by
  simp only [isNameStart, isNameChar, Char.isAlphanum, Bool.or_eq_true] at h ⊢
  exact h.imp_left .inl

theorem IsName.all {name : String} (h : IsName name) : ∀ c ∈ name.toList, isNameChar c = true := by
  obtain ⟨first, rest, he, hs, hr⟩ := h
  intro c hc
  rw [he] at hc
  rcases List.mem_cons.1 hc with rfl | hc
  · exact isNameChar_of_start hs
  · exact hr c hc

theorem notMem_of_isNameChar {chars : List Char} {c : Char} (h : ∀ c ∈ chars, isNameChar c = true)
    (hc : isNameChar c = false) : c ∉ chars := by
  intro hm
  rw [h c hm] at hc
  cases hc

/-! ## Tokens -/

def NamedToken (token : Token) : Prop := token.kind = .name → IsName token.text

theorem take_length_takeWhile {α : Type} (p : α → Bool) (l : List α) :
    l.take (l.takeWhile p).length = l.takeWhile p :=
  (List.prefix_iff_eq_take.1 (List.takeWhile_prefix p)).symm

theorem isName_of_lexeme {first : Char} {rest : List Char} {length : Nat}
    (h : lexeme first rest = .ok (.name, length)) : IsName (String.ofList (first :: rest.take length)) := by
  unfold lexeme at h
  split at h
  · simp at h
  split at h
  · split at h <;> simp at h
  split at h
  · rename_i hstart
    simp only [Except.ok.injEq, Prod.mk.injEq, true_and] at h
    subst h
    refine ⟨first, _, String.toList_ofList, hstart, fun c hc => ?_⟩
    rw [take_length_takeWhile] at hc
    exact List.all_eq_true.1 List.all_takeWhile c hc
  split at h
  · dsimp only at h
    split at h <;> split at h <;> simp at h
  split at h
  · split at h <;> split at h <;> simp at h
  · simp at h

/-! ## Definitions -/

/-- The names of the fields of a type, whatever its category. -/
def TypeBody.fieldNames : TypeBody → List String
  | .object _ fields | .interface _ fields => fields.map (·.name)
  | .inputObject fields => fields.map (·.name)
  | .scalar | .union _ | .enum _ => []

/-- A type and its fields have names of the language. -/
def WellNamed (type : TypeDefinition) : Prop :=
  IsName type.name ∧ ∀ name ∈ type.body.fieldNames, IsName name

end SchemaFragments.Document
