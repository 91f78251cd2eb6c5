import SchemaFragments.Fragment.Rendering
import SchemaFragments.Proofs.Linking
import SchemaFragments.Text.Lines
/-!
# Texts of fragments

A body is a line for the fragment, its selections on lines of their own and a closing line. What a reader
finds in a rendered document is put together from what it finds in such pieces.
-/

namespace SchemaFragments

open Document

/-! ## Fragments of a schema -/

namespace FragmentSet

/-- The fragments in the order they are rendered. -/
def all (fragments : FragmentSet) : List Fragment := Variant.all.flatMap fragments.get

def names (fragments : FragmentSet) : List String := fragments.all.map (·.name)

theorem get_ofSchema (schema : Schema) (variant : Variant) :
    (ofSchema schema).get variant = schema.candidates.map (Fragment.ofType variant) := by
  cases variant <;> rfl

theorem mem_all_ofSchema {schema : Schema} {fragment : Fragment} : fragment ∈ (ofSchema schema).all ↔
    ∃ variant, ∃ type ∈ schema.candidates, fragment = .ofType variant type := by
  simp only [all, List.mem_flatMap, get_ofSchema, List.mem_map]
  constructor
  · rintro ⟨variant, -, type, ht, rfl⟩
    exact ⟨variant, type, ht, rfl⟩
  · rintro ⟨variant, type, ht, rfl⟩
    exact ⟨variant, by cases variant <;> simp [Variant.all], type, ht, rfl⟩

/-- The lines of the comments of a rendered document, without their marks. -/
def commentLines : List String := header ++ Variant.all.flatMap sectionComment

theorem notMem_commentLines : ∀ line ∈ commentLines, '\n' ∉ line.toList ∧ '.' ∉ line.toList := by
  simp [commentLines, header, sectionComment, Variant.all]

end FragmentSet

theorem compile_eq_ok {text : String} {dialect : Dialect} {compiled : Compiled}
    (h : compile text dialect = .ok compiled) : ∃ schema, Schema.parse text = .ok schema ∧
      compiled = ⟨.ofSchema schema, (FragmentSet.ofSchema schema).render dialect⟩ := by
  obtain ⟨schema, hs, h⟩ := exists_ok_of_bind h
  exact ⟨schema, hs, (Except.ok.inj h).symm⟩

theorem compile_of_parse {text : String} {schema : Schema} (h : Schema.parse text = .ok schema) (dialect : Dialect) :
    compile text dialect = .ok ⟨.ofSchema schema, (FragmentSet.ofSchema schema).render dialect⟩ := by
  rw [compile, h]
  rfl

/-! ## Names -/

namespace Variant

theorem isNameChar_of_mem_nameEnding (variant : Variant) :
    ∀ c ∈ variant.nameEnding.toList, isNameChar c = true := by
  refine List.all_eq_true.1 ?_
  cases variant <;> decide

theorem isNameChar_of_mem_fragmentName {typeName : String} (h : IsName typeName) (variant : Variant) :
    ∀ c ∈ (variant.fragmentName typeName).toList, isNameChar c = true := by
  intro c hc
  rw [fragmentName, String.toList_append] at hc
  rcases List.mem_append.1 hc with hc | hc
  · exact h.all c hc
  · exact variant.isNameChar_of_mem_nameEnding c hc

end Variant

/-! ## Bodies -/

namespace Fragment

theorem indented_intercalate {texts : List String} (h : texts ≠ []) :
    "  " ++ "\n  ".intercalate texts ++ "\n" = String.join (texts.map fun text => "  " ++ text ++ "\n") := by
  induction texts with
  | nil => contradiction
  | cons text texts ih =>
    cases texts with
    | nil => simp
    | cons next texts =>
      rw [String.intercalate_cons_cons, List.map_cons, String.join_cons, ← ih (by simp),
        show "\n  " = "\n" ++ "  " from rfl]
      simp only [String.append_assoc]

theorem selections_ne_nil (variant : Variant) (fields : List LinkedField) : selections variant fields ≠ [] := by
  unfold selections
  split <;> simp_all

/-- A body as whole lines. -/
theorem bodyOf_eq (variant : Variant) (type : NamedType) : bodyOf variant type =
    "fragment " ++ variant.fragmentName type.name ++ " on " ++ type.name ++ " \x7b\n" ++
      String.join ((selections variant type.fields).map fun text => "  " ++ text ++ "\n") ++ "\x7d\n" := by
  rw [← indented_intercalate (selections_ne_nil variant type.fields), ← String.toList_inj]
  delta bodyOf
  simp

theorem mem_selections {variant : Variant} {fields : List LinkedField} {text : String}
    (h : text ∈ selections variant fields) :
    text = emptySelection ∨ ∃ field ∈ fields, selection variant field = some text := by
  unfold selections at h
  split at h
  · exact .inl (List.mem_singleton.1 h)
  · exact .inr (List.mem_filterMap.1 h)

theorem selection_cases {variant : Variant} {field : LinkedField} {text : String}
    (h : selection variant field = some text) : text = field.name ∨ ∃ related nested,
      field.type.resolve = .object related ∧ variant.nested = some nested ∧
        text = field.name ++ " \x7b\n    ..." ++ nested.fragmentName related ++ "\n  \x7d" := by
  unfold selection at h
  split at h
  · exact .inl (Option.some.inj h).symm
  · exact .inl (Option.some.inj h).symm
  · rename_i related hr
    obtain ⟨nested, hn, he⟩ := Option.map_eq_some_iff.1 h
    exact .inr ⟨related, nested, hr, hn, he.symm⟩
  · cases h

end Fragment

/-! ## Lines -/

theorem splitAt_append {separator : Char} {line : List Char} (h : separator ∉ line) (rest : List Char) :
    Text.splitAt separator (line ++ separator :: rest) = line :: Text.splitAt separator rest := by
  induction line with
  | nil => simp [Text.splitAt]
  | cons c line ih =>
    have hc : c ≠ separator := fun he => h (by simp [he])
    have hline : separator ∉ line := fun hm => h (by simp [hm])
    rw [List.cons_append, Text.splitAt, if_neg hc, ih hline]

theorem splitAt_of_notMem {separator : Char} {line : List Char} (h : separator ∉ line) :
    Text.splitAt separator line = [line] := by
  induction line with
  | nil => rfl
  | cons c line ih =>
    have hc : c ≠ separator := fun he => h (by simp [he])
    have hline : separator ∉ line := fun hm => h (by simp [hm])
    rw [Text.splitAt, if_neg hc, ih hline]

/-! ## Reading piece by piece -/

/-- Whatever follows it, a reader finds these things in a text, and then those in what follows. -/
def Contributes {β : Type} (read : List Char → List β) (text : String) (found : List β) : Prop :=
  ∀ rest, read (text.toList ++ rest) = found ++ read rest

namespace Contributes

variable {α β : Type} {read : List Char → List β} {text text' : String} {found found' : List β}

theorem nil : Contributes read "" [] := fun _ => rfl

theorem append (h : Contributes read text found) (h' : Contributes read text' found') :
    Contributes read (text ++ text') (found ++ found') := by
  intro rest
  rw [String.toList_append, List.append_assoc, h, h', List.append_assoc]

/-- Two pieces, the first of which holds nothing. -/
theorem after (h : Contributes read text []) (h' : Contributes read text' found) :
    Contributes read (text ++ text') found := h.append h'

/-- Two pieces, the second of which holds nothing. -/
theorem before (h : Contributes read text found) (h' : Contributes read text' []) :
    Contributes read (text ++ text') found := by
  rw [← List.append_nil found]
  exact h.append h'

theorem join {items : List α} {write : α → String} {find : α → List β}
    (h : ∀ item ∈ items, Contributes read (write item) (find item)) :
    Contributes read (String.join (items.map write)) (items.flatMap find) := by
  induction items with
  | nil => exact nil
  | cons item items ih =>
    rw [List.map_cons, String.join_cons, List.flatMap_cons]
    exact (h item (by simp)).append (ih fun other ho => h other (by simp [ho]))

theorem join_nil {items : List α} {write : α → String} (h : ∀ item ∈ items, Contributes read (write item) []) :
    Contributes read (String.join (items.map write)) [] := by
  have := join h
  rwa [List.flatMap_eq_nil_iff.2 fun _ _ => rfl] at this

theorem eq (h : Contributes read text found) (hn : read [] = []) : read text.toList = found := by
  have := h []
  rwa [List.append_nil, hn, List.append_nil] at this

theorem self (h : Contributes read text found) (hn : read [] = []) : Contributes read text (read text.toList) := by
  rwa [h.eq hn]

/-- A reader that finds nothing in comments finds in a rendered document what it finds in its fragments. -/
theorem render {dialect : Dialect} {fragments : FragmentSet} {find : Fragment → List β}
    (hb : Contributes read "\n" [])
    (hc : ∀ line ∈ FragmentSet.commentLines, Contributes read (dialect.commentMark ++ " " ++ line ++ "\n") [])
    (hf : ∀ fragment ∈ fragments.all,
      Contributes read (FragmentSet.renderFragment dialect fragment) (find fragment)) :
    Contributes read (fragments.render dialect) (fragments.all.flatMap find) := by
  have hheader : Contributes read (FragmentSet.comment dialect FragmentSet.header) [] :=
    join_nil fun line hl => hc line (List.mem_append_left _ hl)
  have hsection : ∀ variant ∈ Variant.all,
      Contributes read (FragmentSet.comment dialect (FragmentSet.sectionComment variant)) [] :=
    fun variant hv => join_nil fun line hl =>
      hc line (List.mem_append_right _ (List.mem_flatMap.2 ⟨variant, hv, hl⟩))
  refine hheader.after ?_
  rw [FragmentSet.all, List.flatMap_assoc]
  refine join fun variant hv => (hb.after (hsection variant hv)).after ?_
  exact join fun fragment hm => hb.after (hf fragment (List.mem_flatMap.2 ⟨variant, hv, hm⟩))

end Contributes

end SchemaFragments
