import Mathlib.Data.List.Nodup
import SchemaFragments.Proofs.FragmentTexts
/-!
# Names of fragments

Type names are unique, but endings are put after them. The names of a schema's fragments are unique exactly
if no candidate is called like the fragment without relations, or the deep fragment, of a candidate. The
same holds of the constants that a module exports.
-/

namespace SchemaFragments

open Document

/-! ## Endings -/

namespace Variant

theorem fragmentName_injective (variant : Variant) : Function.Injective variant.fragmentName :=
  fun _ _ => (String.append_left_inj _).1

/-- The two endings differ in their eighth characters from the right. -/
theorem noRelations_ne_deep (name other : String) : noRelations.fragmentName name ≠ deep.fragmentName other := by
  intro h
  have h := congrArg (fun text => text.toList.reverse[7]?) h
  simp [fragmentName, nameEnding] at h

end Variant

/-- No candidate is called like another fragment than its standard one. -/
def Schema.EndingsFree (schema : Schema) : Prop :=
  ∀ type ∈ schema.candidates, ∀ other ∈ schema.candidates, ∀ variant : Variant, variant ≠ .standard →
    other.name ≠ variant.fragmentName type.name

namespace FragmentSet

variable {schema : Schema}

def namesOf (schema : Schema) (variant : Variant) : List String :=
  (schema.candidates.map (·.name)).map variant.fragmentName

theorem mem_namesOf {variant : Variant} {name : String} :
    name ∈ namesOf schema variant ↔ ∃ type ∈ schema.candidates, variant.fragmentName type.name = name := by
  simp [namesOf]

theorem names_ofSchema (schema : Schema) :
    (ofSchema schema).names = namesOf schema .standard ++ (namesOf schema .noRelations ++ namesOf schema .deep) := by
  simp [names, all, Variant.all, get_ofSchema, namesOf, Function.comp_def, Fragment.name, Fragment.ofType]

theorem namesOf_nodup (hl : schema.Linked) (variant : Variant) : (namesOf schema variant).Nodup := by
  have hsub : (schema.candidates.map (·.name)).Sublist (schema.types.map (·.name)) := by
    rw [Schema.candidates_eq]
    exact List.filter_sublist.map _
  exact (hl.nodup.sublist hsub).map variant.fragmentName_injective

theorem names_nodup_iff (hl : schema.Linked) : (ofSchema schema).names.Nodup ↔ schema.EndingsFree := by
  -- only the standard names can meet others, since they end in nothing
  have hendings : (namesOf schema .noRelations ++ namesOf schema .deep).Nodup := by
    refine List.nodup_append.2 ⟨namesOf_nodup hl _, namesOf_nodup hl _, fun name hn other ho => ?_⟩
    obtain ⟨type, -, rfl⟩ := mem_namesOf.1 hn
    obtain ⟨type', -, rfl⟩ := mem_namesOf.1 ho
    exact Variant.noRelations_ne_deep _ _
  rw [names_ofSchema, List.nodup_append]
  constructor
  · rintro ⟨-, -, hne⟩ type ht other ho variant hv he
    refine hne other.name (mem_namesOf.2 ⟨other, ho, String.append_empty⟩) _ ?_ he
    cases variant with
    | standard => contradiction
    | noRelations => exact List.mem_append_left _ (mem_namesOf.2 ⟨type, ht, rfl⟩)
    | deep => exact List.mem_append_right _ (mem_namesOf.2 ⟨type, ht, rfl⟩)
  · intro hfree
    refine ⟨namesOf_nodup hl _, hendings, fun name hn name' hn' => ?_⟩
    obtain ⟨other, ho, rfl⟩ := mem_namesOf.1 hn
    rw [Variant.fragmentName, Variant.nameEnding, String.append_empty]
    rcases List.mem_append.1 hn' with hn' | hn' <;> obtain ⟨type, ht, rfl⟩ := mem_namesOf.1 hn'
    · exact hfree type ht other ho .noRelations (by decide)
    · exact hfree type ht other ho .deep (by decide)

end FragmentSet

/-! ## Exported constants -/

/-- The name that a line of a module binds, if it exports a constant. -/
def exportedName (line : List Char) : Option String :=
  if "export const ".toList.isPrefixOf line then some (String.ofList ((line.drop 13).takeWhile (· ≠ ' ')))
  else none

/-- The names of the constants that a module exports, line by line. -/
def exportedNames (text : List Char) : List String := (Text.splitAt '\n' text).filterMap exportedName

theorem exportedName_append {name : String} (h : ' ' ∉ name.toList) (rest : List Char) :
    exportedName ("export const ".toList ++ (name.toList ++ ' ' :: rest)) = some name := by
  have hname : ∀ c ∈ name.toList, decide (c ≠ ' ') = true := by
    intro c hc
    refine decide_eq_true fun he => h ?_
    rwa [← he]
  have hdrop : ("export const ".toList ++ (name.toList ++ ' ' :: rest)).drop 13 = name.toList ++ ' ' :: rest := rfl
  unfold exportedName
  rw [if_pos (List.isPrefixOf_iff_prefix.2 (List.prefix_append _ _)), hdrop, List.takeWhile_append_of_pos hname]
  simp

theorem contributes_line {line : String} (h : '\n' ∉ line.toList) :
    Contributes exportedNames (line ++ "\n") (exportedName line.toList).toList := by
  intro rest
  have hline : (line ++ "\n").toList ++ rest = line.toList ++ '\n' :: rest := by simp
  rw [hline, exportedNames, splitAt_append h, List.filterMap_cons]
  cases exportedName line.toList <;> rfl

theorem contributes_other_line {line : String} (h : '\n' ∉ line.toList) (he : exportedName line.toList = none) :
    Contributes exportedNames (line ++ "\n") [] := by
  have := contributes_line h
  rwa [he] at this

theorem contributes_export {binding rest : String} (hb : ∀ c ∈ binding.toList, isNameChar c = true)
    (hr : '\n' ∉ rest.toList) :
    Contributes exportedNames ("export const " ++ binding ++ (" " ++ rest) ++ "\n") [binding] := by
  have hline : '\n' ∉ ("export const " ++ binding ++ (" " ++ rest)).toList := by
    simp [notMem_of_isNameChar hb (show isNameChar '\n' = false by decide), hr]
  have hname : exportedName ("export const " ++ binding ++ (" " ++ rest)).toList = some binding := by
    rw [String.toList_append, String.toList_append, String.toList_append, List.append_assoc]
    exact exportedName_append (notMem_of_isNameChar hb (by decide)) _
  have := contributes_line hline
  rwa [hname] at this

theorem exportedName_of_space (line : List Char) : exportedName (' ' :: line) = none := by
  simp [exportedName]

theorem contributes_selection {schema : Schema} (hl : schema.Linked) {type : NamedType} (ht : type ∈ schema.types)
    {variant : Variant} {text : String} (h : text ∈ Fragment.selections variant type.fields) :
    Contributes exportedNames ("  " ++ text ++ "\n") [] := by
  have hplain : ∀ name : String, (∀ c ∈ name.toList, isNameChar c = true) → '\n' ∉ name.toList :=
    fun name hn => notMem_of_isNameChar hn (by decide)
  rcases Fragment.mem_selections h with rfl | ⟨field, hf, hs⟩
  · exact contributes_other_line (by decide) (exportedName_of_space _)
  have hfield := hplain field.name (hl.fieldName type ht field hf).all
  rcases Fragment.selection_cases hs with rfl | ⟨related, nested, hr, -, rfl⟩
  · exact contributes_other_line (by simpa using hfield) (by simp [exportedName_of_space])
  · obtain ⟨other, ho, rfl, -⟩ := hl.related type ht field hf related hr
    have hspread := hplain _ (nested.isNameChar_of_mem_fragmentName (hl.typeName other ho))
    -- a relation takes three lines
    have hlines : "  " ++ (field.name ++ " \x7b\n    ..." ++ nested.fragmentName other.name ++ "\n  \x7d") ++ "\n" =
        ("  " ++ field.name ++ " \x7b" ++ "\n") ++ ("    ..." ++ nested.fragmentName other.name ++ "\n") ++
          ("  \x7d" ++ "\n") := by
      rw [← String.toList_inj]
      simp
    rw [hlines]
    refine ((contributes_other_line ?_ ?_).after (contributes_other_line ?_ ?_)).after
      (contributes_other_line (by decide) (exportedName_of_space _))
    · simpa using hfield
    · simp [exportedName_of_space]
    · simpa using hspread
    · simp [exportedName_of_space]

/-- The line that opens a fragment exports it, and the other lines export nothing. -/
theorem contributes_fragment {schema : Schema} (hl : schema.Linked) {fragment : Fragment}
    (h : fragment ∈ (FragmentSet.ofSchema schema).all) :
    Contributes exportedNames (FragmentSet.renderFragment .module fragment) [fragment.bindingName] := by
  obtain ⟨variant, type, hc, rfl⟩ := FragmentSet.mem_all_ofSchema.1 h
  have ht : type ∈ schema.types := (Schema.mem_candidates.1 hc).1
  have htype := (hl.typeName type ht).all
  have hname := variant.isNameChar_of_mem_fragmentName (hl.typeName type ht)
  have hbinding : ∀ c ∈ (Fragment.ofType variant type).bindingName.toList, isNameChar c = true := by
    intro c hc
    rw [Fragment.bindingName, String.toList_append] at hc
    rcases List.mem_append.1 hc with hc | hc
    · exact hname c hc
    · exact List.all_eq_true.1 (show "Fragment".toList.all isNameChar = true by decide) c hc
  have hlines : FragmentSet.renderFragment .module (.ofType variant type) =
      ("export const " ++ (Fragment.ofType variant type).bindingName ++
        (" " ++ ("= `fragment " ++ variant.fragmentName type.name ++ " on " ++ type.name ++ " \x7b")) ++ "\n") ++
        String.join ((Fragment.selections variant type.fields).map fun text => "  " ++ text ++ "\n") ++
          ("\x7d" ++ "\n") ++ ("`" ++ "\n") := by
    show "export const " ++ _ ++ " = `" ++ Fragment.bodyOf variant type ++ "`\n" = _
    rw [← String.toList_inj, Fragment.bodyOf_eq]
    simp
  rw [hlines]
  refine (((contributes_export hbinding ?_).before (.join_nil fun text hm => ?_)).before ?_).before ?_
  · have hnone : isNameChar '\n' = false := by decide
    simp [notMem_of_isNameChar hname hnone, notMem_of_isNameChar htype hnone]
  · exact contributes_selection hl ht hm
  · exact contributes_other_line (by decide) (by decide)
  · exact contributes_other_line (by decide) (by decide)

theorem exportedNames_render {schema : Schema} (hl : schema.Linked) :
    exportedNames ((FragmentSet.ofSchema schema).render .module).toList =
      (FragmentSet.ofSchema schema).all.map (·.bindingName) := by
  have hblank : Contributes exportedNames ("" ++ "\n") [] := contributes_other_line (by decide) rfl
  rw [List.map_eq_flatMap]
  refine (Contributes.render hblank (fun line hm => ?_) fun fragment => contributes_fragment hl).eq rfl
  refine contributes_other_line ?_ (by simp [exportedName, Dialect.commentMark])
  simpa [Dialect.commentMark] using (FragmentSet.notMem_commentLines line hm).1

theorem bindingNames_eq (fragments : FragmentSet) :
    fragments.all.map (·.bindingName) = fragments.names.map (· ++ "Fragment") := by
  rw [FragmentSet.names, List.map_map]
  rfl

/-! ## Unique names -/

/-- The fragments of a schema that compiles, and the constants of the module that holds them, have unique
names if and only if no candidate is called like another candidate's fragment. -/
theorem compile_names_nodup_iff {text : String} {dialect : Dialect} {compiled : Compiled}
    (h : compile text dialect = .ok compiled) : ∃ schema, Schema.parse text = .ok schema ∧
      (compiled.fragments.names.Nodup ↔ schema.EndingsFree) ∧
      ((exportedNames (compiled.fragments.render .module).toList).Nodup ↔ schema.EndingsFree) := by
  obtain ⟨schema, hs, rfl⟩ := compile_eq_ok h
  have hl := Schema.linked_of_parse hs
  have hinj : Function.Injective (· ++ "Fragment") := fun _ _ => (String.append_left_inj _).1
  refine ⟨schema, hs, FragmentSet.names_nodup_iff hl, ?_⟩
  rw [exportedNames_render hl, bindingNames_eq, List.nodup_map_iff hinj]
  exact FragmentSet.names_nodup_iff hl

theorem bookAuthor_names_nodup : ∃ schema compiled,
    Schema.parse "type Book { author: Author } type Author { books: [Book] }" = .ok schema ∧
    compile "type Book { author: Author } type Author { books: [Book] }" .module = .ok compiled ∧
    schema.EndingsFree ∧ compiled.fragments.names.Nodup ∧
    (exportedNames (compiled.fragments.render .module).toList).Nodup := by
  have hrun : (compile "type Book { author: Author } type Author { books: [Book] }" .module).toOption.any
      (fun compiled => decide compiled.fragments.names.Nodup) = true := by
    simp only [compile, FragmentSet.ofSchema, Schema.candidates_eq]
    decide +kernel
  obtain ⟨compiled, hc, hn⟩ := exists_ok_of_any hrun
  obtain ⟨schema, hs, hnames, hexports⟩ := compile_names_nodup_iff hc
  have hfree := hnames.1 (of_decide_eq_true hn)
  exact ⟨schema, compiled, hs, hc, hfree, hnames.2 hfree, hexports.2 hfree⟩

/-- `BookNoNesting` is the standard fragment of one type and the fragment without relations of the other. -/
theorem bookNoNesting_names_not_nodup : ∃ compiled,
    compile "type Book { id: ID } type BookNoNesting { id: ID }" .module = .ok compiled ∧
    ¬ compiled.fragments.names.Nodup ∧ ¬ (exportedNames compiled.contents.toList).Nodup := by
  have hrun : (compile "type Book { id: ID } type BookNoNesting { id: ID }" .module).toOption.any
      (fun compiled => decide (¬ compiled.fragments.names.Nodup)) = true := by
    simp only [compile, FragmentSet.ofSchema, Schema.candidates_eq]
    decide +kernel
  obtain ⟨compiled, hc, hn⟩ := exists_ok_of_any hrun
  have hn := of_decide_eq_true hn
  refine ⟨compiled, hc, hn, fun he => hn ?_⟩
  obtain ⟨schema, hs, rfl⟩ := compile_eq_ok hc
  rw [exportedNames_render (Schema.linked_of_parse hs), bindingNames_eq] at he
  exact he.of_map _

end SchemaFragments
