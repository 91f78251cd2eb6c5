import SchemaFragments.Proofs.FragmentNames
/-!
# Spreads

A fragment spreads fragments of the objects that its fields select, but not every object type is a
candidate. All that is spread is defined exactly if these objects are neither roots nor introspection types,
apart from those whose two spread fragments have the names of other candidates.
-/

namespace SchemaFragments

open Document

/-- The names of the fragments that a text spreads: what follows three dots, as far as it is a name. -/
def spreadsIn : List Char → List String
  | [] => []
  | c :: rest =>
    if "...".toList.isPrefixOf (c :: rest) then
      String.ofList ((rest.drop 2).takeWhile isNameChar) :: spreadsIn rest
    else spreadsIn rest

/-! ## Reading spreads -/

theorem contributes_plain {text : String} (h : '.' ∉ text.toList) : Contributes spreadsIn text [] := by
  intro rest
  generalize text.toList = chars at h
  induction chars with
  | nil => rfl
  | cons c chars ih =>
    have hc : c ≠ '.' := fun he => h (by simp [he])
    rw [List.cons_append, spreadsIn, if_neg (by simp [hc.symm])]
    exact ih fun hm => h (by simp [hm])

theorem contributes_name {name : String} (h : ∀ c ∈ name.toList, isNameChar c = true) :
    Contributes spreadsIn name [] :=
  contributes_plain (notMem_of_isNameChar h (by decide))

theorem spreadsIn_dots {c : Char} (h : c ≠ '.') (rest : List Char) :
    spreadsIn ('.' :: '.' :: '.' :: c :: rest) =
      String.ofList ((c :: rest).takeWhile isNameChar) :: spreadsIn (c :: rest) := by
  rw [spreadsIn, if_pos (by simp), spreadsIn, if_neg (by simp [h.symm]), spreadsIn, if_neg (by simp [h.symm])]
  rfl

theorem contributes_spread {name : String} (h : ∀ c ∈ name.toList, isNameChar c = true) :
    Contributes spreadsIn ("..." ++ name ++ "\n") [name] := by
  intro rest
  have hdot : isNameChar '.' = false := by decide
  have hname : (name.toList ++ '\n' :: rest).takeWhile isNameChar = name.toList := by
    rw [List.takeWhile_append_of_pos h]
    simp [show isNameChar '\n' = false by decide]
  have hrest : spreadsIn (name.toList ++ '\n' :: rest) = spreadsIn rest := by
    have hend : Contributes spreadsIn "\n" [] := contributes_plain (by decide)
    simpa using (contributes_name h).after hend rest
  -- the dots are read once: after the first one no third dot follows
  have hhead : ∃ c others, name.toList ++ '\n' :: rest = c :: others ∧ c ≠ '.' := by
    cases hn : name.toList with
    | nil => exact ⟨'\n', rest, rfl, by decide⟩
    | cons c chars =>
      refine ⟨c, chars ++ '\n' :: rest, rfl, fun he => ?_⟩
      rw [hn] at h
      exact notMem_of_isNameChar h hdot (by simp [he])
  obtain ⟨c, others, he, hc⟩ := hhead
  have htext : ("..." ++ name ++ "\n").toList ++ rest = '.' :: '.' :: '.' :: (name.toList ++ '\n' :: rest) := by simp
  rw [htext, he, spreadsIn_dots hc, ← he, hname, hrest, String.ofList_toList]
  rfl

/-! ## What bodies spread -/

namespace Fragment

/-- What the fragment of a variant spreads to select a field. -/
def spreadsOf (variant : Variant) (field : LinkedField) : List String :=
  match field.type.resolve with
  | .object related => (variant.nested.map (·.fragmentName related)).toList
  | _ => []

theorem mem_spreadsOf {variant : Variant} {field : LinkedField} {name : String} : name ∈ spreadsOf variant field ↔
    ∃ related nested, field.type.resolve = .object related ∧ variant.nested = some nested ∧
      nested.fragmentName related = name := by
  unfold spreadsOf
  split
  · rename_i related hr
    simp [hr]
  · rename_i hr
    constructor
    · intro h
      cases h
    · rintro ⟨related, nested, hr', -⟩
      exact absurd hr' (hr related)

variable {schema : Schema} {type : NamedType} {variant : Variant}

theorem contributes_selectionText (hl : schema.Linked) (ht : type ∈ schema.types) {field : LinkedField}
    (hf : field ∈ type.fields) {text : String} (hs : selection variant field = some text) :
    Contributes spreadsIn text (spreadsOf variant field) := by
  have hname := contributes_name (hl.fieldName type ht field hf).all
  have hrelated := hl.related type ht field hf
  unfold selection at hs
  unfold spreadsOf
  cases hr : field.type.resolve with rw [hr] at hs
  | scalar | enum =>
    cases hs
    exact hname
  | unresolvable => cases hs
  | object related =>
    obtain ⟨other, ho, rfl, -⟩ := hrelated related hr
    obtain ⟨nested, hn, rfl⟩ := Option.map_eq_some_iff.1 hs
    have htext : field.name ++ " \x7b\n    ..." ++ nested.fragmentName other.name ++ "\n  \x7d" =
        field.name ++ " \x7b\n    " ++ ("..." ++ nested.fragmentName other.name ++ "\n") ++ "  \x7d" := by
      rw [← String.toList_inj]
      simp
    have hspread := contributes_spread (nested.isNameChar_of_mem_fragmentName (hl.typeName other ho))
    rw [htext, hn]
    exact ((hname.after (contributes_plain (by decide))).after hspread).before (contributes_plain (by decide))

theorem contributes_selection_line (hl : schema.Linked) (ht : type ∈ schema.types) {text : String}
    (h : text ∈ selections variant type.fields) :
    Contributes spreadsIn ("  " ++ text ++ "\n") (spreadsIn text.toList) := by
  have htext : Contributes spreadsIn text (spreadsIn text.toList) := by
    rcases mem_selections h with rfl | ⟨field, hf, hs⟩
    · exact contributes_plain (by decide)
    · exact (contributes_selectionText hl ht hf hs).self rfl
  have hindent : Contributes spreadsIn "  " [] := contributes_plain (by decide)
  exact (hindent.after htext).before (contributes_plain (by decide))

theorem flatMap_selections (hl : schema.Linked) (ht : type ∈ schema.types) :
    (selections variant type.fields).flatMap (spreadsIn ·.toList) = type.fields.flatMap (spreadsOf variant) := by
  have hselected : (type.fields.filterMap (selection variant)).flatMap (spreadsIn ·.toList) =
      type.fields.flatMap (spreadsOf variant) := by
    rw [List.filterMap_eq_flatMap_toList, List.flatMap_assoc]
    refine List.flatMap_congr fun field hf => ?_
    cases hs : selection variant field with
    | some text => simp [(contributes_selectionText hl ht hf hs).eq rfl]
    | none =>
      -- a field that is left out spreads nothing
      refine (List.eq_nil_iff_forall_not_mem.2 fun name hm => ?_).symm
      obtain ⟨related, nested, hr, hn, -⟩ := mem_spreadsOf.1 hm
      simp [selection, hr, hn] at hs
  rw [← hselected]
  unfold selections
  split
  · rename_i hnone
    rw [hnone]
    decide
  · rfl

theorem contributes_bodyOf (hl : schema.Linked) (ht : type ∈ schema.types) :
    Contributes spreadsIn (bodyOf variant type) (type.fields.flatMap (spreadsOf variant)) := by
  have htype := (hl.typeName type ht).all
  have hname := variant.isNameChar_of_mem_fragmentName (hl.typeName type ht)
  rw [bodyOf_eq, ← flatMap_selections hl ht]
  refine Contributes.before (.after ?_ (.join fun text => contributes_selection_line hl ht))
    (contributes_plain (by decide))
  refine contributes_plain ?_
  have hdot : isNameChar '.' = false := by decide
  simp [notMem_of_isNameChar hname hdot, notMem_of_isNameChar htype hdot]

end Fragment

/-! ## What is defined -/

/-- A type whose fragments can be spread: one that is neither a root nor an introspection type, or else one
for which other candidates have the names of its fragments. -/
def Schema.Spreadable (schema : Schema) (related : String) : Prop :=
  ("__".toList.isPrefixOf related.toList = false ∧ schema.isRoot related = false) ∨
    ∀ nested : Variant, nested ≠ .standard → ∃ type ∈ schema.candidates, type.name = nested.fragmentName related

/-- All objects that the fields of candidates select have fragments to be spread. -/
def Schema.RelationsSpreadable (schema : Schema) : Prop :=
  ∀ type ∈ schema.candidates, ∀ field ∈ type.fields, ∀ related, field.type.resolve = .object related →
    schema.Spreadable related

namespace FragmentSet

variable {schema : Schema}

/-- Every name that a body spreads is that of a fragment of the set. -/
def SpreadsDefined (fragments : FragmentSet) : Prop :=
  ∀ fragment ∈ fragments.all, ∀ name ∈ spreadsIn fragment.body.toList, name ∈ fragments.names

instance (fragments : FragmentSet) : Decidable fragments.SpreadsDefined :=
  inferInstanceAs (Decidable (∀ fragment ∈ fragments.all, ∀ name ∈ spreadsIn fragment.body.toList,
    name ∈ fragments.names))

theorem exists_candidate_iff {other : NamedType} (ho : other ∈ schema.types) (hk : other.kind = .object) :
    (∃ type ∈ schema.candidates, type.name = other.name) ↔
      "__".toList.isPrefixOf other.name.toList = false ∧ schema.isRoot other.name = false := by
  simp only [Schema.mem_candidates, Schema.hasFragments, NamedType.isIntrospection]
  constructor
  · rintro ⟨type, ⟨-, hc⟩, he⟩
    rw [he] at hc
    simp_all
  · rintro ⟨hp, hr⟩
    refine ⟨other, ⟨ho, ?_⟩, rfl⟩
    rw [hk, hp, hr]
    rfl

/-- The name of a fragment that is spread is defined under its own type or as the name of a candidate. -/
theorem fragmentName_mem_names {nested : Variant} (hn : nested ≠ .standard) (related : String) :
    nested.fragmentName related ∈ (ofSchema schema).names ↔
      (∃ type ∈ schema.candidates, type.name = related) ∨
        ∃ type ∈ schema.candidates, type.name = nested.fragmentName related := by
  have hstandard : ∀ name, name ∈ namesOf schema .standard ↔ ∃ type ∈ schema.candidates, type.name = name := by
    intro name
    simp [mem_namesOf, Variant.fragmentName, Variant.nameEnding]
  have hown : nested.fragmentName related ∈ namesOf schema nested ↔
      ∃ type ∈ schema.candidates, type.name = related := by
    simp [mem_namesOf, nested.fragmentName_injective.eq_iff]
  rw [names_ofSchema, List.mem_append, List.mem_append, hstandard, or_comm]
  refine or_congr_left ?_
  rw [← hown]
  -- the other ending cannot make the same name
  cases nested with
  | standard => contradiction
  | noRelations =>
    refine or_iff_left fun hm => ?_
    obtain ⟨type, -, he⟩ := mem_namesOf.1 hm
    exact Variant.noRelations_ne_deep _ _ he.symm
  | deep =>
    refine or_iff_right fun hm => ?_
    obtain ⟨type, -, he⟩ := mem_namesOf.1 hm
    exact Variant.noRelations_ne_deep _ _ he

theorem spreadable_iff {other : NamedType} (ho : other ∈ schema.types) (hk : other.kind = .object) :
    schema.Spreadable other.name ↔
      ∀ nested : Variant, nested ≠ .standard → nested.fragmentName other.name ∈ (ofSchema schema).names := by
  unfold Schema.Spreadable
  rw [← exists_candidate_iff ho hk]
  constructor
  · rintro (hown | hothers) nested hn
    · exact (fragmentName_mem_names hn _).2 (.inl hown)
    · exact (fragmentName_mem_names hn _).2 (.inr (hothers nested hn))
  · intro hdefined
    by_cases hown : ∃ type ∈ schema.candidates, type.name = other.name
    · exact .inl hown
    · exact .inr fun nested hn => ((fragmentName_mem_names hn _).1 (hdefined nested hn)).resolve_left hown

theorem nested_ne_standard {variant nested : Variant} (h : variant.nested = some nested) : nested ≠ .standard := by
  cases variant <;> cases h <;> decide

/-- Every variant other than the standard one is spread by some variant. -/
theorem exists_nested_eq {nested : Variant} (h : nested ≠ .standard) :
    ∃ variant : Variant, variant.nested = some nested := by
  cases nested with
  | standard => contradiction
  | noRelations => exact ⟨.standard, rfl⟩
  | deep => exact ⟨.deep, rfl⟩

theorem mem_spreads_iff (hl : schema.Linked) {name : String} :
    (∃ fragment ∈ (ofSchema schema).all, name ∈ spreadsIn fragment.body.toList) ↔
      ∃ type ∈ schema.candidates, ∃ field ∈ type.fields, ∃ related, field.type.resolve = .object related ∧
        ∃ nested : Variant, nested ≠ .standard ∧ nested.fragmentName related = name := by
  have hbody : ∀ variant, ∀ type ∈ schema.candidates,
      spreadsIn (Fragment.ofType variant type).body.toList = type.fields.flatMap (Fragment.spreadsOf variant) :=
    fun variant type ht => (Fragment.contributes_bodyOf hl (Schema.mem_candidates.1 ht).1).eq rfl
  constructor
  · rintro ⟨fragment, hm, hs⟩
    obtain ⟨variant, type, ht, rfl⟩ := mem_all_ofSchema.1 hm
    rw [hbody variant type ht] at hs
    obtain ⟨field, hf, hs⟩ := List.mem_flatMap.1 hs
    obtain ⟨related, nested, hr, hn, he⟩ := Fragment.mem_spreadsOf.1 hs
    exact ⟨type, ht, field, hf, related, hr, nested, nested_ne_standard hn, he⟩
  · rintro ⟨type, ht, field, hf, related, hr, nested, hn, he⟩
    obtain ⟨variant, hv⟩ := exists_nested_eq hn
    refine ⟨.ofType variant type, mem_all_ofSchema.2 ⟨variant, type, ht, rfl⟩, ?_⟩
    rw [hbody variant type ht]
    exact List.mem_flatMap.2 ⟨field, hf, Fragment.mem_spreadsOf.2 ⟨related, nested, hr, hv, he⟩⟩

theorem spreadsDefined_iff (hl : schema.Linked) :
    (ofSchema schema).SpreadsDefined ↔ schema.RelationsSpreadable := by
  have hrelated : ∀ type ∈ schema.candidates, ∀ field ∈ type.fields, ∀ related,
      field.type.resolve = .object related → (schema.Spreadable related ↔
        ∀ nested : Variant, nested ≠ .standard → nested.fragmentName related ∈ (ofSchema schema).names) := by
    intro type ht field hf related hr
    obtain ⟨other, ho, rfl, hk⟩ := hl.related type (Schema.mem_candidates.1 ht).1 field hf related hr
    exact spreadable_iff ho hk
  constructor
  · intro hdefined type ht field hf related hr
    refine (hrelated type ht field hf related hr).2 fun nested hn => ?_
    obtain ⟨fragment, hm, hs⟩ := (mem_spreads_iff hl).2 ⟨type, ht, field, hf, related, hr, nested, hn, rfl⟩
    exact hdefined fragment hm _ hs
  · intro hspreadable fragment hm name hs
    obtain ⟨type, ht, field, hf, related, hr, nested, hn, rfl⟩ := (mem_spreads_iff hl).1 ⟨fragment, hm, hs⟩
    exact (hrelated type ht field hf related hr).1 (hspreadable type ht field hf related hr) nested hn

/-- A rendered document spreads what its bodies spread. -/
theorem spreadsIn_render (hl : schema.Linked) (dialect : Dialect) :
    spreadsIn ((ofSchema schema).render dialect).toList =
      (ofSchema schema).all.flatMap fun fragment => spreadsIn fragment.body.toList := by
  refine (Contributes.render (contributes_plain (by decide)) (fun line hm => ?_) fun fragment hm => ?_).eq rfl
  · have hline := (notMem_commentLines line hm).2
    refine contributes_plain ?_
    cases dialect <;> simpa [Dialect.commentMark] using hline
  · obtain ⟨variant, type, ht, rfl⟩ := mem_all_ofSchema.1 hm
    have htype : type ∈ schema.types := (Schema.mem_candidates.1 ht).1
    have hbody : Contributes spreadsIn (Fragment.ofType variant type).body _ :=
      (Fragment.contributes_bodyOf hl htype).self rfl
    cases dialect with
    | graphql => exact hbody
    | module =>
      have hname := variant.isNameChar_of_mem_fragmentName (hl.typeName type htype)
      have hbinding : Contributes spreadsIn (Fragment.ofType variant type).bindingName [] :=
        (contributes_name hname).after (contributes_plain (by decide))
      have hopening : Contributes spreadsIn
          ("export const " ++ (Fragment.ofType variant type).bindingName ++ " = `") [] :=
        ((contributes_plain (by decide)).after hbinding).after (contributes_plain (by decide))
      exact (hopening.after hbody).before (contributes_plain (by decide))

end FragmentSet

/-! ## Defined spreads -/

/-- All that the fragments of a schema that compiles spread is defined if and only if its candidates select
spreadable objects only. The same holds of the rendered document. -/
theorem compile_spreadsDefined_iff {text : String} {dialect : Dialect} {compiled : Compiled}
    (h : compile text dialect = .ok compiled) : ∃ schema, Schema.parse text = .ok schema ∧
      (compiled.fragments.SpreadsDefined ↔ schema.RelationsSpreadable) ∧
      ((∀ name ∈ spreadsIn compiled.contents.toList, name ∈ compiled.fragments.names) ↔
        schema.RelationsSpreadable) := by
  obtain ⟨schema, hs, rfl⟩ := compile_eq_ok h
  have hl := Schema.linked_of_parse hs
  have hiff := FragmentSet.spreadsDefined_iff hl
  refine ⟨schema, hs, hiff, ?_⟩
  rw [FragmentSet.spreadsIn_render hl, ← hiff]
  constructor
  · intro hdefined fragment hm name hn
    exact hdefined name (List.mem_flatMap.2 ⟨fragment, hm, hn⟩)
  · intro hdefined name hn
    obtain ⟨fragment, hm, hn⟩ := List.mem_flatMap.1 hn
    exact hdefined fragment hm name hn

theorem selfRelation_spreadsDefined : ∃ schema compiled,
    Schema.parse "type Query { nodes: [Node] } type Node { id: ID next: Node }" = .ok schema ∧
    compile "type Query { nodes: [Node] } type Node { id: ID next: Node }" .graphql = .ok compiled ∧
    schema.RelationsSpreadable ∧ compiled.fragments.SpreadsDefined ∧
    ∀ name ∈ spreadsIn compiled.contents.toList, name ∈ compiled.fragments.names := by
  have hrun : (compile "type Query { nodes: [Node] } type Node { id: ID next: Node }" .graphql).toOption.any
      (fun compiled => decide compiled.fragments.SpreadsDefined) = true := by
    simp only [compile, FragmentSet.ofSchema, Schema.candidates_eq]
    decide +kernel
  obtain ⟨compiled, hc, hdefined⟩ := exists_ok_of_any hrun
  obtain ⟨schema, hs, hfragments, hcontents⟩ := compile_spreadsDefined_iff hc
  have hspreadable := hfragments.1 (of_decide_eq_true hdefined)
  exact ⟨schema, compiled, hs, hc, hspreadable, hfragments.2 hspreadable, hcontents.2 hspreadable⟩

/-- A field may select the query root, whose fragments are spread but not defined. -/
theorem rootRelation_not_spreadsDefined : ∃ compiled,
    compile "type Query { a: Int } type Node { id: ID query: Query }" .graphql = .ok compiled ∧
    ¬ compiled.fragments.SpreadsDefined := by
  have hrun : (compile "type Query { a: Int } type Node { id: ID query: Query }" .graphql).toOption.any
      (fun compiled => decide (¬ compiled.fragments.SpreadsDefined)) = true := by
    simp only [compile, FragmentSet.ofSchema, Schema.candidates_eq]
    decide +kernel
  obtain ⟨compiled, hc, hn⟩ := exists_ok_of_any hrun
  exact ⟨compiled, hc, of_decide_eq_true hn⟩

end SchemaFragments
