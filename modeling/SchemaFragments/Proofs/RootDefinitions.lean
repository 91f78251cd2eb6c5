import SchemaFragments.Proofs.Gathering
import SchemaFragments.Proofs.RootTypes
import SchemaFragments.Proofs.Segments
/-!
# Definitions of roots

What a combined document consists of. Definitions that are no object types of roots stay as they are; the object
types of a root are one definition, in the place of the first of them, with the fields and interfaces that each
later one adds: `combine_mergesRoots`.
-/

namespace SchemaFragments.Import

open Document

variable {roots : List String} {definitions : List Origin} {origin next first merged : Origin} {name : String}

/-! ## What becomes of each definition -/

/-- A definition that is emitted in the place of the first of its root, or of a definition that is not merged. -/
structure Gathers (roots : List String) (definitions : List Origin) (first merged : Origin) : Prop where
  file : merged.1 = first.1
  heading : heading merged.2 = heading first.2
  kept : rootName? roots first = none → merged = first
  interfaces : ∀ name, rootName? roots first = some name → interfacesOf merged = interfacesOf first ++
    newTo (· == ·) (interfacesOf first) ((ofRoot name definitions).tail.flatMap interfacesOf)
  fields : ∀ name, rootName? roots first = some name → fieldsOf merged = fieldsOf first ++
    newTo sameField (fieldsOf first) ((ofRoot name definitions).tail.flatMap fieldsOf)

/-- A definition with more fields and interfaces behind its own. -/
structure Extends (before after : Origin) : Prop where
  file : after.1 = before.1
  heading : heading after.2 = heading before.2
  interfaces : interfacesOf before <+: interfacesOf after
  fields : fieldsOf before <+: fieldsOf after

theorem Extends.refl (origin : Origin) : Extends origin origin := ⟨rfl, rfl, List.prefix_rfl, List.prefix_rfl⟩

theorem Extends.trans (h : Extends first origin) (h' : Extends origin merged) : Extends first merged :=
  ⟨h'.file.trans h.file, h'.heading.trans h.heading, h.interfaces.trans h'.interfaces, h.fields.trans h'.fields⟩

/-- Every definition is still in its place. -/
def Grows (before after : List Origin) : Prop :=
  ∀ (index : Nat) origin, before[index]? = some origin → ∃ grown, after[index]? = some grown ∧ Extends origin grown

theorem extends_addParts (h : isObjectNamed name origin.2 = true) (later : Origin) :
    Extends origin (addParts origin later) where
  file := rfl
  heading := heading_mergeObject _ _ _
  interfaces := by
    rw [interfacesOf_addParts h]
    exact List.prefix_append _ _
  fields := by
    rw [fieldsOf_addParts h]
    exact List.prefix_append _ _

/-- A step leaves every definition in its place. -/
theorem grows_emit (roots : List String) (emitted : List Origin) (next : Origin) :
    Grows emitted (emit roots emitted next) := by
  intro place origin hplace
  rw [emit_eq]
  split
  · rename_i index hindex
    obtain ⟨name, -, hfound⟩ := Option.bind_eq_some_iff.1 hindex
    rw [List.getElem?_modify, hplace]
    by_cases hsame : index = place
    · subst hsame
      obtain ⟨hlt, hnamed, -⟩ := List.findIdx?_eq_some_iff_getElem.1 hfound
      obtain ⟨_, rfl⟩ := List.getElem?_eq_some_iff.1 hplace
      exact ⟨_, by simp, extends_addParts hnamed next⟩
    · exact ⟨origin, by simp [hsame], .refl origin⟩
  · exact ⟨origin, by rw [List.getElem?_append_left (List.getElem?_eq_some_iff.1 hplace).1, hplace], .refl origin⟩

theorem grows_foldl (roots : List String) (emitted definitions : List Origin) :
    Grows emitted (definitions.foldl (emit roots) emitted) := by
  induction definitions generalizing emitted with
  | nil => exact fun index origin h => ⟨origin, h, .refl origin⟩
  | cons next definitions ih =>
    intro index origin h
    obtain ⟨grown, hgrown, hextends⟩ := grows_emit roots emitted next index origin h
    obtain ⟨last, hlast, hextends'⟩ := ih (emit roots emitted next) index grown hgrown
    exact ⟨last, hlast, hextends.trans hextends'⟩

theorem foldl_addParts (h : isObjectNamed name first.2 = true) (later : List Origin) :
    Extends first (later.foldl addParts first) ∧
      interfacesOf (later.foldl addParts first) =
        interfacesOf first ++ newTo (· == ·) (interfacesOf first) (later.flatMap interfacesOf) ∧
      fieldsOf (later.foldl addParts first) =
        fieldsOf first ++ newTo sameField (fieldsOf first) (later.flatMap fieldsOf) := by
  induction later generalizing first with
  | nil => exact ⟨.refl first, by simp [newTo], by simp [newTo]⟩
  | cons next later ih =>
    obtain ⟨hextends, hinterfaces, hfields⟩ := ih ((isObjectNamed_addParts first next).trans h)
    refine ⟨(extends_addParts h next).trans hextends, ?_, ?_⟩
    · rw [List.foldl_cons, hinterfaces, interfacesOf_addParts h, List.flatMap_cons, append_newTo_append]
    · rw [List.foldl_cons, hfields, fieldsOf_addParts h, List.flatMap_cons, append_newTo_append]

theorem gathers_gathered (roots : List String) (definitions : List Origin) (first : Origin) :
    Gathers roots definitions first (gathered roots definitions first) := by
  unfold gathered
  cases hfirst : rootName? roots first with
  | none => exact ⟨rfl, rfl, fun _ => rfl, by simp [hfirst], by simp [hfirst]⟩
  | some name =>
    obtain ⟨hextends, hinterfaces, hfields⟩ := foldl_addParts (rootName?_eq_some_iff.1 hfirst).2
      (ofRoot name definitions).tail
    refine ⟨hextends.file, hextends.heading, by simp [hfirst], fun other hother => ?_, fun other hother => ?_⟩
    · obtain rfl : name = other := Option.some.inj (hfirst.symm.trans hother)
      exact hinterfaces
    · obtain rfl : name = other := Option.some.inj (hfirst.symm.trans hother)
      exact hfields

/-! ## Recorded slots -/

/-- What is emitted so far, and the places of the roots in it. -/
structure Slots where
  emitted : List Origin
  slots : List (String × Nat)

namespace Slots

variable {state : Slots}

/-- Emits a definition by the slot that is recorded for its root. -/
def emit (roots : List String) (state : Slots) (next : Origin) : Slots :=
  match rootName? roots next with
  | none => { state with emitted := state.emitted ++ [next] }
  | some name =>
    match state.slots.lookup name with
    | some slot => { state with emitted := state.emitted.modify slot (addParts · next) }
    | none => ⟨state.emitted ++ [next], (name, state.emitted.length) :: state.slots⟩

/-- Slots are recorded for just those roots that have a definition, and lead to it. -/
def Recorded (roots : List String) (state : Slots) : Prop :=
  ∀ name, state.slots.lookup name =
    if name ∈ roots then state.emitted.findIdx? (isObjectNamed name ·.2) else none

theorem findIdx?_modify {α : Type} {p : α → Bool} {f : α → α} (h : ∀ item, p (f item) = p item) (items : List α)
    (index : Nat) : (items.modify index f).findIdx? p = items.findIdx? p := by
  have hmap (items : List α) : items.findIdx? p = (items.map p).findIdx? id := by rw [List.findIdx?_map, Function.id_comp]
  rw [hmap, hmap items]
  congr 1
  refine List.ext_getElem? fun place => ?_
  rw [List.getElem?_map, List.getElem?_map, List.getElem?_modify]
  cases items[place]? with
  | none => rfl
  | some item => by_cases hplace : index = place <;> simp [hplace, h]

/-- A slot leads to where the definition of the root is found, so both ways of merging are the same. -/
theorem emit_recorded (h : state.Recorded roots) (next : Origin) :
    (emit roots state next).emitted = Import.emit roots state.emitted next ∧ (emit roots state next).Recorded roots := by
  have happend {name : String} (hnext : isObjectNamed name next.2 = false) :
      (state.emitted ++ [next]).findIdx? (isObjectNamed name ·.2) = state.emitted.findIdx? (isObjectNamed name ·.2) := by
    simp [List.findIdx?_append, List.findIdx?_cons, hnext]
  rw [emit_eq]
  cases hnext : rootName? roots next with
  | none =>
    simp only [emit, hnext]
    refine ⟨rfl, fun name => ?_⟩
    rw [h name]
    refine if_ctx_congr Iff.rfl (fun hname => (happend ?_).symm) fun _ => rfl
    by_contra hnamed
    have hsome := rootName?_eq_some_iff.2 ⟨hname, by simpa using hnamed⟩
    rw [hnext] at hsome
    cases hsome
  | some root =>
    obtain ⟨hroot, hnamed⟩ := rootName?_eq_some_iff.1 hnext
    have hslot := h root
    rw [if_pos hroot] at hslot
    cases hindex : state.emitted.findIdx? (isObjectNamed root ·.2) with
    | some index =>
      simp only [emit, hnext, hslot, hindex, Option.bind_some, true_and]
      intro name
      rw [h name, findIdx?_modify fun origin => isObjectNamed_addParts origin next]
    | none =>
      simp only [emit, hnext, hslot, hindex, Option.bind_some, true_and]
      intro name
      rw [List.lookup_cons]
      by_cases hname : name = root
      · subst hname
        rw [beq_self_eq_true, if_pos hroot, List.findIdx?_append, hindex]
        simp [hnamed]
      · have hother : isObjectNamed name next.2 = false := by
          by_contra hnamed'
          obtain ⟨type, htype, rfl, -⟩ := isObjectNamed_iff.1 hnamed
          obtain ⟨type', htype', rfl, -⟩ := isObjectNamed_iff.1 (Bool.eq_true_of_not_eq_false hnamed')
          rw [htype] at htype'
          cases htype'
          exact hname rfl
        rw [beq_false_of_ne hname, happend hother]
        exact h name

theorem foldl_emit_recorded (roots : List String) (definitions : List Origin) :
    (definitions.foldl (emit roots) ⟨[], []⟩).emitted = definitions.foldl (Import.emit roots) [] ∧
      (definitions.foldl (emit roots) ⟨[], []⟩).Recorded roots := by
  induction definitions using List.reverseRecOn with
  | nil => exact ⟨rfl, fun name => by simp⟩
  | append_singleton definitions next ih =>
    obtain ⟨hemitted, hrecorded⟩ := ih
    obtain ⟨hnext, hstays⟩ := emit_recorded hrecorded next
    rw [List.foldl_append, List.foldl_append, ← hemitted]
    exact ⟨hnext, hstays⟩

/-- A recorded slot is the place of a definition of its root. -/
theorem Recorded.valid (h : state.Recorded roots) {slot : Nat} (hslot : state.slots.lookup name = some slot) :
    ∃ root, state.emitted[slot]? = some root ∧ rootName? roots root = some name := by
  rw [h name] at hslot
  obtain ⟨hname, hindex⟩ := Option.ite_none_right_eq_some.1 hslot
  obtain ⟨hlt, hnamed, -⟩ := List.findIdx?_eq_some_iff_getElem.1 hindex
  exact ⟨_, List.getElem?_eq_getElem hlt, rootName?_eq_some_iff.2 ⟨hname, hnamed⟩⟩

end Slots

/-! ## Merged definitions -/

/-- What definitions are once those of a root are one. -/
structure MergesRoots (roots : List String) (definitions merged : List Origin) : Prop where
  /-- Each first definition has its place, with what the later ones of its root add. -/
  places : List.Forall₂ (Gathers roots definitions) (firsts roots definitions) merged
  others : merged.filter (rootName? roots · = none) = definitions.filter (rootName? roots · = none)
  single : ∀ name ∈ roots, (∃ origin ∈ definitions, isObjectNamed name origin.2 = true) →
    ∃ root, merged.filter (isObjectNamed name ·.2) = [root]
  /-- Later definitions leave what the earlier ones are merged to in its place and order. -/
  grows : ∀ front back, definitions = front ++ back → Grows (front.foldl (emit roots) []) merged
  fields : ∀ origin ∈ definitions, ∀ name, rootName? roots origin = some name →
    ∃ root ∈ merged, rootName? roots root = some name ∧
      ∀ field ∈ fieldsOf origin, ∃ kept ∈ fieldsOf root, kept.name = field.name
  /-- Merging by recorded slots is the same, and every slot leads to a definition of its root. -/
  slots : ∀ front back, definitions = front ++ back →
    (front.foldl (Slots.emit roots) ⟨[], []⟩).emitted = front.foldl (emit roots) [] ∧
      ∀ name slot, (front.foldl (Slots.emit roots) ⟨[], []⟩).slots.lookup name = some slot →
        ∃ root, (front.foldl (emit roots) [])[slot]? = some root ∧ rootName? roots root = some name

theorem filter_firsts (roots : List String) (definitions : List Origin) :
    (firsts roots definitions).filter (rootName? roots · = none) = definitions.filter (rootName? roots · = none) := by
  induction definitions using List.reverseRecOn with
  | nil => rfl
  | append_singleton definitions next ih =>
    cases hnext : rootName? roots next with
    | none => rw [firsts_concat_of_none hnext, List.filter_append, List.filter_append, ih]
    | some name =>
      rw [firsts_concat_of_some hnext, List.filter_append, List.filter_append, ih]
      split <;> simp [hnext]

theorem mergesRoots_foldl (roots : List String) (definitions : List Origin) :
    MergesRoots roots definitions (definitions.foldl (emit roots) []) := by
  have hfirst {name : String} (hname : name ∈ roots) {origin : Origin} (ho : origin ∈ definitions)
      (hnamed : isObjectNamed name origin.2 = true) : ∃ first later, ofRoot name definitions = first :: later ∧
        (firsts roots definitions).filter (isObjectNamed name ·.2) = [first] := by
    have hmem : origin ∈ ofRoot name definitions := List.mem_filter.2 ⟨ho, hnamed⟩
    obtain ⟨first, later, hcons⟩ := List.exists_cons_of_ne_nil (List.ne_nil_of_mem hmem)
    have hone := ofRoot_firsts hname definitions
    rw [hcons, List.take_succ_cons, List.take_zero] at hone
    exact ⟨first, later, hcons, hone⟩
  constructor
  case places =>
    rw [foldl_emit_eq, List.forall₂_map_right_iff, List.forall₂_same]
    exact fun first _ => gathers_gathered roots definitions first
  case others =>
    rw [foldl_emit_eq, List.filter_map, ← filter_firsts]
    simp only [Function.comp_def, rootName?_gathered]
    refine (List.map_congr_left fun first hf => ?_).trans (List.map_id _)
    exact (gathers_gathered roots definitions first).kept (by simpa using (List.mem_filter.1 hf).2)
  case single =>
    rintro name hname ⟨origin, ho, hnamed⟩
    obtain ⟨first, later, -, hone⟩ := hfirst hname ho hnamed
    refine ⟨gathered roots definitions first, ?_⟩
    rw [foldl_emit_eq, List.filter_map]
    simp only [Function.comp_def, isObjectNamed_gathered, hone, List.map_singleton]
  case grows =>
    rintro front back rfl
    rw [List.foldl_append]
    exact grows_foldl roots _ back
  case fields =>
    intro origin ho name hroot
    obtain ⟨hname, hnamed⟩ := rootName?_eq_some_iff.1 hroot
    obtain ⟨first, later, hcons, hone⟩ := hfirst hname ho hnamed
    obtain ⟨hmem, hfound⟩ := List.mem_filter.1 (hone ▸ List.mem_singleton_self first)
    have hrootFirst := rootName?_eq_some_iff.2 ⟨hname, hfound⟩
    refine ⟨gathered roots definitions first, ?_, (rootName?_gathered _ _ _).trans hrootFirst, fun field hf => ?_⟩
    · rw [foldl_emit_eq]
      exact List.mem_map_of_mem hmem
    · rw [(gathers_gathered roots definitions first).fields name hrootFirst, hcons, List.tail_cons]
      have hall : field ∈ fieldsOf first ++ later.flatMap fieldsOf := by
        have ho' : origin ∈ first :: later := hcons ▸ List.mem_filter.2 ⟨ho, hnamed⟩
        rcases List.mem_cons.1 ho' with rfl | ho'
        · exact List.mem_append_left _ hf
        · exact List.mem_append_right _ (List.mem_flatMap.2 ⟨origin, ho', hf⟩)
      obtain ⟨kept, hkept, hsame⟩ := exists_same_append_newTo sameField (fun field => beq_self_eq_true field.name) hall
      exact ⟨kept, hkept, beq_iff_eq.1 hsame⟩
  case slots =>
    rintro front back rfl
    obtain ⟨hemitted, hrecorded⟩ := Slots.foldl_emit_recorded roots front
    exact ⟨hemitted, fun name slot hslot => hemitted ▸ hrecorded.valid hslot⟩

theorem mem_rootNames {document : List Definition} : name ∈ rootNames document ↔
    name ∈ ["Query", "Mutation", "Subscription"] ∨
      ∃ schema, .schema schema ∈ document ∧ ∃ operation, schema.root operation = some name := by
  have hroots (schema : SchemaDefinition) : name ∈ schema.roots ↔ ∃ operation, schema.root operation = some name := by
    rw [SchemaDefinition.roots, List.mem_filterMap]
    refine exists_congr fun operation => and_iff_right ?_
    cases operation <;> decide
  rw [rootNames, List.mem_append, List.mem_flatMap]
  refine or_congr Iff.rfl ⟨?_, ?_⟩
  · rintro ⟨definition, hd, hname⟩
    cases definition with
    | schema schema => exact ⟨schema, hd, (hroots schema).1 hname⟩
    | type | extension | directive => cases hname
  · rintro ⟨schema, hd, hname⟩
    exact ⟨_, hd, (hroots schema).2 hname⟩

/-- The definitions that are selected, with their files. -/
def selectedOrigins (files : List SchemaFile) (selected : List Selected) : List Origin :=
  selected.filterMap fun s => (s.definition? files).map (s.file, ·)

/-- Selected definitions are combined to the first ones, in order: an object type of a root has the fields and
interfaces that the later ones of this root add, and all else is as it was selected. -/
theorem combine_mergesRoots (files : List SchemaFile) (selected : List Selected) :
    (∀ name, name ∈ rootNames ((selectedOrigins files selected).map (·.2)) ↔
      name ∈ ["Query", "Mutation", "Subscription"] ∨ ∃ operation, NamesRoot files selected operation name) ∧
    MergesRoots (rootNames ((selectedOrigins files selected).map (·.2))) (selectedOrigins files selected)
      (mergedOrigins files selected) ∧
    Source.combine files selected =
      ⟨files, "\n".intercalate ((mergedOrigins files selected).map (·.2.print)),
        segmentsFrom 1 (mergedOrigins files selected)⟩ := by
  refine ⟨fun name => ?_, mergesRoots_foldl _ _, combine_eq files selected⟩
  simp only [mem_rootNames, selectedOrigins, mem_selected_definitions, NamesRoot]
  refine or_congr Iff.rfl ⟨?_, ?_⟩
  · rintro ⟨schema, ⟨s, hs, hd⟩, operation, hroot⟩
    exact ⟨operation, s, hs, schema, hd, hroot⟩
  · rintro ⟨operation, s, hs, schema, hd, hroot⟩
    exact ⟨schema, ⟨s, hs, hd⟩, operation, hroot⟩

end SchemaFragments.Import
