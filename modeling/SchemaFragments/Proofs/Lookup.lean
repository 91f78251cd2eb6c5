import Mathlib.Data.Nat.Find
import SchemaFragments.Import.Selected
import SchemaFragments.Proofs.ImportGraph
/-!
# Where types are found

`findType` said without a search: the first definition of a name in the imported file, else in the files
that can be reached from it, or in all files, in load order.
-/

namespace SchemaFragments.Import

open Document

variable {files : List SchemaFile} {name : String} {target file index : Nat}

def definitionAt? (files : List SchemaFile) (file index : Nat) : Option Definition :=
  (files[file]?).bind fun file => file.definitions[index]?

def typeAt? (files : List SchemaFile) (file index : Nat) : Option TypeDefinition :=
  (definitionAt? files file index).bind (·.type?)

/-- There is a type with a name at a place. -/
def DefinesAt (files : List SchemaFile) (name : String) (file index : Nat) : Prop :=
  ∃ type, typeAt? files file index = some type ∧ type.name = name

/-- The first type with a name in a file. -/
def FirstIn (files : List SchemaFile) (name : String) (file index : Nat) : Prop :=
  DefinesAt files name file index ∧ ∀ before < index, ¬ DefinesAt files name file before

/-- The first type with a name in a file, else in those it reaches, in load order. -/
def FirstFrom (files : List SchemaFile) (target : Nat) (name : String) (file index : Nat) : Prop :=
  FirstIn files name file index ∧ Reaches files target file ∧
    ∀ other place, Reaches files target other → DefinesAt files name other place →
      file = target ∨ (other ≠ target ∧ file ≤ other)

/-- The first type with a name in load order. -/
def FirstLoaded (files : List SchemaFile) (name : String) (file index : Nat) : Prop :=
  FirstIn files name file index ∧ ∀ other place, DefinesAt files name other place → file ≤ other

theorem DefinesAt.name_eq {other : String} (h : DefinesAt files name file index)
    (ho : DefinesAt files other file index) : name = other := by
  obtain ⟨type, ht, rfl⟩ := h
  obtain ⟨type', ht', rfl⟩ := ho
  rw [ht, Option.some.injEq] at ht'
  rw [ht']

theorem DefinesAt.lt_length (h : DefinesAt files name file index) : file < files.length := by
  obtain ⟨type, ht, -⟩ := h
  by_contra hlt
  simp [typeAt?, definitionAt?, List.getElem?_eq_none (Nat.le_of_not_lt hlt)] at ht

/-! ## In one file -/

theorem isTypeNamed_iff {definition : Definition} :
    SchemaFile.isTypeNamed name definition = true ↔ ∃ type, definition.type? = some type ∧ type.name = name := by
  unfold SchemaFile.isTypeNamed
  cases definition.type? <;> simp

theorem definesAt_iff : DefinesAt files name file index ↔
    ∃ source, files[file]? = some source ∧ ∃ definition, source.definitions[index]? = some definition ∧
      SchemaFile.isTypeNamed name definition = true := by
  simp only [DefinesAt, typeAt?, definitionAt?, Option.bind_eq_some_iff, isTypeNamed_iff]
  constructor
  · rintro ⟨type, ⟨definition, ⟨source, hs, hd⟩, ht⟩, hn⟩
    exact ⟨source, hs, definition, hd, type, ht, hn⟩
  · rintro ⟨source, hs, definition, hd, type, ht, hn⟩
    exact ⟨type, ⟨definition, ⟨source, hs, hd⟩, ht⟩, hn⟩

theorem typeIndex?_eq_some_iff {source : SchemaFile} (hs : files[file]? = some source) :
    source.typeIndex? name = some index ↔ FirstIn files name file index := by
  have hat : ∀ place, DefinesAt files name file place ↔
      ∃ h : place < source.definitions.length,
        SchemaFile.isTypeNamed name (source.definitions.get ⟨place, h⟩) = true := by
    intro place
    rw [definesAt_iff]
    constructor
    · rintro ⟨source', hs', definition, hd, hn⟩
      obtain rfl : source = source' := by simpa [hs] using hs'
      obtain ⟨hlt, rfl⟩ := List.getElem?_eq_some_iff.1 hd
      exact ⟨hlt, hn⟩
    · rintro ⟨hlt, hn⟩
      exact ⟨source, hs, _, List.getElem?_eq_getElem hlt, hn⟩
  rw [SchemaFile.typeIndex?, List.findIdx?_eq_some_iff_getElem, FirstIn, hat]
  constructor
  · rintro ⟨hlt, hn, hfirst⟩
    refine ⟨⟨hlt, hn⟩, fun before hb hd => ?_⟩
    obtain ⟨_, hd⟩ := (hat before).1 hd
    exact hfirst before hb hd
  · rintro ⟨⟨hlt, hn⟩, hfirst⟩
    exact ⟨hlt, hn, fun before hb hd => hfirst before hb ((hat before).2 ⟨Nat.lt_trans hb hlt, hd⟩)⟩

theorem exists_firstIn (h : DefinesAt files name file index) : ∃ first, FirstIn files name file first := by
  classical
  have hex : ∃ place, DefinesAt files name file place := ⟨index, h⟩
  exact ⟨Nat.find hex, Nat.find_spec hex, fun _ hb => Nat.find_min hex hb⟩

/-! ## In a list of files -/

theorem lookIn_eq_some_iff {file' : Nat} :
    (do return (file', ← (← files[file']?).typeIndex? name) : Option (Nat × Nat)) = some (file, index) ↔
      file' = file ∧ FirstIn files name file index := by
  cases hs : files[file']? with
  | none =>
    simp only [bind, Option.bind_none, reduceCtorEq, false_iff, not_and]
    rintro rfl ⟨hd, -⟩
    exact absurd hd.lt_length (by simpa using hs)
  | some source =>
    have hiff : source.typeIndex? name = some index ↔ FirstIn files name file' index :=
      typeIndex?_eq_some_iff hs
    cases hi : source.typeIndex? name with
    | none =>
      simp only [bind, Option.bind_some, hi, Option.bind_none, reduceCtorEq, false_iff, not_and] at hiff ⊢
      rintro rfl
      exact hiff
    | some place =>
      simp only [bind, pure, Option.bind_some, hi, Option.some.injEq, Prod.mk.injEq] at hiff ⊢
      constructor
      · rintro ⟨rfl, he⟩
        exact ⟨rfl, hiff.1 he⟩
      · rintro ⟨rfl, hf⟩
        exact ⟨rfl, hiff.2 hf⟩

/-- A type is found in the first file of the list that has one of its name. -/
theorem findType_eq_some_iff {order : List Nat} : findType files order name = some (file, index) ↔
    FirstIn files name file index ∧ ∃ before after, order = before ++ file :: after ∧
      ∀ other ∈ before, ∀ place, ¬ DefinesAt files name other place := by
  rw [findType, List.findSome?_eq_some_iff]
  constructor
  · rintro ⟨before, file', after, rfl, hfound, hbefore⟩
    obtain ⟨rfl, hf⟩ := lookIn_eq_some_iff.1 hfound
    refine ⟨hf, before, after, rfl, fun other ho place hd => ?_⟩
    obtain ⟨first, hfirst⟩ := exists_firstIn hd
    have hsome := lookIn_eq_some_iff.2 ⟨rfl, hfirst⟩
    rw [hbefore other ho] at hsome
    cases hsome
  · rintro ⟨hf, before, after, rfl, hbefore⟩
    refine ⟨before, file, after, rfl, lookIn_eq_some_iff.2 ⟨rfl, hf⟩, fun other ho => ?_⟩
    cases hsome : (do return (other, ← (← files[other]?).typeIndex? name) : Option (Nat × Nat)) with
    | none => rfl
    | some found =>
      exact absurd (lookIn_eq_some_iff.1 hsome).2.1 ((lookIn_eq_some_iff.1 hsome).1 ▸ hbefore other ho _)

/-- In a list with ascending indexes the first match is the least one. -/
theorem exists_split_iff_of_pairwise {order : List Nat} {P : Nat → Prop} (h : order.Pairwise (· < ·))
    (hp : P file) :
    (∃ before after, order = before ++ file :: after ∧ ∀ other ∈ before, ¬ P other) ↔
      file ∈ order ∧ ∀ other ∈ order, P other → file ≤ other := by
  constructor
  · rintro ⟨before, after, rfl, hb⟩
    refine ⟨by simp, fun other ho hpo => ?_⟩
    rcases List.mem_append.1 ho with ho | ho
    · exact absurd hpo (hb other ho)
    · rcases List.mem_cons.1 ho with rfl | ho
      · exact Nat.le_refl _
      · have hcons := (List.pairwise_append.1 h).2.1
        exact Nat.le_of_lt ((List.pairwise_cons.1 hcons).1 other ho)
  · rintro ⟨hm, hleast⟩
    obtain ⟨before, after, rfl⟩ := List.append_of_mem hm
    refine ⟨before, after, rfl, fun other ho hpo => ?_⟩
    have hlt := (List.pairwise_append.1 h).2.2 other ho file (by simp)
    exact absurd (hleast other (by simp [ho]) hpo) (Nat.not_le_of_lt hlt)

theorem findType_range_iff :
    findType files (List.range files.length) name = some (file, index) ↔ FirstLoaded files name file index := by
  rw [findType_eq_some_iff, FirstLoaded]
  refine and_congr_right fun hf => ?_
  have hpairwise : (List.range files.length).Pairwise (· < ·) := List.pairwise_lt_range
  have hsplit := exists_split_iff_of_pairwise (P := fun other => ∃ place, DefinesAt files name other place)
    hpairwise ⟨index, hf.1⟩
  simp only [not_exists] at hsplit
  rw [hsplit]
  constructor
  · rintro ⟨-, hleast⟩ other place hd
    exact hleast other (List.mem_range.2 hd.lt_length) ⟨place, hd⟩
  · intro hleast
    exact ⟨List.mem_range.2 hf.1.lt_length, fun other _ ⟨place, hd⟩ => hleast other place hd⟩

theorem findType_reachableFiles_iff : findType files (reachableFiles files target) name = some (file, index) ↔
    FirstFrom files target name file index := by
  rw [findType_eq_some_iff, FirstFrom]
  refine and_congr_right fun hf => ?_
  rw [reachableFiles_eq_cons]
  constructor
  · rintro ⟨before, after, he, hb⟩
    cases before with
    | nil =>
      obtain ⟨rfl, -⟩ := List.cons.inj he
      exact ⟨.refl, fun _ _ _ _ => .inl rfl⟩
    | cons first before =>
      simp only [List.cons_append, List.cons.injEq] at he
      obtain ⟨rfl, hlater⟩ := he
      obtain ⟨hm, hleast⟩ := (exists_split_iff_of_pairwise
        (P := fun other => ∃ place, DefinesAt files name other place) laterFiles_pairwise ⟨index, hf.1⟩).1
        ⟨before, after, hlater, fun other ho ⟨place, hd⟩ => hb other (List.mem_cons_of_mem _ ho) place hd⟩
      refine ⟨(mem_laterFiles.1 hm).2, fun other place hr hd => .inr ?_⟩
      have hne : other ≠ target := by
        rintro rfl
        exact hb _ (List.mem_cons_self ..) place hd
      exact ⟨hne, hleast other (mem_laterFiles.2 ⟨hne, hr⟩) ⟨place, hd⟩⟩
  · rintro ⟨hr, hleast⟩
    by_cases he : file = target
    · subst he
      exact ⟨[], _, rfl, by simp⟩
    · have hno : ∀ place, ¬ DefinesAt files name target place := fun place hd =>
        (hleast target place .refl hd).elim he fun h => h.1 rfl
      obtain ⟨before, after, hsplit, hb⟩ := (exists_split_iff_of_pairwise
        (P := fun other => ∃ place, DefinesAt files name other place) laterFiles_pairwise ⟨index, hf.1⟩).2
        ⟨mem_laterFiles.2 ⟨he, hr⟩, fun other ho ⟨place, hd⟩ =>
          ((hleast other place (mem_laterFiles.1 ho).2 hd).resolve_left he).2⟩
      refine ⟨target :: before, after, by simp [hsplit], fun other ho place hd => ?_⟩
      rcases List.mem_cons.1 ho with rfl | ho
      · exact hno place hd
      · exact hb other ho ⟨place, hd⟩

theorem exists_firstLoaded (h : DefinesAt files name file index) :
    ∃ first place, FirstLoaded files name first place := by
  classical
  have hex : ∃ first, ∃ place, DefinesAt files name first place := ⟨file, index, h⟩
  obtain ⟨place, hd⟩ := Nat.find_spec hex
  obtain ⟨place, hf⟩ := exists_firstIn hd
  exact ⟨_, place, hf, fun other place hd => Nat.find_le ⟨place, hd⟩⟩

end SchemaFragments.Import
