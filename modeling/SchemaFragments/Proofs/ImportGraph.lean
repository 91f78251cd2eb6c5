import Mathlib.Logic.Relation
import SchemaFragments.Import.Graph
import SchemaFragments.Proofs.Search
/-!
# Ways through the import graph

`isWhole` and `reachableFiles` said without a search: the files that a chain of directives leads to, of
directives for whole files in the first case, of any directives in the second.
-/

namespace SchemaFragments.Import

variable {files : List SchemaFile} {start index other : Nat}

/-- A file has a directive of a class that asks for another file. -/
def ImportsBy (wanted : ResolvedImport → Prop) (files : List SchemaFile) (index other : Nat) : Prop :=
  ∃ file, files[index]? = some file ∧ ∃ directive ∈ file.imports,
    wanted directive ∧ directive.target = other ∧ other < files.length

/-- A file asks for another one, as a whole or for some of its types. -/
def Imports : List SchemaFile → Nat → Nat → Prop := ImportsBy fun _ => True

def ImportsWhole : List SchemaFile → Nat → Nat → Prop := ImportsBy (·.selection = .wholeFile)

/-- A chain of directives leads from a file to another one, or they are the same. -/
def Reaches (files : List SchemaFile) : Nat → Nat → Prop := Relation.ReflTransGen (Imports files)

/-- The root, or a file that a chain of directives for whole files leads to from there. -/
def Whole (files : List SchemaFile) (index : Nat) : Prop :=
  index < files.length ∧ Relation.ReflTransGen (ImportsWhole files) 0 index

theorem mem_targets : other ∈ targets files index ∧ other < files.length ↔ Imports files index other := by
  unfold targets Imports ImportsBy
  cases files[index]? with
  | none => simp
  | some file =>
    simp only [Option.map_some, Option.getD_some, List.mem_map, Option.some.injEq]
    constructor
    · rintro ⟨⟨directive, hd, ht⟩, hl⟩
      exact ⟨file, rfl, directive, hd, trivial, ht, hl⟩
    · rintro ⟨_, rfl, directive, hd, -, ht, hl⟩
      exact ⟨⟨directive, hd, ht⟩, hl⟩

theorem mem_wholeTargets :
    other ∈ wholeTargets files index ∧ other < files.length ↔ ImportsWhole files index other := by
  unfold wholeTargets ImportsWhole ImportsBy
  cases files[index]? with
  | none => simp
  | some file =>
    simp only [Option.map_some, Option.getD_some, List.mem_map, List.mem_filter, beq_iff_eq,
      Option.some.injEq]
    constructor
    · rintro ⟨⟨directive, ⟨hd, hw⟩, ht⟩, hl⟩
      exact ⟨file, rfl, directive, hd, hw, ht, hl⟩
    · rintro ⟨_, rfl, directive, hd, hw, ht, hl⟩
      exact ⟨⟨directive, ⟨hd, hw⟩, ht⟩, hl⟩

/-- A search among all files finds those that a chain of edges leads to. -/
theorem mem_depthFirst_range {edge : Nat → Nat → Prop} {next : Nat → List Nat}
    (h : ∀ a b, b ∈ next a ∧ b < files.length ↔ edge a b) :
    index ∈ depthFirst (List.range files.length) next [start] [] ↔
      start < files.length ∧ index < files.length ∧ Relation.ReflTransGen edge start index := by
  rw [mem_depthFirst]
  constructor
  · intro hf
    induction hf with
    | start hs hk =>
      obtain rfl := List.mem_singleton.1 hs
      exact ⟨List.mem_range.1 hk, List.mem_range.1 hk, .refl⟩
    | step _ hn hk _ ih =>
      exact ⟨ih.1, List.mem_range.1 hk, ih.2.2.tail ((h _ _).1 ⟨hn, List.mem_range.1 hk⟩)⟩
  · rintro ⟨hs, -, hr⟩
    induction hr with
    | refl => exact .start (by simp) (List.mem_range.2 hs) (by simp)
    | tail _ he ih =>
      obtain ⟨hn, hk⟩ := (h _ _).2 he
      exact .step ih hn (List.mem_range.2 hk) (by simp)

theorem isWhole_iff : isWhole files index = true ↔ Whole files index := by
  rw [isWhole, List.contains_iff_mem, wholeFiles, mem_depthFirst_range fun _ _ => mem_wholeTargets]
  exact ⟨fun h => h.2, fun h => ⟨Nat.zero_lt_of_lt h.1, h⟩⟩

theorem lt_length_of_reaches (h : Reaches files start index) : index = start ∨ index < files.length := by
  rcases Relation.ReflTransGen.cases_tail h with rfl | ⟨_, -, _, -, _, -, -, -, hlt⟩
  · exact .inl rfl
  · exact .inr hlt

theorem start_lt_of_reaches (h : Reaches files start index) : index = start ∨ start < files.length := by
  rcases Relation.ReflTransGen.cases_head h with rfl | ⟨_, ⟨_, hf, -⟩, -⟩
  · exact .inl rfl
  · exact .inr (List.getElem?_eq_some_iff.1 hf).1

/-- The files after the first one of a search order. -/
def laterFiles (files : List SchemaFile) (start : Nat) : List Nat :=
  (List.range files.length).filter fun index =>
    index != start && (depthFirst (List.range files.length) (targets files) [start] []).contains index

theorem reachableFiles_eq_cons : reachableFiles files start = start :: laterFiles files start := rfl

theorem mem_laterFiles : index ∈ laterFiles files start ↔ index ≠ start ∧ Reaches files start index := by
  simp only [laterFiles, List.mem_filter, List.mem_range, Bool.and_eq_true, bne_iff_ne, ne_eq,
    List.contains_iff_mem, mem_depthFirst_range fun _ _ => mem_targets]
  constructor
  · rintro ⟨-, hne, -, -, hr⟩
    exact ⟨hne, hr⟩
  · rintro ⟨hne, hr⟩
    have hlt := (lt_length_of_reaches hr).resolve_left hne
    exact ⟨hlt, hne, (start_lt_of_reaches hr).resolve_left hne, hlt, hr⟩

theorem mem_reachableFiles : index ∈ reachableFiles files start ↔ Reaches files start index := by
  rw [reachableFiles_eq_cons, List.mem_cons, mem_laterFiles]
  constructor
  · rintro (rfl | ⟨-, hr⟩)
    · exact .refl
    · exact hr
  · intro hr
    by_cases h : index = start
    · exact .inl h
    · exact .inr ⟨h, hr⟩

/-- After the first file of a search order the others come in load order. -/
theorem laterFiles_pairwise : (laterFiles files start).Pairwise (· < ·) :=
  List.pairwise_lt_range.filter _

end SchemaFragments.Import
