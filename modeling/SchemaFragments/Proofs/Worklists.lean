import SchemaFragments.Proofs.ImportGraph
import SchemaFragments.Proofs.Loading
/-!
# Searches with a list of what is pending

A search takes one pending name after the other, marks it when it is new, and puts what is next to it among the
pending ones, where a name can stand many times. Whichever name is taken next, the search ends, with just the names
that a chain leads to from the start: `finds_depthFirst`. So `isWhole` and `reachableFiles` are what any such search of
the import graph gives: `searches_exact`.
-/

namespace SchemaFragments

/-- A search on its way: the names marked so far, and those to be taken. -/
structure Worklist (α : Type) where
  marked : List α
  pending : List α

namespace Worklist

variable {α : Type} {next : α → List α} {start name : α} {known marked pending rest : List α} {search after : Worklist α}

/-- Takes one of the pending names. One that is marked is dropped, another one is marked. -/
inductive Step (next : α → List α) : Worklist α → Worklist α → Prop
  | again {marked pending rest : List α} {name : α} :
      pending.Perm (name :: rest) → name ∈ marked → Step next ⟨marked, pending⟩ ⟨marked, rest⟩
  | first {marked pending rest more : List α} {name : α} :
      pending.Perm (name :: rest) → name ∉ marked → more.Perm (next name ++ rest) →
      Step next ⟨marked, pending⟩ ⟨marked ++ [name], more⟩

/-- Any number of steps. -/
def Runs (next : α → List α) : Worklist α → Worklist α → Prop := Relation.ReflTransGen (Step next)

/-- A chain of names, each next to the one before it. -/
def Leads (next : α → List α) : α → α → Prop := Relation.ReflTransGen fun name other => other ∈ next name

theorem Leads.mem_known (h : Leads next start name) (hclosed : ∀ name ∈ known, ∀ other ∈ next name, other ∈ known)
    (hs : start ∈ known) : name ∈ known := by
  induction h with
  | refl => exact hs
  | tail _ hn ih => exact hclosed _ ih _ hn

/-- What holds all along a search: nothing is marked twice, marked and pending names can be reached, and what is next to
a marked name is not forgotten. -/
structure Sound (next : α → List α) (start : α) (search : Worklist α) : Prop where
  nodup : search.marked.Nodup
  reached : ∀ name, name ∈ search.marked ∨ name ∈ search.pending → Leads next start name
  started : start ∈ search.marked ∨ start ∈ search.pending
  closed : ∀ name ∈ search.marked, ∀ other ∈ next name, other ∈ search.marked ∨ other ∈ search.pending

theorem sound_start (next : α → List α) (start : α) : Sound next start ⟨[], [start]⟩ where
  nodup := List.nodup_nil
  reached name h := by
    obtain rfl : name = start := by simpa using h
    exact .refl
  started := .inr (by simp)
  closed := by simp

theorem Sound.step (h : Sound next start search) (hs : Step next search after) : Sound next start after := by
  cases hs with
  | @again marked pending rest name hp hm =>
    -- the name that is dropped stays marked
    have hkept {other : α} (ho : other ∈ marked ∨ other ∈ pending) : other ∈ marked ∨ other ∈ rest := by
      rcases ho with ho | ho
      · exact .inl ho
      · rcases List.mem_cons.1 (hp.mem_iff.1 ho) with rfl | ho
        · exact .inl hm
        · exact .inr ho
    exact {
      nodup := h.nodup
      reached := fun other ho => h.reached other (ho.imp_right fun ho => hp.mem_iff.2 (.tail _ ho))
      started := hkept h.started
      closed := fun other ho further hf => hkept (h.closed other ho further hf) }
  | @first marked pending rest more name hp hm hmore =>
    have hname : Leads next start name := h.reached name (.inr (hp.mem_iff.2 (.head _)))
    -- a pending name is taken now or later
    have hkept {other : α} (ho : other ∈ marked ∨ other ∈ pending) : other ∈ marked ++ [name] ∨ other ∈ more := by
      rcases ho with ho | ho
      · exact .inl (List.mem_append_left _ ho)
      · rcases List.mem_cons.1 (hp.mem_iff.1 ho) with rfl | ho
        · exact .inl (by simp)
        · exact .inr (hmore.mem_iff.2 (List.mem_append_right _ ho))
    refine ⟨?_, fun other ho => ?_, hkept h.started, fun other ho further hf => ?_⟩
    · have hmarked : marked.Nodup := h.nodup
      exact List.nodup_append.2 ⟨hmarked, by simp, fun a ha b hb he => hm (by simp_all)⟩
    · rcases ho with ho | ho
      · rcases List.mem_append.1 ho with ho | ho
        · exact h.reached other (.inl ho)
        · exact List.mem_singleton.1 ho ▸ hname
      · rcases List.mem_append.1 (hmore.mem_iff.1 ho) with ho | ho
        · exact hname.tail ho
        · exact h.reached other (.inr (hp.mem_iff.2 (.tail _ ho)))
    · rcases List.mem_append.1 ho with ho | ho
      · exact hkept (h.closed other ho further hf)
      · obtain rfl := List.mem_singleton.1 ho
        exact .inr (hmore.mem_iff.2 (List.mem_append_left _ hf))

theorem Sound.runs (h : Sound next start search) (hr : Runs next search after) : Sound next start after := by
  induction hr with
  | refl => exact h
  | tail _ hs ih => exact ih.step hs

/-- When nothing is pending any more the names that can be reached are marked. -/
theorem Sound.mem_iff (h : Sound next start ⟨marked, []⟩) (name : α) : name ∈ marked ↔ Leads next start name := by
  constructor
  · exact fun hm => h.reached name (.inl hm)
  · intro hl
    induction hl with
    | refl => simpa using h.started
    | tail _ hn ih => simpa using h.closed _ ih _ hn

/-! ## The end of a search -/

variable [DecidableEq α]

/-- Each step marks one of the known names or leaves less to be taken. -/
theorem acc_step (hclosed : ∀ name ∈ known, ∀ other ∈ next name, other ∈ known)
    (hp : ∀ name ∈ pending, name ∈ known) :
    Acc (fun after before => Step next before after) ⟨marked, pending⟩ := by
  induction hunmet : (unmet known marked).length using Nat.strongRecOn generalizing marked pending with
  | ind unmarked ihMark =>
    induction hlength : pending.length using Nat.strongRecOn generalizing pending with
    | ind length ihTake =>
      refine .intro _ fun after hs => ?_
      cases hs with
      | @again _ _ rest name hperm hm =>
        have hlt : rest.length < length := by
          have := hperm.length_eq
          rw [List.length_cons] at this
          omega
        exact ihTake _ hlt (fun other ho => hp other (hperm.mem_iff.2 (.tail _ ho))) rfl
      | @first _ _ rest more name hperm hm hmore =>
        have hname : name ∈ known := hp name (hperm.mem_iff.2 (.head _))
        refine ihMark _ (hunmet ▸ unmet_length_lt hname hm) (fun other ho => ?_) rfl
        rcases List.mem_append.1 (hmore.mem_iff.1 ho) with ho | ho
        · exact hclosed name hname other ho
        · exact hp other (hperm.mem_iff.2 (.tail _ ho))

/-- The search that takes what was put there last is one of them. -/
theorem runs_depthFirst (hclosed : ∀ name ∈ known, ∀ other ∈ next name, other ∈ known) {stack met : List α}
    (hs : ∀ name ∈ stack, name ∈ known) :
    Runs next ⟨met, stack⟩ ⟨depthFirst known next stack met, []⟩ := by
  fun_induction depthFirst known next stack met with
  | case1 met => exact .refl
  | case2 met name rest h ih =>
    have hrest : ∀ other ∈ next name ++ rest, other ∈ known := fun other ho =>
      (List.mem_append.1 ho).elim (hclosed name h.1 other) fun ho => hs other (.tail _ ho)
    exact .head (.first (.refl _) h.2 (.refl _)) (ih hrest)
  | case3 met name rest h ih =>
    have hmet : name ∈ met := not_not.1 fun hm => h ⟨hs name (.head _), hm⟩
    exact .head (.again (.refl _) hmet) (ih fun other ho => hs other (.tail _ ho))

/-- No search from a name goes on forever, none gets stuck with something pending, and each that is complete has marked
just some names, none of them twice. -/
structure Finds (next : α → List α) (start : α) (found : α → Prop) : Prop where
  ends : Acc (fun after before => Step next before after) ⟨[], [start]⟩
  completes : ∀ search, Runs next ⟨[], [start]⟩ search → ∃ marked, Runs next search ⟨marked, []⟩
  marks : ∀ marked, Runs next ⟨[], [start]⟩ ⟨marked, []⟩ → marked.Nodup ∧ ∀ name, name ∈ marked ↔ found name

theorem finds_depthFirst (hclosed : ∀ name ∈ known, ∀ other ∈ next name, other ∈ known) (hs : start ∈ known) :
    Finds next start (· ∈ depthFirst known next [start] []) := by
  have hstart : ∀ name ∈ [start], name ∈ known := fun name hm => List.mem_singleton.1 hm ▸ hs
  have hrun : Runs next ⟨[], [start]⟩ ⟨depthFirst known next [start] [], []⟩ := runs_depthFirst hclosed hstart
  refine ⟨acc_step hclosed hstart, fun search hr => ?_, fun marked hr => ?_⟩
  · have hsound := (sound_start next start).runs hr
    exact ⟨_, runs_depthFirst hclosed fun name hm => (hsound.reached name (.inr hm)).mem_known hclosed hs⟩
  · have hsound := (sound_start next start).runs hr
    refine ⟨hsound.nodup, fun name => ?_⟩
    rw [hsound.mem_iff, ((sound_start next start).runs hrun).mem_iff]

end Worklist

/-! ## Searches of the import graph -/

namespace Import

open Worklist

variable {files : List SchemaFile} {start : Nat}

/-- There is a root, and what a file imports is one of the files. -/
structure IsGraph (files : List SchemaFile) : Prop where
  root : 0 < files.length
  target : ∀ file ∈ files, ∀ directive ∈ file.imports, directive.target < files.length

/-- The files that are loaded make up such a graph. -/
theorem LoadedFrom.isGraph {tree : FileTree} {root : Path} (h : LoadedFrom tree root files) : IsGraph files where
  root := by
    refine List.length_pos_iff.2 ?_
    rintro rfl
    cases h.root_first
  target file hf directive hd := by
    rw [h.imports file hf] at hd
    obtain ⟨⟨line, written⟩, hw, hd⟩ := List.mem_filterMap.1 hd
    dsimp only at hd
    split at hd
    · rename_i identity contents hread
      cases hd
      obtain ⟨target, ht, -⟩ := h.target file hf _ (List.mem_map_of_mem hw) _ hread
      exact (List.getElem?_eq_some_iff.1 ht).1
    · cases hd

theorem wholeTargets_subset (files : List SchemaFile) (index : Nat) :
    wholeTargets files index ⊆ targets files index := by
  unfold wholeTargets targets
  cases files[index]? with
  | none => exact List.Subset.refl []
  | some file => exact List.map_subset _ (List.filter_subset_self file.imports)

theorem IsGraph.targets_lt (h : IsGraph files) (index : Nat) {other : Nat} (ho : other ∈ targets files index) :
    other < files.length := by
  unfold targets at ho
  cases hf : files[index]? with
  | none => simp [hf] at ho
  | some file =>
    rw [hf] at ho
    obtain ⟨directive, hd, rfl⟩ := List.mem_map.1 ho
    exact h.target file (List.mem_of_getElem? hf) directive hd

theorem IsGraph.wholeTargets_lt (h : IsGraph files) (index : Nat) {other : Nat}
    (ho : other ∈ wholeTargets files index) : other < files.length :=
  h.targets_lt index (wholeTargets_subset files index ho)

/-- The other files that can be reached are at the end of some imports, not of none. -/
theorem mem_laterFiles_iff_transGen {index : Nat} :
    index ∈ laterFiles files start ↔ index ≠ start ∧ Relation.TransGen (Imports files) start index := by
  rw [mem_laterFiles, Reaches, Relation.reflTransGen_iff_eq_or_transGen]
  exact and_congr_right fun hne => or_iff_right hne

/-- Every search of an import graph ends. The whole files are those at the end of imports of whole files from the root,
and the files that are looked through are the first one and then, in load order, all others behind some imports. -/
theorem searches_exact (h : IsGraph files) :
    (Finds (wholeTargets files) 0 (isWhole files · = true) ∧
      ∀ index, isWhole files index = true ↔ Relation.ReflTransGen (ImportsWhole files) 0 index) ∧
    ∀ start < files.length, Finds (targets files) start (· ∈ reachableFiles files start) ∧
      ∃ others, reachableFiles files start = start :: others ∧ others.Pairwise (· < ·) ∧
        ∀ index, index ∈ others ↔ index ≠ start ∧ Relation.TransGen (Imports files) start index := by
  refine ⟨⟨?_, fun index => ?_⟩, fun start hs => ⟨?_, ?_⟩⟩
  · have hfinds : Finds (wholeTargets files) 0
        (· ∈ depthFirst (List.range files.length) (wholeTargets files) [0] []) :=
      finds_depthFirst (fun index _ other ho => List.mem_range.2 (h.wholeTargets_lt index ho))
        (List.mem_range.2 h.root)
    simpa only [isWhole, List.contains_iff_mem, wholeFiles] using hfinds
  · rw [isWhole_iff, Whole]
    refine ⟨fun hw => hw.2, fun hr => ⟨?_, hr⟩⟩
    rcases Relation.ReflTransGen.cases_tail hr with rfl | ⟨_, -, _, -, _, -, -, -, hlt⟩
    · exact h.root
    · exact hlt
  · have hfinds : Finds (targets files) start
        (· ∈ depthFirst (List.range files.length) (targets files) [start] []) :=
      finds_depthFirst (fun index _ other ho => List.mem_range.2 (h.targets_lt index ho)) (List.mem_range.2 hs)
    have hmem (index : Nat) : index ∈ reachableFiles files start ↔
        index ∈ depthFirst (List.range files.length) (targets files) [start] [] := by
      rw [mem_reachableFiles, mem_depthFirst_range fun _ _ => mem_targets]
      refine ⟨fun hr => ⟨hs, ?_, hr⟩, fun hr => hr.2.2⟩
      exact (lt_length_of_reaches hr).elim (· ▸ hs) id
    simpa only [hmem] using hfinds
  · exact ⟨laterFiles files start, reachableFiles_eq_cons, laterFiles_pairwise, fun _ => mem_laterFiles_iff_transGen⟩

/-- A root that imports itself, a file twice as a whole and another one by name; the first of these imports the root, and
the other one a fourth file as a whole. -/
def knottedFiles : List SchemaFile :=
  [⟨⟨"a"⟩, ["a"], "", [], [⟨0, .wholeFile, ⟨1, 1⟩⟩, ⟨1, .wholeFile, ⟨2, 1⟩⟩, ⟨1, .wholeFile, ⟨3, 1⟩⟩,
      ⟨2, .types [("Book", .all)], ⟨4, 1⟩⟩]⟩,
    ⟨⟨"b"⟩, ["b"], "", [], [⟨0, .wholeFile, ⟨1, 1⟩⟩]⟩,
    ⟨⟨"c"⟩, ["c"], "", [], [⟨3, .wholeFile, ⟨1, 1⟩⟩]⟩,
    ⟨⟨"d"⟩, ["d"], "", [], []⟩]

theorem knottedFiles_searched : IsGraph knottedFiles ∧
    Relation.ReflTransGen (ImportsWhole knottedFiles) 0 1 ∧
    ¬ Relation.ReflTransGen (ImportsWhole knottedFiles) 0 3 ∧
    1 < knottedFiles.length ∧ reachableFiles knottedFiles 1 = [1, 0, 2, 3] ∧
    Relation.TransGen (Imports knottedFiles) 1 3 := by
  have hgraph : IsGraph knottedFiles := ⟨by decide, by decide⟩
  obtain ⟨⟨-, hwhole⟩, hreach⟩ := searches_exact hgraph
  obtain ⟨-, others, heq, -, hothers⟩ := hreach 1 (by decide)
  have hlist : reachableFiles knottedFiles 1 = [1, 0, 2, 3] := by cbv
  obtain rfl : others = [0, 2, 3] := (List.cons.inj (heq.symm.trans hlist)).2
  refine ⟨hgraph, (hwhole 1).1 (by cbv), fun h => ?_, by decide, hlist, ((hothers 3).1 (by simp)).2⟩
  have hnot : isWhole knottedFiles 3 = false := by cbv
  rw [(hwhole 3).2 h] at hnot
  cases hnot

end Import

end SchemaFragments
