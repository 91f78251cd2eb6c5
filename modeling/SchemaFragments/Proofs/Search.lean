import SchemaFragments.Search
/-!
# What a search finds

`depthFirst` appends to the names met exactly the known ones that a way leads to from the stack, each
once. Ways do not go through names that were met before the search.
-/

namespace SchemaFragments

variable {α : Type} {known : List α} {next : α → List α} {stack met : List α} {name other : α}

/-- A way leads from the stack to a name, and all names on it are known and were not met before. -/
inductive FoundFrom (known : List α) (next : α → List α) (stack met : List α) : α → Prop
  | start {name : α} : name ∈ stack → name ∈ known → name ∉ met → FoundFrom known next stack met name
  | step {before name : α} : FoundFrom known next stack met before → name ∈ next before → name ∈ known →
      name ∉ met → FoundFrom known next stack met name

namespace FoundFrom

theorem mem_known (h : FoundFrom known next stack met name) : name ∈ known := by
  cases h <;> assumption

theorem not_met (h : FoundFrom known next stack met name) : name ∉ met := by
  cases h <;> assumption

theorem mono {stack' met' : List α} (h : FoundFrom known next stack met name)
    (hs : ∀ x ∈ stack, FoundFrom known next stack met x → FoundFrom known next stack' met' x)
    (hm : ∀ x ∈ met', x ∈ met) : FoundFrom known next stack' met' name := by
  induction h with
  | start hx hk hn => exact hs _ hx (.start hx hk hn)
  | step _ hx hk hn ih => exact .step ih hx hk (fun h => hn (hm _ h))

theorem of_nil : ¬ FoundFrom known next [] met name := by
  intro h
  induction h with
  | start hx => cases hx
  | step _ _ _ _ ih => exact ih

/-- A name on top of the stack that is met already, or unknown, changes nothing. -/
theorem cons_iff_of_skip (h : ¬ (name ∈ known ∧ name ∉ met)) :
    FoundFrom known next (name :: stack) met other ↔ FoundFrom known next stack met other := by
  constructor
  · intro hf
    refine hf.mono (fun x hx hfx => ?_) (fun _ h => h)
    rcases List.mem_cons.1 hx with rfl | hx
    · exact absurd ⟨hfx.mem_known, hfx.not_met⟩ h
    · exact .start hx hfx.mem_known hfx.not_met
  · exact fun hf => hf.mono (fun x hx hfx => .start (List.mem_cons_of_mem _ hx) hfx.mem_known hfx.not_met)
      (fun _ h => h)

/-- A new name on top of the stack is found, and then what is found once it is met. -/
theorem cons_iff_of_new (hk : name ∈ known) (hm : name ∉ met) :
    FoundFrom known next (name :: stack) met other ↔
      other = name ∨ FoundFrom known next (next name ++ stack) (met ++ [name]) other := by
  have hname : FoundFrom known next (name :: stack) met name := .start (by simp) hk hm
  constructor
  · intro hf
    induction hf with
    | @start x hx hxk hxm =>
      by_cases he : x = name
      · exact .inl he
      · have hx' : x ∈ stack := by simpa [he] using hx
        exact .inr (.start (List.mem_append_right _ hx') hxk (by simp [hxm, he]))
    | @step y x _ hx hxk hxm ih =>
      by_cases he : x = name
      · exact .inl he
      · have hxm' : x ∉ met ++ [name] := by simp [hxm, he]
        rcases ih with rfl | ih
        · exact .inr (.start (List.mem_append_left _ hx) hxk hxm')
        · exact .inr (.step ih hx hxk hxm')
  · rintro (rfl | hf)
    · exact hname
    · refine hf.mono (fun x hx hfx => ?_) (fun x hx => List.mem_append_left _ hx)
      have hxm : x ∉ met := fun h => hfx.not_met (List.mem_append_left _ h)
      rcases List.mem_append.1 hx with hx | hx
      · exact .step hname hx hfx.mem_known hxm
      · exact .start (List.mem_cons_of_mem _ hx) hfx.mem_known hxm

end FoundFrom

variable [DecidableEq α]

/-- A search appends to the names met, once each, those that it finds. -/
theorem depthFirst_eq_append (known : List α) (next : α → List α) (stack met : List α) :
    ∃ found, depthFirst known next stack met = met ++ found ∧ found.Nodup ∧
      ∀ name, name ∈ found ↔ FoundFrom known next stack met name := by
  fun_induction depthFirst known next stack met with
  | case1 met =>
    exact ⟨[], by simp, by simp, fun name => by simp [FoundFrom.of_nil]⟩
  | case2 met name rest h ih =>
    obtain ⟨found, he, hn, hf⟩ := ih
    refine ⟨name :: found, by simp [he], ?_, fun other => ?_⟩
    · refine List.nodup_cons.2 ⟨fun hm => ?_, hn⟩
      exact ((hf name).1 hm).not_met (by simp)
    · rw [List.mem_cons, hf, FoundFrom.cons_iff_of_new h.1 h.2]
  | case3 met name rest h ih =>
    obtain ⟨found, he, hn, hf⟩ := ih
    exact ⟨found, he, hn, fun other => by rw [hf, FoundFrom.cons_iff_of_skip h]⟩

theorem depthFirst_of_new (hk : name ∈ known) (hm : name ∉ met) :
    depthFirst known next (name :: stack) met = depthFirst known next (next name ++ stack) (met ++ [name]) := by
  rw [depthFirst, if_pos ⟨hk, hm⟩]

theorem depthFirst_of_skip (h : ¬ (name ∈ known ∧ name ∉ met)) :
    depthFirst known next (name :: stack) met = depthFirst known next stack met := by
  rw [depthFirst, if_neg h]

theorem unmet_length_le {met' : List α} (h : met <+: met') :
    (unmet known met').length ≤ (unmet known met).length := by
  unfold unmet
  rw [← List.countP_eq_length_filter, ← List.countP_eq_length_filter]
  refine List.countP_mono_left fun name _ hn => ?_
  simp only [decide_eq_true_eq] at hn ⊢
  exact fun hm => hn (h.subset hm)

theorem mem_depthFirst : name ∈ depthFirst known next stack [] ↔ FoundFrom known next stack [] name := by
  obtain ⟨found, he, -, hf⟩ := depthFirst_eq_append known next stack []
  rw [he, List.nil_append, hf]

end SchemaFragments
