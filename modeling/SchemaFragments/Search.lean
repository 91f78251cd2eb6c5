/-!
# Depth first search

Search with an explicit stack over the names of a finite list: one that is known and was not met before is
appended to those met, and the names next to it go onto the stack.
-/

namespace SchemaFragments

variable {α : Type}

/-- What names bring to a stack: those next to each, and one for the name itself. -/
def workload (next : α → List α) : List α → Nat
  | [] => 0
  | name :: names => (next name).length + 1 + workload next names

variable [DecidableEq α]

/-- The names that are still to be met. -/
def unmet (known met : List α) : List α := known.filter (· ∉ met)

theorem unmet_append (known met : List α) (name : α) :
    unmet known (met ++ [name]) = (unmet known met).filter (· ≠ name) := by
  simp only [unmet, List.filter_filter]
  congr 1
  funext x
  by_cases hx : x = name <;> simp [hx]

theorem mem_unmet {known met : List α} {name : α} (hk : name ∈ known) (hm : name ∉ met) :
    name ∈ unmet known met := by
  simp [unmet, hk, hm]

theorem unmet_length_lt {known met : List α} {name : α} (hk : name ∈ known) (hm : name ∉ met) :
    (unmet known (met ++ [name])).length < (unmet known met).length := by
  rw [unmet_append]
  exact List.length_filter_lt_length_iff_exists.2 ⟨name, mem_unmet hk hm, by simp⟩

theorem workload_filter_le (next : α → List α) (names : List α) (name : α) :
    workload next (names.filter (· ≠ name)) ≤ workload next names := by
  induction names with
  | nil => exact Nat.le_refl _
  | cons other names ih =>
    rw [List.filter_cons, workload]
    split
    · rw [workload]
      omega
    · omega

theorem workload_filter_lt (next : α → List α) {names : List α} {name : α} (h : name ∈ names) :
    (next name).length + workload next (names.filter (· ≠ name)) < workload next names := by
  induction names with
  | nil => cases h
  | cons other names ih =>
    rw [List.filter_cons, workload]
    by_cases he : other = name
    · have := workload_filter_le next names name
      rw [if_neg (by simp [he]), he]
      omega
    · have := ih (by simpa [Ne.symm he] using h)
      rw [if_pos (by simp [he]), workload]
      omega

/-- Appends to the names met what is found from those on the stack. -/
def depthFirst (known : List α) (next : α → List α) (stack met : List α) : List α :=
  match stack with
  | [] => met
  | name :: rest =>
    if name ∈ known ∧ name ∉ met then depthFirst known next (next name ++ rest) (met ++ [name])
    else depthFirst known next rest met
termination_by stack.length + workload next (unmet known met)
decreasing_by
  · rename_i h
    have := workload_filter_lt next (mem_unmet h.1 h.2)
    rw [unmet_append, List.length_append, List.length_cons]
    omega
  · rw [List.length_cons]
    omega

end SchemaFragments
