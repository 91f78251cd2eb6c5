import SchemaFragments.Proofs.Search
import SchemaFragments.Schema.Basic
import SchemaFragments.Schema.Discovery
/-!
# Discovery as a recursive walk

A name is visited by appending it and then visiting what is written in its type. The order of discovery, which a
search with a stack builds, is that of this walk, and what can be reached from the roots comes first in it.
-/

namespace SchemaFragments

open Document

/-! ## The walk -/

/-- The names that have a meaning: those of the declared types and the built-in scalars. -/
abbrev knownNames (declared : List TypeDefinition) : List String := declared.map (·.name) ++ builtInScalars

theorem mem_map_name_of_find? {declared : List TypeDefinition} {name : String} {type : TypeDefinition}
    (h : declared.find? (·.name == name) = some type) : name ∈ declared.map (·.name) :=
  List.mem_map.2 ⟨type, List.mem_of_find?_eq_some h, by simpa using List.find?_some h⟩

/-- The names visited at a later time. A visit only ever appends, which is why the walk ends. -/
abbrev VisitedAfter (visited : List String) := { later : List String // visited <+: later }

/-- A call after more visits, or after as many and smaller itself. -/
theorem lex_of_le {fewer more : Nat} {call caller : Nat × Nat} (h : fewer ≤ more)
    (hcall : Prod.Lex (· < ·) (· < ·) call caller) :
    Prod.Lex (· < ·) (Prod.Lex (· < ·) (· < ·)) (fewer, call) (more, caller) := by
  rcases Nat.lt_or_eq_of_le h with h | rfl
  · exact .left _ _ h
  · exact .right _ hcall

-- Behind a new name there is one name fewer to be met. Until the next one is reached the second number falls from
-- a body over its fields and lists of names to a name.
mutual

/-- Visits a name. Nothing happens where it was visited before or has no meaning; else it is appended and what
is written in its type is visited. -/
def visit (declared : List TypeDefinition) (visited : List String) (name : String) : VisitedAfter visited :=
  if _ : name ∈ visited then ⟨visited, List.prefix_rfl⟩
  else match _ : declared.find? (·.name == name) with
    | some type =>
      let found := visitBody declared (visited ++ [name]) type.body
      ⟨found, (List.prefix_append _ _).trans found.2⟩
    | none =>
      if name ∈ builtInScalars then ⟨visited ++ [name], List.prefix_append _ _⟩
      else ⟨visited, List.prefix_rfl⟩
termination_by ((unmet (knownNames declared) visited).length, 0, 0)
decreasing_by exact .left _ _ (unmet_length_lt (List.mem_append_left _ (mem_map_name_of_find? ‹_›)) ‹_›)

/-- Visits the interfaces of a type and then its fields, the members of a union, or the types of input fields. -/
def visitBody (declared : List TypeDefinition) (visited : List String) : TypeBody → VisitedAfter visited
  | .scalar | .enum _ => ⟨visited, List.prefix_rfl⟩
  | .object interfaces fields | .interface interfaces fields =>
    let first := visitAll declared visited interfaces
    let others := visitFields declared first fields
    ⟨others, first.2.trans others.2⟩
  | .union members => visitAll declared visited members
  | .inputObject fields => visitAll declared visited (fields.map (·.type.target))
termination_by ((unmet (knownNames declared) visited).length, 3, 0)
decreasing_by
  all_goals first
    | exact .right _ (.left _ _ (by decide))
    | exact lex_of_le (unmet_length_le first.2) (.left _ _ (by decide))

/-- Visits fields one after the other, of each the types of its arguments and then its own type. -/
def visitFields (declared : List TypeDefinition) (visited : List String) : List Field → VisitedAfter visited
  | [] => ⟨visited, List.prefix_rfl⟩
  | field :: fields =>
    let arguments := visitAll declared visited (field.arguments.map (·.type.target))
    let own := visit declared arguments field.type.target
    let others := visitFields declared own fields
    ⟨others, (arguments.2.trans own.2).trans others.2⟩
termination_by fields => ((unmet (knownNames declared) visited).length, 2, fields.length)
decreasing_by
  · exact .right _ (.left _ _ (by decide))
  · exact lex_of_le (unmet_length_le arguments.2) (.left _ _ (by decide))
  · exact lex_of_le (unmet_length_le (arguments.2.trans own.2)) (.right _ (Nat.lt_succ_self _))

/-- Visits names one after the other. -/
def visitAll (declared : List TypeDefinition) (visited : List String) : List String → VisitedAfter visited
  | [] => ⟨visited, List.prefix_rfl⟩
  | name :: names =>
    let first := visit declared visited name
    let others := visitAll declared first names
    ⟨others, first.2.trans others.2⟩
termination_by names => ((unmet (knownNames declared) visited).length, 1, names.length)
decreasing_by
  · exact .right _ (.left _ _ (by decide))
  · exact lex_of_le (unmet_length_le first.2) (.right _ (Nat.lt_succ_self _))

end

section Walk

variable {declared : List TypeDefinition} {visited names : List String} {name : String} {field : Field}
  {fields : List Field}

theorem visit_of_visited (h : name ∈ visited) : (visit declared visited name).1 = visited := by
  rw [visit, dif_pos h]

theorem visit_of_type {type : TypeDefinition} (hf : declared.find? (·.name == name) = some type)
    (hv : name ∉ visited) :
    (visit declared visited name).1 = visitBody declared (visited ++ [name]) type.body := by
  rw [visit, dif_neg hv]
  split
  · rename_i other ho
    obtain rfl := Option.some.inj (hf.symm.trans ho)
    rfl
  · rename_i hn
    cases hf.symm.trans hn

theorem visit_of_no_type (hf : declared.find? (·.name == name) = none) (hv : name ∉ visited) :
    (visit declared visited name).1 = if name ∈ builtInScalars then visited ++ [name] else visited := by
  rw [visit, dif_neg hv]
  split
  · rename_i type ht
    cases hf.symm.trans ht
  · split <;> rfl

theorem visitFields_nil : (visitFields declared visited []).1 = visited := by
  rw [visitFields]

theorem visitFields_cons : (visitFields declared visited (field :: fields)).1 =
    visitFields declared (visit declared (visitAll declared visited (field.arguments.map (·.type.target)))
      field.type.target) fields := by
  rw [visitFields]

theorem visitAll_nil : (visitAll declared visited []).1 = visited := by
  rw [visitAll]

theorem visitAll_cons : (visitAll declared visited (name :: names)).1 =
    visitAll declared (visit declared visited name) names := by
  rw [visitAll]

end Walk

/-! ## The search -/

/-- The search behind the order of discovery, from any stack and after any visits. -/
abbrev discover (declared : List TypeDefinition) (stack visited : List String) : List String :=
  depthFirst (knownNames declared) (referencesOf declared) stack visited

theorem referencesOf_of_find? {declared : List TypeDefinition} {name : String} :
    referencesOf declared name = ((declared.find? (·.name == name)).map (·.references)).getD [] := rfl

/-- With names on top of its stack, a search first does what visiting them does, and so it is with what is
written in a type and in fields. The induction follows the walk, and what is below on the stack is left for
later. -/
theorem discover_eq_visit (declared : List TypeDefinition) :
    (∀ visited name stack, discover declared (name :: stack) visited =
      discover declared stack (visit declared visited name)) ∧
    (∀ visited body stack, discover declared (TypeBody.references body ++ stack) visited =
      discover declared stack (visitBody declared visited body)) ∧
    (∀ visited fields stack, discover declared (fields.flatMap Field.references ++ stack) visited =
      discover declared stack (visitFields declared visited fields)) ∧
    ∀ visited names stack, discover declared (names ++ stack) visited =
      discover declared stack (visitAll declared visited names) := by
  apply visit.mutual_induct
  case case1 =>
    intro visited name hv stack
    rw [visit_of_visited hv]
    exact depthFirst_of_skip fun h => h.2 hv
  case case2 =>
    intro visited name hv type hf ih stack
    have hnext : referencesOf declared name = type.body.references := by rw [referencesOf_of_find?, hf]; rfl
    rw [visit_of_type hf hv, ← ih, ← hnext]
    exact depthFirst_of_new (List.mem_append_left _ (mem_map_name_of_find? hf)) hv
  case case3 =>
    intro visited name hv hf hb stack
    have hnext : referencesOf declared name = [] := by rw [referencesOf_of_find?, hf]; rfl
    rw [visit_of_no_type hf hv, if_pos hb, discover, depthFirst_of_new (List.mem_append_right _ hb) hv, hnext]
    rfl
  case case4 =>
    intro visited name hv hf hb stack
    rw [visit_of_no_type hf hv, if_neg hb]
    -- a name without a meaning: neither declared nor built in
    refine depthFirst_of_skip fun h => ?_
    rcases List.mem_append.1 h.1 with hd | hb'
    · obtain ⟨type, ht, he⟩ := List.mem_map.1 hd
      exact List.find?_eq_none.1 hf type ht (by simpa using he)
    · exact hb hb'
  case case5 | case6 =>
    intros
    rw [visitBody]
    rfl
  case case7 | case8 =>
    intro visited interfaces fields first ihinterfaces _ ihfields stack
    rw [TypeBody.references, List.append_assoc, ihinterfaces, ihfields, visitBody]
  case case9 =>
    intro visited members ih stack
    rw [TypeBody.references, ih, visitBody]
  case case10 =>
    intro visited fields ih stack
    rw [TypeBody.references, ih, visitBody]
  case case11 =>
    intro visited stack
    rw [visitFields_nil, List.flatMap_nil, List.nil_append]
  case case12 =>
    -- the type of a field waits on the stack behind those of its arguments
    intro visited field fields arguments own iharguments _ ihown _ ihfields stack
    rw [List.flatMap_cons, Field.references, List.append_assoc, List.append_assoc, iharguments,
      List.singleton_append, ihown, ihfields, visitFields_cons]
  case case13 =>
    intro visited stack
    rw [visitAll_nil, List.nil_append]
  case case14 =>
    intro visited name names first ihname _ ihnames stack
    -- the names behind the first wait on the stack while it is visited
    rw [List.cons_append, ihname, visitAll_cons]
    exact ihnames stack

theorem discover_eq_visitAll (declared : List TypeDefinition) (visited names : List String) :
    discover declared names visited = visitAll declared visited names := by
  obtain ⟨-, -, -, hall⟩ := discover_eq_visit declared
  have h := hall visited names []
  rw [List.append_nil] at h
  rw [h, discover, depthFirst]

theorem discover_append (declared : List TypeDefinition) (visited names stack : List String) :
    discover declared (names ++ stack) visited = discover declared stack (discover declared names visited) := by
  obtain ⟨-, -, -, hall⟩ := discover_eq_visit declared
  rw [discover_eq_visitAll declared visited names]
  exact hall visited names stack

/-! ## What comes first -/

/-- A name is written in a type: as an interface, as the type of a field, of an argument or of an input field, or
as a member. -/
def Mentions (name : String) : TypeBody → Prop
  | .scalar | .enum _ => False
  | .object interfaces fields | .interface interfaces fields =>
    name ∈ interfaces ∨ ∃ field ∈ fields,
      name = field.type.target ∨ ∃ argument ∈ field.arguments, name = argument.type.target
  | .union members => name ∈ members
  | .inputObject fields => ∃ field ∈ fields, name = field.type.target

theorem mem_references_iff {name : String} {body : TypeBody} : name ∈ body.references ↔ Mentions name body := by
  cases body <;> simp [TypeBody.references, Field.references, Mentions, eq_comm, or_comm]

/-- A root, or what is written in a reachable type; names without a meaning are not reachable. -/
inductive Reachable (roots : List String) (declared : List TypeDefinition) : String → Prop
  | root {name : String} : name ∈ roots → name ∈ knownNames declared → Reachable roots declared name
  | reference {name other : String} {type : TypeDefinition} : Reachable roots declared name →
      declared.find? (·.name == name) = some type → Mentions other type.body → other ∈ knownNames declared →
      Reachable roots declared other

theorem mem_referencesOf_iff {declared : List TypeDefinition} {name other : String} :
    other ∈ referencesOf declared name ↔
      ∃ type, declared.find? (·.name == name) = some type ∧ Mentions other type.body := by
  rw [referencesOf_of_find?]
  cases declared.find? (·.name == name) with
  | none => simp
  | some type => simp [TypeDefinition.references, mem_references_iff]

theorem foundFrom_iff_reachable {roots : List String} {declared : List TypeDefinition} {name : String} :
    FoundFrom (knownNames declared) (referencesOf declared) roots [] name ↔ Reachable roots declared name := by
  constructor
  · intro h
    induction h with
    | start hr hk => exact .root hr hk
    | step _ hn hk _ ih =>
      obtain ⟨type, hf, hm⟩ := mem_referencesOf_iff.1 hn
      exact .reference ih hf hm hk
  · intro h
    induction h with
    | root hr hk => exact .start hr hk (by simp)
    | reference _ hf hm hk ih => exact .step ih (mem_referencesOf_iff.2 ⟨_, hf, hm⟩) hk (by simp)

theorem mem_discover_iff {roots : List String} {declared : List TypeDefinition} {name : String} :
    name ∈ discover declared roots [] ↔ Reachable roots declared name :=
  mem_depthFirst.trans foundFrom_iff_reachable

theorem Roots.names_eq (roots : Roots) :
    roots.names = roots.query.toList ++ roots.mutation.toList ++ roots.subscription.toList := by
  obtain ⟨query, mutation, subscription⟩ := roots
  cases query <;> cases mutation <;> cases subscription <;> rfl

/-- The search is one from the roots, and then one from all that follows them on the stack. -/
theorem discoveryOrder_eq_append (roots : List String) (declared : List TypeDefinition) :
    ∃ others, discoveryOrder roots declared = discover declared roots [] ++ others ∧
      ∀ name ∈ others, ¬ Reachable roots declared name := by
  have hsplit : discoveryOrder roots declared =
      discover declared (declared.map (·.name) ++ builtInScalars) (discover declared roots []) := by
    rw [← discover_append, ← List.append_assoc]
    rfl
  obtain ⟨others, he, -, ho⟩ := depthFirst_eq_append (knownNames declared) (referencesOf declared)
    (declared.map (·.name) ++ builtInScalars) (discover declared roots [])
  exact ⟨others, hsplit.trans he, fun name hn hr => ((ho name).1 hn).not_met (mem_discover_iff.2 hr)⟩

/-- The order of discovery is that of the walk which visits the query, mutation and subscription roots, then
the declared types, then the built-in scalars. What can be reached from the roots comes before all else. -/
theorem discoveryOrder_eq_visitAll (roots : Roots) (declared : List TypeDefinition) :
    discoveryOrder roots.names declared =
      visitAll declared [] (roots.query.toList ++ roots.mutation.toList ++ roots.subscription.toList ++
        declared.map (·.name) ++ builtInScalars) ∧
    ∃ reached others, discoveryOrder roots.names declared = reached ++ others ∧
      (∀ name, name ∈ reached ↔ Reachable roots.names declared name) ∧
      ∀ name ∈ others, ¬ Reachable roots.names declared name := by
  refine ⟨by rw [← Roots.names_eq, ← discover_eq_visitAll]; rfl, ?_⟩
  obtain ⟨others, he, ho⟩ := discoveryOrder_eq_append roots.names declared
  exact ⟨discover declared roots.names [], others, he, fun name => mem_discover_iff, ho⟩

/-- Shared, missing and back references: `B` is met through `A` before its own turn, `Gone` never. -/
example : discoveryOrder ["A"] [⟨⟨1, 1⟩, none, "C", [], .union ["A", "C"]⟩, ⟨⟨2, 1⟩, none, "B", [], .union ["A", "Gone"]⟩,
    ⟨⟨3, 1⟩, none, "A", [], .union ["B", "ID", "B"]⟩] =
    ["A", "B", "ID", "C", "String", "Int", "Float", "Boolean"] := by decide +kernel

end SchemaFragments
