import SchemaFragments.Proofs.Merging
/-!
# Gathered roots

Merging definitions one after the other comes to the same as keeping the first definition of each root and adding
to it, all at once, what the later ones have: `foldl_emit_eq`.
-/

namespace SchemaFragments.Import

open Document

/-! ## What is new to a list -/

section New

variable {α : Type} (same : α → α → Bool)

/-- The items that are the same neither as one that is there nor as an earlier one of them. -/
def newTo (items more : List α) : List α :=
  (more.filter fun item => !items.any (same · item)).eraseDupsBy fun later earlier => same earlier later

/-- Items are appended one after the other unless the same one is there. -/
theorem foldl_addNew (items more : List α) :
    more.foldl (fun items item => if items.any (same · item) then items else items ++ [item]) items =
      items ++ newTo same items more := by
  induction more generalizing items with
  | nil => simp [newTo]
  | cons item more ih =>
    rw [List.foldl_cons, ih]
    by_cases hany : items.any (same · item) = true
    · rw [if_pos hany, newTo, newTo, List.filter_cons_of_neg (by simpa using hany)]
    · have hnew : (item :: more).filter (fun item => !items.any (same · item)) =
          item :: more.filter fun item => !items.any (same · item) :=
        List.filter_cons_of_pos (by simpa using hany)
      rw [if_neg hany, newTo, newTo, hnew, List.eraseDupsBy_cons, List.filter_filter, List.append_assoc,
        List.singleton_append]
      congr 4
      funext other
      simp [Bool.and_comm]

theorem append_newTo_append (items more later : List α) : items ++ newTo same items (more ++ later) =
    items ++ newTo same items more ++ newTo same (items ++ newTo same items more) later := by
  rw [← foldl_addNew, List.foldl_append, foldl_addNew, foldl_addNew]

/-- None is lost up to those that are the same. -/
theorem exists_same_append_newTo (hrefl : ∀ item, same item item = true) {items more : List α} {item : α}
    (h : item ∈ items ++ more) : ∃ kept ∈ items ++ newTo same items more, same kept item = true := by
  induction more using List.reverseRecOn with
  | nil => exact ⟨item, List.mem_append_left _ (by simpa using h), hrefl item⟩
  | append_singleton more last ih =>
    rw [append_newTo_append]
    rw [← List.append_assoc, List.mem_append, List.mem_singleton] at h
    rcases h with h | rfl
    · obtain ⟨kept, hkept, hsame⟩ := ih h
      exact ⟨kept, List.mem_append_left _ hkept, hsame⟩
    · rw [← foldl_addNew _ _ [item], List.foldl_cons, List.foldl_nil]
      split
      · exact List.any_eq_true.1 ‹_›
      · exact ⟨item, by simp, hrefl item⟩

end New

def sameField (a b : Field) : Bool := a.name == b.name

theorem mergeFields_eq (fields more : List Field) :
    mergeFields fields more = fields ++ newTo sameField fields more :=
  foldl_addNew sameField fields more

theorem mergeNames_eq (names more : List String) : mergeNames names more = names ++ newTo (· == ·) names more := by
  rw [← foldl_addNew, mergeNames, FieldFilter.addNames]
  congr 1
  funext names name
  have hany : names.contains name = names.any (· == name) := by
    rw [List.contains_eq_any_beq]
    congr 1
    funext other
    exact Bool.beq_comm
  rw [hany]

/-! ## Object types of roots -/

variable {roots : List String} {definitions : List Origin} {origin next first : Origin} {name : String}

def interfacesOf (origin : Origin) : List String := ((objectParts? origin.2).map (·.2.1)).getD []

def fieldsOf (origin : Origin) : List Field := ((objectParts? origin.2).map (·.2.2)).getD []

/-- The root that a definition is an object type of. -/
def rootName? (roots : List String) (origin : Origin) : Option String :=
  ((objectParts? origin.2).map (·.1)).filter (roots.contains ·)

/-- A definition with the fields and interfaces that another one adds. -/
def addParts (origin later : Origin) : Origin :=
  (origin.1, mergeObject (interfacesOf later) (fieldsOf later) origin.2)

theorem rootName?_eq_some_iff :
    rootName? roots origin = some name ↔ name ∈ roots ∧ isObjectNamed name origin.2 = true := by
  rw [rootName?, isObjectNamed, Option.filter_eq_some_iff]
  cases objectParts? origin.2 with
  | none => simp
  | some parts =>
    simp only [Option.map_some, Option.some.injEq, List.contains_eq_mem, decide_eq_true_eq, Option.any_some, beq_iff_eq]
    exact and_comm

theorem objectParts?_mergeObject (interfaces : List String) (fields : List Field) (definition : Definition) :
    objectParts? (mergeObject interfaces fields definition) =
      (objectParts? definition).map fun (name, interfaces', fields') =>
        (name, mergeNames interfaces' interfaces, mergeFields fields' fields) := by
  cases definition with
  | type type =>
    obtain ⟨position, description, name, directives, body⟩ := type
    cases body <;> rfl
  | schema | extension | directive => rfl

@[simp] theorem isObjectNamed_addParts (origin later : Origin) :
    isObjectNamed name (addParts origin later).2 = isObjectNamed name origin.2 := by
  rw [isObjectNamed, isObjectNamed, addParts, objectParts?_mergeObject]
  cases objectParts? origin.2 <;> rfl

theorem interfacesOf_addParts (h : isObjectNamed name origin.2 = true) (later : Origin) :
    interfacesOf (addParts origin later) =
      interfacesOf origin ++ newTo (· == ·) (interfacesOf origin) (interfacesOf later) := by
  rw [isObjectNamed] at h
  rw [interfacesOf, addParts, objectParts?_mergeObject, interfacesOf.eq_def origin]
  cases hparts : objectParts? origin.2 with
  | none => simp [hparts] at h
  | some parts => exact mergeNames_eq _ _

theorem fieldsOf_addParts (h : isObjectNamed name origin.2 = true) (later : Origin) :
    fieldsOf (addParts origin later) = fieldsOf origin ++ newTo sameField (fieldsOf origin) (fieldsOf later) := by
  rw [isObjectNamed] at h
  rw [fieldsOf, addParts, objectParts?_mergeObject, fieldsOf.eq_def origin]
  cases hparts : objectParts? origin.2 with
  | none => simp [hparts] at h
  | some parts => exact mergeFields_eq _ _

/-- An object type of a root goes into the definition of that root, if there is one, and all else is appended. -/
theorem emit_eq (roots : List String) (emitted : List Origin) (next : Origin) : emit roots emitted next =
    match (rootName? roots next).bind fun name => emitted.findIdx? (isObjectNamed name ·.2) with
    | some index => emitted.modify index (addParts · next)
    | none => emitted ++ [next] := by
  unfold emit
  cases hparts : objectParts? next.2 with
  | none => simp [rootName?, hparts]
  | some parts =>
    obtain ⟨name, interfaces, fields⟩ := parts
    have hname : rootName? roots next = if name ∈ roots then some name else none := by
      rw [rootName?, hparts, Option.map_some, Option.filter_some, List.contains_eq_mem]
      simp
    have hadd (origin : Origin) : addParts origin next = (origin.1, mergeObject interfaces fields origin.2) := by
      simp [addParts, interfacesOf, fieldsOf, hparts]
    rw [hname]
    by_cases hroot : name ∈ roots
    · cases hfound : emitted.findIdx? (isObjectNamed name ·.2) <;> simp [hroot, hfound, hadd]
    · have hnone : emitted.findIdx? (fun _ => false) = none := List.findIdx?_eq_none_iff.2 fun _ _ => rfl
      simp [hroot, hnone]

/-! ## All definitions of a root -/

/-- The object types with a name. -/
def ofRoot (name : String) (definitions : List Origin) : List Origin := definitions.filter (isObjectNamed name ·.2)

/-- The definitions without the object types of roots that have an earlier one. -/
def firsts (roots : List String) (definitions : List Origin) : List Origin :=
  definitions.eraseDupsBy fun later earlier =>
    (rootName? roots later).isSome && rootName? roots later == rootName? roots earlier

/-- A first definition with all that the later ones of its root add. -/
def gathered (roots : List String) (definitions : List Origin) (first : Origin) : Origin :=
  match rootName? roots first with
  | none => first
  | some name => (ofRoot name definitions).tail.foldl addParts first

theorem eraseDupsBy_concat {α : Type} {r : α → α → Bool} (htrans : ∀ a b c, r a b = true → r b c = true → r a c = true)
    (items : List α) (last : α) :
    (items ++ [last]).eraseDupsBy r = items.eraseDupsBy r ++ if items.any (r last) then [] else [last] := by
  induction hlength : items.length using Nat.strong_induction_on generalizing items with
  | _ length ih =>
    cases items with
    | nil => rfl
    | cons item items =>
      have hle := List.length_filter_le (fun other => decide (r other item = false)) items
      rw [List.length_cons] at hlength
      rw [List.cons_append, List.eraseDupsBy_cons, List.eraseDupsBy_cons, List.filter_append, List.any_cons,
        List.cons_append]
      cases hitem : r last item with
      | true => simp [hitem]
      | false =>
        -- what was erased because of the item is not the same as the last one, which the item is not
        have hany : (items.filter fun other => decide (r other item = false)).any (r last) = items.any (r last) := by
          rw [Bool.eq_iff_iff, List.any_eq_true, List.any_eq_true]
          constructor
          · rintro ⟨other, ho, hr⟩
            exact ⟨other, List.mem_of_mem_filter ho, hr⟩
          · rintro ⟨other, ho, hr⟩
            refine ⟨other, List.mem_filter.2 ⟨ho, ?_⟩, hr⟩
            by_contra hsame
            have hlast := htrans last other item hr (by simpa using hsame)
            rw [hitem] at hlast
            cases hlast
        have hrest := ih _ (by omega) (items.filter fun other => decide (r other item = false)) rfl
        rw [hany] at hrest
        simpa [hitem] using hrest

theorem firsts_concat_of_none (h : rootName? roots next = none) :
    firsts roots (definitions ++ [next]) = firsts roots definitions ++ [next] := by
  rw [firsts, eraseDupsBy_concat]
  · simp [h, firsts]
  · simp only [Bool.and_eq_true, beq_iff_eq]
    rintro a b c ⟨ha, hab⟩ ⟨-, hbc⟩
    exact ⟨ha, hab.trans hbc⟩

theorem firsts_concat_of_some (h : rootName? roots next = some name) : firsts roots (definitions ++ [next]) =
    firsts roots definitions ++ if ofRoot name definitions = [] then [next] else [] := by
  obtain ⟨hroot, -⟩ := rootName?_eq_some_iff.1 h
  have hany : (definitions.any fun earlier => (rootName? roots next).isSome &&
      rootName? roots next == rootName? roots earlier) = true ↔ ofRoot name definitions ≠ [] := by
    rw [List.any_eq_true, ofRoot, ne_eq, List.filter_eq_nil_iff]
    push Not
    refine exists_congr fun earlier => and_congr_right fun _ => ?_
    rw [h, Option.isSome_some, Bool.true_and, beq_iff_eq, eq_comm, rootName?_eq_some_iff]
    exact and_iff_right hroot
  rw [firsts, eraseDupsBy_concat, firsts]
  · congr 1
    by_cases hnone : ofRoot name definitions = []
    · rw [if_pos hnone, if_neg (fun hc => hany.1 hc hnone)]
    · rw [if_neg hnone, if_pos (hany.2 hnone)]
  · simp only [Bool.and_eq_true, beq_iff_eq]
    rintro a b c ⟨ha, hab⟩ ⟨-, hbc⟩
    exact ⟨ha, hab.trans hbc⟩

theorem ofRoot_concat_of_eq (h : rootName? roots next = some name) (definitions : List Origin) :
    ofRoot name (definitions ++ [next]) = ofRoot name definitions ++ [next] := by
  simp [ofRoot, (rootName?_eq_some_iff.1 h).2]

theorem ofRoot_concat_of_ne (hname : name ∈ roots) (h : rootName? roots next ≠ some name) (definitions : List Origin) :
    ofRoot name (definitions ++ [next]) = ofRoot name definitions := by
  have hother : ¬ isObjectNamed name next.2 = true := fun hnamed => h (rootName?_eq_some_iff.2 ⟨hname, hnamed⟩)
  simp [ofRoot, hother]

/-- The first definitions hold just one object type of each root. -/
theorem ofRoot_firsts (hname : name ∈ roots) (definitions : List Origin) :
    ofRoot name (firsts roots definitions) = (ofRoot name definitions).take 1 := by
  induction definitions using List.reverseRecOn with
  | nil => rfl
  | append_singleton definitions next ih =>
    cases hnext : rootName? roots next with
    | none =>
      rw [firsts_concat_of_none hnext, ofRoot_concat_of_ne hname (by simp [hnext]),
        ofRoot_concat_of_ne hname (by simp [hnext]), ih]
    | some root =>
      rw [firsts_concat_of_some hnext]
      by_cases hsame : root = name
      · subst hsame
        rw [ofRoot_concat_of_eq hnext]
        by_cases hnone : ofRoot root definitions = []
        · rw [if_pos hnone, ofRoot_concat_of_eq hnext, ih, hnone]
          rfl
        · rw [if_neg hnone, List.append_nil, ih, List.take_append_of_le_length (List.length_pos_iff.2 hnone)]
      · have hother : rootName? roots next ≠ some name := by simp [hnext, hsame]
        rw [ofRoot_concat_of_ne hname hother]
        split
        · rw [ofRoot_concat_of_ne hname hother, ih]
        · rw [List.append_nil, ih]

@[simp] theorem isObjectNamed_foldl_addParts (later : List Origin) (first : Origin) :
    isObjectNamed name (later.foldl addParts first).2 = isObjectNamed name first.2 := by
  induction later generalizing first with
  | nil => rfl
  | cons next later ih => rw [List.foldl_cons, ih, isObjectNamed_addParts]

@[simp] theorem isObjectNamed_gathered (roots : List String) (definitions : List Origin) (first : Origin) :
    isObjectNamed name (gathered roots definitions first).2 = isObjectNamed name first.2 := by
  unfold gathered
  split
  · rfl
  · exact isObjectNamed_foldl_addParts _ _

theorem rootName?_gathered (roots : List String) (definitions : List Origin) (first : Origin) :
    rootName? roots (gathered roots definitions first) = rootName? roots first :=
  Option.ext fun name => by rw [rootName?_eq_some_iff, rootName?_eq_some_iff, isObjectNamed_gathered]

theorem gathered_concat_of_ne (h : ∀ name, rootName? roots first = some name → rootName? roots next ≠ some name)
    (definitions : List Origin) : gathered roots (definitions ++ [next]) first = gathered roots definitions first := by
  unfold gathered
  cases hfirst : rootName? roots first with
  | none => rfl
  | some name => simp only [ofRoot_concat_of_ne (rootName?_eq_some_iff.1 hfirst).1 (h name hfirst)]

theorem gathered_concat_of_eq (hfirst : rootName? roots first = some name) (hnext : rootName? roots next = some name)
    (hne : ofRoot name definitions ≠ []) :
    gathered roots (definitions ++ [next]) first = addParts (gathered roots definitions first) next := by
  simp only [gathered, hfirst, ofRoot_concat_of_eq hnext, List.tail_append_of_ne_nil hne, List.foldl_append,
    List.foldl_cons, List.foldl_nil]

/-- Where only one item is found, the others stay. -/
theorem modify_eq_map {α : Type} {p : α → Bool} {f : α → α} {items : List α} {index : Nat}
    (hone : (items.filter p).length ≤ 1) (h : items.findIdx? p = some index) :
    items.modify index f = items.map fun item => if p item = true then f item else item := by
  induction items generalizing index with
  | nil => cases h
  | cons item items ih =>
    rw [List.findIdx?_cons] at h
    by_cases hp : p item = true
    · rw [if_pos hp] at h
      obtain rfl := Option.some.inj h
      rw [List.filter_cons_of_pos hp, List.length_cons] at hone
      have hnone : items.filter p = [] := List.length_eq_zero_iff.1 (by omega)
      have hothers : ∀ other ∈ items, (if p other = true then f other else other) = other := fun other ho =>
        if_neg (List.filter_eq_nil_iff.1 hnone other ho)
      rw [List.modify_zero_cons, List.map_cons, if_pos hp, List.map_congr_left hothers, List.map_id']
    · rw [if_neg hp] at h
      obtain ⟨place, hplace, rfl⟩ := Option.map_eq_some_iff.1 h
      rw [List.filter_cons_of_neg hp] at hone
      rw [List.modify_succ_cons, List.map_cons, if_neg hp, ih hone hplace]

theorem gathered_concat_of_not_named (hnext : rootName? roots next = some name)
    (hfirst : isObjectNamed name first.2 ≠ true) (definitions : List Origin) :
    gathered roots (definitions ++ [next]) first = gathered roots definitions first := by
  refine gathered_concat_of_ne (fun other hother hsame => hfirst ?_) definitions
  obtain rfl : name = other := Option.some.inj (hnext.symm.trans hsame)
  exact (rootName?_eq_some_iff.1 hother).2

/-- An object type of a root that is there goes into the only definition of it. -/
theorem emit_gathered (hnext : rootName? roots next = some name) (hne : ofRoot name definitions ≠ []) :
    emit roots ((firsts roots definitions).map (gathered roots definitions)) next =
      (firsts roots definitions).map (gathered roots (definitions ++ [next])) := by
  obtain ⟨hname, -⟩ := rootName?_eq_some_iff.1 hnext
  have hnamed : ((isObjectNamed name ·.2) ∘ gathered roots definitions) = (isObjectNamed name ·.2) :=
    funext fun first => isObjectNamed_gathered roots definitions first
  have hfirsts : (firsts roots definitions).filter (isObjectNamed name ·.2) = (ofRoot name definitions).take 1 :=
    ofRoot_firsts hname definitions
  obtain ⟨first, rest, hcons⟩ := List.exists_cons_of_ne_nil hne
  rw [hcons, List.take_succ_cons, List.take_zero] at hfirsts
  obtain ⟨hfirst, hfound⟩ := List.mem_filter.1 (hfirsts ▸ List.mem_singleton_self first)
  rw [emit_eq, hnext, Option.bind_some, List.findIdx?_map, hnamed]
  cases hindex : (firsts roots definitions).findIdx? (isObjectNamed name ·.2) with
  | none => simp [List.findIdx?_eq_none_iff.1 hindex first hfirst] at hfound
  | some index =>
    dsimp only
    rw [modify_eq_map (p := (isObjectNamed name ·.2)) (by rw [List.filter_map, hnamed, hfirsts]; simp)
      (by rw [List.findIdx?_map, hnamed, hindex]), List.map_map]
    refine List.map_congr_left fun other _ => ?_
    rw [Function.comp_apply, isObjectNamed_gathered]
    split
    · rename_i hother
      exact (gathered_concat_of_eq (rootName?_eq_some_iff.2 ⟨hname, hother⟩) hnext hne).symm
    · rename_i hother
      exact (gathered_concat_of_not_named hnext hother definitions).symm

/-- What is emitted are the first definitions, each with what the later ones add. -/
theorem foldl_emit_eq (roots : List String) (definitions : List Origin) :
    definitions.foldl (emit roots) [] = (firsts roots definitions).map (gathered roots definitions) := by
  induction definitions using List.reverseRecOn with
  | nil => rfl
  | append_singleton definitions next ih =>
    rw [List.foldl_append, List.foldl_cons, List.foldl_nil, ih]
    cases hnext : rootName? roots next with
    | none =>
      have hsame : ∀ first ∈ firsts roots definitions,
          gathered roots definitions first = gathered roots (definitions ++ [next]) first :=
        fun first _ => (gathered_concat_of_ne (by simp [hnext]) definitions).symm
      rw [emit_eq, hnext, Option.bind_none, firsts_concat_of_none hnext, List.map_append, List.map_congr_left hsame]
      simp [gathered, hnext]
    | some name =>
      rw [firsts_concat_of_some hnext]
      by_cases hnone : ofRoot name definitions = []
      · -- the first one of its root
        have hfirsts := ofRoot_firsts (rootName?_eq_some_iff.1 hnext).1 definitions
        rw [hnone, List.take_nil, ofRoot, List.filter_eq_nil_iff] at hfirsts
        have hlater : gathered roots (definitions ++ [next]) next = next := by
          simp only [gathered, hnext, ofRoot_concat_of_eq hnext, hnone]
          rfl
        have hindex : ((firsts roots definitions).map (gathered roots definitions)).findIdx?
            (isObjectNamed name ·.2) = none := by
          simpa [List.findIdx?_eq_none_iff] using hfirsts
        rw [emit_eq, hnext, Option.bind_some, hindex, if_pos hnone, List.map_append, List.map_singleton, hlater,
          List.map_congr_left fun first hf => gathered_concat_of_not_named hnext (hfirsts first hf) definitions]
      · rw [if_neg hnone, List.append_nil, emit_gathered hnext hnone]

end SchemaFragments.Import
