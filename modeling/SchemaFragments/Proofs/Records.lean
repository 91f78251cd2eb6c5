import Mathlib.Data.List.Nodup
import SchemaFragments.Config.Project
import SchemaFragments.Proofs.Linking
/-!
# Maps and the records read from them

Setting and removing keys of a map, told by what is looked up afterwards. A record tells about each of its fields
what the map has for it, whatever the order of the keys: `setAll_eq_ok_iff`.
-/

namespace SchemaFragments

/-! ## Maps -/

namespace Data.Entries

variable {key other : String} {value : Data} {entries : Entries}

/-- No key is there twice. -/
def Unique (entries : Entries) : Prop := (entries.map (·.1)).Nodup

theorem lookup_eq_some_iff (h : entries.Unique) : entries.lookup key = some value ↔ (key, value) ∈ entries := by
  constructor
  · intro hl
    obtain ⟨before, after, rfl, -⟩ := List.lookup_eq_some_iff.1 hl
    simp
  · intro hm
    obtain ⟨before, after, rfl⟩ := List.append_of_mem hm
    refine List.lookup_eq_some_iff.2 ⟨before, after, rfl, fun entry he => ?_⟩
    rw [Unique, List.map_append, List.nodup_append] at h
    simpa using (h.2.2 entry.1 (List.mem_map_of_mem he) key (by simp)).symm

theorem lookup_eq_none (h : key ∉ entries.map (·.1)) : entries.lookup key = none := by
  refine List.lookup_eq_none_iff.2 fun entry hm => bne_iff_ne.2 ?_
  rintro rfl
  exact h (List.mem_map_of_mem hm)

theorem lookup_perm {entries' : Entries} (h : entries.Unique) (hp : entries.Perm entries') (key : String) :
    entries.lookup key = entries'.lookup key := by
  have h' : entries'.Unique := (hp.map _).nodup_iff.1 h
  refine Option.ext fun value => ?_
  rw [lookup_eq_some_iff h, lookup_eq_some_iff h', hp.mem_iff]

theorem lookup_set (key : String) (value : Data) (entries : Entries) (other : String) :
    (entries.set key value).lookup other = if other = key then some value else entries.lookup other := by
  induction entries with
  | nil =>
    rw [set, List.lookup_cons]
    by_cases h : other = key
    · simp [h]
    · simp [h, beq_false_of_ne h]
  | cons entry entries ih =>
    rw [set]
    by_cases hk : entry.1 = key
    · rw [if_pos hk, List.lookup_cons, List.lookup_cons, hk]
      by_cases h : other = key
      · simp [h]
      · simp [h, beq_false_of_ne h]
    · rw [if_neg hk, List.lookup_cons, ih, List.lookup_cons]
      by_cases h : other = key
      · simp [h, beq_false_of_ne (Ne.symm hk)]
      · simp [h]

theorem keys_set (key : String) (value : Data) (entries : Entries) : (entries.set key value).map (·.1) =
    if key ∈ entries.map (·.1) then entries.map (·.1) else entries.map (·.1) ++ [key] := by
  induction entries with
  | nil => simp [set]
  | cons entry entries ih =>
    rw [set]
    by_cases hk : entry.1 = key
    · simp [hk]
    · rw [if_neg hk, List.map_cons, ih]
      by_cases hm : key ∈ entries.map (·.1)
      · simp [hm]
      · simp [hm, Ne.symm hk]

theorem Unique.set (h : entries.Unique) (key : String) (value : Data) : (entries.set key value).Unique := by
  rw [Unique, keys_set]
  split
  · exact h
  · rename_i hm
    exact List.nodup_append.2 ⟨h, by simp, fun a ha b hb he => hm (by simp_all)⟩

theorem findIdx?_eq_none (h : key ∉ entries.map (·.1)) : entries.findIdx? (·.1 == key) = none :=
  List.findIdx?_eq_none_iff.2 fun entry he => beq_false_of_ne fun hk => h (List.mem_map.2 ⟨entry, he, hk⟩)

theorem remove_of_notMem (h : key ∉ entries.map (·.1)) : entries.remove key = entries := by
  rw [remove, findIdx?_eq_none h]

/-- The last entry takes the place of the one that is removed. -/
theorem remove_append {before : Entries} (h : key ∉ before.map (·.1)) (value : Data) (after : Entries) :
    (before ++ (key, value) :: after).remove key = before ++ (after.getLast?.toList ++ after.dropLast) := by
  have hindex : (before ++ (key, value) :: after).findIdx? (·.1 == key) = some before.length := by
    simp [List.findIdx?_append, findIdx?_eq_none h, List.findIdx?_cons]
  rw [remove, hindex]
  rcases List.eq_nil_or_concat after with rfl | ⟨after, last, rfl⟩
  · simp
  · have hlast : (before ++ (key, value) :: (after ++ [last])).getLast? = some last := by
      rw [← List.cons_append, ← List.append_assoc, List.getLast?_concat]
    rw [List.concat_eq_append, hlast]
    dsimp only
    rw [List.set_append_right _ _ (Nat.le_refl _), Nat.sub_self, List.set_cons_zero, ← List.cons_append,
      ← List.append_assoc, List.dropLast_concat, List.getLast?_concat, List.dropLast_concat]
    rfl

/-- The entries around the first one with a key. -/
theorem exists_append_of_mem (h : key ∈ entries.map (·.1)) :
    ∃ before value after, entries = before ++ (key, value) :: after ∧ key ∉ before.map (·.1) := by
  obtain ⟨before, after, heq, hbefore⟩ := List.eq_append_cons_of_mem h
  obtain ⟨before, rest, rfl, rfl, hrest⟩ := List.map_eq_append_iff.1 heq
  obtain ⟨⟨_, value⟩, after, rfl, rfl, rfl⟩ := List.map_eq_cons_iff.1 hrest
  exact ⟨before, value, after, rfl, hbefore⟩

/-- What is removed was there once, and the other entries stay in some order. -/
theorem remove_cases (key : String) (entries : Entries) :
    (∀ entry ∈ entries, entry.1 ≠ key) ∧ entries.remove key = entries ∨
      ∃ value, entries.Perm ((key, value) :: entries.remove key) := by
  by_cases h : key ∈ entries.map (·.1)
  · obtain ⟨before, value, after, rfl, hbefore⟩ := exists_append_of_mem h
    rw [remove_append hbefore]
    refine .inr ⟨value, List.perm_middle.trans (.cons _ (.append_left before ?_))⟩
    rcases List.eq_nil_or_concat after with rfl | ⟨after, last, rfl⟩
    · rfl
    · simp
  · exact .inl ⟨fun entry he hk => h (List.mem_map.2 ⟨entry, he, hk⟩), remove_of_notMem h⟩

theorem Unique.remove (h : entries.Unique) (key : String) : (entries.remove key).Unique := by
  rcases remove_cases key entries with ⟨-, he⟩ | ⟨value, hp⟩
  · rw [he]
    exact h
  · have hn : (((key, value) :: entries.remove key).map (·.1)).Nodup := (hp.map _).nodup_iff.1 h
    exact (List.nodup_cons.1 hn).2

theorem lookup_remove (h : entries.Unique) (key other : String) :
    (entries.remove key).lookup other = if other = key then none else entries.lookup other := by
  rcases remove_cases key entries with ⟨hnone, he⟩ | ⟨value, hp⟩
  · rw [he]
    split
    · rename_i hk
      rw [hk, List.lookup_eq_none_iff]
      exact fun entry hm => by simpa using (hnone entry hm).symm
    · rfl
  · rw [lookup_perm h hp, List.lookup_cons]
    by_cases hk : other = key
    · have hn : (((key, value) :: entries.remove key).map (·.1)).Nodup := (hp.map _).nodup_iff.1 h
      rw [if_pos hk, hk, lookup_eq_none (List.nodup_cons.1 hn).1]
    · simp [hk, beq_false_of_ne hk]

end Data.Entries

/-! ## Records -/

namespace Config

/-- A field of a record: how it is looked up, changed and read, and what it is where there is nothing to read. -/
structure Slot (ρ : Type) where
  name : String
  α : Type
  get : ρ → α
  put : ρ → α → ρ
  read : Data → Except RecordError α
  absent : α

/-- Reads what a map has for a field. -/
def Slot.readAt {ρ : Type} (slot : Slot ρ) : Option Data → Except RecordError slot.α
  | none => .ok slot.absent
  | some data => slot.read data

namespace RecordKind

variable {ρ : Type} {kind : RecordKind ρ} {slots : List (Slot ρ)} {slot : Slot ρ} {record next : ρ}
  {entries : Data.Entries} {key : String} {value : Data}

/-- The records of a kind have some fields, each of its own and nothing else. -/
structure HasSlots (kind : RecordKind ρ) (slots : List (Slot ρ)) : Prop where
  setField : ∀ slot ∈ slots, ∀ record value, kind.setField record slot.name value = (slot.read value).map (slot.put record)
  ignored : ∀ key, (∀ slot ∈ slots, slot.name ≠ key) → ∀ record value, kind.setField record key value = .ok record
  get_put : ∀ slot ∈ slots, ∀ record a, slot.get (slot.put record a) = a
  get_put_other : ∀ slot ∈ slots, ∀ other ∈ slots, slot.name ≠ other.name →
    ∀ record a, other.get (slot.put record a) = other.get record
  empty : ∀ slot ∈ slots, slot.get kind.empty = slot.absent
  ext : ∀ first second, (∀ slot ∈ slots, slot.get first = slot.get second) → first = second

/-- Setting a field changes this field to what is read, and no other one. -/
theorem get_of_setField (hs : kind.HasSlots slots) (hslot : slot ∈ slots)
    (h : kind.setField record key value = .ok next) :
    (key = slot.name → slot.read value = .ok (slot.get next)) ∧ (key ≠ slot.name → slot.get next = slot.get record) := by
  constructor
  · rintro rfl
    rw [hs.setField slot hslot] at h
    cases hread : slot.read value with
    | error error => rw [hread] at h; cases h
    | ok a =>
      rw [hread] at h
      cases h
      rw [hs.get_put slot hslot]
  · intro hne
    by_cases hother : ∃ other ∈ slots, other.name = key
    · obtain ⟨other, hmem, rfl⟩ := hother
      rw [hs.setField other hmem] at h
      cases hread : other.read value with
      | error error => rw [hread] at h; cases h
      | ok a =>
        rw [hread] at h
        cases h
        exact hs.get_put_other other hmem slot hslot hne record a
    · rw [hs.ignored key fun other hmem hk => hother ⟨other, hmem, hk⟩] at h
      cases h
      rfl

theorem get_of_foldlM (hs : kind.HasSlots slots) (hslot : slot ∈ slots) (hn : entries.Unique)
    (h : entries.foldlM (fun record (field, value) => kind.setField record field value) record = .ok next) :
    (∀ value, entries.lookup slot.name = some value → slot.read value = .ok (slot.get next)) ∧
      (entries.lookup slot.name = none → slot.get next = slot.get record) := by
  induction entries generalizing record with
  | nil =>
    cases h
    simp
  | cons entry entries ih =>
    obtain ⟨key, value⟩ := entry
    rw [List.foldlM_cons] at h
    obtain ⟨middle, hset, hlater⟩ := exists_ok_of_bind h
    obtain ⟨hnew, hrest⟩ := List.nodup_cons.1 hn
    obtain ⟨hsome, hnone⟩ := ih hrest hlater
    obtain ⟨hsame, hother⟩ := get_of_setField hs hslot hset
    rw [List.lookup_cons]
    by_cases hk : key = slot.name
    · rw [hk, beq_self_eq_true]
      refine ⟨fun other ho => ?_, fun ho => by cases ho⟩
      obtain rfl := Option.some.inj ho
      rw [hnone (Data.Entries.lookup_eq_none (hk ▸ hnew)), hsame hk]
    · rw [beq_false_of_ne (Ne.symm hk)]
      exact ⟨hsome, fun hl => (hnone hl).trans (hother hk)⟩

theorem exists_foldlM (hs : kind.HasSlots slots)
    (h : ∀ entry ∈ entries, ∀ slot ∈ slots, slot.name = entry.1 → ∃ a, slot.read entry.2 = .ok a) (record : ρ) :
    ∃ next, entries.foldlM (fun record (field, value) => kind.setField record field value) record = .ok next := by
  induction entries generalizing record with
  | nil => exact ⟨record, rfl⟩
  | cons entry entries ih =>
    obtain ⟨hentry, hentries⟩ := List.forall_mem_cons.1 h
    obtain ⟨middle, hset⟩ : ∃ middle, kind.setField record entry.1 entry.2 = .ok middle := by
      by_cases hslot : ∃ slot ∈ slots, slot.name = entry.1
      · obtain ⟨slot, hmem, hk⟩ := hslot
        obtain ⟨a, hread⟩ := hentry slot hmem hk
        exact ⟨slot.put record a, by rw [← hk, hs.setField slot hmem, hread]; rfl⟩
      · exact ⟨record, hs.ignored _ (fun slot hmem hk => hslot ⟨slot, hmem, hk⟩) _ _⟩
    obtain ⟨next, hnext⟩ := ih hentries middle
    refine ⟨next, ?_⟩
    rw [List.foldlM_cons]
    dsimp only
    rw [hset]
    exact hnext

/-- Entries are read as the one record in which each field is what they have for it. -/
theorem setAll_eq_ok_iff (hs : kind.HasSlots slots) (hn : entries.Unique) : kind.setAll entries = .ok record ↔
    ∀ slot ∈ slots, slot.readAt (entries.lookup slot.name) = .ok (slot.get record) := by
  have hforward {read : ρ} (h : kind.setAll entries = .ok read) :
      ∀ slot ∈ slots, slot.readAt (entries.lookup slot.name) = .ok (slot.get read) := by
    intro slot hslot
    obtain ⟨hsome, hnone⟩ := get_of_foldlM hs hslot hn h
    cases hl : entries.lookup slot.name with
    | some value => exact hsome value hl
    | none => rw [Slot.readAt, hnone hl, hs.empty slot hslot]
  refine ⟨hforward, fun h => ?_⟩
  have hentries : ∀ entry ∈ entries, ∀ slot ∈ slots, slot.name = entry.1 → ∃ a, slot.read entry.2 = .ok a := by
    intro entry hm slot hslot hk
    have hl := (Data.Entries.lookup_eq_some_iff hn).2 (hk ▸ hm : (slot.name, entry.2) ∈ entries)
    have hread := h slot hslot
    rw [hl] at hread
    exact ⟨_, hread⟩
  obtain ⟨read, hread⟩ := exists_foldlM hs hentries kind.empty
  rw [hs.ext record read fun slot hslot => Except.ok.inj ((h slot hslot).symm.trans (hforward hread slot hslot))]
  exact hread

end RecordKind

/-! ## What is said about a project -/

theorem bind_return {ε α β : Type} (result : Except ε α) (f : α → β) : (result >>= fun a => pure (f a)) = result.map f := by
  cases result <;> rfl

def Generation.slots : List (Slot Generation) :=
  [⟨"output", Option String, (·.output), fun record output => { record with output }, readOptional readText, none⟩,
    ⟨"generator", Option String, (·.generator), fun record generator => { record with generator },
      readOptional readText, none⟩]

def Extensions.slots : List (Slot Extensions) :=
  [⟨generationKey, Option Generation, (·.generation), fun record generation => { record with generation },
      readOptional Generation.kind.read, none⟩,
    ⟨legacyKey, Bool, (·.legacy), fun record legacy => { record with legacy }, fun value => .ok !value.isNull, false⟩,
    ⟨"prepare-bundle", Option Bundle, (·.prepareBundle), fun record prepareBundle => { record with prepareBundle },
      readOptional Bundle.kind.read, none⟩,
    ⟨"bundle", Option Bundle, (·.bundle), fun record bundle => { record with bundle }, readOptional Bundle.kind.read,
      none⟩]

def Project.slots : List (Slot Project) :=
  [⟨"schemaPath", Option String, (·.schemaPath), fun record schemaPath => { record with schemaPath },
      readOptional readText, none⟩,
    ⟨"extensions", Extensions, (·.extensions), fun record extensions => { record with extensions },
      Extensions.kind.read, {}⟩]

theorem Generation.hasSlots : Generation.kind.HasSlots Generation.slots where
  setField := by
    simp only [slots, List.forall_mem_cons]
    exact ⟨fun record value => bind_return _ _, fun record value => bind_return _ _, by simp⟩
  ignored key h record value := by
    simp only [slots, List.forall_mem_cons] at h
    simp only [kind]
    split
    · exact absurd rfl h.1
    · exact absurd rfl h.2.1
    · rfl
  get_put := by simp [slots]
  get_put_other := by simp [slots]
  empty := by simp [slots, kind]
  ext first second h := by
    cases first
    cases second
    simpa [slots] using h

theorem Extensions.hasSlots : Extensions.kind.HasSlots Extensions.slots where
  setField := by
    simp only [slots, List.forall_mem_cons]
    exact ⟨fun record value => bind_return _ _, fun record value => rfl, fun record value => bind_return _ _,
      fun record value => bind_return _ _, by simp⟩
  ignored key h record value := by
    simp only [slots, List.forall_mem_cons] at h
    obtain ⟨hgeneration, hlegacy, hprepare, hbundle, -⟩ := h
    simp only [kind]
    rw [if_neg (Ne.symm hgeneration), if_neg (Ne.symm hlegacy), if_neg (Ne.symm hprepare), if_neg (Ne.symm hbundle)]
    rfl
  get_put := by simp [slots]
  get_put_other := by simp [slots]
  empty := by simp [slots, kind]
  ext first second h := by
    cases first
    cases second
    simpa [slots] using h

theorem Project.hasSlots : Project.kind.HasSlots Project.slots where
  setField := by
    simp only [slots, List.forall_mem_cons]
    exact ⟨fun record value => bind_return _ _, fun record value => bind_return _ _, by simp⟩
  ignored key h record value := by
    simp only [slots, List.forall_mem_cons] at h
    simp only [kind]
    split
    · exact absurd rfl h.1
    · exact absurd rfl h.2.1
    · rfl
  get_put := by simp [slots]
  get_put_other := by simp [slots]
  empty := by simp [slots, kind]
  ext first second h := by
    cases first
    cases second
    simpa [slots] using h

end Config

end SchemaFragments
