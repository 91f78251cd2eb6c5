import SchemaFragments.Config.Basic
import SchemaFragments.Proofs.Records
/-!
# Keys of configuration files

No map that is read from a configuration file holds a key twice, whatever the format: `distinct_ofText`. Settings
keep it so.
-/

namespace SchemaFragments

open Data (Entries)

/-- Maps hold no key twice, at any depth. -/
inductive Data.Distinct : Data → Prop
  | null : Distinct .null
  | boolean (value : Bool) : Distinct (.boolean value)
  | integer (value : Int) : Distinct (.integer value)
  | float (value : Number.Binary64) : Distinct (.float value)
  | text (value : String) : Distinct (.text value)
  | list {items : List Data} (h : ∀ item ∈ items, Distinct item) : Distinct (.list items)
  | map {entries : Entries} (hu : entries.Unique) (h : ∀ entry ∈ entries, Distinct entry.2) : Distinct (.map entries)

theorem Data.Distinct.unique {entries : Entries} (h : Distinct (.map entries)) : entries.Unique := by
  cases h
  assumption

theorem Data.Distinct.of_lookup {entries : Entries} {key : String} {value : Data} (h : Distinct (.map entries))
    (hl : entries.lookup key = some value) : Distinct value := by
  cases h with
  | map hu hall => exact hall _ ((Entries.lookup_eq_some_iff hu).1 hl)

namespace Data

variable {entries : Entries} {key : String} {value : Data}

theorem Entries.mem_set {entry : String × Data} (h : entry ∈ entries.set key value) :
    entry ∈ entries ∨ entry.2 = value := by
  induction entries with
  | nil =>
    obtain rfl := List.mem_singleton.1 h
    exact .inr rfl
  | cons first entries ih =>
    rw [set] at h
    split at h
    · rcases List.mem_cons.1 h with rfl | h
      · exact .inr rfl
      · exact .inl (.tail _ h)
    · rcases List.mem_cons.1 h with rfl | h
      · exact .inl (.head _)
      · exact (ih h).imp_left (.tail _)

theorem Distinct.set (h : Distinct (.map entries)) (key : String) (hvalue : Distinct value) :
    Distinct (.map (entries.set key value)) := by
  cases h with
  | map hu hall =>
    refine .map (hu.set key value) fun entry hm => ?_
    rcases Entries.mem_set hm with hm | rfl
    · exact hall entry hm
    · exact hvalue

theorem Distinct.remove (h : Distinct (.map entries)) (key : String) : Distinct (.map (entries.remove key)) := by
  cases h with
  | map hu hall =>
    refine .map (hu.remove key) fun entry hm => hall entry ?_
    rcases Entries.remove_cases key entries with ⟨-, he⟩ | ⟨value, hp⟩
    · rwa [he] at hm
    · exact hp.mem_iff.2 (.tail _ hm)

theorem distinct_nil : Distinct (.map []) := .map List.nodup_nil (by simp)

/-- The map at a key, or an empty one. -/
theorem Distinct.getD (h : Distinct (.map entries)) (key : String) :
    Distinct (.map (((entries.lookup key).bind entries?).getD [])) := by
  cases hl : entries.lookup key with
  | none => exact distinct_nil
  | some value =>
    have hvalue := h.of_lookup hl
    cases value with
    | map inner => exact hvalue
    | null | boolean | integer | float | text | list => exact distinct_nil

theorem distinct_ofList (h : ∀ entry ∈ entries, Distinct entry.2) : Distinct (.map (Entries.ofList entries)) := by
  have hfold {before : Entries} (hbefore : Distinct (.map before)) :
      Distinct (.map (entries.foldl (fun entries entry => Entries.set entry.1 entry.2 entries) before)) := by
    induction entries generalizing before with
    | nil => exact hbefore
    | cons entry entries ih =>
      exact ih (fun other hm => h other (.tail _ hm)) (hbefore.set entry.1 (h entry (.head _)))
  exact hfold distinct_nil

end Data

/-! ## JSON -/

namespace Json

variable {α : Type} {item : Reader α} {P : α → Prop} {close : Char} {limit : Nat} {text rest : List Char}

theorem of_readItems (h : ∀ {text a rest}, item text = some (a, rest) → P a) {items : List α}
    (hr : readItems item close limit text = some (items, rest)) : ∀ a ∈ items, P a := by
  induction limit generalizing text items with
  | zero => cases hr
  | succ limit ih =>
    obtain ⟨⟨first, after⟩, hfirst, hr⟩ := Option.bind_eq_some_iff.1 hr
    dsimp only at hr
    split at hr
    · cases hr
    · split at hr
      · cases hr
        exact List.forall_mem_singleton.2 (h hfirst)
      · split at hr
        · obtain ⟨⟨others, last⟩, hothers, hr⟩ := Option.bind_eq_some_iff.1 hr
          cases hr
          exact List.forall_mem_cons.2 ⟨h hfirst, ih hothers⟩
        · cases hr

theorem of_readAll (h : ∀ {text a rest}, item text = some (a, rest) → P a) {items : List α}
    (hr : readAll item close limit text = some (items, rest)) : ∀ a ∈ items, P a := by
  unfold readAll at hr
  split at hr
  · cases hr
  · split at hr
    · cases hr
      simp
    · exact of_readItems h hr

theorem of_readEntry {value : Reader Data} {P : Data → Prop} (h : ∀ {text a rest}, value text = some (a, rest) → P a)
    {entry : String × Data} (hr : readEntry value text = some (entry, rest)) : P entry.2 := by
  unfold readEntry at hr
  split at hr
  · obtain ⟨⟨key, after⟩, -, hr⟩ := Option.bind_eq_some_iff.1 hr
    dsimp only at hr
    split at hr
    · obtain ⟨⟨data, last⟩, hdata, hr⟩ := Option.bind_eq_some_iff.1 hr
      cases hr
      exact h hdata
    · cases hr
  · cases hr

theorem distinct_readNumber {data : Data} (h : readNumber text = some (data, rest)) : data.Distinct := by
  obtain ⟨⟨parts, after⟩, -, h⟩ := Option.bind_eq_some_iff.1 h
  obtain ⟨value, hvalue, h⟩ := Option.bind_eq_some_iff.1 h
  cases h
  have hfloat (h : parts.float.map .float = some data) : data.Distinct := by
    obtain ⟨value, -, rfl⟩ := Option.map_eq_some_iff.1 h
    exact .float value
  dsimp only [Parts.value] at hvalue
  split at hvalue
  · split at hvalue
    · cases hvalue
      exact .integer _
    · split at hvalue
      · cases hvalue
        exact .integer _
      · exact hfloat hvalue
  · exact hfloat hvalue

theorem distinct_readLeaf {data : Data} (h : readLeaf text = some (data, rest)) : data.Distinct := by
  unfold readLeaf at h
  split at h
  · cases h
    exact .null
  · cases h
    exact .boolean true
  · cases h
    exact .boolean false
  · obtain ⟨read, -, h⟩ := Option.map_eq_some_iff.1 h
    cases h
    exact .text _
  · exact distinct_readNumber h

theorem distinct_readValue {depth : Nat} {data : Data} (h : readValue limit depth text = some (data, rest)) :
    data.Distinct := by
  induction depth generalizing text data rest with
  | zero => exact distinct_readLeaf h
  | succ depth ih =>
    unfold readValue at h
    dsimp only at h
    split at h
    · obtain ⟨⟨items, after⟩, hitems, h⟩ := Option.map_eq_some_iff.1 h
      cases h
      exact .list (of_readAll ih hitems)
    · obtain ⟨⟨entries, after⟩, hentries, h⟩ := Option.map_eq_some_iff.1 h
      cases h
      exact Data.distinct_ofList (of_readAll (of_readEntry ih) hentries)
    · exact distinct_readLeaf h

theorem distinct_readMap {text : String} {entries : Entries} (h : readMap text = some entries) :
    (Data.map entries).Distinct := by
  unfold readMap at h
  split at h
  · split at h
    · cases h
      exact distinct_readValue ‹_›
    · cases h
  · cases h

end Json

/-! ## YAML -/

namespace Yaml

theorem distinct_readFloat {text : List Char} {data : Data} (h : readFloat text = some data) : data.Distinct := by
  unfold readFloat at h
  split at h
  · cases h
    exact .null
  · split at h
    · cases h
      exact .null
    · obtain ⟨value, -, h⟩ := Option.bind_eq_some_iff.1 h
      split at h
      · cases h
        exact .float value
      · cases h

theorem distinct_readPlainScalar {text : String} {data : Data} (h : readPlainScalar text = some data) :
    data.Distinct := by
  have hother : (if isPaddedDigits text.toList then Data.text text
      else (readFloat text.toList).getD (.text text)).Distinct := by
    split
    · exact .text text
    · cases hfloat : readFloat text.toList with
      | none => exact .text text
      | some value => exact distinct_readFloat hfloat
  unfold readPlainScalar at h
  split at h
  · cases h
    exact .null
  split at h
  · cases h
    exact .boolean true
  split at h
  · cases h
    exact .boolean false
  dsimp only at h
  split at h
  · cases h
    exact hother
  split at h
  · cases h
    exact .integer _
  split at h
  · cases h
  · cases h
    exact hother

theorem distinct_readTagged {suffix text : String} {data : Data} (h : readTagged suffix text = some data) :
    data.Distinct := by
  unfold readTagged at h
  dsimp only at h
  split at h
  · split at h
    · cases h
      exact .boolean true
    · split at h
      · cases h
        exact .boolean false
      · cases h
  · obtain ⟨size, -, h⟩ := Option.bind_eq_some_iff.1 h
    obtain ⟨-, h⟩ := Option.ite_none_right_eq_some.1 h
    cases h
    exact .integer _
  · split at h
    · cases h
      exact .null
    · obtain ⟨value, -, rfl⟩ := Option.map_eq_some_iff.1 h
      split
      · exact .float value
      · exact .null
  · split at h
    · cases h
      exact .null
    · cases h
  · cases h
    exact .text text

theorem distinct_readScalar {style : Style} {tag : Option Tag} {text : String} {data : Data}
    (h : readScalar style tag text = some data) : data.Distinct := by
  unfold readScalar at h
  split at h
  · split at h
    · exact distinct_readTagged h
    · cases h
      exact .text text
  · split at h
    · exact distinct_readPlainScalar h
    · cases h
      exact .text text

variable {α β : Type} {count last : Nat}

theorem exists_run_of_bind {first : NodeReader α} {next : α → NodeReader β} {result : β × Nat}
    (h : (first >>= next).run count = .ok result) :
    ∃ a count', first.run count = .ok (a, count') ∧ (next a).run count' = .ok result := by
  rw [StateT.run_bind] at h
  obtain ⟨⟨a, count'⟩, hfirst, hnext⟩ := exists_ok_of_bind h
  exact ⟨a, count', hfirst, hnext⟩

theorem of_mapM {read : α → NodeReader β} {P : β → Prop}
    (h : ∀ a {count b last}, (read a).run count = .ok (b, last) → P b) {items : List α} {results : List β}
    (hr : (items.mapM read).run count = .ok (results, last)) : ∀ b ∈ results, P b := by
  induction items generalizing count results with
  | nil =>
    cases hr
    simp
  | cons item items ih =>
    rw [List.mapM_cons] at hr
    obtain ⟨b, count', hb, hr⟩ := exists_run_of_bind hr
    obtain ⟨others, count'', hothers, hr⟩ := exists_run_of_bind hr
    cases hr
    exact List.forall_mem_cons.2 ⟨h item hb, ih hothers⟩

namespace Document

variable {document : Document}

theorem distinct_readLeaf {style : Style} {tag : Option Tag} {text : String} {data : Data}
    (h : (readLeaf style tag text).run count = .ok (data, last)) : data.Distinct := by
  unfold readLeaf at h
  split at h
  · cases h
    exact distinct_readScalar ‹_›
  · cases h

theorem distinct_readNode {depth : Nat} {node : Node} {data : Data}
    (h : (document.readNode depth node).run count = .ok (data, last)) : data.Distinct := by
  induction depth generalizing node count data last with
  | zero =>
    obtain ⟨followed, count', -, h⟩ := exists_run_of_bind h
    split at h
    · exact distinct_readLeaf h
    · cases h
  | succ depth ih =>
    obtain ⟨followed, count', -, h⟩ := exists_run_of_bind h
    split at h
    · exact distinct_readLeaf h
    · obtain ⟨items, count'', hitems, h⟩ := exists_run_of_bind h
      cases h
      exact .list (of_mapM (fun _ => ih) hitems)
    · obtain ⟨entries, count'', hentries, h⟩ := exists_run_of_bind h
      cases h
      refine Data.distinct_ofList (of_mapM (fun entry _ _ _ hentry => ?_) hentries)
      obtain ⟨key, _, -, hentry⟩ := exists_run_of_bind hentry
      obtain ⟨value, _, hvalue, hentry⟩ := exists_run_of_bind hentry
      cases hentry
      exact ih hvalue
    · cases h

end Document

theorem distinct_readMap {text : String} {entries : Entries} (h : readMap text = .ok entries) :
    (Data.map entries).Distinct := by
  unfold readMap at h
  split at h
  · cases h
  · cases h
  · obtain ⟨read, hread, h⟩ := exists_ok_of_bind h
    obtain ⟨⟨data, count⟩, hdata, hread⟩ := exists_ok_of_bind hread
    split at h
    · cases h
      dsimp only at hread
      split at hread
      · cases hread
        exact Document.distinct_readNode hdata
      · cases hread
    · cases h

end Yaml

/-! ## Configurations -/

namespace Config

variable {config : Config}

theorem distinct_ofText {path : Path} {text : String} (h : ofText path text = .ok config) :
    (Data.map config.entries).Distinct := by
  unfold ofText at h
  split at h
  · split at h
    · cases h
      exact Json.distinct_readMap ‹_›
    · cases h
  · split at h
    · cases h
      exact Yaml.distinct_readMap ‹_›
    · cases h

variable {entries : Entries} {change : Entries → Entries}

theorem distinct_changeMap (h : (Data.map entries).Distinct) (key : String)
    (hc : ∀ {inner}, (Data.map inner).Distinct → (Data.map (change inner)).Distinct) :
    (Data.map (changeMap key change entries)).Distinct :=
  h.set key (hc (h.getD key))

theorem distinct_updateAt (h : (Data.map entries).Distinct) (key : String)
    (hc : ∀ {inner}, (Data.map inner).Distinct → (Data.map (change inner)).Distinct) :
    (Data.map (updateAt key change entries)).Distinct := by
  unfold updateAt
  split
  · exact h.set key (hc (h.of_lookup ‹_›))
  · exact h

theorem distinct_withSettings (h : (Data.map entries).Distinct) (settings : Settings) :
    (Data.map (withSettings settings entries)).Distinct :=
  distinct_changeMap h _ fun hextensions =>
    distinct_changeMap (hextensions.remove legacyKey) _ fun hgeneration =>
      (hgeneration.set _ (.text _)).set _ (.text _)

theorem distinct_applySettings (h : (Data.map config.entries).Distinct) (name : String) (settings : Settings) :
    (Data.map (config.applySettings name settings).entries).Distinct := by
  unfold applySettings
  split
  · split
    · exact distinct_withSettings h settings
    · exact h
  · exact distinct_updateAt h _ fun hprojects =>
      distinct_updateAt hprojects _ fun hproject => distinct_withSettings hproject settings

end Config

end SchemaFragments
