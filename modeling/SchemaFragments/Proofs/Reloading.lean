import SchemaFragments.Proofs.AppliedSettings
import SchemaFragments.Proofs.PrintedJson
import SchemaFragments.Proofs.Saving
/-!
# Saved configurations are read again

A configuration in JSON without floats is read back from the text it is saved as, whatever settings were applied since it
was read, with the same entries in the same order at every level: `reload_applyEdits`. Settings are texts in maps that
are a few levels deep, so the data stay such as can be printed and read.
-/

namespace SchemaFragments

open Data (Entries)

namespace Data

variable {depth : Nat} {entries : Entries} {value : Data}

theorem Storable.mem (h : Storable (depth + 1) (.map entries)) {entry : String × Data} (hm : entry ∈ entries) :
    entry.2.Storable depth := by
  cases h with
  | map h => exact h entry hm

theorem Storable.of_lookup {key : String} (h : Storable (depth + 1) (.map entries))
    (hl : entries.lookup key = some value) : value.Storable depth := by
  obtain ⟨before, after, rfl, -⟩ := List.lookup_eq_some_iff.1 hl
  have hm : (key, value) ∈ before ++ (key, value) :: after := by simp
  exact h.mem hm

theorem Storable.set (h : Storable (depth + 1) (.map entries)) (key : String) (hv : value.Storable depth) :
    Storable (depth + 1) (.map (entries.set key value)) :=
  .map fun _ hm => (Entries.mem_set hm).elim h.mem (· ▸ hv)

theorem Storable.remove (h : Storable (depth + 1) (.map entries)) (key : String) :
    Storable (depth + 1) (.map (entries.remove key)) := by
  refine .map fun entry hm => h.mem ?_
  rcases Entries.remove_cases key entries with ⟨-, he⟩ | ⟨value, hp⟩
  · rwa [he] at hm
  · exact hp.mem_iff.2 (.tail _ hm)

theorem storable_nil : Storable (depth + 1) (.map []) := .map (by simp)

/-- The map at a key, or an empty one. -/
theorem Storable.getD (h : Storable (depth + 2) (.map entries)) (key : String) :
    Storable (depth + 1) (.map (((entries.lookup key).bind entries?).getD [])) := by
  cases hl : entries.lookup key with
  | none => exact storable_nil
  | some value =>
    have hvalue := h.of_lookup hl
    cases value with
    | map inner => exact hvalue
    | null | boolean | integer | float | text | list => exact storable_nil

end Data

namespace Config

variable {config : Config} {depth : Nat} {entries : Entries} {change : Entries → Entries}

/-! ## Settings keep data storable -/

theorem storable_changeMap (h : (Data.map entries).Storable (depth + 2)) (key : String)
    (hc : ∀ {inner}, (Data.map inner).Storable (depth + 1) → (Data.map (change inner)).Storable (depth + 1)) :
    (Data.map (changeMap key change entries)).Storable (depth + 2) :=
  h.set key (hc (h.getD key))

theorem storable_updateAt (h : (Data.map entries).Storable (depth + 2)) (key : String)
    (hc : ∀ {inner}, (Data.map inner).Storable (depth + 1) → (Data.map (change inner)).Storable (depth + 1)) :
    (Data.map (updateAt key change entries)).Storable (depth + 2) := by
  unfold updateAt
  split
  · exact h.set key (hc (h.of_lookup ‹_›))
  · exact h

theorem storable_withSettings (h : (Data.map entries).Storable (depth + 3)) (settings : Settings) :
    (Data.map (withSettings settings entries)).Storable (depth + 3) :=
  storable_changeMap h _ fun hextensions =>
    storable_changeMap (hextensions.remove legacyKey) _ fun hgeneration =>
      (hgeneration.set _ (.text _)).set _ (.text _)

theorem storable_applySettings (h : (Data.map config.entries).Storable (depth + 5)) (name : String)
    (settings : Settings) : (Data.map (config.applySettings name settings).entries).Storable (depth + 5) := by
  unfold applySettings
  split
  · split
    · exact storable_withSettings h settings
    · exact h
  · exact storable_updateAt h _ fun hprojects =>
      storable_updateAt hprojects _ fun hproject => storable_withSettings hproject settings

/-! ## Any number of settings -/

/-- The configuration after settings of some projects, applied one after the other. -/
def applyEdits (config : Config) (edits : List (String × Settings)) : Config :=
  edits.foldl (fun config edit => config.applySettings edit.1 edit.2) config

/-- A configuration that is read from JSON again once it is saved. -/
structure Reloads (path : Path) (config : Config) : Prop where
  path : config.path = path
  format : config.format = .json
  storable : (Data.map config.entries).Storable Json.nestingLimit
  distinct : (Data.map config.entries).Distinct

theorem format_of_ofText {path : Path} {text : String} (h : ofText path text = .ok config) :
    config.path = path ∧ config.format = Format.ofPath path := by
  unfold ofText at h
  split at h
  · split at h <;> cases h
    exact ⟨rfl, by simp_all⟩
  · split at h <;> cases h
    exact ⟨rfl, by simp_all⟩

theorem reloads_ofText {path : Path} {text : String} (h : ofText path text = .ok config)
    (hformat : config.format = .json) (hfloat : (Data.map config.entries).FloatFree) : Reloads path config := by
  refine ⟨(format_of_ofText h).1, hformat, ?_, distinct_ofText h⟩
  have hjson : Format.ofPath path = .json := (format_of_ofText h).2 ▸ hformat
  rw [ofText, hjson] at h
  cases hread : Json.readMap text with
  | none =>
    rw [hread] at h
    cases h
  | some entries =>
    rw [hread] at h
    cases h
    exact Json.storable_readMap hread hfloat

theorem Reloads.applySettings {path : Path} (h : Reloads path config) (name : String) (settings : Settings) :
    Reloads path (config.applySettings name settings) where
  path := (path_applySettings name settings).trans h.path
  format := (format_applySettings name settings).trans h.format
  storable := storable_applySettings h.storable name settings
  distinct := distinct_applySettings h.distinct name settings

theorem Reloads.applyEdits {path : Path} (h : Reloads path config) (edits : List (String × Settings)) :
    Reloads path (config.applyEdits edits) := by
  induction edits generalizing config with
  | nil => exact h
  | cons edit edits ih => exact ih (h.applySettings edit.1 edit.2)

theorem Reloads.ofText_text {path : Path} (h : Reloads path config) (hpath : Format.ofPath path = .json) :
    ofText path config.text = .ok config := by
  obtain ⟨_, _, entries⟩ := config
  obtain ⟨rfl, rfl, hstorable, hdistinct⟩ := h
  have hread : Json.readMap (Json.printMap entries ++ "\n") = some entries :=
    Json.readMap_printMap hstorable hdistinct
  simp only [ofText, hpath, text, hread]

/-- What is saved is what the file holds afterwards. -/
theorem read_of_save {tree files : FileTree} {location : Location} {old : String}
    (hread : tree.readAt config.path = .ok (location, old)) (hsave : config.save tree = .ok files) :
    Config.read files config.path = ofText config.path config.text := by
  rw [save] at hsave
  split at hsave
  · rename_i written hwrite
    cases hsave
    have hnew := (FileTree.readAt_write hread hwrite).1
    simp only [Config.read, FileTree.read, hnew, bind, Except.bind, pure, Except.pure]
  · cases hsave

/-- A configuration that was read from JSON, all its numbers as integers, is read back from the text that it has after any
settings, with the same entries in the same order, and that text comes out again. So it is read back from the file that
it is saved in. -/
theorem reload_applyEdits {path : Path} {text : String} (hread : ofText path text = .ok config)
    (hformat : config.format = .json) (hfloat : (Data.map config.entries).FloatFree)
    (edits : List (String × Settings)) :
    (∃ again, ofText path (config.applyEdits edits).text = .ok again ∧
      again.entries = (config.applyEdits edits).entries ∧ again.text = (config.applyEdits edits).text) ∧
    ∀ (tree files : FileTree) (location : Location) (old : String), tree.readAt path = .ok (location, old) →
      (config.applyEdits edits).save tree = .ok files → Config.read files path = .ok (config.applyEdits edits) := by
  have hreloads := (reloads_ofText hread hformat hfloat).applyEdits edits
  have hpath : Format.ofPath path = .json := (format_of_ofText hread).2 ▸ hformat
  have hagain := hreloads.ofText_text hpath
  refine ⟨⟨_, hagain, rfl, rfl⟩, fun tree files location old hold hsave => ?_⟩
  have hfile := hreloads.path
  rw [← hfile] at hold hagain ⊢
  rw [read_of_save hold hsave, hagain]

/-- The greatest and the least integer, and a control character. -/
def listedText : String :=
  "\x7b\"schemaPath\": \"s\", \"x\": [18446744073709551615, -9223372036854775808, \x7b\x7d, \"\\u0001\"]\x7d"

def listedConfig : Config := ⟨⟨".f"⟩, .json, [("schemaPath", .text "s"),
  ("x", .list [.integer Data.greatestInteger, .integer Data.leastInteger, .map [], .text "\x01"])]⟩

def listedEdits : List (String × Settings) := [("default", ⟨"a\"\\\n\x01é", "js"⟩), ("other", ⟨"", ""⟩)]

def listedTree : FileTree := ⟨[], [([".f"], .file (some listedText))]⟩

theorem save_listedConfig : (listedConfig.applyEdits listedEdits).save listedTree =
    .ok (listedTree.put [".f"] (.file (some (listedConfig.applyEdits listedEdits).text))) := by
  have hfind : listedTree.find ⟨".f"⟩ = .ok ([".f"], some (.file (some listedText))) := by cbv
  have hwrite : listedTree.write ⟨".f"⟩ (listedConfig.applyEdits listedEdits).text =
      .ok (listedTree.put [".f"] (.file (some (listedConfig.applyEdits listedEdits).text))) :=
    FileTree.write_of_find (by decide) hfind (by simp)
  have hpath : (listedConfig.applyEdits listedEdits).path = ⟨".f"⟩ := rfl
  rw [save, hpath, hwrite]

theorem listedConfig_reloads : ofText ⟨".f"⟩ listedText = .ok listedConfig ∧ listedConfig.format = .json ∧
    (Data.map listedConfig.entries).FloatFree ∧
    (∃ again, ofText ⟨".f"⟩ (listedConfig.applyEdits listedEdits).text = .ok again ∧
      again.entries = listedConfig.entries ++ [("extensions", .map [("generate-fragments",
        .map [("output", .text "a\"\\\n\x01é"), ("generator", .text "js")])])]) ∧
    ∃ files, (listedConfig.applyEdits listedEdits).save listedTree = .ok files ∧
      Config.read files ⟨".f"⟩ = .ok (listedConfig.applyEdits listedEdits) := by
  have hread : ofText ⟨".f"⟩ listedText = .ok listedConfig := by cbv
  have hempty : (Data.map []).FloatFree := .map (by simp)
  have hlist : (Data.list [.integer Data.greatestInteger, .integer Data.leastInteger, .map [], .text "\x01"]).FloatFree :=
    .list (by simp [Data.FloatFree.integer, Data.FloatFree.text, hempty])
  have hfloat : (Data.map listedConfig.entries).FloatFree :=
    .map (by simp [listedConfig, Data.FloatFree.text, hlist])
  have hfile : listedTree.readAt ⟨".f"⟩ = .ok ([".f"], listedText) := by cbv
  obtain ⟨⟨again, hagain, hentries, -⟩, hsaved⟩ := reload_applyEdits hread rfl hfloat listedEdits
  exact ⟨hread, rfl, hfloat, ⟨again, hagain, hentries⟩, _, save_listedConfig,
    hsaved _ _ _ _ hfile save_listedConfig⟩

end Config

end SchemaFragments
