import SchemaFragments.Proofs.Combining
import SchemaFragments.Proofs.Linking
/-!
# Reading a combined document again

The combined document of a schema with imports is printed from definitions that were all read, but it is
not always read again. It is exactly when no float of them is written as an integer out of range or as minus
infinity, and the least indent of every block string ends inside no character of its lines.
-/

namespace SchemaFragments

/-! ## Printed definitions -/

namespace Document

/-- The token of a word has a value only if the word has one. -/
theorem Word.Is.hasValue {word : Word} {token : Token} (his : word.Is token) (h : token.HasValue) :
    word.HasValue := by
  obtain ⟨position, rfl⟩ := his
  cases word with
  | punct | name | int => trivial
  | float value =>
    intro n hwhole
    rw [Option.mem_def] at hwhole
    have hkind : (Word.float value).kind = .int := by
      cases value with
      | infinite => cases hwhole
      | finite => simp [Word.kind, Number.Binary64.isFinite, hwhole]
    have hnumber : integerOfText (Word.float value).text = n := integerOfText_eq (Number.writesInteger_float hwhole)
    simpa [Token.HasValue, Word.token, hkind, hnumber] using h
  | string depth text =>
    intro hblock
    have hkind : (Word.string depth text).kind = .blockString := by simp [Word.kind, hblock]
    have htext : String.ofList (Word.string depth text).text = printString depth text := String.ofList_toList
    rw [← isSome_decodeBlockString_blockText depth text, ← innerText_block hblock]
    simpa [Token.HasValue, Word.token, hkind, htext] using h

theorem forall_hasValue {words : List Word} {tokens : List Token} (his : List.Forall₂ Word.Is words tokens)
    (h : ∀ token ∈ tokens, token.HasValue) : ∀ word ∈ words, word.HasValue := by
  induction his with
  | nil => simp
  | cons hword _ ih =>
    obtain ⟨htoken, htokens⟩ := List.forall_mem_cons.1 h
    exact List.forall_mem_cons.2 ⟨hword.hasValue htoken, ih htokens⟩

/-- All that is written for a definition is read again. -/
def Definition.Rereadable (definition : Definition) : Prop :=
  ∀ word ∈ definition.words, word.HasToken ∧ word.HasValue

instance : DecidablePred Definition.Rereadable := fun _ => inferInstanceAs (Decidable (∀ _ ∈ _, _))

/-- A text that spells regular definitions is parsed exactly if all of these are read again. -/
theorem exists_parse_iff {document : List Definition} {text : String} (hne : document ≠ [])
    (hselectable : ∀ definition ∈ document, Import.isSelectable definition = true)
    (h : ∀ definition ∈ document, definition.Regular) (hspells : Spells text.toList (documentWords document)) :
    (∃ read, parse text = .ok read) ↔ ∀ definition ∈ document, definition.Rereadable := by
  have hwords : (∀ definition ∈ document, definition.Rereadable) ↔
      ∀ word ∈ documentWords document, word.HasToken ∧ word.HasValue := by
    simp only [Definition.Rereadable, documentWords, List.mem_flatMap]
    constructor
    · rintro h word ⟨definition, hd, hw⟩
      exact h definition hd word hw
    · intro h definition hd word hw
      exact h word ⟨definition, hd, hw⟩
  rw [hwords]
  constructor
  · -- tokens without a fault are those of the words, and have the values that the grammar asked for
    rintro ⟨read, hread⟩ word hw
    obtain ⟨-, hfault, hvalues⟩ := of_parse hread
    have hfits : Fits 0 (documentWords document) := fits_flatMap fun definition hd => (h definition hd).fits
    obtain ⟨hiff, htokens⟩ := tokensFrom_spells hspells hfits.1 0 ⟨1, 1⟩
    exact ⟨(hiff.1 hfault).2 word hw, forall_hasValue (htokens hfault) hvalues word hw⟩
  · intro hall
    obtain ⟨read, hread, -⟩ := parse_of_spells hne hselectable h hspells hall
    exact ⟨read, hread⟩

end Document

/-! ## Errors of linking -/

namespace Schema

open Document

variable {error : LinkError} {document : List Definition}

theorem bind_ne_error {α β : Type} {first : Except LinkError α} {next : α → Except LinkError β}
    (hfirst : first ≠ .error error) (hnext : ∀ value, next value ≠ .error error) :
    first >>= next ≠ .error error := by
  cases first with
  | error other => simpa [bind, Except.bind] using hfirst
  | ok value => exact hnext value

theorem foldlM_add_ne_parse {error : ParseError} (declared : Declarations) :
    document.foldlM Declarations.add declared ≠ .error (.parse error) := by
  induction document generalizing declared with
  | nil => simp [pure, Except.pure]
  | cons definition document ih =>
    rw [List.foldlM_cons]
    refine bind_ne_error ?_ ih
    cases definition with
    | schema | type => simp only [Declarations.add]; split_ifs <;> simp
    | extension | directive => simp [Declarations.add]

theorem checkedRoot_ne_parse {error : ParseError} (kinds : Kinds) (schema : SchemaDefinition)
    (operation : Operation) : checkedRoot kinds schema operation ≠ .error (.parse error) := by
  unfold checkedRoot
  split
  · simp
  · split <;> simp

theorem ofDocument_ne_parse (error : ParseError) : ofDocument document ≠ .error (.parse error) := by
  refine bind_ne_error (foldlM_add_ne_parse _) fun declared => bind_ne_error ?_ fun roots => by simp [pure, Except.pure]
  cases declared.schema with
  | none => simp [rootsOf]
  | some schema =>
    exact bind_ne_error (checkedRoot_ne_parse _ _ _) fun _ => bind_ne_error (checkedRoot_ne_parse _ _ _) fun _ =>
      bind_ne_error (checkedRoot_ne_parse _ _ _) fun _ => by simp [pure, Except.pure]

/-- A text is refused as one that does not parse exactly if it does not. -/
theorem parse_eq_parse_error_iff {text : String} {error : ParseError} :
    parse text = .error (.parse error) ↔ Document.parse text = .error error := by
  unfold parse
  cases hparse : Document.parse text with
  | error other => simp [Except.mapError, bind, Except.bind]
  | ok document => simpa [Except.mapError, bind, Except.bind] using ofDocument_ne_parse error

end Schema

namespace Import

open Document

/-! ## Combined documents -/

theorem load_eq_ok {tree : FileTree} {path : Path} {source : Source} (h : load tree path = .ok source) :
    ∃ loader selected, loadFiles tree path = .ok loader ∧ select loader.files = .ok selected ∧
      source = Source.combine loader.files selected := by
  unfold load at h
  cases hload : loadFiles tree path with
  | error error => simp [hload, bind, Except.bind] at h
  | ok loader =>
    simp only [hload, bind, Except.bind] at h
    split at h
    · cases h
    cases hselect : select loader.files with
    | error problems => simp [hselect, throw, throwThe, MonadExceptOf.throw] at h
    | ok selected =>
      simp only [hselect] at h
      exact ⟨loader, selected, rfl, hselect, (Except.ok.inj h).symm⟩

/-- The combined document of a schema with at least one definition parses exactly if all the definitions
that are emitted are read again. -/
theorem load_reread_iff {tree : FileTree} {path : Path} {source : Source} (h : load tree path = .ok source)
    (hne : source.segments ≠ []) : ∃ selected, select source.files = .ok selected ∧
      ((∀ error, Schema.parse source.contents ≠ .error (.parse error)) ↔
        ∀ definition ∈ emitted source.files selected, definition.Rereadable) := by
  obtain ⟨loader, selected, hload, hselect, rfl⟩ := load_eq_ok h
  rw [files_combine]
  refine ⟨selected, hselect, ?_⟩
  have hemittable := emittable_emitted hselect (parsed_loadFiles hload)
  have hemitted : emitted loader.files selected ≠ [] := by
    rwa [ne_eq, ← List.length_eq_zero_iff, length_segments_combine, List.length_eq_zero_iff] at hne
  -- errors of linking are no errors of parsing, so it is left to show when the text parses
  rw [← exists_parse_iff hemitted (fun definition hd => (hemittable definition hd).1)
    (fun definition hd => (hemittable definition hd).2) (spells_combine hemittable)]
  simp only [ne_eq, Schema.parse_eq_parse_error_iff]
  cases Document.parse (Source.combine loader.files selected).contents <;> simp

/-- A schema of one file without directives. -/
theorem load_single {tree : FileTree} {path : Path} {location : Location} {text : String}
    {p : List SchemaFile → List Selected → Bool} (hread : tree.readAt path = .ok (location, text))
    (hdirectives : directives text = []) (hholds : holdsDefinitions text = true)
    (h : (Document.parse text).toOption.any (fun document =>
      (select [⟨path, location, text, document, []⟩]).toOption.any
        (p [⟨path, location, text, document, []⟩])) = true) :
    ∃ files selected, load tree path = .ok (Source.combine files selected) ∧ select files = .ok selected ∧
      p files selected = true := by
  obtain ⟨document, hparse, h⟩ := exists_ok_of_any h
  obtain ⟨selected, hselect, hp⟩ := exists_ok_of_any h
  refine ⟨_, selected, ?_, hselect, hp⟩
  have hfiles : loadFiles tree path = .ok ⟨[⟨path, location, text, document, []⟩], []⟩ := by
    simp [loadFiles, hread, Loader.addFile, hdirectives, hholds, hparse, Loader.empty, Loader.follow]
  simp [load, hfiles, hselect, bind, Except.bind, pure, Except.pure]

/-- A schema that imports another file, which has no directives. -/
theorem load_pair {tree : FileTree} {path path' : Path} {location location' : Location} {text text' : String}
    {p : List SchemaFile → List Selected → Bool} (line : Nat) (directive : Directive)
    (hread : tree.readAt path = .ok (location, text)) (hdirectives : directives text = [(line, directive)])
    (hpath : path.directory.join ⟨directive.path⟩ = path') (hread' : tree.readAt path' = .ok (location', text'))
    (hdirectives' : directives text' = []) (hother : location' ≠ location) (hholds : holdsDefinitions text = true)
    (hholds' : holdsDefinitions text' = true)
    (h : (Document.parse text).toOption.any (fun document => (Document.parse text').toOption.any fun document' =>
      let files := [⟨path, location, text, document, [⟨1, directive.selection, ⟨line, directive.column⟩⟩]⟩,
        ⟨path', location', text', document', []⟩]
      (select files).toOption.any (p files)) = true) :
    ∃ files selected, load tree path = .ok (Source.combine files selected) ∧ select files = .ok selected ∧
      p files selected = true := by
  obtain ⟨document, hparse, h⟩ := exists_ok_of_any h
  obtain ⟨document', hparse', h⟩ := exists_ok_of_any h
  obtain ⟨selected, hselect, hp⟩ := exists_ok_of_any h
  refine ⟨_, selected, ?_, hselect, hp⟩
  have hadd : (⟨[⟨path, location, text, document, []⟩], []⟩ : Loader).addFile path' location' text' =
      some (⟨[⟨path, location, text, document, []⟩, ⟨path', location', text', document', []⟩], []⟩, []) := by
    simp [Loader.addFile, hdirectives', hholds', hparse']
  have hfollow (site : Site) : (⟨[⟨path, location, text, document, []⟩], []⟩ : Loader).follow tree
      [⟨0, site, path', directive.selection⟩] = some
        ⟨[⟨path, location, text, document, [⟨1, directive.selection, site.position⟩]⟩,
          ⟨path', location', text', document', []⟩], []⟩ := by
    rw [Loader.follow]
    split
    · rename_i hr
      rw [hread'] at hr
      cases hr
    · rename_i hr
      rw [hread'] at hr
      obtain ⟨rfl, rfl⟩ := Prod.mk.inj (Except.ok.inj hr)
      rw [if_neg (by simpa [Loader.identities] using hother)]
      split
      · rename_i ha
        rw [hadd] at ha
        cases ha
      · rename_i ha
        rw [hadd] at ha
        obtain ⟨rfl, rfl⟩ := Prod.mk.inj (Option.some.inj ha)
        simp [Loader.follow, Loader.link]
  have hfiles : loadFiles tree path = .ok
      ⟨[⟨path, location, text, document, [⟨1, directive.selection, ⟨line, directive.column⟩⟩]⟩,
        ⟨path', location', text', document', []⟩], []⟩ := by
    simp [loadFiles, hread, Loader.addFile, hdirectives, hholds, hparse, Loader.empty, hpath, hfollow]
  simp [load, hfiles, hselect, bind, Except.bind, pure, Except.pure]

def fileTree (text : String) : FileTree where
  workingDirectory := ["w"]
  entries := [(["w"], .directory), (["w", "a"], .file (some text))]

def noteText : String :=
  "type Query \x7b weigh(limit: Float = 1e3): Int @note(text: \"two\\n  lines\") \x7d\n"

/-- The float is written as an integer and the string as a block string, and both are read again. -/
theorem note_reread : ∃ source, load (fileTree noteText) ⟨"a"⟩ = .ok source ∧ source.segments ≠ [] ∧
    (∃ selected, select source.files = .ok selected ∧
      ∀ definition ∈ emitted source.files selected, definition.Rereadable) ∧
    ∀ error, Schema.parse source.contents ≠ .error (.parse error) := by
  have hread : (fileTree noteText).readAt ⟨"a"⟩ = .ok (["w", "a"], noteText) := by cbv
  obtain ⟨files, selected, hload, hselect, hp⟩ := load_single (p := fun files selected =>
    !(Source.combine files selected).segments.isEmpty &&
      decide (∀ definition ∈ emitted files selected, definition.Rereadable)) hread
    (by decide +kernel) (by decide +kernel) (by decide +kernel)
  obtain ⟨hsegments, hall⟩ := Bool.and_eq_true_iff.1 hp
  have hne : (Source.combine files selected).segments ≠ [] := by simpa using hsegments
  have hall := of_decide_eq_true hall
  obtain ⟨selected', hselect', hiff⟩ := load_reread_iff hload hne
  rw [files_combine] at hselect' hiff
  obtain rfl : selected' = selected := Except.ok.inj (hselect'.symm.trans hselect)
  exact ⟨_, hload, hne, ⟨selected', (files_combine ..).symm ▸ hselect, (files_combine ..).symm ▸ hall⟩, hiff.2 hall⟩

def wholeFloatText : String := "type Query { weigh(limit: Float = 1e21): Int }\n"

def wholeFloatContents : String :=
  "type Query \x7b\n  weigh(limit: Float = 1000000000000000000000): Int\n\x7d\n"

/-- Floats are written without an exponent and whole ones without a point, so `1e21` is written as an
integer, and no integer of that size is read. -/
theorem wholeFloat_not_reread : ∃ source, load (fileTree wholeFloatText) ⟨"a"⟩ = .ok source ∧
    source.segments ≠ [] ∧
    Schema.parse source.contents = .error (.parse (.malformed ⟨2, 24⟩ [.integerTooLarge])) := by
  have hread : (fileTree wholeFloatText).readAt ⟨"a"⟩ = .ok (["w", "a"], wholeFloatText) := by cbv
  obtain ⟨files, selected, hload, -, hp⟩ := load_single (p := fun files selected =>
    !(Source.combine files selected).segments.isEmpty &&
      (Source.combine files selected).contents == wholeFloatContents) hread
    (by decide +kernel) (by decide +kernel) (by decide +kernel)
  obtain ⟨hsegments, hcontents⟩ := Bool.and_eq_true_iff.1 hp
  refine ⟨_, hload, by simpa using hsegments, ?_⟩
  have hagain : (Document.parse wholeFloatContents).map (fun _ => ()) =
      .error (.malformed ⟨2, 24⟩ [.integerTooLarge]) := by
    decide +kernel
  rw [Schema.parse_eq_parse_error_iff, beq_iff_eq.1 hcontents]
  cases hparse : Document.parse wholeFloatContents with
  | ok document => simp [hparse, Except.map] at hagain
  | error error => simpa [hparse, Except.map] using hagain

end Import

end SchemaFragments
