import SchemaFragments.Proofs.CommentLines
import SchemaFragments.Proofs.Rewriting
import SchemaFragments.Proofs.Saving
/-!
# Regrouped imports

The names that a directive asks for can be listed in any order, once or several times, by one directive or by several
for the same path in its place: `load_regrouped`.
-/

namespace SchemaFragments.Import

open Document
open Text (EndsLine WrittenLines)

/-- A directive for some types of the file at a path. -/
def NamesTypesFrom (path : String) (line : List Char) : Prop :=
  ∃ directive, readDirective line = some directive ∧ directive.path = path ∧ directive.selection ≠ .wholeFile

instance (path : String) : DecidablePred (NamesTypesFrom path) := fun line =>
  decidable_of_iff (∃ directive ∈ readDirective line, directive.path = path ∧ directive.selection ≠ .wholeFile) Iff.rfl

variable {path : String} {line : List Char} {lines : List (List Char)} {before rest old new : List Char}

theorem NamesTypesFrom.ne_nil (h : NamesTypesFrom path line) : line ≠ [] := by
  rintro rfl
  obtain ⟨directive, hd, -⟩ := h
  cases hd

theorem NamesTypesFrom.of_read {directive : Directive} (h : NamesTypesFrom path line)
    (hread : readDirective line = some directive) : directive.path = path ∧ directive.selection ≠ .wholeFile := by
  obtain ⟨same, hsame, hsaid⟩ := h
  obtain rfl := Option.some.inj (hread.symm.trans hsame)
  exact hsaid

/-- Directives that list the names of another one together are parts of it. -/
theorem splitInto_lines {directive : Directive} (hd : readDirective line = some directive) (hne : lines ≠ [])
    (hpath : directive.path = path) (hwhole : directive.selection ≠ .wholeFile)
    (hlines : ∀ line ∈ lines, NamesTypesFrom path line)
    (hnames : ∀ name, name ∈ listedNames line ↔ ∃ part ∈ lines, name ∈ listedNames part) :
    directive.SplitInto (lines.filterMap readDirective) := by
  -- each part is the directive of one of the lines
  have hpart {Q : Selection → Prop} : (∃ part ∈ lines.filterMap readDirective, Q part.selection) ↔
      ∃ line ∈ lines, ∃ part, readDirective line = some part ∧ Q part.selection := by
    constructor
    · rintro ⟨part, hp, hq⟩
      obtain ⟨line, hl, hread⟩ := List.mem_filterMap.1 hp
      exact ⟨line, hl, part, hread, hq⟩
    · rintro ⟨line, hl, part, hread, hq⟩
      exact ⟨part, List.mem_filterMap.2 ⟨line, hl, hread⟩, hq⟩
  constructor
  case path =>
    intro part hp
    obtain ⟨line, hl, hread⟩ := List.mem_filterMap.1 hp
    exact ((hlines line hl).of_read hread).1.trans hpath.symm
  case requests =>
    intro Q hQ
    rw [hpart]
    cases hQ with
    | anything =>
      obtain ⟨line, hl⟩ := List.exists_mem_of_ne_nil lines hne
      obtain ⟨part, hread, -⟩ := hlines line hl
      exact ⟨fun _ => ⟨line, hl, part, hread, trivial⟩, fun _ => trivial⟩
    | wholeFile =>
      refine iff_of_false hwhole ?_
      rintro ⟨line, hl, part, hread, hq⟩
      exact ((hlines line hl).of_read hread).2 hq
    | type hP name =>
      rw [asksOf_iff hd hwhole hP]
      constructor
      · rintro ⟨item, hi, hitem⟩
        obtain ⟨line, hl, hi⟩ := (hnames item).1 hi
        obtain ⟨part, hread, -, hnamed⟩ := hlines line hl
        exact ⟨line, hl, part, hread, (asksOf_iff hread hnamed hP).2 ⟨item, hi, hitem⟩⟩
      · rintro ⟨line, hl, part, hread, hasks⟩
        have hnamed := ((hlines line hl).of_read hread).2
        obtain ⟨item, hi, hitem⟩ := (asksOf_iff hread hnamed hP).1 hasks
        exact ⟨item, (hnames item).2 ⟨line, hl, hi⟩, hitem⟩

/-- A text with directives in the place of one that they are parts of. -/
theorem alikeTexts_regrouped {text text' : String} (htext : text.toList = before ++ old)
    (htext' : text'.toList = before ++ new) (hbefore : before = [] ∨ EndsLine before) (hold : WrittenLines rest [line] old)
    (hnew : WrittenLines rest lines new) (hpath : ∀ part ∈ line :: lines, NamesTypesFrom path part)
    (hnames : ∀ name, name ∈ listedNames line ↔ ∃ part ∈ lines, name ∈ listedNames part)
    (hcomments : holdsDefinitions text = true →
      (tokens (String.ofList before)).fault = none ∧ ∀ part ∈ line :: lines, IsComment part) : AlikeTexts text text' := by
  obtain ⟨hline, hlines⟩ := List.forall_mem_cons.1 hpath
  have hne : lines ≠ [] := by
    cases hnew <;> simp
  have hleft := Text.lines_append_written hbefore hold fun part hp => (hpath part (by simp_all)).ne_nil
  have hright := Text.lines_append_written hbefore hnew fun part hp => (hlines part hp).ne_nil
  rw [← htext] at hleft
  rw [← htext'] at hright
  constructor
  case reads =>
    intro definitions hread
    have hholds : holdsDefinitions text' = holdsDefinitions text := by
      refine holdsDefinitions_congr hleft hright fun part hp => ?_
      obtain ⟨directive, hd, -⟩ := hpath part (by simpa using hp)
      rw [hd]
      rfl
    unfold readText at hread ⊢
    rw [hholds]
    split at hread
    · rename_i hholds'
      rw [if_pos hholds']
      obtain ⟨hfault, hcomments⟩ := hcomments hholds'
      have htokens := tokens_commentLines hbefore hfault hold hnew (by simpa using hcomments)
      rw [← htext, ← htext', String.ofList_toList, String.ofList_toList] at htokens
      obtain ⟨definitions', hread', hsame⟩ := parse_unplaced htokens hread
      exact ⟨definitions', hread', hsame.symm⟩
    · rename_i hholds'
      rw [if_neg hholds']
      exact ⟨definitions, hread, rfl⟩
  case split =>
    obtain ⟨directive, hd, hdpath, hwhole⟩ := hline
    obtain ⟨parts, hparts, hflat⟩ := (splitInto_lines hd hne hdpath hwhole hlines hnames).exists_parts
      ((Text.lines before).filterMap readDirective) ((Text.lines rest).tail.filterMap readDirective)
    refine ⟨parts, ?_, ?_⟩
    · rwa [map_snd_directives, hleft, List.append_assoc, List.filterMap_append, List.singleton_append,
        List.filterMap_cons_some hd]
    · rwa [map_snd_directives, hright, List.filterMap_append, List.filterMap_append]

/-- A directive for types of a file can be replaced by any directives for the same path that list the same names
together: the schema is loaded as before. Where the file holds definitions the lines have to be comments. -/
theorem load_regrouped {tree : FileTree} {root : Path} {source : Source} {file : SchemaFile} {text : String}
    (h : load tree root = .ok source) (hfile : file ∈ source.files) (hcontents : file.contents.toList = before ++ old)
    (htext : text.toList = before ++ new) (hbefore : before = [] ∨ EndsLine before) (hold : WrittenLines rest [line] old)
    (hnew : WrittenLines rest lines new) (hpath : ∀ part ∈ line :: lines, NamesTypesFrom path part)
    (hnames : ∀ name, name ∈ listedNames line ↔ ∃ part ∈ lines, name ∈ listedNames part)
    (hcomments : holdsDefinitions file.contents = true →
      (tokens (String.ofList before)).fault = none ∧ ∀ part ∈ line :: lines, IsComment part) :
    ∃ source', load (tree.put file.identity (.file (some text))) root = .ok source' ∧
      source'.contents = source.contents := by
  obtain ⟨loader, selected, hload, hselect, rfl⟩ := load_eq_ok h
  rw [files_combine] at hfile
  obtain ⟨hloaded, -⟩ := loads_of_loadFiles hload (problems_of_load h hload)
  have hentry {file : SchemaFile} (hf : file ∈ loader.files) :
      tree.entryAt file.identity = some (.file (some file.contents)) :=
    FileTree.entryAt_of_find (FileTree.readAt_eq_ok_iff.1 (hloaded.read file hf))
  have htree : Rewrites tree (tree.put file.identity (.file (some text)))
      fun place contents => if place = file.identity then text else contents :=
    fun path => FileTree.readAt_put (hentry hfile) path
  refine load_rewritten htree h fun other ho => ?_
  rw [files_combine] at ho
  by_cases hsame : other.identity = file.identity
  · have hother := hentry ho
    rw [hsame, hentry hfile] at hother
    obtain hother : file.contents = other.contents := Option.some.inj (Entry.file.inj (Option.some.inj hother))
    rw [if_pos hsame, ← hother]
    exact alikeTexts_regrouped hcontents htext hbefore hold hnew hpath hnames hcomments
  · rw [if_neg hsame]
    exact AlikeTexts.refl _

def groupedLine : List Char := "# import A.y, A.x from \"b\"".toList

def regroupedLines : List (List Char) := ["# import A.x from 'b'".toList, "# import A.y,A.x from \"b\"".toList]

/-- Directives in front of a type that refers to one of another file. -/
def bookText (lines : List (List Char)) : String :=
  String.ofList (['\n'].intercalate (lines ++ ["type Query \x7b a: A \x7d".toList]))

def bookTree : FileTree where
  workingDirectory := ["w"]
  entries := [(["w"], .directory), (["w", "a"], .file (some (bookText [groupedLine]))),
    (["w", "b"], .file (some "type A \x7b x: Int y: Int z: Int \x7d"))]

theorem bookTree_selected : (Document.parse (bookText [groupedLine])).toOption.any (fun document =>
    (Document.parse "type A \x7b x: Int y: Int z: Int \x7d").toOption.any fun document' =>
      let files := [⟨⟨"a"⟩, ["w", "a"], bookText [groupedLine], document,
          [⟨1, .types [("A", .only ["y", "x"])], ⟨1, 25⟩⟩]⟩,
        ⟨⟨"b"⟩, ["w", "b"], "type A \x7b x: Int y: Int z: Int \x7d", document', []⟩]
      (select files).toOption.any fun _ => files.any fun file =>
        decide (file.identity = ["w", "a"] ∧ file.contents = bookText [groupedLine])) = true := by
  decide +kernel

theorem listedNames_regroupedLines (name : List Char) :
    name ∈ listedNames groupedLine ↔ ∃ part ∈ regroupedLines, name ∈ listedNames part := by
  have hgrouped : listedNames groupedLine = ["A.y".toList, "A.x".toList] := by decide +kernel
  have hregrouped : regroupedLines.map listedNames = [["A.x".toList], ["A.y".toList, "A.x".toList]] := by decide +kernel
  have hparts : (∃ part ∈ regroupedLines, name ∈ listedNames part) ↔
      ∃ names ∈ regroupedLines.map listedNames, name ∈ names := by simp
  rw [hparts, hregrouped, hgrouped]
  simp only [List.mem_cons, List.not_mem_nil, or_false, exists_eq_or_imp, exists_eq_left]
  tauto

theorem regroupedLines_load_alike : ∃ source source', load bookTree ⟨"a"⟩ = .ok source ∧
    load (bookTree.put ["w", "a"] (.file (some (bookText regroupedLines)))) ⟨"a"⟩ = .ok source' ∧
      source'.contents = source.contents := by
  have hread : bookTree.readAt ⟨"a"⟩ = .ok (["w", "a"], bookText [groupedLine]) := by cbv
  have hread' : bookTree.readAt ⟨"b"⟩ = .ok (["w", "b"], "type A \x7b x: Int y: Int z: Int \x7d") := by cbv
  obtain ⟨files, selected, hload, -, hp⟩ := load_pair (p := fun files _ => files.any fun file =>
      decide (file.identity = ["w", "a"] ∧ file.contents = bookText [groupedLine]))
    1 ⟨"b", 25, .types [("A", .only ["y", "x"])]⟩ hread (by decide +kernel) (by decide +kernel) hread'
    (by decide +kernel) (by decide) (by decide +kernel) (by decide +kernel) bookTree_selected
  obtain ⟨file, hf, hfile⟩ := List.any_eq_true.1 hp
  obtain ⟨hidentity, hcontents⟩ := of_decide_eq_true hfile
  have hpath : ∀ part ∈ groupedLine :: regroupedLines, NamesTypesFrom "b" part := by decide +kernel
  have hends (line : List Char) (hline : '\n' ∉ line) (hreturn : line.getLast? ≠ some '\r') :
      WrittenLines "\ntype Query \x7b a: A \x7d".toList [line] (line ++ "\ntype Query \x7b a: A \x7d".toList) :=
    .last hline (.inr ⟨['\n'], _, .newline hreturn, rfl⟩)
  have hold := hends groupedLine (by decide) (by decide)
  have hfirst : '\n' ∉ "# import A.x from 'b'".toList := by decide
  have hnew := WrittenLines.cons hfirst (.newline (by decide))
    (hends "# import A.y,A.x from \"b\"".toList (by decide) (by decide))
  obtain ⟨source', hload', hsame⟩ := load_regrouped hload (by rw [files_combine]; exact hf) (by rw [hcontents]; rfl)
    (show (bookText regroupedLines).toList = [] ++ _ from rfl) (.inl rfl) hold hnew hpath listedNames_regroupedLines
    (fun _ => ⟨by cbv, by decide +kernel⟩)
  rw [hidentity] at hload'
  exact ⟨_, source', hload, hload', hsame⟩

end SchemaFragments.Import
