import SchemaFragments.Proofs.CommentDirectives
import SchemaFragments.Proofs.DocumentNames
import SchemaFragments.Proofs.FragmentTexts
import SchemaFragments.Proofs.Projects
/-!
# Directives that are written

All the ways to write a directive down, and what each of them asks for: `readDirective_written`.
-/

namespace SchemaFragments.Import

open Document (IsName isNameChar)

/-! ## Items -/

/-- A name of a type or a field. -/
abbrev Name := { name : String // IsName name }

/-- What stands between two commas of a directive. -/
inductive Item where
  | wildcard
  | type (name : Name)
  | whole (name : Name)
  | field (name field : Name)
deriving DecidableEq

namespace Item

def text : Item → List Char
  | wildcard => ['*']
  | type name => name.1.toList
  | whole name => name.1.toList ++ ['.', '*']
  | field name kept => name.1.toList ++ '.' :: kept.1.toList

/-- The type that an item is about. -/
def type? : Item → Option String
  | wildcard => none
  | type name | whole name | field name _ => some name.1

/-- Whether an item asks for all of a type. -/
def asksAll (name : String) : Item → Bool
  | type other | whole other => other.1 == name
  | wildcard | field .. => false

/-- The field of a type that an item asks for. -/
def field? (name : String) : Item → Option String
  | field other kept => if other.1 = name then some kept.1 else none
  | wildcard | type _ | whole _ => none

end Item

/-- What a list of items keeps of a type: all of it if some item asks for that, else the fields in the order of their
first mention. -/
def keptOf (items : List Item) (name : String) : FieldFilter :=
  if items.any (·.asksAll name) then .all else .only (items.filterMap (·.field? name)).eraseDups

/-- What a list of items asks for: the whole file if there is a `*` in it, else the types in the order of their first
mention. -/
def requested (items : List Item) : Selection :=
  if .wildcard ∈ items then .wholeFile
  else .types ((items.filterMap Item.type?).eraseDups.map fun name => (name, keptOf items name))

section Items

variable {items : List Item} {item : Item} {name : String} {names : List String}

/-! ### Items one by one -/

theorem name_ne_nil (name : Name) : name.1.toList ≠ [] := by
  obtain ⟨first, rest, htext, -⟩ := name.2
  rw [htext]
  exact List.cons_ne_nil first rest

theorem ne_of_mem_name {name : Name} {c d : Char} (h : c ∈ name.1.toList) (hd : isNameChar d = false) : c ≠ d := by
  rintro rfl
  rw [name.2.all c h] at hd
  cases hd

theorem takeWhile_name (name : Name) (rest : List Char) :
    (name.1.toList ++ '.' :: rest).takeWhile (· ≠ '.') = name.1.toList ∧
      (name.1.toList ++ '.' :: rest).dropWhile (· ≠ '.') = '.' :: rest := by
  have hname : ∀ c ∈ name.1.toList, decide (c ≠ '.') = true := fun c hc => decide_eq_true (ne_of_mem_name hc rfl)
  rw [List.takeWhile_append_of_pos hname, List.dropWhile_append_of_pos hname]
  simp

theorem readItem_type (name : Name) : readItem name.1.toList = (name.1, .all) := by
  have hname : ∀ c ∈ name.1.toList, decide (c ≠ '.') = true := fun c hc => decide_eq_true (ne_of_mem_name hc rfl)
  have htake : name.1.toList.takeWhile (· ≠ '.') = name.1.toList := List.takeWhile_eq_self_iff.2 hname
  have hdrop : name.1.toList.dropWhile (· ≠ '.') = [] := List.dropWhile_eq_nil_iff.2 hname
  simp only [readItem, htake, hdrop, String.ofList_toList]

theorem readItem_whole (name : Name) : readItem (name.1.toList ++ ['.', '*']) = (name.1, .all) := by
  obtain ⟨htake, hdrop⟩ := takeWhile_name name ['*']
  simp only [readItem, htake, hdrop, String.ofList_toList]

theorem readItem_field (name field : Name) :
    readItem (name.1.toList ++ '.' :: field.1.toList) = (name.1, .only [field.1]) := by
  obtain ⟨htake, hdrop⟩ := takeWhile_name name field.1.toList
  have hstar : '.' :: field.1.toList ≠ ['.', '*'] := by
    intro he
    obtain ⟨-, he⟩ := List.cons.inj he
    have hmem : '*' ∈ field.1.toList := by simp [he]
    exact ne_of_mem_name hmem rfl rfl
  unfold readItem
  simp only [htake, hdrop, String.ofList_toList]
  split
  · rename_i he
    cases he
  · exact absurd ‹_› hstar
  · rename_i he
    obtain ⟨-, rfl⟩ := List.cons.inj he
    rw [String.ofList_toList]

/-- An item with a name is read as the type that it is about, with what it asks for. -/
theorem readItem_text (h : item.type? = some name) : readItem item.text = (name, keptOf [item] name) := by
  cases item with
  | wildcard => cases h
  | type other =>
    cases h
    rw [Item.text, readItem_type]
    simp [keptOf, Item.asksAll]
  | whole other =>
    cases h
    rw [Item.text, readItem_whole]
    simp [keptOf, Item.asksAll]
  | field other kept =>
    cases h
    rw [Item.text, readItem_field]
    simp [keptOf, Item.asksAll, Item.field?, List.eraseDups_cons]

theorem text_eq_wildcard : item.text = ['*'] ↔ item = .wildcard := by
  constructor
  · intro h
    cases item with
    | wildcard => rfl
    | type name | whole name | field name kept =>
      obtain ⟨first, rest, htext, hstart, -⟩ := name.2
      simp only [Item.text, htext, List.cons_append, List.cons.injEq] at h
      rw [h.1] at hstart
      cases hstart
  · rintro rfl
    rfl

/-! ### Items together -/

theorem addNames_singleton (names : List String) (name : String) :
    FieldFilter.addNames names [name] = names ++ if name ∈ names then [] else [name] := by
  by_cases h : name ∈ names <;> simp [FieldFilter.addNames, h]

/-- What is kept of another type does not change with an item. -/
theorem keptOf_concat_of_ne (h : item.type? ≠ some name) : keptOf (items ++ [item]) name = keptOf items name := by
  have hall : item.asksAll name = false := by
    cases item with
    | wildcard | field => rfl
    | type other | whole other => simpa [Item.asksAll, Item.type?] using h
  have hfield : item.field? name = none := by
    cases item with
    | wildcard | type | whole => rfl
    | field other kept =>
      have hne : other.1 ≠ name := by simpa [Item.type?] using h
      simp [Item.field?, hne]
  simp [keptOf, hall, hfield]

theorem keptOf_of_notMem (h : name ∉ items.filterMap Item.type?) : keptOf items name = .only [] := by
  induction items using List.reverseRecOn with
  | nil => rfl
  | append_singleton items item ih =>
    rw [List.filterMap_append, List.mem_append, not_or] at h
    rw [keptOf_concat_of_ne fun hname => h.2 (by simp [hname]), ih h.1]

theorem keptOf_singleton (h : item.type? = some name) :
    keptOf [item] name = .all ∨ ∃ kept, keptOf [item] name = .only [kept] := by
  cases item with
  | wildcard => cases h
  | type | whole =>
    cases h
    exact .inl (by simp [keptOf, Item.asksAll])
  | field other kept =>
    cases h
    exact .inr ⟨kept.1, by simp [keptOf, Item.asksAll, Item.field?, List.eraseDups_cons]⟩

/-- What is kept of a type with one more item for it. -/
theorem keptOf_concat (h : item.type? = some name) :
    keptOf (items ++ [item]) name = (keptOf items name).merge (keptOf [item] name) := by
  have hone : item.asksAll name = true ∨ ∃ kept, item.asksAll name = false ∧ item.field? name = some kept := by
    cases item with
    | wildcard => cases h
    | type other | whole other =>
      cases h
      exact .inl (by simp [Item.asksAll])
    | field other kept =>
      cases h
      exact .inr ⟨kept.1, rfl, by simp [Item.field?]⟩
  by_cases hbefore : items.any (·.asksAll name) = true
  · have hafter : (items ++ [item]).any (·.asksAll name) = true := by simp [hbefore]
    rw [keptOf, if_pos hafter, keptOf, if_pos hbefore]
    rfl
  · have hplain : keptOf items name = .only (items.filterMap (·.field? name)).eraseDups := by rw [keptOf, if_neg hbefore]
    rcases hone with hall | ⟨kept, hall, hfield⟩
    · have hafter : (items ++ [item]).any (·.asksAll name) = true := by simp [hall]
      rw [keptOf, if_pos hafter, hplain, keptOf, if_pos (by simp [hall])]
      rfl
    · have hafter : ¬ (items ++ [item]).any (·.asksAll name) = true := by simpa [hall] using hbefore
      rw [keptOf, if_neg hafter, hplain, keptOf, if_neg (by simp [hall]), List.filterMap_append,
        List.filterMap_cons_some hfield, List.filterMap_nil, eraseDups_concat]
      simp [FieldFilter.merge, addNames_singleton, List.mem_eraseDups, List.eraseDups_cons]

/-- A filter is added to the entry of its type, or behind all entries. -/
theorem addType_map (hn : names.Nodup) (filterOf : String → FieldFilter) (filter : FieldFilter) :
    addType name filter (names.map fun other => (other, filterOf other)) =
      if name ∈ names then names.map fun other =>
        (other, if other = name then (filterOf other).merge filter else filterOf other)
      else (names.map fun other => (other, filterOf other)) ++ [(name, filter)] := by
  induction names with
  | nil => rfl
  | cons other names ih =>
    obtain ⟨hother, hn⟩ := List.nodup_cons.1 hn
    rw [List.map_cons, addType]
    by_cases he : other = name
    · subst he
      have hsame : ∀ later ∈ names, (later, if later = other then (filterOf later).merge filter else filterOf later) =
          (later, filterOf later) := fun later hl => by
        have hne : later ≠ other := fun heq => hother (heq ▸ hl)
        rw [if_neg hne]
      rw [if_pos rfl, if_pos (by simp), List.map_cons, if_pos rfl, List.map_congr_left hsame]
    · rw [if_neg he, ih hn]
      by_cases hm : name ∈ names
      · rw [if_pos hm, if_pos (.tail _ hm), List.map_cons, if_neg he]
      · have hm' : name ∉ other :: names := by simp [Ne.symm he, hm]
        rw [if_neg hm, if_neg hm', List.cons_append]

/-- Adding the items one after the other comes to what the list asks for. -/
theorem foldl_addType (h : ∀ item ∈ items, item ≠ .wildcard) :
    (items.map Item.text).foldl (fun types item => addType (readItem item).1 (readItem item).2 types) [] =
      (items.filterMap Item.type?).eraseDups.map fun name => (name, keptOf items name) := by
  induction items using List.reverseRecOn with
  | nil => rfl
  | append_singleton items item ih =>
    obtain ⟨name, hname⟩ : ∃ name, item.type? = some name := by
      cases item with
      | wildcard => exact absurd rfl (h _ (by simp))
      | type | whole | field => exact ⟨_, rfl⟩
    have hitems := ih fun item hm => h item (List.mem_append_left _ hm)
    have hnodup : (items.filterMap Item.type?).eraseDups.Nodup :=
      (pairwise_idxOf_eraseDups _).imp fun hlt he => absurd hlt (by rw [he]; exact Nat.lt_irrefl _)
    rw [List.map_append, List.foldl_append, hitems, List.map_singleton, List.foldl_cons, List.foldl_nil,
      readItem_text hname, addType_map hnodup, List.filterMap_append, List.filterMap_cons_some hname,
      List.filterMap_nil, eraseDups_concat]
    by_cases hm : name ∈ items.filterMap Item.type?
    · rw [if_pos (List.mem_eraseDups.2 hm), if_pos hm, List.append_nil]
      refine List.map_congr_left fun other ho => ?_
      by_cases he : other = name
      · subst he
        rw [if_pos rfl, keptOf_concat hname]
      · rw [if_neg he, keptOf_concat_of_ne (by simpa [hname] using Ne.symm he)]
    · rw [if_neg (mt List.mem_eraseDups.1 hm), if_neg hm, List.map_append, List.map_singleton]
      congr 1
      · refine List.map_congr_left fun other ho => ?_
        have he : name ≠ other := fun he => hm (he ▸ List.mem_eraseDups.1 ho)
        rw [keptOf_concat_of_ne (by simpa [hname] using he)]
      · rw [keptOf_concat hname, keptOf_of_notMem hm]
        rcases keptOf_singleton hname with hkept | ⟨kept, hkept⟩ <;> rw [hkept] <;> rfl

end Items

/-! ## Lines -/

/-- Any amount of white space. -/
abbrev Blanks := { blanks : List Char // ∀ c ∈ blanks, Text.isBlank c = true }

/-- The names of a directive: items between commas, with the word `from` behind them. -/
structure WrittenNames where
  /-- What stands between the word `import` and the first item. -/
  gap : Blanks
  gap_ne : gap.1 ≠ []
  first : Item
  /-- The other items, with what stands in front of the comma and behind it. -/
  others : List (Blanks × Blanks × Item)
  /-- What stands between the last item and the word `from`. -/
  gap' : Blanks
  gap'_ne : gap'.1 ≠ []

/-- A directive that is written down. -/
structure WrittenDirective where
  margin : Blanks
  /-- What stands between the `#` and the word `import`. -/
  indent : Blanks
  names : Option WrittenNames
  /-- What stands in front of the quote. -/
  gap : Blanks
  quote : Char
  isQuote : isQuote quote = true
  path : List Char
  path_ne : path ≠ []
  trailing : List Char
  notMem_trailing : quote ∉ trailing

/-- Items behind others, each with its comma. -/
def textOfOthers (others : List (Blanks × Blanks × Item)) : List Char :=
  others.flatMap fun (before, after, item) => before.1 ++ ',' :: (after.1 ++ item.text)

namespace WrittenNames

def items (names : WrittenNames) : List Item := names.first :: names.others.map (·.2.2)

/-- The items with their commas. -/
def list (names : WrittenNames) : List Char := names.first.text ++ textOfOthers names.others

def text (names : WrittenNames) : List Char := names.gap.1 ++ names.list ++ names.gap'.1 ++ "from".toList

end WrittenNames

namespace WrittenDirective

/-- What stands between the word `import` and the quote. -/
def head (written : WrittenDirective) : List Char := ((written.names.map WrittenNames.text).getD []) ++ written.gap.1

/-- What stands in front of the path. -/
def before (written : WrittenDirective) : List Char :=
  written.margin.1 ++ '#' :: (written.indent.1 ++ "import".toList ++ written.head ++ [written.quote])

def text (written : WrittenDirective) : List Char :=
  written.before ++ written.path ++ written.quote :: written.trailing

/-- The whole file without names. -/
def selection (written : WrittenDirective) : Selection :=
  (written.names.map fun names => requested names.items).getD .wholeFile

end WrittenDirective

/-! ### White space -/

section Trim

variable {lead body tail word rest : List Char}

/-- White space is taken off both ends of a text that neither starts nor ends with any. -/
theorem trim_append (hlead : ∀ c ∈ lead, Text.isBlank c = true) (htail : ∀ c ∈ tail, Text.isBlank c = true)
    (hfirst : ∀ c ∈ body.head?, Text.isBlank c = false) (hlast : ∀ c ∈ body.getLast?, Text.isBlank c = false) :
    Text.trim (lead ++ body ++ tail) = body := by
  have hstart : Text.trimStart (lead ++ body ++ tail) = if body = [] then [] else body ++ tail := by
    rw [Text.trimStart, List.append_assoc, List.dropWhile_append_of_pos hlead]
    cases body with
    | nil => rw [if_pos rfl, List.nil_append, List.dropWhile_eq_nil_iff.2 htail]
    | cons c body => rw [if_neg (List.cons_ne_nil _ _), List.cons_append, List.dropWhile_cons_of_neg (by simp [hfirst c rfl])]
  rw [Text.trim, hstart]
  split
  · rename_i hbody
    rw [hbody]
    rfl
  · rename_i hbody
    have htail' : ∀ c ∈ tail.reverse, Text.isBlank c = true := by simpa using htail
    rw [Text.trimEnd, List.reverse_append, List.dropWhile_append_of_pos htail']
    cases hback : body.reverse with
    | nil => simp [hbody] at hback
    | cons c back =>
      have hc : Text.isBlank c = false := hlast c (by rw [List.getLast?_eq_head?_reverse, hback]; rfl)
      rw [List.dropWhile_cons_of_neg (by simp [hc]), ← hback, List.reverse_reverse]

theorem cutWord_append_self (word rest : List Char) : cutWord word (word ++ rest) = some rest := by
  induction word with
  | nil => rw [List.nil_append, cutWord]
  | cons c word ih => rw [List.cons_append, cutWord, if_pos rfl, ih]

theorem trimStart_append_cons {c : Char} (hlead : ∀ c ∈ lead, Text.isBlank c = true) (hc : Text.isBlank c = false)
    (rest : List Char) : Text.trimStart (lead ++ c :: rest) = c :: rest := by
  rw [Text.trimStart, List.dropWhile_append_of_pos hlead, List.dropWhile_cons_of_neg (by simp [hc])]

end Trim

/-! ### Characters of items -/

/-- What all characters of an item are. -/
def isPlain (c : Char) : Bool := !Text.isBlank c && !isQuote c && c != ','

theorem isPlain_of_isNameChar {c : Char} (h : isNameChar c = true) : isPlain c = true := by
  have hblank : Text.isBlank c = false := by
    have hall : ∀ c ∈ Text.blankCodes.map Char.ofNat, isNameChar c = false := Document.forall_mem_of_all (by decide)
    by_contra hb
    exact Bool.false_ne_true ((hall c (Text.mem_of_isBlank (by simpa using hb))).symm.trans h)
  have hne (d : Char) (hd : isNameChar d = false) : c ≠ d := by
    rintro rfl
    exact Bool.false_ne_true (hd.symm.trans h)
  simp [isPlain, isQuote, hblank, hne '"' rfl, hne '\'' rfl, hne ',' rfl]

variable {item : Item} {written : WrittenDirective} {c : Char}

theorem isPlain_text (h : c ∈ item.text) : isPlain c = true := by
  cases item with
  | wildcard =>
    simp only [Item.text, List.mem_singleton] at h
    rw [h]
    decide
  | type name => exact isPlain_of_isNameChar (name.2.all c h)
  | whole name =>
    simp only [Item.text, List.mem_append, List.mem_cons, List.not_mem_nil, or_false] at h
    rcases h with h | rfl | rfl
    · exact isPlain_of_isNameChar (name.2.all c h)
    · decide
    · decide
  | field name kept =>
    simp only [Item.text, List.mem_append, List.mem_cons] at h
    rcases h with h | rfl | h
    · exact isPlain_of_isNameChar (name.2.all c h)
    · decide
    · exact isPlain_of_isNameChar (kept.2.all c h)

theorem of_isPlain (h : isPlain c = true) : Text.isBlank c = false ∧ isQuote c = false ∧ c ≠ ',' := by
  simpa [isPlain, and_assoc] using h

theorem text_ne_nil (item : Item) : item.text ≠ [] := by
  cases item with
  | wildcard => exact List.cons_ne_nil _ _
  | type name => exact name_ne_nil name
  | whole name | field name => exact List.append_ne_nil_of_left_ne_nil (name_ne_nil name) _

/-- White space is neither a quote nor a comma. -/
theorem of_isBlank (h : Text.isBlank c = true) : isQuote c = false ∧ c ≠ ',' := by
  have hall : ∀ c ∈ Text.blankCodes.map Char.ofNat, isQuote c = false ∧ c ≠ ',' := Document.forall_mem_of_all (by decide)
  exact hall c (Text.mem_of_isBlank h)

/-! ### The list of names -/

/-- The items of a list are read back, whatever white space stands around them. -/
theorem items_list {lead tail : List Char} (hlead : ∀ c ∈ lead, Text.isBlank c = true)
    (htail : ∀ c ∈ tail, Text.isBlank c = true) (first : Item) (others : List (Blanks × Blanks × Item)) :
    items (lead ++ first.text ++ textOfOthers others ++ tail) = (first :: others.map (·.2.2)).map Item.text := by
  have hpiece {lead tail : List Char} (hlead : ∀ c ∈ lead, Text.isBlank c = true)
      (htail : ∀ c ∈ tail, Text.isBlank c = true) (item : Item) :
      ',' ∉ lead ++ item.text ++ tail ∧ Text.trim (lead ++ item.text ++ tail) = item.text := by
    constructor
    · simp only [List.mem_append, not_or]
      exact ⟨⟨fun hm => (of_isBlank (hlead _ hm)).2 rfl, fun hm => (of_isPlain (isPlain_text hm)).2.2 rfl⟩,
        fun hm => (of_isBlank (htail _ hm)).2 rfl⟩
    · exact trim_append hlead htail (fun c hc => (of_isPlain (isPlain_text (List.mem_of_head? hc))).1)
        fun c hc => (of_isPlain (isPlain_text (List.mem_of_getLast? hc))).1
  have hkept (item : Item) : (!item.text.isEmpty) = true := by simp [text_ne_nil]
  induction others generalizing lead first with
  | nil =>
    obtain ⟨hcomma, htrim⟩ := hpiece hlead htail first
    simp only [textOfOthers, List.flatMap_nil, List.append_nil, List.map_nil]
    rw [items, splitAt_of_notMem hcomma, List.map_singleton, htrim, List.filter_cons, if_pos (hkept first)]
    rfl
  | cons other others ih =>
    obtain ⟨before, after, item⟩ := other
    obtain ⟨hcomma, htrim⟩ := hpiece hlead before.2 first
    have hsplit : lead ++ first.text ++ textOfOthers ((before, after, item) :: others) ++ tail =
        (lead ++ first.text ++ before.1) ++ ',' :: (after.1 ++ item.text ++ textOfOthers others ++ tail) := by
      simp only [textOfOthers, List.flatMap_cons, List.append_assoc, List.cons_append]
    have hitems := ih after.2 item
    rw [items] at hitems ⊢
    rw [hsplit, splitAt_append hcomma, List.map_cons, htrim, List.filter_cons, if_pos (hkept first), hitems]
    rfl

theorem readSelection_list {tail : List Char} (htail : ∀ c ∈ tail, Text.isBlank c = true) (names : WrittenNames) :
    readSelection (names.list ++ tail) = requested names.items := by
  have hitems := @items_list [] tail (by simp) htail names.first names.others
  rw [List.nil_append] at hitems
  have hstar : (names.items.map Item.text).contains ['*'] = decide (.wildcard ∈ names.items) := by
    rw [List.contains_eq_mem]
    congr 1
    simp [text_eq_wildcard]
  rw [readSelection, WrittenNames.list, hitems]
  change (if (names.items.map Item.text).contains ['*'] = true then _ else _) = _
  rw [hstar, requested]
  by_cases hwild : .wildcard ∈ names.items
  · rw [if_pos hwild, if_pos (decide_eq_true hwild)]
  · rw [if_neg hwild, if_neg (by simpa using hwild)]
    exact congrArg _ (foldl_addType fun item hm he => hwild (he ▸ hm))

/-! ### The line -/

/-- All characters of a list of names but white space and commas are those of items, so none is a quote. -/
theorem isQuote_list {names : WrittenNames} (h : c ∈ names.list) : isQuote c = false := by
  rw [WrittenNames.list, List.mem_append, textOfOthers, List.mem_flatMap] at h
  rcases h with h | ⟨⟨before, after, item⟩, -, h⟩
  · exact (of_isPlain (isPlain_text h)).2.1
  · simp only [List.mem_append, List.mem_cons] at h
    rcases h with h | rfl | h | h
    · exact (of_isBlank (before.2 c h)).1
    · decide
    · exact (of_isBlank (after.2 c h)).1
    · exact (of_isPlain (isPlain_text h)).2.1

theorem toList_from : "from".toList = ['f', 'r', 'o', 'm'] := rfl

theorem isQuote_head (h : c ∈ written.head) : isQuote c = false := by
  rw [WrittenDirective.head, List.mem_append] at h
  rcases h with h | h
  · cases hnames : written.names with
    | none => simp [hnames] at h
    | some names =>
      simp only [hnames, Option.map_some, Option.getD_some, WrittenNames.text, List.mem_append] at h
      rcases h with ((h | h) | h) | h
      · exact (of_isBlank (names.gap.2 c h)).1
      · exact isQuote_list h
      · exact (of_isBlank (names.gap'.2 c h)).1
      · rw [toList_from] at h
        have hall : ∀ c ∈ ['f', 'r', 'o', 'm'], isQuote c = false := Document.forall_mem_of_all (by decide)
        exact hall c h
  · exact (of_isBlank (written.gap.2 c h)).1

/-- Between the word `import` and the quote the names are found, if there are any. -/
theorem readHead_head (written : WrittenDirective) : readHead written.head = some written.selection := by
  unfold readHead WrittenDirective.head WrittenDirective.selection
  cases written.names with
  | none =>
    have htrim : Text.trim written.gap.1 = [] := by
      simpa using @trim_append [] [] written.gap.1 (by simp) written.gap.2 (by simp) (by simp)
    simp [htrim]
  | some names =>
    have hbody : names.list ++ names.gap'.1 ++ "from".toList ≠ [] := by simp [toList_from]
    have hfirst : ∀ c ∈ (names.list ++ names.gap'.1 ++ "from".toList).head?, Text.isBlank c = false := by
      have hne : names.list ≠ [] := List.append_ne_nil_of_left_ne_nil (text_ne_nil _) _
      rw [List.append_assoc, List.head?_append_of_ne_nil _ hne, WrittenNames.list,
        List.head?_append_of_ne_nil _ (text_ne_nil _)]
      exact fun c hc => (of_isPlain (isPlain_text (List.mem_of_head? hc))).1
    have hlast : ∀ c ∈ (names.list ++ names.gap'.1 ++ "from".toList).getLast?, Text.isBlank c = false := by
      rw [toList_from, List.getLast?_append_of_ne_nil _ (by simp)]
      simp [Text.isBlank, Text.blankCodes]
    have htrim := trim_append names.gap.2 written.gap.2 hfirst hlast
    have htext : ((some names).map WrittenNames.text).getD [] ++ written.gap.1 =
        names.gap.1 ++ (names.list ++ names.gap'.1 ++ "from".toList) ++ written.gap.1 := by
      simp only [Option.map_some, Option.getD_some, WrittenNames.text, List.append_assoc]
    rw [htext, htrim]
    dsimp only
    rw [if_neg (mt List.isEmpty_iff.1 hbody), List.reverse_append, cutWord_append_self, Option.map_some, List.reverse_reverse,
      readSelection_list names.gap'.2]
    rfl

/-- Behind the word `import` stands white space, or the quote at once. -/
theorem head_any_head (written : WrittenDirective) (rest : List Char) :
    ((written.head ++ written.quote :: rest).head?.any fun c => Text.isBlank c || isQuote c) = true := by
  have hany {blanks : List Char} (hblanks : ∀ c ∈ blanks, Text.isBlank c = true) (hne : blanks ≠ []) (rest : List Char) :
      ((blanks ++ rest).head?.any fun c => Text.isBlank c || isQuote c) = true := by
    obtain ⟨c, blanks, rfl⟩ := List.exists_cons_of_ne_nil hne
    simp [hblanks c (.head _)]
  unfold WrittenDirective.head
  cases written.names with
  | some names =>
    simp only [Option.map_some, Option.getD_some, WrittenNames.text, List.append_assoc]
    exact hany names.gap.2 names.gap_ne _
  | none =>
    rw [Option.map_none, Option.getD_none, List.nil_append]
    by_cases hne : written.gap.1 = []
    · simp [hne, written.isQuote]
    · exact hany written.gap.2 hne _

/-- Every directive that is written is read back: its path, where the path starts, and what it asks for. -/
theorem readDirective_written (written : WrittenDirective) : readDirective written.text =
    some ⟨String.ofList written.path, Text.byteLength written.before + 1, written.selection⟩ := by
  have hkeyword : afterKeyword written.text =
      some (written.head ++ written.quote :: (written.path ++ written.quote :: written.trailing)) := by
    have htext : written.text = written.margin.1 ++ '#' :: (written.indent.1 ++ 'i' :: ("mport".toList ++
        (written.head ++ written.quote :: (written.path ++ written.quote :: written.trailing)))) := by
      simp [WrittenDirective.text, WrittenDirective.before]
    rw [htext, afterKeyword, trimStart_append_cons written.margin.2 (by decide)]
    change (some _).bind _ = _
    rw [Option.bind_some, trimStart_append_cons written.indent.2 (by decide)]
    exact cutWord_append_self "import".toList _
  have hquoted : ∀ c ∈ written.head, (!isQuote c) = true := fun c hc => by rw [isQuote_head hc]; rfl
  have hquote : (!isQuote written.quote) = false := by rw [written.isQuote]; rfl
  have hcut : Text.cutAtLast (· == written.quote) (written.path ++ written.quote :: written.trailing) =
      some (written.path, written.trailing) :=
    Document.cutAtLast_append (by simp) fun c hc => by
      have hne : c ≠ written.quote := fun he => written.notMem_trailing (he ▸ hc)
      simp [hne]
  refine readDirective_eq_some_iff.2 ⟨_, written.quote, _, _, _, written.selection, hkeyword, ?_, ?_, hcut, written.path_ne, ?_, ?_⟩
  · exact head_any_head written _
  · rw [List.dropWhile_append_of_pos hquoted, List.dropWhile_cons_of_neg (by simp [hquote])]
  · rw [List.takeWhile_append_of_pos hquoted, List.takeWhile_cons_of_neg (by simp [hquote]), List.append_nil]
    exact readHead_head written
  · have htake : written.text.take (written.text.length - (written.path ++ written.quote :: written.trailing).length) =
        written.before := by
      rw [WrittenDirective.text, List.append_assoc, List.length_append, Nat.add_sub_cancel_right, List.take_left]
    rw [htake]

end SchemaFragments.Import
