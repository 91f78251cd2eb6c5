import SchemaFragments.Json.Printer
import SchemaFragments.Proofs.DistinctKeys
import SchemaFragments.Proofs.Numerals
/-!
# Printed JSON

Data without floats that were read can be printed (`storable_readMap`), and what is printed is read back as the same
data, with the same entries in the same order (`readMap_printMap`). Where a value ends is told by what the printer puts
behind it, a comma or a line end.
-/

namespace SchemaFragments

/-! ## Data that can be kept -/

/-- Integers of 64 bits, no floats, and no more than so many lists and maps open at once. -/
inductive Data.Storable : Nat → Data → Prop
  | null {depth : Nat} : Storable depth .null
  | boolean {depth : Nat} (value : Bool) : Storable depth (.boolean value)
  | integer {depth : Nat} {value : Int} (h : leastInteger ≤ value ∧ value ≤ greatestInteger) :
      Storable depth (.integer value)
  | text {depth : Nat} (value : String) : Storable depth (.text value)
  | list {depth : Nat} {items : List Data} (h : ∀ item ∈ items, Storable depth item) :
      Storable (depth + 1) (.list items)
  | map {depth : Nat} {entries : Data.Entries} (h : ∀ entry ∈ entries, Storable depth entry.2) :
      Storable (depth + 1) (.map entries)

/-- There is no float in it, at any depth. -/
inductive Data.FloatFree : Data → Prop
  | null : FloatFree .null
  | boolean (value : Bool) : FloatFree (.boolean value)
  | integer (value : Int) : FloatFree (.integer value)
  | text (value : String) : FloatFree (.text value)
  | list {items : List Data} (h : ∀ item ∈ items, FloatFree item) : FloatFree (.list items)
  | map {entries : Data.Entries} (h : ∀ entry ∈ entries, FloatFree entry.2) : FloatFree (.map entries)

namespace Data.Entries

theorem mem_ofList {entries : Entries} {entry : String × Data} (h : entry ∈ ofList entries) :
    ∃ other ∈ entries, other.2 = entry.2 := by
  induction entries using List.reverseRecOn with
  | nil => cases h
  | append_singleton entries last ih =>
    rw [ofList, List.foldl_append] at h
    rcases mem_set h with h | h
    · obtain ⟨other, hm, he⟩ := ih h
      exact ⟨other, List.mem_append_left _ hm, he⟩
    · exact ⟨last, by simp, h.symm⟩

theorem set_of_notMem {entries : Entries} {key : String} (h : key ∉ entries.map (·.1)) (value : Data) :
    entries.set key value = entries ++ [(key, value)] := by
  induction entries with
  | nil => rfl
  | cons entry entries ih =>
    rw [List.map_cons, List.mem_cons, not_or] at h
    rw [set, if_neg (Ne.symm h.1), ih h.2, List.cons_append]

/-- Entries without a repeated key are kept as they are written. -/
theorem ofList_of_unique {entries : Entries} (h : entries.Unique) : ofList entries = entries := by
  induction entries using List.reverseRecOn with
  | nil => rfl
  | append_singleton entries entry ih =>
    rw [Unique, List.map_append, List.nodup_append] at h
    have hnew : entry.1 ∉ entries.map (·.1) := fun hm => h.2.2 _ hm _ (by simp) rfl
    rw [ofList] at ih
    rw [ofList, List.foldl_append, ih h.1]
    exact set_of_notMem hnew entry.2

end Data.Entries

namespace Json

variable {α : Type} {item : Reader α} {text rest chars : List Char} {limit depth : Nat} {c : Char}

/-! ## Data that are read -/

variable {data : Data}

theorem storable_readNumber (h : readNumber text = some (data, rest)) (hf : data.FloatFree) : data.Storable depth := by
  obtain ⟨⟨parts, after⟩, -, h⟩ := Option.bind_eq_some_iff.1 h
  obtain ⟨value, hvalue, h⟩ := Option.bind_eq_some_iff.1 h
  cases h
  have hfloat (h : parts.float.map .float = some data) : data.Storable depth := by
    obtain ⟨value, -, rfl⟩ := Option.map_eq_some_iff.1 h
    cases hf
  have hleast : Data.leastInteger = -(Data.leastInteger.natAbs : Int) := by decide
  have hgreatest : Data.greatestInteger = (greatestSignificand : Int) := by decide
  dsimp only [Parts.value] at hvalue
  split at hvalue
  · split at hvalue
    · rename_i hsize
      cases hvalue
      simp only [Bool.and_eq_true, decide_eq_true_eq] at hsize
      exact .integer (by omega)
    · split at hvalue
      · rename_i hsize
        cases hvalue
        simp only [Bool.and_eq_true, decide_eq_true_eq] at hsize
        exact .integer (by omega)
      · exact hfloat hvalue
  · exact hfloat hvalue

theorem storable_readLeaf (h : readLeaf text = some (data, rest)) (hf : data.FloatFree) : data.Storable depth := by
  unfold readLeaf at h
  split at h
  · cases h
    exact .null
  · cases h
    exact .boolean true
  · cases h
    exact .boolean false
  · obtain ⟨read, -, h⟩ := Option.map_eq_some_iff.1 h
    cases h
    exact .text _
  · exact storable_readNumber h hf

/-- Data without floats that were read can be kept with as many lists and maps open as were allowed. -/
theorem storable_readValue (h : readValue limit depth text = some (data, rest)) (hf : data.FloatFree) :
    data.Storable depth := by
  induction depth generalizing text data rest with
  | zero => exact storable_readLeaf h hf
  | succ depth ih =>
    have hitem {text : List Char} {a : Data} {rest : List Char} (hr : readValue limit depth text = some (a, rest)) :
        a.FloatFree → a.Storable depth := ih hr
    unfold readValue at h
    dsimp only at h
    split at h
    · obtain ⟨⟨items, after⟩, hitems, h⟩ := Option.map_eq_some_iff.1 h
      cases h
      cases hf with
      | list hf => exact .list fun item hm => of_readAll hitem hitems item hm (hf item hm)
    · obtain ⟨⟨entries, after⟩, hentries, h⟩ := Option.map_eq_some_iff.1 h
      cases h
      cases hf with
      | map hf =>
        refine .map fun entry hm => ?_
        obtain ⟨other, ho, he⟩ := Data.Entries.mem_ofList hm
        have hread := of_readAll (of_readEntry hitem) hentries other ho
        rw [he] at hread
        exact hread (hf entry hm)
    · exact storable_readLeaf h hf

theorem storable_readMap {text : String} {entries : Data.Entries} (h : readMap text = some entries)
    (hf : (Data.map entries).FloatFree) : (Data.map entries).Storable nestingLimit := by
  unfold readMap at h
  split at h
  · split at h
    · cases h
      exact storable_readValue ‹_› hf
    · cases h
  · cases h

/-! ## White space -/

theorem skipSpace_newLine (indent : Nat) (text : List Char) : skipSpace (newLine indent ++ text) = skipSpace text := by
  have hspaces (count : Nat) : skipSpace (List.replicate count ' ' ++ text) = skipSpace text := by
    induction count with
    | zero => rfl
    | succ count ih => exact ih
  exact hspaces (2 * indent)

theorem skipSpace_cons (h : isSpace c = false) (rest : List Char) : skipSpace (c :: rest) = c :: rest := by
  rw [skipSpace, List.dropWhile_cons_of_neg (by simp [h])]

/-! ## Strings -/

theorem hexNumber_lastHexDigits {n : Nat} (h : n < 32) :
    Number.hexNumber ('0' :: '0' :: Number.lastHexDigits n) = some n := by
  revert n
  decide

/-- The ways in which a character is printed in a string. -/
theorem escapeChar_cases (c : Char) :
    (∃ letter, escapeChar c = ['\\', letter] ∧ simpleEscape letter = some c) ∨
      (c.toNat < 0x20 ∧ escapeChar c = '\\' :: 'u' :: '0' :: '0' :: Number.lastHexDigits c.toNat) ∨
      (¬ c.toNat < 0x20 ∧ c ≠ '"' ∧ c ≠ '\\' ∧ escapeChar c = [c]) := by
  unfold escapeChar
  iterate 7
    split
    · rename_i h
      exact .inl ⟨_, rfl, congrArg some h.symm⟩
  split
  · rename_i h
    exact .inr (.inl ⟨h, rfl⟩)
  · refine .inr (.inr ?_)
    simp_all

theorem readString_simple {letter : Char} (h : simpleEscape letter = some c) (rest : List Char) :
    readString ('\\' :: letter :: rest) = (readString rest).map fun (text, rest) => (c :: text, rest) := by
  have hu : letter ≠ 'u' := by
    rintro rfl
    cases h
  rw [readString]
  · simp only [h]
    cases readString rest <;> rfl
  · rintro _ _ _ _ _ rfl
    exact absurd rfl hu

theorem readString_plain (hcontrol : ¬ c.toNat < 0x20) (hquote : c ≠ '"') (hescape : c ≠ '\\')
    (rest : List Char) :
    readString (c :: rest) = (readString rest).map fun (text, rest) => (c :: text, rest) := by
  rw [readString, if_neg (by simp [hcontrol, hescape])]
  · cases readString rest <;> rfl
  · exact hquote
  · rintro _ _ _ _ _ rfl
    exact absurd rfl hescape
  · rintro _ _ rfl
    exact absurd rfl hescape

theorem readString_control (h : c.toNat < 0x20) (rest : List Char) :
    readString ('\\' :: 'u' :: '0' :: '0' :: Number.lastHexDigits c.toNat ++ rest) =
      (readString rest).map fun (text, rest) => (c :: text, rest) := by
  have hread : Number.hexNumber ('0' :: '0' :: Number.lastHexDigits c.toNat) = some c.toNat :=
    hexNumber_lastHexDigits h
  have hunit : singleCharacter c.toNat = some c := by
    rw [singleCharacter, if_neg (by simp; omega), Char.ofNat_toNat]
  simp only [Number.lastHexDigits] at hread
  simp only [Number.lastHexDigits, List.cons_append, List.nil_append]
  rw [readString]
  simp only [hread, hunit, Option.bind_eq_bind, Option.bind_some]
  cases readString rest <;> rfl

/-- A printed string is read up to its own closing quote. -/
theorem readString_escaped (chars rest : List Char) :
    readString (chars.flatMap escapeChar ++ '"' :: rest) = some (chars, rest) := by
  induction chars with
  | nil => rfl
  | cons c chars ih =>
    have hone (behind : List Char) :
        readString (escapeChar c ++ behind) = (readString behind).map fun (text, rest) => (c :: text, rest) := by
      rcases escapeChar_cases c with ⟨letter, hc, hletter⟩ | ⟨hcontrol, hc⟩ | ⟨hcontrol, hquote, hescape, hc⟩
      · rw [hc]
        exact readString_simple hletter behind
      · rw [hc]
        exact readString_control hcontrol behind
      · rw [hc]
        exact readString_plain hcontrol hquote hescape behind
    rw [List.flatMap_cons, List.append_assoc, hone, ih]
    rfl

/-! ## Numbers -/

/-- What stands behind a printed value. -/
def Follows (rest : List Char) : Prop := rest.head? = some ',' ∨ rest.head? = some '\n'

theorem toList_toString (n : Int) :
    (toString n).toList = Number.signText (decide (n < 0)) ++ Nat.toDigits 10 n.natAbs := by
  cases n with
  | ofNat n => simp [Number.signText, toString, Int.repr]
  | negSucc n => simp [Number.signText, toString, Int.repr, Int.negSucc_lt_zero]

/-- No number goes on behind it. -/
theorem Follows.exists_cons (h : Follows rest) :
    ∃ c behind, rest = c :: behind ∧ c.isDigit = false ∧ c ≠ '.' ∧ c ≠ 'e' ∧ c ≠ 'E' := by
  cases rest with
  | nil => rcases h with h | h <;> cases h
  | cons c behind =>
    refine ⟨c, behind, rfl, ?_⟩
    rcases h with h | h <;> cases h <;> decide

theorem cutDigits_numeral {digits : List Char} (hd : Number.IsNumeral digits) (hr : Follows rest) :
    cutDigits (digits ++ rest) = some (digits, rest) := by
  obtain ⟨c, behind, rfl, hc, -⟩ := hr.exists_cons
  have htake : (digits ++ c :: behind).takeWhile Char.isDigit = digits := by
    rw [List.takeWhile_append_of_pos hd.isDigit, List.takeWhile_cons_of_neg (by simp [hc]), List.append_nil]
  have hdrop : (digits ++ c :: behind).dropWhile Char.isDigit = c :: behind := by
    rw [List.dropWhile_append_of_pos hd.isDigit, List.dropWhile_cons_of_neg (by simp [hc])]
  rw [cutDigits, htake, hdrop, if_neg (by simpa using hd.digits_ne_nil)]

theorem cutParts_numeral {digits : List Char} (negative : Bool) (hd : Number.IsNumeral digits) (hr : Follows rest) :
    cutParts (Number.signText negative ++ digits ++ rest) = some (⟨negative, digits, [], none⟩, rest) := by
  have hcut := cutDigits_numeral hd hr
  obtain ⟨c, behind, rfl, -, hpoint, he, hE⟩ := hr.exists_cons
  have hzero : digits.head? = some '0' → digits.length ≤ 1 := by
    rcases hd.leading with hzero | hne
    · simp [hzero]
    · exact fun h => absurd h hne
  cases negative with
  | true => simpa [cutParts, Number.signText, hcut, hpoint, he, hE] using hzero
  | false =>
    obtain ⟨first, others, rfl⟩ := List.exists_cons_of_ne_nil hd.digits_ne_nil
    have hminus : first ≠ '-' := by
      rintro rfl
      exact absurd (hd.isDigit '-' (.head _)) (by decide)
    rw [List.cons_append] at hcut
    simpa [cutParts, Number.signText, hminus, hcut, hpoint, he, hE] using hzero

theorem readNumber_toString {n : Int} (h : Data.leastInteger ≤ n ∧ n ≤ Data.greatestInteger) (hr : Follows rest) :
    readNumber ((toString n).toList ++ rest) = some (.integer n, rest) := by
  have hvalue : Parts.value ⟨decide (n < 0), Nat.toDigits 10 n.natAbs, [], none⟩ = some (.integer n) := by
    simp only [Data.leastInteger, Data.greatestInteger] at h
    have hleast : Data.leastInteger.natAbs = 9223372036854775808 := by decide
    simp only [Parts.value, Number.natOfDigits_toDigits, List.isEmpty_nil, Option.isNone_none, Bool.and_self, if_true,
      greatestSignificand, hleast]
    by_cases hn : n < 0
    · rw [if_neg (by simp [hn]), if_pos (by simp [hn]; omega)]
      congr
      omega
    · rw [if_pos (by simp [hn]; omega)]
      congr
      omega
  rw [readNumber, toList_toString, cutParts_numeral _ (Number.isNumeral_toDigits _) hr]
  simp [hvalue]

/-! ## Values -/

theorem readValue_congr {other : List Char} (h : skipSpace text = skipSpace other) :
    readValue limit depth text = readValue limit depth other := by
  cases depth with
  | zero => simp only [readValue, h]
  | succ depth => simp only [readValue, h]

theorem readEntry_congr {other : List Char} {value : Reader Data} (h : skipSpace text = skipSpace other) :
    readEntry value text = readEntry value other := by
  simp only [readEntry, h]

/-- The first character of a text tells that it is no list and no map. -/
theorem readValue_leaf (hspace : isSpace c = false) (hlist : c ≠ '[') (hmap : c ≠ '{') :
    readValue limit depth (c :: rest) = readLeaf (c :: rest) := by
  cases depth with
  | zero => simp only [readValue, skipSpace_cons hspace]
  | succ depth =>
    simp only [readValue, skipSpace_cons hspace]
    split <;> simp_all

theorem readLeaf_number (hc : c = '-' ∨ c.isDigit = true) : readLeaf (c :: rest) = readNumber (c :: rest) := by
  have hother : c ≠ 'n' ∧ c ≠ 't' ∧ c ≠ 'f' ∧ c ≠ '"' := by
    refine ⟨?_, ?_, ?_, ?_⟩ <;>
    · rintro rfl
      revert hc
      decide
  unfold readLeaf
  split <;> simp_all

/-! ## Lists and maps -/

section Items

variable {print : α → List Char} {close : Char} {indent outer : Nat} {first : α} {items : List α}

/-- What is printed after the first item, up to the closing character. -/
def tailText (print : α → List Char) (indent outer : Nat) (items : List α) : List Char :=
  (items.flatMap fun item => ',' :: (newLine indent ++ print item)) ++ newLine outer

theorem follows_tailText (behind : List Char) : Follows (tailText print indent outer items ++ behind) := by
  cases items with
  | nil => exact .inr rfl
  | cons item items => exact .inl rfl

theorem readItems_congr {other : List Char} (h : item text = item other) :
    readItems item close limit text = readItems item close limit other := by
  cases limit with
  | zero => rfl
  | succ limit => simp only [readItems, h]

/-- Each item is read, and then a comma or the closing character tells whether there is another one. -/
theorem readItems_printed (hclose : isSpace close = false) (hcomma : close ≠ ',')
    (hskip : ∀ text, item (newLine indent ++ text) = item text)
    (hitem : ∀ a ∈ first :: items, ∀ rest, Follows rest → item (print a ++ rest) = some (a, rest))
    (hlimit : items.length < limit) :
    readItems item close limit (print first ++ (tailText print indent outer items ++ close :: rest)) =
      some (first :: items, rest) := by
  induction items generalizing first limit with
  | nil =>
    obtain ⟨limit, rfl⟩ := Nat.exists_eq_add_of_lt hlimit
    have hend : skipSpace (tailText print indent outer [] ++ close :: rest) = close :: rest := by
      rw [tailText, List.flatMap_nil, List.nil_append, skipSpace_newLine, skipSpace_cons hclose]
    rw [readItems, hitem first (.head _) _ (follows_tailText _)]
    simp [hend]
  | cons next items ih =>
    obtain ⟨limit, rfl⟩ := Nat.exists_eq_add_of_lt (Nat.zero_lt_of_lt hlimit)
    rw [Nat.zero_add] at hlimit ⊢
    have hnext : skipSpace (tailText print indent outer (next :: items) ++ close :: rest) =
        ',' :: (newLine indent ++ (print next ++ (tailText print indent outer items ++ close :: rest))) := by
      rw [tailText, List.flatMap_cons, List.cons_append, List.cons_append, List.cons_append, skipSpace_cons rfl,
        tailText]
      simp only [List.append_assoc]
    have hothers : readItems item close limit (newLine indent ++
        (print next ++ (tailText print indent outer items ++ close :: rest))) = some (next :: items, rest) := by
      rw [readItems_congr (hskip _)]
      exact ih (fun a ha => hitem a (.tail _ ha)) (Nat.lt_of_succ_lt_succ hlimit)
    rw [readItems, hitem first (.head _) _ (follows_tailText _)]
    simp [hnext, Ne.symm hcomma, hothers]

theorem length_le_tailText {a : α} (h : a ∈ items) :
    (print a).length ≤ (tailText print indent outer items).length := by
  obtain ⟨before, after, rfl⟩ := List.append_of_mem h
  simp only [tailText, List.flatMap_append, List.flatMap_cons, List.length_append, List.length_cons]
  omega

theorem items_length_le_tailText : items.length ≤ (tailText print indent outer items).length := by
  induction items with
  | nil => exact Nat.zero_le _
  | cons item items ih =>
    simp only [tailText, List.flatMap_cons, List.length_append, List.length_cons] at ih ⊢
    omega

/-- All items are read, up to the closing character, when each is read back that is no longer than the limit. -/
theorem readAll_printed (hclose : isSpace close = false) (hcomma : close ≠ ',')
    (hskip : ∀ text, item (newLine indent ++ text) = item text)
    (hfirst : ∃ c chars, print first = c :: chars ∧ isSpace c = false ∧ c ≠ close)
    (hitem : ∀ a ∈ first :: items, (print a).length ≤ limit →
      ∀ rest, Follows rest → item (print a ++ rest) = some (a, rest))
    (hlimit : (print first ++ tailText print indent outer items).length ≤ limit) (rest : List Char) :
    readAll item close limit (newLine indent ++ print first ++ (tailText print indent outer items ++ close :: rest)) =
      some (first :: items, rest) := by
  obtain ⟨c, chars, hprint, hspace, hne⟩ := hfirst
  have hcount : items.length ≤ (tailText print indent outer items).length := items_length_le_tailText
  have hlength : (print first).length = chars.length + 1 := by rw [hprint, List.length_cons]
  rw [List.length_append] at hlimit
  have hitems : ∀ a ∈ first :: items, ∀ rest, Follows rest → item (print a ++ rest) = some (a, rest) := by
    intro a ha
    refine hitem a ha ?_
    rcases List.mem_cons.1 ha with rfl | hm
    · omega
    · have : (print a).length ≤ (tailText print indent outer items).length := length_le_tailText hm
      omega
  have hskipped : skipSpace (newLine indent ++ print first ++ (tailText print indent outer items ++ close :: rest)) =
      print first ++ (tailText print indent outer items ++ close :: rest) := by
    rw [List.append_assoc, skipSpace_newLine, hprint, List.cons_append, skipSpace_cons hspace]
  unfold readAll
  rw [hskipped, hprint]
  dsimp only [List.cons_append]
  rw [if_neg hne, ← List.cons_append, ← hprint]
  exact readItems_printed hclose hcomma hskip hitems (by omega)

end Items

/-! ## Whole values -/

variable {indent : Nat}

/-- An entry of a map as it is printed. -/
def entryText (indent : Nat) (entry : String × Data) : List Char :=
  printString entry.1 ++ [':', ' '] ++ printValue indent entry.2

theorem printItems_eq (indent : Nat) (items : List Data) :
    printItems indent items = items.flatMap fun item => ',' :: (newLine indent ++ printValue indent item) := by
  induction items with
  | nil => rfl
  | cons item items ih => rw [printItems, ih, List.flatMap_cons, List.cons_append]

theorem printEntries_eq (indent : Nat) (entries : Data.Entries) :
    printEntries indent entries = entries.flatMap fun entry => ',' :: (newLine indent ++ entryText indent entry) := by
  induction entries with
  | nil => rfl
  | cons entry entries ih => simp [printEntries, ih, entryText]

theorem printValue_list (indent : Nat) (item : Data) (items : List Data) :
    printValue indent (.list (item :: items)) = '[' :: (newLine (indent + 1) ++ printValue (indent + 1) item ++
      (tailText (printValue (indent + 1)) (indent + 1) indent items ++ [']'])) := by
  simp [printValue, printItems_eq, tailText]

theorem printValue_map (indent : Nat) (entry : String × Data) (entries : Data.Entries) :
    printValue indent (.map (entry :: entries)) = '{' :: (newLine (indent + 1) ++ entryText (indent + 1) entry ++
      (tailText (entryText (indent + 1)) (indent + 1) indent entries ++ ['}'])) := by
  simp [printValue, printEntries_eq, tailText, entryText]

theorem exists_toString_cons (n : Int) :
    ∃ c chars, (toString n).toList = c :: chars ∧ (c = '-' ∨ c.isDigit = true) := by
  rw [toList_toString]
  have hnumeral := Number.isNumeral_toDigits n.natAbs
  obtain ⟨c, chars, hdigits⟩ := List.exists_cons_of_ne_nil hnumeral.digits_ne_nil
  rw [hdigits] at hnumeral ⊢
  cases decide (n < 0) with
  | true => exact ⟨'-', c :: chars, rfl, .inl rfl⟩
  | false => exact ⟨c, chars, rfl, .inr (hnumeral.isDigit c (.head _))⟩

/-- The first character of a printed integer starts nothing else. -/
theorem opens_number (h : c = '-' ∨ c.isDigit = true) : isSpace c = false ∧ c ≠ '[' ∧ c ≠ '{' ∧ c ≠ ']' := by
  have hne {other : Char} (ho : ¬ (other = '-' ∨ other.isDigit = true)) : c ≠ other := by
    rintro rfl
    exact ho h
  refine ⟨?_, hne (by decide), hne (by decide), hne (by decide)⟩
  simp only [isSpace, Bool.or_eq_false_iff, beq_eq_false_iff_ne]
  exact ⟨⟨⟨hne (by decide), hne (by decide)⟩, hne (by decide)⟩, hne (by decide)⟩

/-- No printed value starts with a space, or like the end of a list. -/
theorem exists_printValue_cons (h : data.Storable depth) (indent : Nat) :
    ∃ c chars, printValue indent data = c :: chars ∧ isSpace c = false ∧ c ≠ ']' := by
  cases h with
  | null => exact ⟨_, _, rfl, rfl, by decide⟩
  | boolean value => cases value <;> exact ⟨_, _, rfl, rfl, by decide⟩
  | integer _ =>
    obtain ⟨c, chars, htext, hc⟩ := exists_toString_cons _
    exact ⟨c, chars, by rw [printValue, htext], (opens_number hc).1, (opens_number hc).2.2.2⟩
  | text value => exact ⟨_, _, rfl, rfl, by decide⟩
  | @list _ items _ => cases items <;> exact ⟨_, _, rfl, rfl, by decide⟩
  | @map _ entries _ => cases entries <;> exact ⟨_, _, rfl, rfl, by decide⟩

theorem readEntry_entryText {value : Reader Data} {entry : String × Data}
    (hvalue : value (' ' :: printValue indent entry.2 ++ rest) = some (entry.2, rest)) :
    readEntry value (entryText indent entry ++ rest) = some (entry, rest) := by
  have htext : entryText indent entry ++ rest =
      '"' :: (entry.1.toList.flatMap escapeChar ++ '"' :: ':' :: (' ' :: printValue indent entry.2 ++ rest)) := by
    simp [entryText, printString]
  have hcolon (behind : List Char) : skipSpace (':' :: behind) = ':' :: behind := skipSpace_cons rfl behind
  rw [htext, readEntry, skipSpace_cons rfl]
  simp only [readString_escaped, hcolon, hvalue, String.ofList_toList, Option.bind_eq_bind, Option.bind_some, pure]

/-- What is printed is read back, with whatever follows it left. -/
theorem readValue_printValue (hs : data.Storable depth) (hd : data.Distinct)
    (hlimit : (printValue indent data).length ≤ limit) (hr : Follows rest) :
    readValue limit depth (printValue indent data ++ rest) = some (data, rest) := by
  induction hs generalizing indent rest with
  | null => exact readValue_leaf rfl (by decide) (by decide)
  | boolean value => cases value <;> exact readValue_leaf rfl (by decide) (by decide)
  | integer h =>
    obtain ⟨c, chars, htext, hc⟩ := exists_toString_cons _
    obtain ⟨hspace, hlist, hmap, -⟩ := opens_number hc
    have hread := readNumber_toString h hr
    rw [htext] at hread
    rw [printValue, htext]
    exact (readValue_leaf hspace hlist hmap).trans ((readLeaf_number hc).trans hread)
  | text value =>
    have htext : printValue indent (.text value) ++ rest =
        '"' :: (value.toList.flatMap escapeChar ++ '"' :: rest) := by
      simp [printValue, printString]
    rw [htext, readValue_leaf rfl (by decide) (by decide), readLeaf, readString_escaped]
    simp
  | @list depth items hitems ih =>
    cases hd with
    | list hdistinct =>
      cases items with
      | nil => rfl
      | cons item items =>
        rw [printValue_list] at hlimit ⊢
        have hread : readAll (readValue limit depth) ']' limit (newLine (indent + 1) ++ printValue (indent + 1) item ++
            (tailText (printValue (indent + 1)) (indent + 1) indent items ++ ']' :: rest)) = some (item :: items, rest) :=
          readAll_printed rfl (by decide) (fun text => readValue_congr (skipSpace_newLine (indent + 1) text))
            (exists_printValue_cons (hitems item (.head _)) (indent + 1))
            (fun a ha hl rest hrest => ih a ha (hdistinct a ha) hl hrest)
            (by simp only [List.length_cons, List.length_append] at hlimit ⊢; omega) rest
        simp only [List.cons_append, List.append_assoc, List.nil_append] at hread ⊢
        simp only [readValue, skipSpace_cons (show isSpace '[' = false from rfl), hread, Option.map_some]
  | @map depth entries hentries ih =>
    cases hd with
    | map hunique hdistinct =>
      cases entries with
      | nil => rfl
      | cons entry entries =>
        rw [printValue_map] at hlimit ⊢
        have hentry : ∀ a ∈ entry :: entries, (entryText (indent + 1) a).length ≤ limit → ∀ rest, Follows rest →
            readEntry (readValue limit depth) (entryText (indent + 1) a ++ rest) = some (a, rest) := by
          intro a ha hl rest hrest
          have hlength : (printValue (indent + 1) a.2).length ≤ limit := by
            simp only [entryText, List.length_append] at hl
            omega
          have hblank : skipSpace (' ' :: printValue (indent + 1) a.2 ++ rest) =
              skipSpace (printValue (indent + 1) a.2 ++ rest) := rfl
          refine readEntry_entryText ?_
          rw [readValue_congr hblank]
          exact ih a ha (hdistinct a ha) hlength hrest
        have hread : readAll (readEntry (readValue limit depth)) '}' limit
            (newLine (indent + 1) ++ entryText (indent + 1) entry ++
              (tailText (entryText (indent + 1)) (indent + 1) indent entries ++ '}' :: rest)) =
              some (entry :: entries, rest) :=
          readAll_printed rfl (by decide) (fun text => readEntry_congr (skipSpace_newLine (indent + 1) text))
            ⟨_, _, rfl, rfl, by decide⟩ hentry
            (by simp only [List.length_cons, List.length_append] at hlimit ⊢; omega) rest
        simp only [List.cons_append, List.append_assoc, List.nil_append] at hread ⊢
        simp only [readValue, skipSpace_cons (show isSpace '{' = false from rfl), hread, Option.map_some,
          Data.Entries.ofList_of_unique hunique]

/-- A printed map is read back from a text that ends in a line end. -/
theorem readMap_printMap {entries : Data.Entries} (hs : (Data.map entries).Storable nestingLimit)
    (hd : (Data.map entries).Distinct) : readMap (printMap entries ++ "\n") = some entries := by
  have htext : (printMap entries ++ "\n").toList = printValue 0 (.map entries) ++ ['\n'] := by
    simp [printMap]
  have hlimit : (printValue 0 (.map entries)).length ≤ (printMap entries ++ "\n").length := by
    rw [← String.length_toList, htext, List.length_append]
    omega
  rw [readMap, htext, readValue_printValue hs hd hlimit (.inr rfl)]
  rfl

end Json

end SchemaFragments
