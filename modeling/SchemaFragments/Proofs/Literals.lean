import SchemaFragments.Proofs.Lexing
/-!
# Written literals have values

The texts that numbers and strings are written as stand for values again: integers for themselves, floats
with a point for some float, and escaped strings for some string.
-/

namespace SchemaFragments.Document

open Number

/-! ## Numbers -/

theorem first_of_numeral {digits : List Char} (h : IsNumeral digits) :
    ∃ first rest, digits = first :: rest ∧ first ≠ '-' ∧ first ≠ '+' := by
  obtain ⟨first, rest, rfl⟩ := List.exists_cons_of_ne_nil h.digits_ne_nil
  have hdigit := h.isDigit first (by simp)
  refine ⟨first, rest, rfl, ?_, ?_⟩
  all_goals
    rintro rfl
    exact absurd hdigit (by decide)

theorem integerOfText_eq {text : List Char} {n : Int} (h : WritesInteger text n) : integerOfText text = n := by
  obtain ⟨negative, digits, hnumeral, rfl, rfl⟩ := h
  cases negative with
  | true => rfl
  | false =>
    obtain ⟨first, rest, rfl, hfirst, -⟩ := first_of_numeral hnumeral
    simp [integerOfText, signText, hfirst]

theorem readBinary64_point {whole fraction : List Char} (negative : Bool) (hwhole : IsNumeral whole)
    (hdigits : ∀ c ∈ fraction, c.isDigit = true) :
    (readBinary64 (signText negative ++ whole ++ '.' :: fraction)).isSome = true := by
  have hcut : cutSign (signText negative ++ whole ++ '.' :: fraction) = (negative, whole ++ '.' :: fraction) := by
    cases negative with
    | true => rfl
    | false =>
      obtain ⟨first, rest, rfl, hfirst⟩ := first_of_numeral hwhole
      simp [cutSign, signText, hfirst]
  have htake : (whole ++ '.' :: fraction).takeWhile Char.isDigit = whole :=
    takeWhile_append_stop hwhole.isDigit (by simp)
  have hdrop : (whole ++ '.' :: fraction).dropWhile Char.isDigit = '.' :: fraction := by
    rw [List.dropWhile_append_of_pos hwhole.isDigit]
    simp
  have hfraction : fraction.dropWhile Char.isDigit = [] := List.dropWhile_eq_nil_iff.2 hdigits
  rw [readBinary64, readDecimal, hcut]
  simp [htake, hdrop, hfraction, hwhole.digits_ne_nil]

/-! ## Strings -/

theorem hexDigit_of_isDigit {c : Char} (h : c.isDigit = true) : ∃ n ≤ 9, hexDigit c = some n := by
  have hall : ∀ c ∈ ['0', '1', '2', '3', '4', '5', '6', '7', '8', '9'],
      hexDigit c = some (c.toNat - 48) ∧ c.toNat - 48 ≤ 9 := forall_mem_of_all (by decide)
  obtain ⟨hvalue, hbound⟩ := hall c (mem_digits h)
  exact ⟨_, hbound, hvalue⟩

/-- Any four decimal digits are the hexadecimal code of a character. -/
theorem exists_characterOfCode {a b c d : Char} (ha : a.isDigit = true) (hb : b.isDigit = true)
    (hc : c.isDigit = true) (hd : d.isDigit = true) :
    ∃ decoded, characterOfCode [a, b, c, d] = some decoded := by
  have hplus : a ≠ '+' := by
    rintro rfl
    exact absurd ha (by decide)
  obtain ⟨m, hm, ha⟩ := hexDigit_of_isDigit ha
  obtain ⟨n, hn, hb⟩ := hexDigit_of_isDigit hb
  obtain ⟨p, hp, hc⟩ := hexDigit_of_isDigit hc
  obtain ⟨q, hq, hd⟩ := hexDigit_of_isDigit hd
  -- decimal digits keep the code below the surrogates
  generalize hn : (((0 * 16 + m) * 16 + n) * 16 + p) * 16 + q = number
  have hnumber : hexNumber [a, b, c, d] = some number := by
    simp only [hexNumber, List.isEmpty_cons, Bool.false_eq_true, if_false, List.foldl_cons, List.foldl_nil, ha, hb,
      hc, hd, ← hn]
    rfl
  have hvalid : number.isValidChar := .inl (by omega)
  exact ⟨Char.ofNatAux number hvalid, by simp [characterOfCode, hplus, hnumber, hvalid]⟩

theorem decodeString_cons {c : Char} (h : c ≠ '\\') (rest : List Char) :
    decodeString (c :: rest) = (decodeString rest).map (c :: ·) := by
  rw [decodeString.eq_def]
  split <;> simp_all

/-- What is put in front of a text that is decoded leaves it so. -/
def Decodes (text : List Char) : Prop := ∃ decoded, decodeString text = .ok decoded

theorem decodes_append {plain rest : List Char} (hplain : ∀ c ∈ plain, c ≠ '\\') (h : Decodes rest) :
    Decodes (plain ++ rest) := by
  induction plain with
  | nil => exact h
  | cons c plain ih =>
    obtain ⟨hc, hplain⟩ := List.forall_mem_cons.1 hplain
    obtain ⟨decoded, hdecoded⟩ := ih hplain
    exact ⟨c :: decoded, by rw [List.cons_append, decodeString_cons hc, hdecoded]; rfl⟩

theorem decodes_simpleEscape {c decoded : Char} (hc : c ≠ 'u') (hescape : simpleEscape c = some decoded)
    {rest : List Char} (h : Decodes rest) : Decodes ('\\' :: c :: rest) := by
  obtain ⟨text, htext⟩ := h
  refine ⟨decoded :: text, ?_⟩
  rw [decodeString, hescape, htext]
  · rfl
  all_goals simp [hc]

theorem exists_decimalCode_eq (c : Char) : ∃ first second third fourth more,
    decimalCode c = first :: second :: third :: fourth :: more := by
  have hlength : 4 ≤ (decimalCode c).length := by
    simp only [decimalCode, List.length_append, List.length_replicate]
    omega
  match decimalCode c, hlength with
  | first :: second :: third :: fourth :: more, _ => exact ⟨first, second, third, fourth, more, rfl⟩

theorem decodes_decimalCode (c : Char) {rest : List Char} (h : Decodes rest) :
    Decodes ('\\' :: 'u' :: (decimalCode c ++ rest)) := by
  have hdigits := fun d hd => isDigit_decimalCode (c := c) (d := d) hd
  -- four digits are taken for the code, and any more of them are plain text
  obtain ⟨first, second, third, fourth, more, hcode⟩ := exists_decimalCode_eq c
  rw [hcode] at hdigits ⊢
  simp only [List.forall_mem_cons] at hdigits
  obtain ⟨h1, h2, h3, h4, hmore⟩ := hdigits
  obtain ⟨decoded, hdecoded⟩ := exists_characterOfCode h1 h2 h3 h4
  obtain ⟨text, htext⟩ := decodes_append (fun d hd => (plain_of_isDigit (hmore d hd)).2.2) h
  refine ⟨decoded :: text, ?_⟩
  simp [decodeString, hdecoded, htext, Except.map]

theorem decodes_escapeChar (c : Char) {rest : List Char} (h : Decodes rest) :
    Decodes (escapeChar c ++ rest) := by
  unfold escapeChar
  split
  · exact decodes_simpleEscape (c := 'r') (by decide) rfl h
  split
  · exact decodes_simpleEscape (c := 'n') (by decide) rfl h
  split
  · exact decodes_simpleEscape (c := 't') (by decide) rfl h
  split
  · exact decodes_simpleEscape (c := '"') (by decide) rfl h
  split
  · exact decodes_simpleEscape (c := '\\') (by decide) rfl h
  split
  · exact decodes_append (by simpa using ‹c ≠ '\\'›) h
  · exact decodes_decimalCode c h

/-- Whatever is escaped is decoded again, though not always as what it was. -/
theorem decodes_escaped (text : List Char) : Decodes (text.flatMap escapeChar) := by
  induction text with
  | nil => exact ⟨[], rfl⟩
  | cons c text ih =>
    rw [List.flatMap_cons]
    exact decodes_escapeChar c ih

/-! ## Quotes -/

theorem innerText_between (front back : List Char) {body : List Char} {quotes : Nat} (hfront : front.length = quotes)
    (hback : back.length = quotes) : innerText quotes (String.ofList (front ++ body ++ back)) = body := by
  have hlength : (front ++ body ++ back).length - 2 * quotes = body.length := by
    simp only [List.length_append]
    omega
  rw [innerText, String.toList_ofList, String.length_ofList, hlength, List.append_assoc, ← hfront,
    List.drop_left, List.take_left]

theorem innerText_quoted {depth : Nat} {text : String} (h : fitsBlock text.toList = false) :
    innerText 1 (printString depth text) = text.toList.flatMap escapeChar := by
  rw [← String.ofList_toList (s := printString depth text), printString_quoted h]
  exact innerText_between ['"'] ['"'] rfl rfl

theorem innerText_block {depth : Nat} {text : String} (h : fitsBlock text.toList = true) :
    innerText 3 (printString depth text) = blockText depth text := by
  rw [← String.ofList_toList (s := printString depth text), printString_block h]
  exact innerText_between ['"', '"', '"'] ['"', '"', '"'] rfl rfl

end SchemaFragments.Document
