import SchemaFragments.Proofs.Words
/-!
# Tokens of written words

A text that spells words, with blanks and commas between them, is cut into tokens of just these words. This
stops only before a minus infinity, which is no token, and where too many brackets would be open.
-/

namespace SchemaFragments.Document

open Number

/-! ## Characters -/

/-- A text after a word starts with nothing that could belong to it. -/
def Ends (rest : List Char) : Prop := ∀ c ∈ rest.head?, endsNumber c = true

/-- What is decided for each character of a list. -/
theorem forall_mem_of_all {p : Char → Prop} [DecidablePred p] {chars : List Char}
    (h : (chars.all fun c => decide (p c)) = true) : ∀ c ∈ chars, p c := by
  simpa using h

/-- The characters that end a number. -/
def endings : List Char :=
  ['(', '[', '{', ')', ']', '}', '!', '$', ':', '=', '@', '|', '&', ' ', '\n', '\r', '\t', ',', '#']

theorem mem_endings {c : Char} (h : endsNumber c = true) : c ∈ endings := by
  simp only [endsNumber, isPunctuator, isOpening, isClosing, Bool.or_eq_true, beq_iff_eq,
    List.contains_eq_mem, decide_eq_true_eq, List.mem_cons, List.not_mem_nil, or_false] at h
  simp only [endings, List.mem_cons, List.not_mem_nil, or_false]
  tauto

theorem isNameChar_of_endsNumber {c : Char} (h : endsNumber c = true) : isNameChar c = false := by
  have hall : ∀ c ∈ endings, isNameChar c = false := forall_mem_of_all (by decide)
  exact hall c (mem_endings h)

theorem endsNumber_of_isPunctuator {c : Char} (h : isPunctuator c = true) : endsNumber c = true := by
  simp [endsNumber, h]

theorem mem_digits {c : Char} (h : c.isDigit = true) :
    c ∈ ['0', '1', '2', '3', '4', '5', '6', '7', '8', '9'] := by
  simp only [Char.isDigit, Bool.and_eq_true, decide_eq_true_eq, ge_iff_le, UInt32.le_iff_toNat_le] at h
  obtain ⟨hlow, hhigh⟩ : 48 ≤ c.toNat ∧ c.toNat ≤ 57 := h
  -- there are ten codes to try
  have hall : ∀ d < 10, Char.ofNat (48 + d) ∈ ['0', '1', '2', '3', '4', '5', '6', '7', '8', '9'] := by decide
  have hmem := hall (c.toNat - 48) (by omega)
  rwa [Nat.add_sub_cancel' hlow, Char.ofNat_toNat] at hmem

/-- What digits are not. -/
theorem of_isDigit {c : Char} (h : c.isDigit = true) :
    endsNumber c = false ∧ isDot c = false ∧ isExponentLetter c = false ∧ isNameStart c = false := by
  have hall : ∀ c ∈ ['0', '1', '2', '3', '4', '5', '6', '7', '8', '9'],
      endsNumber c = false ∧ isDot c = false ∧ isExponentLetter c = false ∧ isNameStart c = false :=
    forall_mem_of_all (by decide)
  exact hall c (mem_digits h)

theorem takeWhile_append_stop {α : Type} {p : α → Bool} {front rest : List α} (hfront : ∀ a ∈ front, p a = true)
    (hrest : ∀ a ∈ rest.head?, p a = false) : (front ++ rest).takeWhile p = front := by
  rw [List.takeWhile_append_of_pos hfront]
  cases rest with
  | nil => simp
  | cons a rest => simp [hrest a rfl]

/-! ## Numbers -/

theorem isInteger_numeral {digits : List Char} (h : IsNumeral digits) (negative : Bool) :
    isInteger (signText negative ++ digits) = true := by
  obtain ⟨first, rest, rfl⟩ := List.exists_cons_of_ne_nil h.digits_ne_nil
  have hfirst : first ≠ '-' := by
    rintro rfl
    exact absurd (h.isDigit '-' (by simp)) (by decide)
  have hall : (first :: rest).all Char.isDigit = true := List.all_eq_true.2 h.isDigit
  have hleading : ((first :: rest) == ['0'] || (first :: rest).head? != some '0') = true := by
    simpa using h.leading
  cases negative with
  | true =>
    simp only [signText, isInteger, if_true, List.cons_append, List.nil_append, hall, hleading]
    rfl
  | false =>
    have hdigits : signText false ++ first :: rest = first :: rest := rfl
    unfold isInteger
    rw [hdigits]
    split
    · rename_i heq
      exact absurd (List.cons.inj heq).1 hfirst
    · simp only [hall, hleading]
      rfl

theorem cutAtLast_append {wanted : Char → Bool} {front back : List Char} {c : Char} (hc : wanted c = true)
    (hback : ∀ c ∈ back, wanted c = false) :
    Text.cutAtLast wanted (front ++ c :: back) = some (front, back) := by
  have hreverse : (front ++ c :: back).reverse = back.reverse ++ c :: front.reverse := by simp
  have hnone : ∀ c ∈ back.reverse, (!wanted c) = true := by simpa using hback
  simp only [Text.cutAtLast, hreverse]
  rw [List.dropWhile_append_of_pos hnone, List.takeWhile_append_of_pos hnone]
  simp [hc]

theorem cutAtLast_eq_none {wanted : Char → Bool} {text : List Char} (h : ∀ c ∈ text, wanted c = false) :
    Text.cutAtLast wanted text = none := by
  have hall : ∀ c ∈ text.reverse, (!wanted c) = true := by simpa using h
  have hnone : text.reverse.dropWhile (!wanted ·) = [] := List.dropWhile_eq_nil_iff.2 hall
  simp [Text.cutAtLast, hnone]

theorem isFloat_point {whole fraction : List Char} (hwhole : IsNumeral whole) (negative : Bool)
    (hfraction : fraction ≠ []) (hdigits : ∀ c ∈ fraction, c.isDigit = true) :
    isFloat (signText negative ++ whole ++ '.' :: fraction) = true := by
  have hletters : ∀ c ∈ signText negative ++ whole ++ '.' :: fraction, isExponentLetter c = false := by
    intro c hc
    simp only [List.mem_append, List.mem_cons] at hc
    rcases hc with (hc | hc) | rfl | hc
    · cases negative <;> simp [signText] at hc
      rw [hc]
      rfl
    · exact (of_isDigit (hwhole.isDigit c hc)).2.2.1
    · rfl
    · exact (of_isDigit (hdigits c hc)).2.2.1
  rw [isFloat, cutAtLast_append rfl fun c hc => (of_isDigit (hdigits c hc)).2.1, cutAtLast_eq_none hletters]
  simp [isInteger_numeral hwhole, isFraction, hfraction]
  exact hdigits

/-! ## Strings -/

theorem stringLength_plain {plain : List Char} (rest : List Char)
    (h : ∀ c ∈ plain, c ≠ '"' ∧ c ≠ '\n' ∧ c ≠ '\\') :
    stringLength false (plain ++ rest) = (stringLength false rest).map (· + plain.length) := by
  induction plain with
  | nil => simp
  | cons c plain ih =>
    obtain ⟨hquote, hline, hbackslash⟩ := h c (by simp)
    have hnext := ih fun c hc => h c (by simp [hc])
    rw [List.cons_append, stringLength, if_neg (by simp [hquote]), if_neg hline]
    simp only [Bool.not_false, Bool.true_and, beq_eq_false_iff_ne.2 hbackslash, hnext, Option.map_map]
    rfl

theorem stringLength_escape (c : Char) (rest : List Char) (h : c ≠ '\n') :
    stringLength false ('\\' :: c :: rest) = (stringLength false rest).map (· + 2) := by
  simp [stringLength, h, Function.comp_def]

theorem isDigit_decimalCode {c d : Char} (h : d ∈ decimalCode c) : d.isDigit = true := by
  rcases List.mem_append.1 h with h | h
  · rw [List.eq_of_mem_replicate h]
    rfl
  · exact isDigit_toDigits h

theorem plain_of_isDigit {c : Char} (h : c.isDigit = true) : c ≠ '"' ∧ c ≠ '\n' ∧ c ≠ '\\' := by
  refine ⟨?_, ?_, ?_⟩ <;> rintro rfl <;> exact absurd h (by decide)

theorem stringLength_escapeChar (c : Char) (rest : List Char) :
    stringLength false (escapeChar c ++ rest) =
      (stringLength false rest).map (· + (escapeChar c).length) := by
  unfold escapeChar
  split
  · exact stringLength_escape 'r' rest (by decide)
  split
  · exact stringLength_escape 'n' rest (by decide)
  split
  · exact stringLength_escape 't' rest (by decide)
  split
  · exact stringLength_escape '"' rest (by decide)
  split
  · exact stringLength_escape '\\' rest (by decide)
  split
  · exact stringLength_plain rest (by simp [*])
  · have hcode := stringLength_plain rest fun d hd => plain_of_isDigit (isDigit_decimalCode (c := c) hd)
    rw [List.cons_append, List.cons_append, stringLength_escape 'u' _ (by decide), hcode, Option.map_map]
    rfl

theorem stringLength_escaped (text rest : List Char) :
    stringLength false (text.flatMap escapeChar ++ '"' :: rest) =
      some ((text.flatMap escapeChar).length + 1) := by
  induction text with
  | nil => simp [stringLength]
  | cons c text ih =>
    rw [List.flatMap_cons, List.append_assoc, stringLength_escapeChar, ih]
    simp
    omega

/-! ## Block strings -/

/-- Written quotes do not start where none are escaped. -/
theorem blockStringLength_cons {afterBackslash : Bool} {c : Char} {text : List Char}
    (h : ∀ rest, c :: text ≠ '"' :: '"' :: '"' :: rest) :
    blockStringLength afterBackslash (c :: text) = (blockStringLength (c == '\\') text).map (· + 1) := by
  rw [blockStringLength.eq_def]
  split
  · exact absurd ‹_› (h _)
  · rename_i heq
    obtain ⟨rfl, rfl⟩ := List.cons.inj heq
    rfl
  · cases ‹_ = []›

theorem eq_cons_of_escapeQuotes {line rest after : List Char}
    (h : escapeQuotes line ++ '\n' :: rest = '"' :: after) :
    ∃ others, line = '"' :: others ∧ after = escapeQuotes others ++ '\n' :: rest := by
  fun_cases escapeQuotes line with
  | case1 line => simp [escapeQuotes] at h
  | case2 c line hquotes =>
    rw [escapeQuotes, List.cons_append] at h
    · obtain ⟨rfl, rfl⟩ := List.cons.inj h
      exact ⟨line, rfl, rfl⟩
    · exact hquotes
  | case3 => simp [escapeQuotes] at h

/-- A line of a block string is passed over, whatever stands before it. -/
theorem blockStringLength_line (afterBackslash : Bool) (line rest : List Char) :
    blockStringLength afterBackslash (escapeQuotes line ++ '\n' :: rest) =
      (blockStringLength false rest).map (· + ((escapeQuotes line).length + 1)) := by
  fun_induction escapeQuotes line generalizing afterBackslash with
  | case1 line ih =>
    simp only [List.cons_append]
    rw [blockStringLength_cons (by simp), blockStringLength]
    simp only [beq_self_eq_true, if_true, ih, Option.map_map, List.length_cons]
    rfl
  | case2 c line hquotes ih =>
    rw [List.cons_append, blockStringLength_cons, ih]
    · simp only [Option.map_map, List.length_cons]
      rfl
    · -- three quotes of the written line would be three quotes of the line, which are escaped
      intro after heq
      obtain ⟨rfl, htail⟩ := List.cons.inj heq
      obtain ⟨others, rfl, hothers⟩ := eq_cons_of_escapeQuotes htail
      obtain ⟨others, rfl, -⟩ := eq_cons_of_escapeQuotes hothers.symm
      exact hquotes others rfl rfl
  | case3 =>
    simp [blockStringLength]

theorem blockStringLength_blank (blank rest : List Char) (h : ∀ c ∈ blank, c ≠ '"' ∧ c ≠ '\\') :
    blockStringLength false (blank ++ rest) = (blockStringLength false rest).map (· + blank.length) := by
  induction blank with
  | nil => simp
  | cons c blank ih =>
    obtain ⟨hquote, hbackslash⟩ := h c (by simp)
    rw [List.cons_append, blockStringLength_cons (by simp [hquote]), beq_eq_false_iff_ne.2 hbackslash,
      ih fun c hc => h c (by simp [hc]), Option.map_map]
    rfl

theorem blockStringLength_indentation (depth : Nat) (rest : List Char) :
    blockStringLength false ((indentation depth).toList ++ rest) =
      (blockStringLength false rest).map (· + (indentation depth).toList.length) := by
  refine blockStringLength_blank _ rest fun c hc => ?_
  rw [indentation, String.toList_ofList] at hc
  rw [List.eq_of_mem_replicate hc]
  decide

theorem blockStringLength_printBlockLine (depth : Nat) (line rest : List Char) :
    blockStringLength false ((printBlockLine depth line).toList ++ rest) =
      (blockStringLength false rest).map (· + (printBlockLine depth line).toList.length) := by
  unfold printBlockLine
  split
  · exact blockStringLength_blank ['\n'] rest (forall_mem_of_all (by decide))
  · have hline : "\n".toList = ['\n'] := rfl
    simp only [String.toList_append, String.toList_ofList, hline, List.append_assoc,
      List.cons_append, List.nil_append]
    rw [blockStringLength_indentation, blockStringLength_line, Option.map_map]
    congr 1
    funext n
    simp only [Function.comp_apply, List.length_append, List.length_singleton]
    omega

theorem blockStringLength_join (depth : Nat) (lines : List (List Char)) (rest : List Char) :
    blockStringLength false ((String.join (lines.map (printBlockLine depth))).toList ++ rest) =
      (blockStringLength false rest).map
        (· + (String.join (lines.map (printBlockLine depth))).toList.length) := by
  induction lines with
  | nil => simp
  | cons line lines ih =>
    simp only [List.map_cons, String.join_cons, String.toList_append, List.append_assoc]
    rw [blockStringLength_printBlockLine, ih, Option.map_map]
    congr 1
    funext n
    simp only [Function.comp_apply, List.length_append]
    omega

/-! ## Lexemes -/

/-- What is written between the quotes of a block string. -/
def blockText (depth : Nat) (text : String) : List Char :=
  '\n' :: ((String.join ((Text.lines text.toList).map (printBlockLine (depth + indentStep)))).toList ++
    (indentation depth).toList)

theorem printString_block {depth : Nat} {text : String} (h : fitsBlock text.toList = true) :
    (printString depth text).toList = '"' :: '"' :: '"' :: (blockText depth text ++ ['"', '"', '"']) := by
  rw [printString, if_pos h]
  simp [blockText, String.toList_append]

theorem printString_quoted {depth : Nat} {text : String} (h : fitsBlock text.toList = false) :
    (printString depth text).toList = '"' :: (text.toList.flatMap escapeChar ++ ['"']) := by
  rw [printString, if_neg (by simp [h])]
  simp [String.toList_append]

theorem blockStringLength_blockText (depth : Nat) (text : String) (rest : List Char) :
    blockStringLength false (blockText depth text ++ '"' :: '"' :: '"' :: rest) =
      some ((blockText depth text).length + 3) := by
  rw [blockText, List.cons_append, blockStringLength_cons (by simp), List.append_assoc]
  rw [show ('\n' == '\\') = false from rfl, blockStringLength_join, blockStringLength_indentation]
  simp only [blockStringLength, Bool.false_eq_true, if_false, Option.map_some, List.length_cons,
    List.length_append, Option.some.injEq]
  omega

theorem lexeme_punct {c : Char} (h : isPunctuator c = true) (rest : List Char) :
    lexeme c rest = .ok (.punctuator, 0) := by
  rw [lexeme, if_pos h]

theorem lexeme_name {first : Char} {tail rest : List Char} (hfirst : isNameStart first = true)
    (htail : ∀ c ∈ tail, isNameChar c = true) (hrest : Ends rest) :
    lexeme first (tail ++ rest) = .ok (.name, tail.length) := by
  have hpunct : isPunctuator first = false := by
    by_contra hp
    have hnot := isNameChar_of_endsNumber (endsNumber_of_isPunctuator (by simpa using hp))
    rw [isNameChar_of_start hfirst] at hnot
    cases hnot
  have hdot : first ≠ '.' := by
    rintro rfl
    cases hfirst
  have htake : (tail ++ rest).takeWhile isNameChar = tail :=
    takeWhile_append_stop htail fun c hc => isNameChar_of_endsNumber (hrest c hc)
  rw [lexeme, if_neg (by simp [hpunct]), if_neg hdot, if_pos hfirst, htake]

/-- The characters of a number reach up to where it ends. -/
theorem lexeme_number {first : Char} {tail rest : List Char}
    (hfirst : first.isDigit = true ∨ first = '-')
    (htail : ∀ c ∈ tail, endsNumber c = false) (hrest : Ends rest) :
    lexeme first (tail ++ rest) =
      if (first :: tail).any fun c => isDot c || isExponentLetter c then
        if isFloat (first :: tail) then .ok (.float, tail.length)
        else .error (.float (String.ofList (first :: tail)))
      else if isInteger (first :: tail) then .ok (.int, tail.length)
      else .error (.integer (String.ofList (first :: tail))) := by
  have htake : (tail ++ rest).takeWhile (!endsNumber ·) = tail :=
    takeWhile_append_stop (by simpa using htail) (by simpa [Ends] using hrest)
  have hclass : isPunctuator first = false ∧ first ≠ '.' ∧ isNameStart first = false ∧
      isNumberStart first = true := by
    rcases hfirst with hdigit | rfl
    · obtain ⟨hends, hdot, -, hname⟩ := of_isDigit hdigit
      refine ⟨?_, by simpa [isDot] using hdot, hname, by simp [isNumberStart, hdigit]⟩
      by_contra hp
      rw [endsNumber_of_isPunctuator (by simpa using hp)] at hends
      cases hends
    · decide
  obtain ⟨hpunct, hdot, hname, hnumber⟩ := hclass
  rw [lexeme, if_neg (by simp [hpunct]), if_neg hdot, if_neg (by simp [hname]), if_pos hnumber]
  simp only [htake]

theorem exists_escapeChar_eq (c : Char) : ∃ first rest, escapeChar c = first :: rest ∧ first ≠ '"' := by
  unfold escapeChar
  repeat' split
  all_goals exact ⟨_, _, rfl, by first | decide | assumption⟩

/-- A string without characters is not taken for the start of a block string. -/
theorem lexeme_quoted (text : List Char) {rest : List Char} (hrest : Ends rest) :
    lexeme '"' (text.flatMap escapeChar ++ ['"'] ++ rest) =
      .ok (.string, (text.flatMap escapeChar ++ ['"']).length) := by
  have hlength := stringLength_escaped text rest
  -- an empty string has a second quote behind the first, but what ends a word is no third one
  have hquotes : (text.flatMap escapeChar ++ '"' :: rest).take 2 ≠ ['"', '"'] := by
    cases text with
    | nil =>
      cases rest with
      | nil => simp
      | cons c rest =>
        have hc := hrest c rfl
        simp only [List.flatMap_nil, List.nil_append, List.take_succ_cons, List.take_zero]
        rintro heq
        obtain rfl : c = '"' := by simpa using heq
        cases hc
    | cons c text =>
      obtain ⟨first, others, hescape, hfirst⟩ := exists_escapeChar_eq c
      simp [List.flatMap_cons, hescape, hfirst]
  rw [List.append_assoc, List.singleton_append, lexeme, if_neg (by decide), if_neg (by decide),
    if_neg (by decide), if_neg (by decide), if_pos rfl, if_neg hquotes, hlength]
  simp

theorem lexeme_block (depth : Nat) (text : String) (rest : List Char) :
    lexeme '"' ('"' :: '"' :: (blockText depth text ++ ['"', '"', '"']) ++ rest) =
      .ok (.blockString, ('"' :: '"' :: (blockText depth text ++ ['"', '"', '"'])).length) := by
  have hlength := blockStringLength_blockText depth text rest
  rw [lexeme, if_neg (by decide), if_neg (by decide), if_neg (by decide), if_neg (by decide), if_pos rfl]
  simp [hlength]

/-! ## Words -/

/-- The characters that are skipped in front of a token. -/
def ignored : List Char := [' ', ',', '\n', '\t', '\r', '\ufeff', '#']

/-- A text starts with a token of a kind that all of it belongs to, whatever ends it. -/
def LexesAs (kind : TokenKind) (text rest : List Char) : Prop :=
  ∃ first tail, text = first :: tail ∧ first ∉ ignored ∧
    lexeme first (tail ++ rest) = .ok (kind, tail.length)

theorem of_number_first {c : Char} (h : c.isDigit = true ∨ c = '-') :
    c ∉ ignored ∧ isDot c = false ∧ isExponentLetter c = false := by
  rcases h with h | rfl
  · have hall : ∀ c ∈ ['0', '1', '2', '3', '4', '5', '6', '7', '8', '9'],
        c ∉ ignored ∧ isDot c = false ∧ isExponentLetter c = false := forall_mem_of_all (by decide)
    exact hall c (mem_digits h)
  · decide

theorem exists_number_first {digits : List Char} (h : IsNumeral digits) (negative : Bool) :
    ∃ first tail, signText negative ++ digits = first :: tail ∧ (first.isDigit = true ∨ first = '-') ∧
      ∀ c ∈ tail, c.isDigit = true := by
  obtain ⟨first, tail, rfl⟩ := List.exists_cons_of_ne_nil h.digits_ne_nil
  cases negative with
  | true => exact ⟨'-', first :: tail, rfl, .inr rfl, h.isDigit⟩
  | false => exact ⟨first, tail, rfl, .inl (h.isDigit first (by simp)), fun c hc => h.isDigit c (by simp [hc])⟩

theorem lexes_integer {text rest : List Char} {n : Int} (h : WritesInteger text n) (hrest : Ends rest) :
    LexesAs .int text rest := by
  obtain ⟨negative, digits, hnumeral, rfl, -⟩ := h
  have hinteger := isInteger_numeral hnumeral negative
  obtain ⟨first, tail, htext, hfirst, htail⟩ := exists_number_first hnumeral negative
  rw [htext] at hinteger ⊢
  refine ⟨first, tail, rfl, (of_number_first hfirst).1, ?_⟩
  have hplain : ((first :: tail).any fun c => isDot c || isExponentLetter c) = false := by
    rw [List.any_eq_false]
    intro c hc
    rcases List.mem_cons.1 hc with rfl | hc
    · simp [(of_number_first hfirst).2]
    · simp [(of_isDigit (htail c hc)).2]
  rw [lexeme_number hfirst (fun c hc => (of_isDigit (htail c hc)).1) hrest, hplain, hinteger]
  rfl

theorem lexes_point {whole fraction rest : List Char} {negative : Bool} (hwhole : IsNumeral whole)
    (hfraction : fraction ≠ []) (hdigits : ∀ c ∈ fraction, c.isDigit = true) (hrest : Ends rest) :
    LexesAs .float (signText negative ++ whole ++ '.' :: fraction) rest := by
  have hfloat := isFloat_point hwhole negative hfraction hdigits
  obtain ⟨first, tail, htext, hfirst, htail⟩ := exists_number_first hwhole negative
  rw [htext, List.cons_append] at hfloat ⊢
  refine ⟨first, _, rfl, (of_number_first hfirst).1, ?_⟩
  have hinside : ∀ c ∈ tail ++ '.' :: fraction, endsNumber c = false := by
    intro c hc
    rcases List.mem_append.1 hc with hc | hc
    · exact (of_isDigit (htail c hc)).1
    rcases List.mem_cons.1 hc with rfl | hc
    · rfl
    · exact (of_isDigit (hdigits c hc)).1
  have hpoint : ((first :: (tail ++ '.' :: fraction)).any fun c => isDot c || isExponentLetter c) = true := by
    simp [isDot]
  rw [lexeme_number hfirst hinside hrest, hpoint, hfloat]
  rfl

theorem lexes_name {text : String} {rest : List Char} (h : IsName text) (hrest : Ends rest) :
    LexesAs .name text.toList rest := by
  obtain ⟨first, tail, htext, hfirst, htail⟩ := h
  refine ⟨first, tail, htext, fun hignored => ?_, lexeme_name hfirst htail hrest⟩
  have hall : ∀ c ∈ ignored, isNameStart c = false := forall_mem_of_all (by decide)
  rw [hall first hignored] at hfirst
  cases hfirst

theorem lexes_string (depth : Nat) (text : String) {rest : List Char} (hrest : Ends rest) :
    LexesAs (Word.string depth text).kind (printString depth text).toList rest := by
  rw [Word.kind]
  split
  · rename_i hblock
    exact ⟨'"', _, printString_block hblock, by decide, lexeme_block depth text rest⟩
  · rename_i hquoted
    exact ⟨'"', _, printString_quoted (by simpa using hquoted), by decide, lexeme_quoted text.toList hrest⟩

/-- A word is cut off the text it stands in front of, if it has a token. -/
theorem Word.lexes {word : Word} {rest : List Char} (hform : word.WellFormed) (htoken : word.HasToken)
    (hrest : word.isClosed = false → Ends rest) : LexesAs word.kind word.text rest := by
  cases word with
  | punct c =>
    refine ⟨c, [], rfl, fun hignored => ?_, lexeme_punct hform rest⟩
    have hall : ∀ c ∈ ignored, ¬ isPunctuator c = true := forall_mem_of_all (by decide)
    exact hall c hignored hform
  | name text => exact lexes_name hform (hrest rfl)
  | int value => exact lexes_integer (writesInteger_toString value) (hrest rfl)
  | float value =>
    cases value with
    | infinite negative =>
      cases negative with
      | true => exact absurd rfl htoken
      | false => exact lexes_name (show IsName "inf" by decide) (hrest rfl)
    | finite negative mantissa exponent =>
      -- a whole float is cut off as an integer
      rw [Word.kind, Word.text]
      cases hwhole : writtenWhole? (.finite negative mantissa exponent) with
      | some n => exact lexes_integer (writesInteger_float hwhole) (hrest rfl)
      | none =>
        obtain ⟨whole, fraction, hnumeral, hne, hdigits, htext⟩ := write_point hwhole
        rw [htext]
        exact lexes_point hnumeral hne hdigits (hrest rfl)
  | string depth text => exact lexes_string depth text (hrest rfl)

/-- Minus infinity is cut off as a number that is none. -/
theorem Word.lexeme_error {word : Word} {rest : List Char} (htoken : ¬ word.HasToken) (hrest : Ends rest) :
    ∃ first tail fault, word.text = first :: tail ∧ first ∉ ignored ∧
      lexeme first (tail ++ rest) = .error fault := by
  cases word with
  | float value =>
    obtain rfl : value = .infinite true := not_not.1 htoken
    refine ⟨'-', ['i', 'n', 'f'], .integer "-inf", rfl, by decide, ?_⟩
    rw [lexeme_number (.inr rfl) (forall_mem_of_all (by decide)) hrest]
    rfl
  | punct | name | int | string => exact absurd trivial htoken

/-! ## Texts -/

/-- A text consists of words, with spaces, line ends and commas around them. -/
inductive Spells : List Char → List Word → Prop
  | nil : Spells [] []
  | gap {c : Char} {text : List Char} {words : List Word} :
    c ∈ [' ', '\n', ','] → Spells text words → Spells (c :: text) words
  | word {word : Word} {rest : List Char} {words : List Word} :
    (word.isClosed = false → Ends rest) → Spells rest words → Spells (word.text ++ rest) (word :: words)

/-- Brackets open after a word. -/
def Word.openAfter (depth : Nat) : Word → Option Nat
  | .punct c => Document.openAfter depth c
  | _ => some depth

/-- Nowhere in a list of words are more brackets open than allowed, with some open in front of it. -/
def Nests : Nat → List Word → Prop
  | _, [] => True
  | depth, word :: words => ∃ inside, word.openAfter depth = some inside ∧ Nests inside words

theorem skipIgnored_of_notMem {c : Char} (h : c ∉ ignored) (position : Position) (text : List Char) :
    skipIgnored false position (c :: text) = (position, c :: text) := by
  simp only [ignored, List.mem_cons, List.not_mem_nil, or_false, not_or] at h
  simp [skipIgnored, h]

/-- The tokens of a text with nothing to skip in front. -/
def tokensAt (depth : Nat) (start : Position) : List Char → Tokens
  | [] => ⟨[], start, none⟩
  | c :: rest =>
    match lexeme c rest with
    | .error fault => ⟨[], start, some fault⟩
    | .ok (kind, length) =>
      match if kind = .punctuator then openAfter depth c else some depth with
      | none => ⟨[], start, some .tooDeep⟩
      | some depth =>
        let lexeme := c :: rest.take length
        let following := tokensFrom depth (positionAfter start kind lexeme) (rest.drop length)
        { following with list := ⟨kind, String.ofList lexeme, start⟩ :: following.list }

theorem tokensFrom_eq (depth : Nat) (position : Position) (text : List Char) :
    tokensFrom depth position text =
      tokensAt depth (skipIgnored false position text).1 (skipIgnored false position text).2 := by
  rw [tokensFrom]
  split
  all_goals
    rename_i h
    rw [h]
    rfl

theorem tokensFrom_gap {c : Char} (h : c ∈ [' ', '\n', ',']) (depth : Nat) (position : Position)
    (text : List Char) : ∃ next, tokensFrom depth position (c :: text) = tokensFrom depth next text := by
  simp only [List.mem_cons, List.not_mem_nil, or_false] at h
  rcases h with rfl | rfl | rfl <;> exact ⟨_, by rw [tokensFrom_eq, tokensFrom_eq depth _ text]; rfl⟩

theorem tokensFrom_of_notMem {c : Char} (h : c ∉ ignored) (depth : Nat) (position : Position)
    (text : List Char) : tokensFrom depth position (c :: text) = tokensAt depth position (c :: text) := by
  rw [tokensFrom_eq, skipIgnored_of_notMem h]

theorem Word.kind_eq_punctuator {word : Word} (h : word.kind = .punctuator) : ∃ c, word = .punct c := by
  cases word with
  | punct c => exact ⟨c, rfl⟩
  | name | int => cases h
  | float value =>
    simp only [Word.kind] at h
    split at h
    · cases h
    · split at h <;> cases h
  | string depth text =>
    simp only [Word.kind] at h
    split at h <;> cases h

theorem Word.openAfter_eq {word : Word} {first : Char} {tail : List Char} (h : word.text = first :: tail)
    (depth : Nat) :
    word.openAfter depth = if word.kind = .punctuator then Document.openAfter depth first else some depth := by
  split
  · rename_i hkind
    obtain ⟨c, rfl⟩ := Word.kind_eq_punctuator hkind
    obtain ⟨rfl, -⟩ := List.cons.inj h
    rfl
  · rename_i hkind
    cases word with
    | punct c => exact absurd rfl hkind
    | name | int | float | string => rfl

section Tokens

variable {text rest : List Char} {words : List Word} {word : Word}

/-- A word that has a token is followed by the tokens behind it, unless it opens too many brackets. -/
theorem tokensFrom_word (hform : word.WellFormed) (htoken : word.HasToken)
    (hends : word.isClosed = false → Ends rest) (depth : Nat) (position : Position) :
    (word.openAfter depth = none ∧ (tokensFrom depth position (word.text ++ rest)).fault ≠ none) ∨
    ∃ inside token next, word.openAfter depth = some inside ∧ word.Is token ∧
      (tokensFrom depth position (word.text ++ rest)).list = token :: (tokensFrom inside next rest).list ∧
      (tokensFrom depth position (word.text ++ rest)).fault = (tokensFrom inside next rest).fault := by
  obtain ⟨first, tail, htext, hfirst, hlexeme⟩ := Word.lexes hform htoken hends
  have hopen := Word.openAfter_eq htext depth
  have htokens : tokensFrom depth position (word.text ++ rest) =
      tokensAt depth position (first :: (tail ++ rest)) := by
    rw [htext, List.cons_append, tokensFrom_of_notMem hfirst]
  rw [htokens, tokensAt, hlexeme]
  simp only [List.take_left, List.drop_left]
  rw [← hopen]
  cases word.openAfter depth with
  | none => exact .inl ⟨rfl, by simp⟩
  | some inside =>
    exact .inr ⟨inside, ⟨word.kind, String.ofList (first :: tail), position⟩, _, rfl,
      ⟨position, by rw [Word.token, htext]⟩, rfl, rfl⟩

/-- The tokens of a text that spells words are those of the words, as long as nothing stops them. -/
theorem tokensFrom_spells (h : Spells text words) (hform : ∀ word ∈ words, word.WellFormed) (depth : Nat)
    (position : Position) :
    ((tokensFrom depth position text).fault = none ↔ Nests depth words ∧ ∀ word ∈ words, word.HasToken) ∧
    ((tokensFrom depth position text).fault = none →
      List.Forall₂ Word.Is words (tokensFrom depth position text).list) := by
  induction h generalizing depth position with
  | nil => simp [tokensFrom_eq, skipIgnored, tokensAt, Nests]
  | gap hc _ ih =>
    -- only the position is another one behind a gap
    obtain ⟨next, hnext⟩ := tokensFrom_gap hc depth position _
    rw [hnext]
    exact ih hform depth next
  | @word word rest words hends _ ih =>
    obtain ⟨hword, hwords⟩ := List.forall_mem_cons.1 hform
    simp only [Nests, List.forall_mem_cons]
    by_cases htoken : word.HasToken
    · rcases tokensFrom_word hword htoken hends depth position with
        ⟨hopen, hfault⟩ | ⟨inside, token, next, hopen, his, hlist, hfault⟩
      · simp [hopen, hfault]
      · rw [hlist, hfault]
        obtain ⟨hiff, hall⟩ := ih hwords inside next
        refine ⟨?_, fun hnone => .cons his (hall hnone)⟩
        simp [hopen, htoken, hiff]
    · -- a word without a token is no punctuator, so something ends it, and the tokens stop there
      have hopened : word.isClosed = false := by
        cases word with
        | punct c => exact absurd trivial htoken
        | name | int | float | string => rfl
      obtain ⟨first, tail, fault, htext, hfirst, hlexeme⟩ := Word.lexeme_error htoken (hends hopened)
      have hfault : (tokensFrom depth position (word.text ++ rest)).fault = some fault := by
        rw [htext, List.cons_append, tokensFrom_of_notMem hfirst, tokensAt, hlexeme]
      simp [hfault, htoken]

end Tokens

end SchemaFragments.Document
