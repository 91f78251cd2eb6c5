import SchemaFragments.Proofs.Lexing
/-!
# Printed block strings and their indent

A block string is printed with the indent of its place in front of every line, and with an empty line in
front of the first one. So when it is read the common indent is that of the place and the least one of the
text's own lines, and it is torn exactly when that ends inside a character of one of them.
-/

namespace SchemaFragments.Document

variable {bytes depth : Nat} {blank line rest : List Char} {lines : List (List Char)}

/-! ## Bytes of a line -/

theorem byteLength_replicate (depth : Nat) : Text.byteLength (List.replicate depth ' ') = depth := by
  induction depth with
  | zero => rfl
  | succ depth ih =>
    rw [List.replicate_succ, Text.byteLength, ih, Nat.add_comm]
    rfl

/-- The bytes of a character come first. -/
theorem dropBytes_cons {c : Char} (h : bytes ≠ 0) : dropBytes bytes (c :: line) =
    if c.utf8Size ≤ bytes then dropBytes (bytes - c.utf8Size) line else none := by
  obtain ⟨bytes, rfl⟩ := Nat.exists_eq_succ_of_ne_zero h
  rw [dropBytes]

theorem dropBytes_append (front line : List Char) (bytes : Nat) :
    dropBytes (Text.byteLength front + bytes) (front ++ line) = dropBytes bytes line := by
  induction front with
  | nil => simp [Text.byteLength]
  | cons c front ih =>
    have hc := c.utf8Size_pos
    rw [Text.byteLength, List.cons_append, dropBytes_cons (by omega), if_pos (by omega), ← ih]
    congr 1
    omega

/-- What stands behind the bytes plays no part. -/
theorem isSome_dropBytes_append {front : List Char} (h : bytes ≤ Text.byteLength front) :
    (dropBytes bytes (front ++ line)).isSome = (dropBytes bytes front).isSome := by
  induction front generalizing bytes with
  | nil =>
    obtain rfl : bytes = 0 := by simpa [Text.byteLength] using h
    simp [dropBytes]
  | cons c front ih =>
    by_cases hzero : bytes = 0
    · simp [hzero, dropBytes]
    rw [Text.byteLength] at h
    rw [List.cons_append, dropBytes_cons hzero, dropBytes_cons hzero]
    split
    · exact ih (by omega)
    · rfl

/-! ## Lines with an indent -/

/-- A line starts with some white space and does not end with it. -/
def Indented (blank line : List Char) : Prop :=
  ∃ c rest, line = blank ++ c :: rest ∧ (∀ c ∈ blank, Text.isBlank c = true) ∧ Text.isBlank c = false

theorem exists_indented (h : isWhite line = false) : ∃ blank, Indented blank line := by
  induction line with
  | nil => simp [isWhite] at h
  | cons c line ih =>
    cases hc : Text.isBlank c with
    | false => exact ⟨[], c, line, rfl, by simp, hc⟩
    | true =>
      obtain ⟨blank, first, rest, rfl, hblank, hfirst⟩ := ih (by simpa [isWhite, hc] using h)
      exact ⟨c :: blank, first, rest, rfl, by simpa [hc] using hblank, hfirst⟩

namespace Indented

theorem isWhite (h : Indented blank line) : isWhite line = false := by
  obtain ⟨c, rest, rfl, -, hc⟩ := h
  simp [Document.isWhite, hc]

theorem indentBytes (h : Indented blank line) : indentBytes line = Text.byteLength blank := by
  obtain ⟨c, rest, rfl, hblank, hc⟩ := h
  rw [Document.indentBytes, takeWhile_append_stop hblank (by simpa using hc)]

theorem isSome_dropBytes (h : Indented blank line) (hbytes : bytes ≤ Text.byteLength blank) :
    (dropBytes bytes line).isSome = (dropBytes bytes blank).isSome := by
  obtain ⟨c, rest, rfl, -, -⟩ := h
  exact isSome_dropBytes_append hbytes

theorem indent (h : Indented blank line) (depth : Nat) :
    Indented (List.replicate depth ' ' ++ blank) (List.replicate depth ' ' ++ line) := by
  obtain ⟨c, rest, rfl, hblank, hc⟩ := h
  refine ⟨c, rest, by rw [List.append_assoc], fun c hc => ?_, hc⟩
  rcases List.mem_append.1 hc with hc | hc
  · rw [List.eq_of_mem_replicate hc]
    rfl
  · exact hblank c hc

theorem escapeQuotes (h : Indented blank line) : Indented blank (escapeQuotes line) := by
  obtain ⟨c, rest, rfl, hblank, hc⟩ := h
  -- an escaped quote starts with a backslash, which is not blank either
  obtain ⟨first, others, hescaped, hfirst⟩ :
      ∃ first others, Document.escapeQuotes (c :: rest) = first :: others ∧ Text.isBlank first = false := by
    rw [Document.escapeQuotes.eq_def]
    split
    · exact ⟨_, _, rfl, rfl⟩
    · rename_i heq
      obtain ⟨rfl, rfl⟩ := List.cons.inj heq
      exact ⟨_, _, rfl, hc⟩
    · cases ‹_ = []›
  refine ⟨first, others, ?_, hblank, hfirst⟩
  rw [← hescaped]
  induction blank with
  | nil => rfl
  | cons b blank ih =>
    obtain ⟨hb, hblank⟩ := List.forall_mem_cons.1 hblank
    have hquote : b ≠ '"' := by
      rintro rfl
      cases hb
    rw [List.cons_append, Document.escapeQuotes, ih hblank, List.cons_append]
    simp [hquote]

/-- The `\r` of a line end is white space behind all else. -/
theorem dropReturn (h : Indented blank line) :
    Indented blank (if line.getLast? = some '\r' then line.dropLast else line) := by
  obtain ⟨c, rest, rfl, hblank, hc⟩ := h
  split
  · rename_i hreturn
    -- the last character is blank, so it is not the one that ends the indent
    rcases List.eq_nil_or_concat rest with rfl | ⟨rest, last, rfl⟩
    · obtain rfl : c = '\r' := by simpa using hreturn
      cases hc
    · refine ⟨c, rest, ?_, hblank, hc⟩
      rw [List.concat_eq_append, ← List.cons_append, ← List.append_assoc, List.dropLast_concat]
  · exact ⟨c, rest, rfl, hblank, hc⟩

end Indented

/-! ## Printed lines -/

/-- What is read for a printed line. -/
def readLine (depth : Nat) (line : List Char) : List Char :=
  let printed := List.replicate depth ' ' ++ escapeQuotes line
  if isWhite line then [] else if printed.getLast? = some '\r' then printed.dropLast else printed

theorem Indented.readLine (h : Indented blank line) (depth : Nat) :
    Indented (List.replicate depth ' ' ++ blank) (readLine depth line) := by
  rw [Document.readLine, if_neg (by simp [h.isWhite])]
  exact (h.escapeQuotes.indent depth).dropReturn

theorem readLine_of_isWhite (h : isWhite line = true) : readLine depth line = [] := by
  rw [readLine, if_pos h]

theorem isSome_dropBytes_readLine (h : isWhite line = false) (hbytes : bytes ≤ indentBytes line) :
    (dropBytes (depth + bytes) (readLine depth line)).isSome = (dropBytes bytes line).isSome := by
  obtain ⟨blank, hblank⟩ := exists_indented h
  rw [hblank.indentBytes] at hbytes
  have hlength := Text.byteLength_append (List.replicate depth ' ') blank
  have hdrop := dropBytes_append (List.replicate depth ' ') blank bytes
  rw [byteLength_replicate] at hlength hdrop
  rw [(hblank.readLine depth).isSome_dropBytes (by omega), hblank.isSome_dropBytes hbytes, hdrop]

theorem isWhite_readLine (depth : Nat) (line : List Char) : isWhite (readLine depth line) = isWhite line := by
  cases h : isWhite line with
  | true => rw [readLine_of_isWhite h]; rfl
  | false =>
    obtain ⟨blank, hblank⟩ := exists_indented h
    exact (hblank.readLine depth).isWhite

theorem notMem_escapeQuotes (h : '\n' ∉ line) : '\n' ∉ escapeQuotes line := by
  fun_induction escapeQuotes line with
  | case1 line ih => simpa using ih (by simpa using h)
  | case2 c line _ ih => simp_all
  | case3 => simp

theorem lines_printBlockLine (depth : Nat) (h : '\n' ∉ line) :
    Text.lines ((printBlockLine depth line).toList ++ rest) = readLine depth line :: Text.lines rest := by
  cases hwhite : isWhite line with
  | true =>
    have hall : line.all Text.isBlank = true := hwhite
    rw [printBlockLine, if_pos hall, readLine_of_isWhite hwhite]
    exact Text.lines_append [] rest (by simp)
  | false =>
    have hall : ¬ line.all Text.isBlank = true := Bool.eq_false_iff.1 hwhite
    have hprinted : '\n' ∉ List.replicate depth ' ' ++ escapeQuotes line := by
      simp [List.mem_replicate, notMem_escapeQuotes h]
    have htext : (printBlockLine depth line).toList ++ rest =
        List.replicate depth ' ' ++ escapeQuotes line ++ '\n' :: rest := by
      rw [printBlockLine, if_neg hall]
      simp [indentation]
    rw [htext, Text.lines_append _ rest hprinted]
    simp only [readLine, hwhite, Bool.false_eq_true, if_false]

theorem lines_join (depth : Nat) (h : ∀ line ∈ lines, '\n' ∉ line) :
    Text.lines ((String.join (lines.map (printBlockLine depth))).toList ++ rest) =
      lines.map (readLine depth) ++ Text.lines rest := by
  induction lines with
  | nil => simp
  | cons line lines ih =>
    obtain ⟨hline, hlines⟩ := List.forall_mem_cons.1 h
    simp only [List.map_cons, String.join_cons, String.toList_append, List.append_assoc, List.cons_append]
    rw [lines_printBlockLine depth hline, ih hlines]

/-! ## The indent of a printed text -/

theorem min?_map_add (depth : Nat) (sizes : List Nat) :
    (sizes.map (depth + ·)).min? = sizes.min?.map (depth + ·) := by
  cases sizes with
  | nil => rfl
  | cons size sizes =>
    rw [List.map_cons, List.min?_cons', List.min?_cons', List.foldl_map, Option.map_some,
      List.foldl_hom (depth + ·) fun a b => Nat.add_min_add_left ..]

theorem leastIndent_append {others : List (List Char)} (h : ∀ line ∈ others, isWhite line = true) :
    leastIndent (lines ++ others) = leastIndent lines := by
  have hnone : others.filter (!isWhite ·) = [] := by simpa using h
  rw [leastIndent, leastIndent, List.filter_append, hnone, List.append_nil]

theorem leastIndent_readLine (depth : Nat) :
    leastIndent (lines.map (readLine depth)) = (leastIndent lines).map (depth + ·) := by
  have hfilter : (lines.map (readLine depth)).filter (!isWhite ·) =
      (lines.filter (!isWhite ·)).map (readLine depth) := by
    simp [List.filter_map, Function.comp_def, isWhite_readLine]
  rw [leastIndent, hfilter, List.map_map, leastIndent, ← min?_map_add, List.map_map]
  congr 1
  refine List.map_congr_left fun line hl => ?_
  have hwhite : isWhite line = false := by simpa using (List.mem_filter.1 hl).2
  obtain ⟨blank, hblank⟩ := exists_indented hwhite
  simp [(hblank.readLine depth).indentBytes, hblank.indentBytes, Text.byteLength_append, byteLength_replicate]

theorem leastIndent_le (h : leastIndent lines = some bytes) (hl : line ∈ lines) (hwhite : isWhite line = false) :
    bytes ≤ indentBytes line :=
  (List.min?_eq_some_iff.1 h).2 _ (List.mem_map_of_mem (List.mem_filter.2 ⟨hl, by simpa using hwhite⟩))

/-! ## Reading -/

theorem isSome_mapM {α β : Type} {f : α → Option β} {items : List α} :
    (items.mapM f).isSome = true ↔ ∀ item ∈ items, (f item).isSome = true := by
  induction items with
  | nil => simp
  | cons item items ih =>
    rw [List.mapM_cons, List.forall_mem_cons, ← ih]
    cases f item <;> cases items.mapM f <;> simp

theorem mem_trimWhiteLines {lines : List (List Char × Nat)} {line : List Char × Nat} (h : line ∈ lines)
    (hwhite : isWhite line.1 = false) : line ∈ trimWhiteLines lines := by
  have hdrop {lines : List (List Char × Nat)} (h : line ∈ lines) : line ∈ lines.dropWhile (isWhite ·.1) := by
    rw [← List.takeWhile_append_dropWhile (p := (isWhite ·.1)) (l := lines)] at h
    rcases List.mem_append.1 h with h | h
    · have hw := List.all_eq_true.1 List.all_takeWhile line h
      simp [hwhite] at hw
    · exact h
  exact List.mem_reverse.2 (hdrop (List.mem_reverse.2 (hdrop h)))

theorem mem_of_mem_trimWhiteLines {lines : List (List Char × Nat)} {line : List Char × Nat}
    (h : line ∈ trimWhiteLines lines) : line ∈ lines :=
  (List.dropWhile_sublist _).subset (List.mem_reverse.1 ((List.dropWhile_sublist _).subset (List.mem_reverse.1 h)))

theorem indentBytes_le (line : List Char) : indentBytes line ≤ Text.byteLength line := by
  have hsplit := Text.byteLength_append (line.takeWhile Text.isBlank) (line.dropWhile Text.isBlank)
  rw [List.takeWhile_append_dropWhile] at hsplit
  rw [indentBytes]
  omega

/-- White lines that have fewer bytes than the common indent are left as they are. -/
theorem isSome_decodeBlockString {text : List Char} (hlines : Text.lines text = [] :: lines)
    (hwhite : ∀ bytes ∈ leastIndent lines, ∀ line ∈ lines, isWhite line = true → Text.byteLength line < bytes) :
    (decodeBlockString text).isSome = true ↔ Aligned lines := by
  have hdecode : (decodeBlockString text).isSome =
      ((trimWhiteLines (Text.lines text).zipIdx).mapM (dropIndent (commonIndent (Text.lines text)))).isSome := by
    unfold decodeBlockString
    dsimp only
    cases (trimWhiteLines (Text.lines text).zipIdx).mapM (dropIndent (commonIndent (Text.lines text))) <;> rfl
  rw [hdecode, isSome_mapM, hlines]
  constructor
  · intro h bytes hbytes line hl hline
    obtain ⟨index, hindex⟩ := List.getElem?_of_mem hl
    have hkept := h (line, index + 1) (mem_trimWhiteLines (List.mem_zipIdx_iff_getElem?.2 (by simpa using hindex)) hline)
    -- the line is long enough for the indent, so reading it does try to cut that off
    have hle := Nat.le_trans (leastIndent_le hbytes hl hline) (indentBytes_le line)
    have hcommon : commonIndent ([] :: lines) = some bytes := hbytes
    simpa [dropIndent, hcommon, hle] using hkept
  · rintro h ⟨line, index⟩ hkept
    have hmem := List.mem_zipIdx_iff_getElem?.1 (mem_of_mem_trimWhiteLines hkept)
    cases hindent : leastIndent lines with
    | none =>
      have hcommon : commonIndent ([] :: lines) = none := hindent
      simp [dropIndent, hcommon]
    | some bytes =>
      have hcommon : commonIndent ([] :: lines) = some bytes := hindent
      simp only [dropIndent, hcommon]
      split
      · rename_i hbytes
        cases index with
        -- the text in front of the first line end keeps its indent
        | zero => exact absurd rfl hbytes.1
        | succ index =>
          have hl : line ∈ lines := List.mem_of_getElem? (by simpa using hmem)
          cases hline : isWhite line with
          | true => exact absurd (hwhite bytes hindent line hl hline) (by omega)
          | false => exact h bytes hindent line hl hline
      · rfl

/-- The closing quotes stand on a line of their own, with less than any indent in front of them. -/
theorem of_mem_lines_indentation (h : line ∈ Text.lines (indentation depth).toList) :
    isWhite line = true ∧ Text.byteLength line = depth := by
  have hline : line = List.replicate depth ' ' := by
    rw [indentation, String.toList_ofList, Text.lines_of_notMem (by simp [List.mem_replicate])] at h
    split at h <;> simp_all
  subst hline
  refine ⟨List.all_eq_true.2 fun c hc => ?_, byteLength_replicate depth⟩
  rw [List.eq_of_mem_replicate hc]
  rfl

theorem lines_blockText (depth : Nat) (text : String) : Text.lines (blockText depth text) =
    [] :: ((Text.lines text.toList).map (readLine (depth + indentStep)) ++
      Text.lines (indentation depth).toList) := by
  rw [blockText, ← lines_join _ fun line hl => Text.notMem_of_mem_lines hl]
  exact Text.lines_append [] _ (by simp)

/-- A printed block string is read again exactly if the least indent of its text's own lines can be cut
off all of them, wherever it is printed. -/
theorem isSome_decodeBlockString_blockText (depth : Nat) (text : String) :
    (decodeBlockString (blockText depth text)).isSome = true ↔ Aligned (Text.lines text.toList) := by
  generalize hlines : Text.lines text.toList = lines
  have hleast : leastIndent (lines.map (readLine (depth + indentStep)) ++ Text.lines (indentation depth).toList) =
      (leastIndent lines).map (depth + indentStep + ·) := by
    rw [leastIndent_append fun line hl => (of_mem_lines_indentation hl).1, leastIndent_readLine]
  rw [isSome_decodeBlockString (hlines ▸ lines_blockText depth text)]
  · simp only [Aligned, hleast, Option.mem_def, Option.map_eq_some_iff, List.mem_append, List.mem_map]
    constructor
    · intro h bytes hbytes line hl hwhite
      have hread := h _ ⟨bytes, hbytes, rfl⟩ _ (.inl ⟨line, hl, rfl⟩) (by rwa [isWhite_readLine])
      rwa [isSome_dropBytes_readLine hwhite (leastIndent_le hbytes hl hwhite)] at hread
    · rintro h _ ⟨bytes, hbytes, rfl⟩ _ (⟨line, hl, rfl⟩ | hl) hwhite
      · rw [isWhite_readLine] at hwhite
        rw [isSome_dropBytes_readLine hwhite (leastIndent_le hbytes hl hwhite)]
        exact h bytes hbytes line hl hwhite
      · rw [(of_mem_lines_indentation hl).1] at hwhite
        cases hwhite
  · -- white lines are printed without any indent, and the one of the closing quotes has less than a text line
    rw [hleast]
    intro bytes hbytes line hl hwhite
    obtain ⟨bytes, -, rfl⟩ := Option.map_eq_some_iff.1 hbytes
    rcases List.mem_append.1 hl with hl | hl
    · obtain ⟨line, -, rfl⟩ := List.mem_map.1 hl
      rw [isWhite_readLine] at hwhite
      rw [readLine_of_isWhite hwhite]
      simp only [Text.byteLength, indentStep]
      omega
    · rw [(of_mem_lines_indentation hl).2, indentStep]
      omega

end SchemaFragments.Document
