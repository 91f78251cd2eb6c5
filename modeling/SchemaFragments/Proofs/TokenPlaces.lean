import SchemaFragments.Proofs.Roles
/-!
# Places of tokens

Where the tokens of a text stand in it, and what their positions say of that: the line of a position counts the line
ends in front of the token, and once more each comment that a carriage return ends.
-/

namespace SchemaFragments.Document

variable {depth : Nat} {position start : Position} {inComment inside : Bool} {c : Char} {text rest later : List Char}
  {kind : TokenKind} {length : Nat}

/-! ## Texts that are cut short -/

theorem takeWhile_cut {p : Char → Bool} (h : ((text ++ rest).takeWhile p).length ≤ text.length) :
    text.takeWhile p = (text ++ rest).takeWhile p := by
  rw [List.takeWhile_append] at h ⊢
  split
  · rename_i hall
    rw [if_pos hall, List.length_append] at h
    have hnone : rest.takeWhile p = [] := List.eq_nil_of_length_eq_zero (by omega)
    rw [hnone, List.append_nil, (List.takeWhile_sublist p).eq_of_length hall]
  · rfl

theorem take_two_cut (h : 2 ≤ text.length) (rest : List Char) : (text ++ rest).take 2 = text.take 2 :=
  List.take_append_of_le_length h

theorem stringLength_pos {escaped : Bool} (h : stringLength escaped text = some length) : 0 < length := by
  cases text with
  | nil => cases h
  | cons c text =>
    rw [stringLength] at h
    split_ifs at h
    · cases h
      exact Nat.one_pos
    · obtain ⟨inner, -, rfl⟩ := Option.map_eq_some_iff.1 h
      exact Nat.succ_pos inner

theorem blockStringLength_pos {afterBackslash : Bool} (h : blockStringLength afterBackslash text = some length) :
    0 < length := by
  revert h
  fun_cases blockStringLength afterBackslash text with
  | case1 | case3 =>
    intro h
    obtain ⟨inner, -, rfl⟩ := Option.map_eq_some_iff.1 h
    omega
  | case2 =>
    rintro ⟨⟩
    omega
  | case4 => nofun

theorem stringLength_cut {escaped : Bool} (h : stringLength escaped (text ++ rest) = some length)
    (hle : length ≤ text.length) : stringLength escaped text = some length := by
  induction text generalizing escaped length with
  | nil => exact absurd (stringLength_pos h) (Nat.not_lt.2 hle)
  | cons c text ih =>
    rw [List.cons_append, stringLength] at h
    rw [stringLength]
    split_ifs at h ⊢
    · exact h
    · obtain ⟨inner, hinner, rfl⟩ := Option.map_eq_some_iff.1 h
      rw [ih hinner (Nat.le_of_succ_le_succ hle)]
      rfl

theorem blockStringLength_cut {afterBackslash : Bool}
    (h : blockStringLength afterBackslash (text ++ rest) = some length) (hle : length ≤ text.length) :
    blockStringLength afterBackslash text = some length := by
  fun_induction blockStringLength afterBackslash text generalizing length with
  | case1 text ih =>
    simp only [List.cons_append, blockStringLength, if_true] at h
    obtain ⟨inner, hinner, rfl⟩ := Option.map_eq_some_iff.1 h
    rw [ih hinner (by simpa using hle)]
    rfl
  | case2 afterBackslash text hback =>
    simpa [List.cons_append, blockStringLength, hback] using h
  | case3 afterBackslash c text hquotes ih =>
    by_cases hthree : ∃ later, c :: (text ++ rest) = '"' :: '"' :: '"' :: later
    · -- a block string that closes here, or goes on behind three quotes, is longer than the text
      obtain ⟨later, hlater⟩ := hthree
      have hlong : 3 ≤ length := by
        rw [List.cons_append, hlater, blockStringLength] at h
        split at h
        · obtain ⟨inner, -, rfl⟩ := Option.map_eq_some_iff.1 h
          omega
        · cases h
          omega
      obtain ⟨hfirst, hlater⟩ := List.cons.inj hlater
      rcases text with _ | ⟨second, _ | ⟨third, text⟩⟩
      · simp at hle
        omega
      · simp at hle
        omega
      · obtain ⟨hsecond, hlater⟩ := List.cons.inj hlater
        exact absurd (by rw [hsecond, (List.cons.inj hlater).1]) (hquotes text hfirst)
    · rw [List.cons_append, blockStringLength_cons (not_exists.1 hthree)] at h
      obtain ⟨inner, hinner, rfl⟩ := Option.map_eq_some_iff.1 h
      rw [ih hinner (Nat.le_of_succ_le_succ hle)]
      rfl
  | case4 => exact absurd (blockStringLength_pos h) (Nat.not_lt.2 hle)

theorem lexeme_le (h : lexeme c rest = .ok (kind, length)) : length ≤ rest.length := by
  have hsize (p : Char → Bool) : (rest.takeWhile p).length ≤ rest.length := (List.takeWhile_sublist p).length_le
  unfold lexeme at h
  split_ifs at h with hpunct hdot hdots hstart hdigit hquote hquotes
  · cases h
    exact Nat.zero_le _
  · cases h
    exact two_le_length hdots
  · cases h
    exact hsize _
  · dsimp only at h
    split_ifs at h <;> cases h <;> exact hsize _
  · split at h
    · rename_i inner hinner
      cases h
      have hle := (blockStringLength_append hinner).1
      have htwo := two_le_length hquotes
      rw [List.length_drop] at hle
      omega
    · cases h
  · split at h
    · rename_i inner hinner
      cases h
      exact (stringLength_append hinner).1
    · cases h

/-- A token is cut off in the same way when the text ends behind it. -/
theorem lexeme_cut (h : lexeme c (text ++ rest) = .ok (kind, length)) (hle : length ≤ text.length) :
    lexeme c text = .ok (kind, length) := by
  unfold lexeme at h ⊢
  split_ifs at h with hpunct hdot hdots hstart hdigit hquote hquotes
  · rw [if_pos hpunct, h]
  · cases h
    rw [if_neg hpunct, if_pos hdot, ← take_two_cut hle rest, if_pos hdots]
  · cases h
    rw [if_neg hpunct, if_neg hdot, if_pos hstart, takeWhile_cut hle]
  · have hsame : ((text ++ rest).takeWhile fun c => !endsNumber c).length ≤ text.length := by
      dsimp only at h
      split_ifs at h <;> cases h <;> exact hle
    rw [if_neg hpunct, if_neg hdot, if_neg hstart, if_pos hdigit, takeWhile_cut hsame]
    exact h
  · split at h
    · rename_i inner hinner
      cases h
      have htwo : 2 ≤ text.length := Nat.le_trans (Nat.le_add_left ..) hle
      rw [List.drop_append_of_le_length htwo] at hinner
      rw [if_neg hpunct, if_neg hdot, if_neg hstart, if_neg hdigit, if_pos hquote, ← take_two_cut htwo rest,
        if_pos hquotes, blockStringLength_cut hinner (by rw [List.length_drop]; omega)]
    · cases h
  · split at h
    · rename_i inner hinner
      cases h
      have hopen : text.take 2 ≠ ['"', '"'] := fun htake =>
        hquotes ((take_two_cut (two_le_length htake) rest).trans htake)
      rw [if_neg hpunct, if_neg hdot, if_neg hstart, if_neg hdigit, if_pos hquote, if_neg hopen,
        stringLength_cut hinner hle]
    · cases h

/-! ## What stands in front of a token -/

/-- The position behind a character that is skipped. -/
def positionBehind (inComment : Bool) (position : Position) (c : Char) : Position :=
  if inComment then if c = '\n' ∨ c = '\r' then Position.nextLine position else position
  else if c = '\n' then Position.nextLine position
  else if c = '\t' then Position.advance position 8
  else if c = ' ' ∨ c = ',' then Position.advance position 1
  else position

theorem skipIgnored_cons (inComment : Bool) (position : Position) (c : Char) (rest : List Char) :
    skipIgnored inComment position (c :: rest) = match commentAfter inComment c with
      | some inside => skipIgnored inside (positionBehind inComment position c) rest
      | none => (position, c :: rest) := by
  cases inComment with
  | true =>
    simp only [skipIgnored, commentAfter, positionBehind, if_true]
    by_cases hc : c = '\n' ∨ c = '\r'
    · have hends : ¬ (c ≠ '\n' ∧ c ≠ '\r') := by tauto
      rw [if_pos hc, if_pos hc, decide_eq_false hends]
    · have hstays : c ≠ '\n' ∧ c ≠ '\r' := by tauto
      rw [if_neg hc, if_neg hc, decide_eq_true hstays]
  | false =>
    by_cases hc : c ∈ ignored
    · simp only [ignored, List.mem_cons, List.not_mem_nil, or_false] at hc
      rcases hc with rfl | rfl | rfl | rfl | rfl | rfl | rfl <;> simp [skipIgnored, commentAfter, positionBehind]
    · rw [skipIgnored_of_notMem hc, commentAfter_of_notMem hc]

/-- What is skipped in front of a token is skipped as a whole where the text ends behind it. -/
theorem exists_gap (h : skipIgnored inComment position text = (start, c :: later)) :
    c ∉ ignored ∧ ∃ gap, text = gap ++ c :: later ∧ skipIgnored inComment position gap = (start, []) ∧
      ∀ more, skipIgnored inComment position (gap ++ c :: more) = (start, c :: more) := by
  induction text generalizing inComment position with
  | nil => cases h
  | cons first text ih =>
    rw [skipIgnored_cons] at h
    cases hnext : commentAfter inComment first with
    | none =>
      rw [hnext] at h
      cases h
      obtain rfl : inComment = false := by
        cases inComment with
        | true => cases hnext
        | false => rfl
      have hc := notMem_of_commentAfter hnext
      exact ⟨hc, [], rfl, rfl, fun more => skipIgnored_of_notMem hc start more⟩
    | some inside =>
      rw [hnext] at h
      obtain ⟨hc, gap, rfl, hgap, hmore⟩ := ih h
      refine ⟨hc, first :: gap, rfl, ?_, fun more => ?_⟩
      · rw [skipIgnored_cons, hnext]
        exact hgap
      · rw [List.cons_append, skipIgnored_cons, hnext]
        exact hmore more

/-- The text in front of a token is read to the tokens in front of it, and ends at its position. -/
theorem exists_before {token : Token} {front back : List Token}
    (h : (tokensFrom depth position text).list = front ++ token :: back) :
    ∃ before after, text = before ++ token.text.toList ++ after ∧
      tokensFrom depth position before = ⟨front, token.position, none⟩ := by
  fun_induction tokensFrom depth position text generalizing front with
  | case1 | case2 | case3 => simp at h
  | case4 depth position text start c later hskip kind length hlexeme inside hopen lexeme following =>
    rename_i ih
    obtain ⟨hc, gap, rfl, hgap, hmore⟩ := exists_gap hskip
    have hsplit : lexeme ++ later.drop length = c :: later := congrArg (c :: ·) (List.take_append_drop length later)
    rcases front with _ | ⟨first, front⟩
    · obtain ⟨rfl, -⟩ := List.cons.inj h
      refine ⟨gap, later.drop length, ?_, ?_⟩
      · rw [String.toList_ofList, List.append_assoc, hsplit]
      · rw [tokensFrom_eq, hgap]
        rfl
    · obtain ⟨rfl, hback⟩ := List.cons.inj h
      obtain ⟨before, after, hdrop, hbefore⟩ := ih hback
      refine ⟨gap ++ (lexeme ++ before), after, ?_, ?_⟩
      · rw [← hsplit, hdrop]
        simp only [List.append_assoc]
      · have hle := lexeme_le hlexeme
        have htake : (later.take length ++ before).take length = later.take length :=
          List.take_left' (List.length_take_of_le hle)
        have hfull : Document.lexeme c ((later.take length ++ before) ++ (token.text.toList ++ after)) =
            .ok (kind, length) := by
          rw [List.append_assoc, ← List.append_assoc before, ← hdrop, List.take_append_drop, hlexeme]
        have hcut : Document.lexeme c (later.take length ++ before) = .ok (kind, length) := by
          refine lexeme_cut hfull ?_
          rw [List.length_append, List.length_take_of_le hle]
          exact Nat.le_add_right ..
        rw [dite_eq_ite] at hopen
        rw [tokensFrom_eq, List.cons_append, hmore]
        simp only [tokensAt, hcut, hopen, htake, List.drop_left' (List.length_take_of_le hle)]
        rw [hbefore]

/-! ## Lines of positions -/

def Role.isComment : Role → Bool
  | .opensComment | .inComment => true
  | .ignored | .inToken _ | .unread => false

/-- How many comments a carriage return ends, in a text that starts in a comment or not. -/
def returnsIn (inComment : Bool) : List (Char × Role) → Nat
  | [] => 0
  | (c, role) :: rest => (if inComment ∧ c = '\r' then 1 else 0) + returnsIn role.isComment rest

/-- How many comments of a text a carriage return ends. -/
def commentReturns (text : List Char) : Nat := returnsIn false (text.zip (rolesFrom false text))

theorem isComment_skippedRole (h : commentAfter inComment c = some inside) :
    (skippedRole inComment c).isComment = inside := by
  cases inComment with
  | true =>
    obtain rfl := Option.some.inj h
    by_cases hc : c = '\n' ∨ c = '\r'
    · have hends : ¬ (c ≠ '\n' ∧ c ≠ '\r') := by tauto
      rw [skippedRole, if_pos rfl, if_pos hc, decide_eq_false hends]
      rfl
    · have hstays : c ≠ '\n' ∧ c ≠ '\r' := by tauto
      rw [skippedRole, if_pos rfl, if_neg hc, decide_eq_true hstays]
      rfl
  | false =>
    by_cases hc : c = '#'
    · subst hc
      exact Option.some.inj h
    · simp only [commentAfter, hc, if_false, Bool.false_eq_true] at h
      split at h
      · rw [skippedRole, if_neg (by simp), if_neg hc]
        exact Option.some.inj h
      · cases h

theorem line_positionBehind (inComment : Bool) (position : Position) (c : Char) :
    (positionBehind inComment position c).line =
      position.line + (if c = '\n' then 1 else 0) + if inComment ∧ c = '\r' then 1 else 0 := by
  by_cases hnewline : c = '\n'
  · subst hnewline
    cases inComment <;> simp [positionBehind, Position.nextLine]
  · cases inComment with
    | true =>
      by_cases hreturn : c = '\r' <;> simp [positionBehind, Position.nextLine, hnewline, hreturn]
    | false =>
      simp only [positionBehind, Bool.false_eq_true, false_and, if_false, hnewline, Nat.add_zero]
      split_ifs <;> rfl

/-- The line goes up with each line end that is skipped, and once more with each comment that a carriage return ends. -/
theorem line_skipIgnored (inComment : Bool) (position : Position) (text : List Char) :
    (skipIgnored inComment position text).1.line + (skipIgnored inComment position text).2.count '\n' +
        commentReturns (skipIgnored inComment position text).2 =
      position.line + text.count '\n' + returnsIn inComment (text.zip (rolesFrom inComment text)) := by
  induction text generalizing inComment position with
  | nil => rw [skipIgnored, commentReturns, List.zip_nil_left, List.zip_nil_left, returnsIn, returnsIn]
  | cons c rest ih =>
    rw [skipIgnored_cons]
    cases hnext : commentAfter inComment c with
    | none =>
      cases inComment with
      | true => cases hnext
      | false => rfl
    | some inside =>
      have hline := line_positionBehind inComment position c
      rw [rolesFrom_skipped hnext, List.zip_cons_cons, returnsIn, isComment_skippedRole hnext, List.count_cons]
      dsimp only
      rw [ih inside, hline]
      simp only [beq_iff_eq]
      omega

theorem returnsIn_token (kind : TokenKind) (front : List Char) (marked : List (Char × Role)) :
    returnsIn false (front.map (fun c => (c, Role.inToken kind)) ++ marked) = returnsIn false marked := by
  induction front with
  | nil => rfl
  | cons c front ih =>
    rw [List.map_cons, List.cons_append, returnsIn, if_neg (by simp), Nat.zero_add]
    exact ih

/-- A token ends no comment. -/
theorem commentReturns_token (h : commentAfter false c = none) (hlexeme : lexeme c rest = .ok (kind, length)) :
    commentReturns (c :: rest) = commentReturns (rest.drop length) := by
  have hsplit : c :: rest = (c :: rest.take length) ++ rest.drop length := by simp
  rw [commentReturns, rolesFrom_token h hlexeme, hsplit, List.zip_append (by simp), ← List.map_prod_left_eq_zip,
    returnsIn_token]
  rfl

theorem line_positionAfter (hc : c ∉ ignored) (h : lexeme c rest = .ok (kind, length)) (start : Position) :
    (positionAfter start kind (c :: rest.take length)).line = start.line + (c :: rest.take length).count '\n' := by
  rw [positionAfter]
  split
  · rfl
  · rename_i hplain
    have hnone : '\n' ∉ c :: rest.take length := by
      rw [List.mem_cons, not_or]
      refine ⟨fun hline => hc (hline ▸ by decide), fun hm => hplain ⟨kind_of_newline h hm, .tail _ hm⟩⟩
    rw [List.count_eq_zero_of_not_mem hnone]
    rfl

/-- The line at which a text ends that can be read. -/
theorem line_stop (h : (tokensFrom depth position text).fault = none) :
    (tokensFrom depth position text).stop.line = position.line + text.count '\n' + commentReturns text := by
  fun_induction tokensFrom depth position text with
  | case1 depth position text start hskip =>
    have hline := line_skipIgnored false position text
    rw [hskip] at hline
    exact hline
  | case2 => cases h
  | case3 => cases h
  | case4 depth position text start c later hskip kind length hlexeme inside hopen lexeme following ih =>
    have hline := line_skipIgnored false position text
    rw [hskip] at hline
    obtain ⟨hc, -⟩ := exists_gap hskip
    have hcount : (c :: later).count '\n' = lexeme.count '\n' + (later.drop length).count '\n' := by
      rw [← List.count_append]
      exact congrArg _ (congrArg (c :: ·) (List.take_append_drop length later).symm)
    have hbehind : (positionAfter start kind lexeme).line = start.line + lexeme.count '\n' :=
      line_positionAfter hc hlexeme start
    have hreturns := commentReturns_token (commentAfter_of_notMem hc) hlexeme
    have hrest : following.stop.line = _ := ih h
    have hall : position.line + text.count '\n' + commentReturns text =
        start.line + (c :: later).count '\n' + commentReturns (c :: later) := hline.symm
    show following.stop.line = _
    omega

end SchemaFragments.Document
