import SchemaFragments.Proofs.Placeless
import SchemaFragments.Proofs.Segments
/-!
# Comment lines

A comment that fills its line does not get into the tokens of a text. Other comment lines in its place move the
tokens behind it to other positions and leave them as they are apart from that: `tokens_commentLines`.
-/

namespace SchemaFragments

/-! ## Lines in a text -/

namespace Text

variable {line text rest : List Char} {lines : List (List Char)}

/-- What ends a line that something follows. -/
inductive EndOf (line : List Char) : List Char → Prop
  | newline : line.getLast? ≠ some '\r' → EndOf line ['\n']
  | returnNewline : EndOf line ['\r', '\n']

/-- Some lines one after the other, and behind the last of them a rest that is empty or starts with its end. -/
inductive WrittenLines (rest : List Char) : List (List Char) → List Char → Prop
  | last {line : List Char} : '\n' ∉ line → (rest = [] ∨ ∃ ending later, EndOf line ending ∧ rest = ending ++ later) →
      WrittenLines rest [line] (line ++ rest)
  | cons {line ending text : List Char} {lines : List (List Char)} : '\n' ∉ line → EndOf line ending →
      WrittenLines rest lines text → WrittenLines rest (line :: lines) (line ++ ending ++ text)

theorem EndsLine.drop (h : EndsLine text) (count : Nat) : text.drop count = [] ∨ EndsLine (text.drop count) := by
  by_cases hle : text.length ≤ count
  · exact .inl (List.drop_eq_nil_of_le hle)
  · exact .inr (by rw [EndsLine, List.getLast?_drop, if_neg hle, h])

theorem lines_endOf {ending : List Char} (hline : '\n' ∉ line) (h : EndOf line ending) (text : List Char) :
    Text.lines (line ++ ending ++ text) = line :: Text.lines text := by
  cases h with
  | newline hreturn =>
    rw [List.append_assoc, List.singleton_append, lines_append line text hline, if_neg hreturn]
  | returnNewline =>
    have hnone : '\n' ∉ line ++ ['\r'] := by simpa using hline
    have hlines := lines_append (line ++ ['\r']) text hnone
    simpa using hlines

/-- The lines that are written are lines of the text, in front of those of the rest. -/
theorem lines_written (h : WrittenLines rest lines text) (hne : ∀ line ∈ lines, line ≠ []) :
    Text.lines text = lines ++ (Text.lines rest).tail := by
  induction h with
  | @last line hline hrest =>
    have hline' : line ≠ [] := hne line (by simp)
    rcases hrest with rfl | ⟨ending, later, hend, rfl⟩
    · rw [List.append_nil, lines_of_notMem hline, if_neg hline']
      rfl
    · rw [← List.append_assoc, lines_endOf hline hend]
      -- what ends the line is an empty line of its own in front of the others
      cases hend with
      | newline => exact congrArg (line :: ·) (congrArg List.tail (lines_append [] later (by simp))).symm
      | returnNewline => exact congrArg (line :: ·) (congrArg List.tail (lines_append ['\r'] later (by simp))).symm
  | cons hline hend _ ih =>
    rw [lines_endOf hline hend, ih fun line hl => hne line (.tail _ hl), List.cons_append]

/-- They are lines of the text also behind other lines. -/
theorem lines_append_written {before : List Char} (hbefore : before = [] ∨ EndsLine before)
    (h : WrittenLines rest lines text) (hne : ∀ line ∈ lines, line ≠ []) :
    Text.lines (before ++ text) = Text.lines before ++ lines ++ (Text.lines rest).tail := by
  rcases hbefore with rfl | hends
  · exact lines_written h hne
  · rw [(lines_of_endsLine hends).1, lines_written h hne, List.append_assoc]

/-- The number of characters in front of a line. -/
def startOf : Nat → List Char → Nat
  | 0, _ => 0
  | index + 1, text =>
    (text.takeWhile (· ≠ '\n')).length + 1 + startOf index ((text.dropWhile (· ≠ '\n')).drop 1)

theorem startOf_succ {first : List Char} (h : '\n' ∉ first) (index : Nat) (rest : List Char) :
    startOf (index + 1) (first ++ '\n' :: rest) = first.length + 1 + startOf index rest := by
  have hfirst : ∀ c ∈ first, decide (c ≠ '\n') = true := fun c hc => decide_eq_true fun he => h (he ▸ hc)
  rw [startOf, List.takeWhile_append_of_pos hfirst, List.dropWhile_append_of_pos hfirst]
  simp

/-- The first line of a text is written at its start. -/
theorem writtenLines_first {first : List Char} (hfirst : '\n' ∉ first) (later : List Char) :
    ∃ rest, WrittenLines rest [if first.getLast? = some '\r' then first.dropLast else first]
      (first ++ '\n' :: later) := by
  by_cases hreturn : first.getLast? = some '\r'
  · obtain ⟨line, rfl⟩ := List.getLast?_eq_some_iff.1 hreturn
    rw [if_pos hreturn, List.dropLast_concat, List.append_assoc]
    exact ⟨'\r' :: '\n' :: later, .last (fun hm => hfirst (List.mem_append_left _ hm))
      (.inr ⟨_, later, .returnNewline, rfl⟩)⟩
  · rw [if_neg hreturn]
    exact ⟨'\n' :: later, .last hfirst (.inr ⟨_, later, .newline hreturn, rfl⟩)⟩

/-- Every line of a text is written where it starts, behind lines that end. -/
theorem exists_startOf {index : Nat} (h : (Text.lines text)[index]? = some line) :
    ∃ before rest old, text = before ++ old ∧ before.length = startOf index text ∧
      (before = [] ∨ EndsLine before) ∧ WrittenLines rest [line] old := by
  induction index generalizing text with
  | zero =>
    by_cases hend : '\n' ∈ text
    · obtain ⟨first, later, rfl, hfirst⟩ := List.eq_append_cons_of_mem hend
      rw [lines_append first later hfirst, List.getElem?_cons_zero] at h
      obtain ⟨rest, hrest⟩ := writtenLines_first hfirst later
      rw [Option.some.inj h] at hrest
      exact ⟨[], rest, _, rfl, rfl, .inl rfl, hrest⟩
    · rw [lines_of_notMem hend] at h
      split at h
      · cases h
      · cases h
        exact ⟨[], [], line ++ [], by simp, rfl, .inl rfl, .last hend (.inl rfl)⟩
  | succ index ih =>
    by_cases hend : '\n' ∈ text
    · obtain ⟨first, later, rfl, hfirst⟩ := List.eq_append_cons_of_mem hend
      rw [lines_append first later hfirst, List.getElem?_cons_succ] at h
      obtain ⟨before, rest, old, rfl, hlength, hbefore, hold⟩ := ih h
      refine ⟨first ++ '\n' :: before, rest, old, by simp, ?_, .inr ?_, hold⟩
      · rw [startOf_succ hfirst, ← hlength, List.length_append, List.length_cons]
        omega
      · rcases hbefore with rfl | hbefore
        · exact List.getLast?_concat ..
        · rw [List.append_cons]
          exact hbefore.append _
    · rw [lines_of_notMem hend] at h
      split at h <;> cases h

end Text

namespace Document

open Text (EndsLine WrittenLines)

variable {depth : Nat} {position position' : Position} {text text' line rest : List Char}

/-! ## Tokens without positions -/

theorem skipped_eq (inComment : Bool) (position position' : Position) (text : List Char) :
    (skipIgnored inComment position text).2 = (skipIgnored inComment position' text).2 := by
  induction text generalizing inComment position position' with
  | nil => rfl
  | cons c rest ih =>
    unfold skipIgnored
    repeat' split
    all_goals first
      | exact ih ..
      | rfl

theorem unplaced_tokensAt (depth : Nat) (position position' : Position) (text : List Char) :
    (tokensAt depth position text).unplaced = (tokensAt depth position' text).unplaced := by
  induction hlength : text.length using Nat.strong_induction_on generalizing depth position position' text with
  | _ length ih =>
    cases text with
    | nil => rfl
    | cons c rest =>
      simp only [tokensAt]
      cases hlexeme : lexeme c rest with
      | error fault => rfl
      | ok result =>
        obtain ⟨kind, size⟩ := result
        dsimp only
        cases if kind = .punctuator then openAfter depth c else some depth with
        | none => rfl
        | some inside =>
          have hlater : (tokensFrom inside (positionAfter position kind (c :: rest.take size)) (rest.drop size)).unplaced =
              (tokensFrom inside (positionAfter position' kind (c :: rest.take size)) (rest.drop size)).unplaced := by
            rw [tokensFrom_eq, tokensFrom_eq, skipped_eq false _ (positionAfter position' kind (c :: rest.take size))]
            refine ih _ ?_ _ _ _ _ rfl
            have hskip := skipIgnored_length false (positionAfter position' kind (c :: rest.take size)) (rest.drop size)
            rw [List.length_drop] at hskip
            rw [← hlength, List.length_cons]
            omega
          obtain ⟨hlist, hfault⟩ := Prod.mk.inj hlater
          exact Prod.ext (congrArg (_ :: ·) hlist) hfault

/-- What is skipped in front of a text does not count. -/
theorem unplaced_tokensFrom (h : (skipIgnored false position text).2 = (skipIgnored false position' text').2) :
    (tokensFrom depth position text).unplaced = (tokensFrom depth position' text').unplaced := by
  rw [tokensFrom_eq, tokensFrom_eq, h]
  exact unplaced_tokensAt ..

/-! ## Comments -/

/-- Whether a comment goes on behind a character that is skipped; none if it is not skipped. -/
def commentAfter (inComment : Bool) (c : Char) : Option Bool :=
  if inComment then some (c ≠ '\n' ∧ c ≠ '\r')
  else if c = '#' then some true
  else if c ∈ ['\n', '\t', ' ', ',', '\r', '\ufeff'] then some false
  else none

theorem notMem_of_commentAfter {inComment : Bool} {c : Char} (h : commentAfter inComment c = none) : c ∉ ignored := by
  cases inComment with
  | true => cases h
  | false =>
    intro hm
    have hall : ∀ c ∈ ignored, (commentAfter false c).isSome = true := forall_mem_of_all (by decide)
    have hsome := hall c hm
    rw [h] at hsome
    cases hsome

theorem skipped_cons (inComment : Bool) (position : Position) (c : Char) (rest : List Char) :
    (skipIgnored inComment position (c :: rest)).2 =
      ((commentAfter inComment c).map fun inside => (skipIgnored inside position rest).2).getD (c :: rest) := by
  cases inComment with
  | true =>
    simp only [skipIgnored, commentAfter, if_true, Option.map_some, Option.getD_some]
    by_cases hc : c = '\n' ∨ c = '\r'
    · have hends : ¬ (c ≠ '\n' ∧ c ≠ '\r') := by tauto
      rw [if_pos hc, decide_eq_false hends]
      exact skipped_eq ..
    · have hstays : c ≠ '\n' ∧ c ≠ '\r' := by tauto
      rw [if_neg hc, decide_eq_true hstays]
  | false =>
    by_cases hc : c ∈ ignored
    · simp only [ignored, List.mem_cons, List.not_mem_nil, or_false] at hc
      rcases hc with rfl | rfl | rfl | rfl | rfl | rfl | rfl <;> simp only [skipIgnored, commentAfter] <;>
        exact skipped_eq ..
    · rw [skipIgnored_of_notMem hc]
      simp only [ignored, List.mem_cons, List.not_mem_nil, or_false, not_or] at hc
      simp [commentAfter, hc]

/-- A text that is skipped as a whole leaves what follows in a comment or not. -/
theorem exists_skipped_append {inComment : Bool} (h : (skipIgnored inComment position text).2 = []) :
    ∃ inside, (∀ rest, (skipIgnored inComment position (text ++ rest)).2 = (skipIgnored inside position rest).2) ∧
      (text = [] → inside = inComment) ∧ (EndsLine text → inside = false) := by
  induction text generalizing inComment with
  | nil => exact ⟨inComment, fun _ => rfl, fun _ => rfl, fun hends => absurd rfl hends.ne_nil⟩
  | cons c text ih =>
    rw [skipped_cons] at h
    cases hnext : commentAfter inComment c with
    | none =>
      rw [hnext] at h
      cases h
    | some next =>
      rw [hnext] at h
      obtain ⟨inside, hrest, hnil, hends⟩ := ih h
      refine ⟨inside, fun rest => ?_, fun hc => absurd hc (List.cons_ne_nil _ _), fun hc => ?_⟩
      · rw [List.cons_append, skipped_cons, hnext]
        exact hrest rest
      · by_cases htext : text = []
        · subst htext
          obtain rfl : c = '\n' := Option.some.inj hc
          rw [hnil rfl]
          cases inComment <;> exact (Option.some.inj hnext).symm
        · rw [EndsLine, List.getLast?_cons_of_ne_nil htext] at hc
          exact hends hc

/-- A comment that fills its line is skipped up to the end of that line. -/
theorem skipped_comment (h : (skipIgnored false position line).2 = [])
    (hrest : ∀ c ∈ rest.head?, c = '\n' ∨ c = '\r') :
    (skipIgnored false position (line ++ rest)).2 = (skipIgnored false position rest).2 := by
  obtain ⟨inside, hinside, -, -⟩ := exists_skipped_append h
  rw [hinside]
  cases rest with
  | nil => rfl
  | cons c rest =>
    have hafter (inComment : Bool) : commentAfter inComment c = some false := by
      rcases hrest c rfl with rfl | rfl <;> cases inComment <;> rfl
    rw [skipped_cons, skipped_cons, hafter, hafter]

/-! ## Texts after one another -/

theorem stringLength_append {escaped : Bool} {length : Nat} (h : stringLength escaped text = some length) :
    length ≤ text.length ∧ ∀ rest, stringLength escaped (text ++ rest) = some length := by
  induction text generalizing escaped length with
  | nil => cases h
  | cons c text ih =>
    simp only [List.cons_append, stringLength] at h ⊢
    split at h
    · rename_i hquote
      obtain rfl := Option.some.inj h
      exact ⟨Nat.succ_le_succ (Nat.zero_le _), fun rest => if_pos hquote⟩
    · rename_i hquote
      split at h
      · cases h
      · rename_i hline
        obtain ⟨inner, hinner, rfl⟩ := Option.map_eq_some_iff.1 h
        obtain ⟨hle, hrest⟩ := ih hinner
        refine ⟨Nat.succ_le_succ hle, fun rest => ?_⟩
        rw [if_neg hquote, if_neg hline, hrest]
        rfl

theorem blockStringLength_append {afterBackslash : Bool} {length : Nat}
    (h : blockStringLength afterBackslash text = some length) :
    length ≤ text.length ∧ ∀ rest, blockStringLength afterBackslash (text ++ rest) = some length := by
  fun_induction blockStringLength afterBackslash text generalizing length with
  | case1 text ih =>
    obtain ⟨inner, hinner, rfl⟩ := Option.map_eq_some_iff.1 h
    obtain ⟨hle, hrest⟩ := ih hinner
    refine ⟨by simpa using hle, fun rest => ?_⟩
    simp only [List.cons_append, blockStringLength, if_true, hrest, Option.map_some]
  | case2 afterBackslash text hback =>
    obtain rfl := Option.some.inj h
    refine ⟨by simp, fun rest => ?_⟩
    simp only [List.cons_append, blockStringLength, hback]
    rfl
  | case3 afterBackslash c text hnone ih =>
    obtain ⟨inner, hinner, rfl⟩ := Option.map_eq_some_iff.1 h
    obtain ⟨hle, hrest⟩ := ih hinner
    refine ⟨Nat.succ_le_succ hle, fun rest => ?_⟩
    rw [List.cons_append, blockStringLength_cons, hrest]
    · rfl
    · -- fewer than three quotes at the end of a text do not close, so these would have closed it before
      intro later he
      obtain ⟨hfirst, he⟩ := List.cons.inj he
      rcases text with _ | ⟨second, _ | ⟨third, text⟩⟩
      · cases hinner
      · rw [hfirst, (List.cons.inj he).1] at hinner
        cases hinner
      · obtain ⟨hsecond, he⟩ := List.cons.inj he
        exact hnone text hfirst (by rw [hsecond, (List.cons.inj he).1])
  | case4 => cases h

theorem takeWhile_append_of_endsLine {p : Char → Bool} (hends : EndsLine text) (hp : p '\n' = false) (rest : List Char) :
    (text ++ rest).takeWhile p = text.takeWhile p := by
  rw [List.takeWhile_append, if_neg]
  intro hlength
  have hall := List.takeWhile_eq_self_iff.1 ((List.takeWhile_sublist p).eq_of_length hlength)
  have hline := hall '\n' (List.mem_of_getLast? hends)
  rw [hp] at hline
  cases hline

theorem take_two_append (hends : EndsLine text) (rest : List Char) :
    (text ++ rest).take 2 = ['"', '"'] ↔ text.take 2 = ['"', '"'] := by
  rcases text with _ | ⟨first, _ | ⟨second, text⟩⟩
  · exact absurd rfl hends.ne_nil
  · obtain rfl : first = '\n' := Option.some.inj hends
    simp
  · simp

theorem two_le_length {a b : Char} (h : text.take 2 = [a, b]) : 2 ≤ text.length := by
  have hlength := congrArg List.length h
  rw [List.length_take, List.length_cons, List.length_singleton] at hlength
  omega

/-- The token that a text which ends a line starts with does not depend on what follows. -/
theorem lexeme_append {c : Char} {kind : TokenKind} {length : Nat} (hends : EndsLine text)
    (h : lexeme c text = .ok (kind, length)) :
    length ≤ text.length ∧ ∀ rest, lexeme c (text ++ rest) = .ok (kind, length) := by
  have hname := takeWhile_append_of_endsLine (p := isNameChar) hends rfl
  have hnumber := takeWhile_append_of_endsLine (p := fun c => !endsNumber c) hends rfl
  have hsize (p : Char → Bool) : (text.takeWhile p).length ≤ text.length := (List.takeWhile_sublist p).length_le
  unfold lexeme at h ⊢
  split_ifs at h with hpunct hdot hdots hstart hdigit hquote hquotes
  · obtain ⟨-, rfl⟩ := Prod.mk.inj (Except.ok.inj h)
    refine ⟨Nat.zero_le _, fun rest => ?_⟩
    rw [if_pos hpunct, h]
  · obtain ⟨-, rfl⟩ := Prod.mk.inj (Except.ok.inj h)
    refine ⟨two_le_length hdots, fun rest => ?_⟩
    rw [if_neg hpunct, if_pos hdot, List.take_append_of_le_length (two_le_length hdots), if_pos hdots, h]
  · obtain ⟨-, rfl⟩ := Prod.mk.inj (Except.ok.inj h)
    refine ⟨hsize _, fun rest => ?_⟩
    rw [if_neg hpunct, if_neg hdot, if_pos hstart, hname, h]
  · -- what belongs to a number depends only on the characters up to its end
    refine ⟨?_, fun rest => ?_⟩
    · dsimp only at h
      split_ifs at h <;> exact (Prod.mk.inj (Except.ok.inj h)).2 ▸ hsize _
    · rw [if_neg hpunct, if_neg hdot, if_neg hstart, if_pos hdigit, hnumber]
      exact h
  · cases hblock : blockStringLength false (text.drop 2) with
    | none =>
      rw [hblock] at h
      cases h
    | some inner =>
      rw [hblock] at h
      obtain ⟨-, rfl⟩ := Prod.mk.inj (Except.ok.inj h)
      obtain ⟨hle, hrest⟩ := blockStringLength_append hblock
      have htwo := two_le_length hquotes
      refine ⟨?_, fun rest => ?_⟩
      · rw [List.length_drop] at hle
        omega
      · rw [if_neg hpunct, if_neg hdot, if_neg hstart, if_neg hdigit, if_pos hquote,
          if_pos ((take_two_append hends rest).2 hquotes), List.drop_append_of_le_length htwo, hrest]
        exact h
  · cases hstring : stringLength false text with
    | none =>
      rw [hstring] at h
      cases h
    | some inner =>
      rw [hstring] at h
      obtain ⟨-, rfl⟩ := Prod.mk.inj (Except.ok.inj h)
      obtain ⟨hle, hrest⟩ := stringLength_append hstring
      refine ⟨hle, fun rest => ?_⟩
      rw [if_neg hpunct, if_neg hdot, if_neg hstart, if_neg hdigit, if_pos hquote,
        if_neg ((take_two_append hends rest).not.2 hquotes), hrest]
      exact h

theorem skipped_stop {inComment : Bool} {c : Char} {later : List Char}
    (h : (skipIgnored inComment position text).2 = c :: later) :
    c ∉ ignored ∧ (∃ front, text = front ++ c :: later) ∧
      ∀ rest, (skipIgnored inComment position (text ++ rest)).2 = c :: (later ++ rest) := by
  induction text generalizing inComment with
  | nil => cases h
  | cons first text ih =>
    rw [skipped_cons] at h
    cases hnext : commentAfter inComment first with
    | none =>
      rw [hnext] at h
      obtain ⟨rfl, rfl⟩ := List.cons.inj h
      refine ⟨notMem_of_commentAfter hnext, ⟨[], rfl⟩, fun rest => ?_⟩
      rw [List.cons_append, skipped_cons, hnext]
      rfl
    | some inside =>
      rw [hnext] at h
      obtain ⟨hc, ⟨front, hfront⟩, hrest⟩ := ih h
      refine ⟨hc, ⟨first :: front, by rw [hfront, List.cons_append]⟩, fun rest => ?_⟩
      rw [List.cons_append, skipped_cons, hnext]
      exact hrest rest

/-- A text that is empty or ends a line can be cut into tokens on its own. -/
theorem exists_unplaced_append (hends : text = [] ∨ EndsLine text)
    (hfault : (tokensFrom depth position text).fault = none) :
    ∃ inside, ∀ rest place, (tokensFrom depth position (text ++ rest)).unplaced =
      ((tokensFrom depth position text).list.map Token.unplaced ++ (tokensFrom inside place rest).unplaced.1,
        (tokensFrom inside place rest).unplaced.2) := by
  fun_induction tokensFrom depth position text with
  | case1 depth position text start hskip =>
    obtain ⟨inside, hinside, hnil, hline⟩ := exists_skipped_append (congrArg Prod.snd hskip)
    have hout : inside = false := hends.elim hnil hline
    refine ⟨depth, fun rest place => ?_⟩
    rw [hout] at hinside
    exact unplaced_tokensFrom ((hinside rest).trans (skipped_eq ..))
  | case2 => cases hfault
  | case3 => cases hfault
  | case4 depth position text start c later hskip kind length hlexeme inside hopen lexeme following ih =>
    obtain ⟨hc, ⟨front, rfl⟩, hrest⟩ := skipped_stop (congrArg Prod.snd hskip)
    -- the token starts with no line end, so the line ends behind it
    have hlater : EndsLine later := by
      have htext := hends.resolve_left (by simp)
      rw [EndsLine, List.getLast?_append_of_ne_nil _ (List.cons_ne_nil _ _)] at htext
      by_cases hnil : later = []
      · rw [hnil] at htext
        obtain rfl : c = '\n' := Option.some.inj htext
        exact absurd (by decide) hc
      · rwa [List.getLast?_cons_of_ne_nil hnil] at htext
    obtain ⟨hle, hsame⟩ := lexeme_append hlater hlexeme
    obtain ⟨inner, hinner⟩ := ih (hlater.drop length) hfault
    refine ⟨inner, fun rest place => ?_⟩
    rw [dite_eq_ite] at hopen
    rw [tokensFrom_eq, hrest]
    simp only [tokensAt, hsame, hopen, List.take_append_of_le_length hle, List.drop_append_of_le_length hle]
    -- only its position is another one where the text goes on
    have hfollowing := (unplaced_tokensFrom (skipped_eq false (positionAfter
      (skipIgnored false position (front ++ c :: later ++ rest)).1 kind lexeme) _ _)).trans (hinner rest place)
    obtain ⟨hlist, hfault⟩ := Prod.mk.inj hfollowing
    exact Prod.ext (congrArg (_ :: ·) hlist) hfault

/-! ## Comment lines -/

/-- Nothing but blanks and a comment. -/
def IsComment (line : List Char) : Prop := (skipIgnored false ⟨1, 1⟩ line).2 = []

instance : DecidablePred IsComment := fun _ => inferInstanceAs (Decidable (_ = _))

theorem skipped_commentLines {lines : List (List Char)} (h : WrittenLines rest lines text)
    (hcomments : ∀ line ∈ lines, IsComment line) :
    (skipIgnored false position text).2 = (skipIgnored false position rest).2 := by
  have hcomment {line : List Char} (hline : IsComment line) : (skipIgnored false position line).2 = [] :=
    (skipped_eq ..).trans hline
  induction h with
  | @last line _ hrest =>
    refine skipped_comment (hcomment (hcomments line (by simp))) fun c hc => ?_
    rcases hrest with rfl | ⟨ending, later, hend, rfl⟩
    · cases hc
    · cases hend with
      | newline => exact .inl (Option.some.inj hc).symm
      | returnNewline => exact .inr (Option.some.inj hc).symm
  | @cons line ending text lines _ hend _ ih =>
    rw [← ih fun line hl => hcomments line (.tail _ hl), List.append_assoc,
      skipped_comment (hcomment (hcomments line (by simp))) fun c hc => ?_]
    · cases hend <;> simp only [List.cons_append, List.nil_append, skipIgnored] <;> exact skipped_eq ..
    · cases hend with
      | newline => exact .inl (Option.some.inj hc).symm
      | returnNewline => exact .inr (Option.some.inj hc).symm

/-- Comment lines in the place of others leave the tokens of a text as they are, apart from their positions. -/
theorem tokens_commentLines {before old new : List Char} {lines lines' : List (List Char)}
    (hends : before = [] ∨ EndsLine before) (hfault : (tokens (String.ofList before)).fault = none)
    (hold : WrittenLines rest lines old) (hnew : WrittenLines rest lines' new)
    (hcomments : ∀ line ∈ lines ++ lines', IsComment line) :
    (tokens (String.ofList (before ++ new))).unplaced = (tokens (String.ofList (before ++ old))).unplaced := by
  unfold tokens at hfault ⊢
  rw [String.toList_ofList] at hfault ⊢
  rw [String.toList_ofList]
  obtain ⟨inside, hinside⟩ := exists_unplaced_append hends hfault
  have hskipped : (tokensFrom inside ⟨1, 1⟩ new).unplaced = (tokensFrom inside ⟨1, 1⟩ old).unplaced :=
    unplaced_tokensFrom (by
      rw [skipped_commentLines hnew fun line hl => hcomments line (List.mem_append_right _ hl),
        skipped_commentLines hold fun line hl => hcomments line (List.mem_append_left _ hl)])
  rw [hinside new ⟨1, 1⟩, hinside old ⟨1, 1⟩, hskipped]

end Document

end SchemaFragments
