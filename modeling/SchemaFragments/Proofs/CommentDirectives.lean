import SchemaFragments.Proofs.Linking
import SchemaFragments.Proofs.NameLists
import SchemaFragments.Proofs.Roles
/-!
# Directives and comments

Directives are looked for line by line, whatever the tokens of a text are. The lines that are taken for directives are
those that start with a comment of this form exactly if three kinds of lines are missing: `directives_comments_iff`.
-/

namespace SchemaFragments

namespace Text

theorem trimStart_append {text : List Char} (h : trimStart text ≠ []) (more : List Char) :
    trimStart (text ++ more) = trimStart text ++ more := by
  unfold trimStart at h ⊢
  rw [List.dropWhile_append, if_neg (mt List.isEmpty_iff.1 h)]

theorem mem_of_isBlank {c : Char} (h : isBlank c = true) : c ∈ blankCodes.map Char.ofNat :=
  List.mem_map.2 ⟨c.toNat, by simpa [isBlank] using h, Char.ofNat_toNat c⟩

end Text

/-! ## The form of directives -/

namespace Import

variable {word text line rest : List Char} {c : Char}

/-- What stands behind the word `import` in a directive. -/
def IsRequest (rest : List Char) : Prop :=
  (rest.head?.any fun c => Text.isBlank c || isQuote c) = true ∧
    ∃ quote quoted path back, rest.dropWhile (!isQuote ·) = quote :: quoted ∧
      Text.cutAtLast (· == quote) quoted = some (path, back) ∧ path ≠ [] ∧
      (readHead (rest.takeWhile (!isQuote ·))).isSome = true

theorem isSome_readDirective_iff :
    (readDirective line).isSome = true ↔ ∃ rest, afterKeyword line = some rest ∧ IsRequest rest := by
  simp only [Option.isSome_iff_exists, readDirective_eq_some_iff, IsRequest]
  constructor
  · rintro ⟨_, rest, quote, quoted, path, back, selection, hrest, hhead, hquote, hpath, hne, hselection, -⟩
    exact ⟨rest, hrest, hhead, quote, quoted, path, back, hquote, hpath, hne, selection, hselection⟩
  · rintro ⟨rest, hrest, hhead, quote, quoted, path, back, hquote, hpath, hne, selection, hselection⟩
    exact ⟨_, rest, quote, quoted, path, back, selection, hrest, hhead, hquote, hpath, hne, hselection, rfl⟩

theorem cutWord_append (h : cutWord word text = some rest) (more : List Char) :
    cutWord word (text ++ more) = some (rest ++ more) := by
  fun_induction cutWord word text with
  | case1 text => rw [Option.some.inj h, cutWord]
  | case2 => cases h
  | case3 c word text ih => rw [List.cons_append, cutWord, if_pos rfl, ih h]
  | case4 => cases h

theorem afterKeyword_append (h : afterKeyword line = some rest) (more : List Char) :
    afterKeyword (line ++ more) = some (rest ++ more) := by
  obtain ⟨comment, hcomment, hrest⟩ := Option.bind_eq_some_iff.1 h
  have hne (word : List Char) {text rest : List Char} (hword : word ≠ []) (h : cutWord word text = some rest) :
      text ≠ [] := by
    rw [eq_append_of_cutWord h]
    exact List.append_ne_nil_of_left_ne_nil hword _
  unfold afterKeyword
  rw [Text.trimStart_append (hne _ (by simp) hcomment), cutWord_append hcomment]
  exact (congrArg _ (Text.trimStart_append (hne _ (by decide) hrest) more)).trans (cutWord_append hrest more)

theorem exists_last {wanted : Char → Bool} (h : ∃ c ∈ text, wanted c = true) :
    ∃ front c back, text = front ++ c :: back ∧ wanted c = true ∧ ∀ d ∈ back, wanted d = false := by
  induction text with
  | nil => simp at h
  | cons c text ih =>
    by_cases hlater : ∃ d ∈ text, wanted d = true
    · obtain ⟨front, d, back, rfl, hd, hback⟩ := ih hlater
      exact ⟨c :: front, d, back, rfl, hd, hback⟩
    · have hnone : ∀ d ∈ text, wanted d = false := by simpa using hlater
      obtain ⟨d, hm, hd⟩ := h
      rcases List.mem_cons.1 hm with rfl | hm
      · exact ⟨[], d, text, rfl, hd, hnone⟩
      · exact absurd ⟨d, hm, hd⟩ hlater

theorem of_cutAtLast {wanted : Char → Bool} {front back : List Char} (h : Text.cutAtLast wanted text = some (front, back)) :
    ∃ c, text = front ++ c :: back ∧ wanted c = true ∧ ∀ d ∈ back, wanted d = false := by
  have hwanted : ∃ c ∈ text, wanted c = true := by
    by_contra hnone
    rw [Document.cutAtLast_eq_none (by simpa using hnone)] at h
    cases h
  obtain ⟨first, c, tail, rfl, hc, htail⟩ := exists_last hwanted
  rw [Document.cutAtLast_append hc htail] at h
  cases h
  exact ⟨c, rfl, hc, htail⟩

/-- A text that goes on is cut at the same place or further behind. -/
theorem exists_cutAtLast_append {wanted : Char → Bool} {quoted path back : List Char}
    (h : Text.cutAtLast wanted quoted = some (path, back)) (hne : path ≠ []) (more : List Char) :
    ∃ path' back', Text.cutAtLast wanted (quoted ++ more) = some (path', back') ∧ path' ≠ [] := by
  obtain ⟨c, rfl, hc, -⟩ := of_cutAtLast h
  obtain ⟨front', d, tail', hsplit, hd, htail'⟩ := exists_last ⟨c, List.mem_cons_self (l := back ++ more), hc⟩
  refine ⟨path ++ front', tail', ?_, List.append_ne_nil_of_left_ne_nil hne _⟩
  rw [List.append_assoc, List.cons_append, hsplit, ← List.append_assoc, Document.cutAtLast_append hd htail']

theorem IsRequest.append (h : IsRequest rest) (more : List Char) : IsRequest (rest ++ more) := by
  obtain ⟨hhead, quote, quoted, path, back, hquote, hpath, hne, hselection⟩ := h
  obtain ⟨path', back', hpath', hne'⟩ := exists_cutAtLast_append hpath hne more
  have hrest : rest.takeWhile (!isQuote ·) ≠ rest := by
    intro he
    have hlength := congrArg List.length (List.takeWhile_append_dropWhile (p := (!isQuote ·)) (l := rest))
    rw [hquote, List.length_append, he, List.length_cons] at hlength
    omega
  refine ⟨?_, quote, quoted ++ more, path', back', ?_, hpath', hne', ?_⟩
  · cases rest with
    | nil => cases hhead
    | cons c rest => exact hhead
  · rw [List.dropWhile_append, if_neg (by simp [hquote]), hquote]
    rfl
  · rwa [List.takeWhile_append, if_neg fun hl => hrest ((List.takeWhile_sublist _).eq_of_length hl)]

/-- A text that starts with a directive is one. -/
theorem isSome_readDirective_append (h : (readDirective line).isSome = true) (more : List Char) :
    (readDirective (line ++ more)).isSome = true := by
  obtain ⟨rest, hrest, hrequest⟩ := isSome_readDirective_iff.1 h
  exact isSome_readDirective_iff.2 ⟨rest ++ more, afterKeyword_append hrest more, hrequest.append more⟩

theorem afterKeyword_cons_of_blank (h : Text.isBlank c = true) (line : List Char) :
    afterKeyword (c :: line) = afterKeyword line := by
  rw [afterKeyword, Text.trimStart, List.dropWhile_cons_of_pos h]
  rfl

theorem afterKeyword_cons_of_ne (hblank : Text.isBlank c = false) (hc : c ≠ '#') (line : List Char) :
    afterKeyword (c :: line) = none := by
  rw [afterKeyword, Text.trimStart, List.dropWhile_cons_of_neg (by simp [hblank]), cutWord, if_neg hc.symm]
  rfl

end Import

/-! ## Comments at the start of a line -/

namespace Document

open Import (readDirective afterKeyword)

variable {line later rest : List Char} {c : Char} {marked : List (Char × Role)} {comment : List Char}

/-- The comment that the first character which is not ignored opens. -/
def leadingComment? (marked : List (Char × Role)) : Option (List Char) :=
  match marked.dropWhile (·.2 = .ignored) with
  | (c, .opensComment) :: rest => some (c :: (rest.takeWhile (·.2 = .inComment)).map (·.1))
  | _ => none

theorem leadingComment?_ignored (c : Char) (marked : List (Char × Role)) :
    leadingComment? ((c, .ignored) :: marked) = leadingComment? marked := by
  rw [leadingComment?, List.dropWhile_cons_of_pos (by simp)]
  rfl

theorem leadingComment?_inToken (c : Char) (kind : TokenKind) (marked : List (Char × Role)) :
    leadingComment? ((c, .inToken kind) :: marked) = none := by
  rw [leadingComment?, List.dropWhile_cons_of_neg (by simp)]

theorem leadingComment?_of_quoted {roles : List Role} {kind : TokenKind} (h : roles.head? = some (.inToken kind))
    (line : List Char) : leadingComment? (line.zip roles) = none := by
  obtain ⟨later, rfl⟩ := List.head?_eq_some_iff.1 h
  cases line with
  | nil => rfl
  | cons c line => exact leadingComment?_inToken ..

/-- A comment goes on up to the end of its line, or to a carriage return within it. -/
theorem takeWhile_inComment (hline : '\n' ∉ line) (later : List Char) :
    ((line.zip (rolesFrom true (line ++ later))).takeWhile (·.2 = .inComment)).map (·.1) =
      line.takeWhile (· ≠ '\r') := by
  induction line with
  | nil => rfl
  | cons c line ih =>
    rw [List.mem_cons, not_or] at hline
    rw [List.cons_append, rolesFrom_skipped rfl, List.zip_cons_cons]
    by_cases hc : c = '\r'
    · subst hc
      rfl
    · have hrole : skippedRole true c = .inComment := by simp [skippedRole, hc, Ne.symm hline.1]
      rw [hrole, List.takeWhile_cons_of_pos (by simp), List.takeWhile_cons_of_pos (by simp [hc]), List.map_cons]
      simp only [ne_eq, Ne.symm hline.1, hc, not_false_eq_true, and_self, decide_true, ih hline.2]

/-- What may stand in front of a comment. -/
def gaps : List Char := [' ', '\t', ',', '\r', '\ufeff']

theorem isBlank_of_gap (h : c ∈ gaps) (hcomma : c ≠ ',') (hmark : c ≠ '\ufeff') : Text.isBlank c = true := by
  have hall : ∀ c ∈ gaps, c ≠ ',' → c ≠ '\ufeff' → Text.isBlank c = true := forall_mem_of_all (by decide)
  exact hall c h hcomma hmark

/-- No token starts with white space. -/
theorem exists_fault_of_blank (h : Text.isBlank c = true) (rest : List Char) : ∃ fault, lexeme c rest = .error fault := by
  have hall : ∀ c ∈ Text.blankCodes.map Char.ofNat, isPunctuator c = false ∧ c ≠ '.' ∧ isNameStart c = false ∧
      isNumberStart c = false ∧ c ≠ '"' := forall_mem_of_all (by decide)
  obtain ⟨hpunct, hdot, hstart, hdigit, hquote⟩ := hall c (Text.mem_of_isBlank h)
  exact ⟨.character c, by simp [lexeme, hpunct, hdot, hstart, hdigit, hquote]⟩

/-- A line that starts between tokens: a comment comes first, or the line is no directive. -/
theorem leading_cases (hline : '\n' ∉ line) (h : .unread ∉ rolesFrom false (line ++ later)) :
    (∃ gap rest, line = gap ++ '#' :: rest ∧ (∀ c ∈ gap, c ∈ gaps) ∧
      leadingComment? (line.zip (rolesFrom false (line ++ later))) = some ('#' :: rest.takeWhile (· ≠ '\r'))) ∨
    leadingComment? (line.zip (rolesFrom false (line ++ later))) = none ∧ afterKeyword line = none := by
  induction line with
  | nil => exact .inr ⟨rfl, rfl⟩
  | cons c line ih =>
    rw [List.mem_cons, not_or] at hline
    rw [List.cons_append] at h ⊢
    -- the character opens a comment, is ignored, or belongs to a token
    by_cases hhash : c = '#'
    · subst hhash
      rw [rolesFrom_skipped rfl, List.zip_cons_cons]
      refine .inl ⟨[], line, rfl, by simp, ?_⟩
      rw [← takeWhile_inComment hline.2 later]
      rfl
    · by_cases hgap : c ∈ gaps
      · have hafter : ∀ c ∈ gaps, commentAfter false c = some false ∧ skippedRole false c = .ignored :=
          forall_mem_of_all (by decide)
        obtain ⟨hafter, hrole⟩ := hafter c hgap
        rw [rolesFrom_skipped hafter, hrole] at h ⊢
        rw [List.zip_cons_cons, leadingComment?_ignored]
        rcases ih hline.2 fun hm => h (.tail _ hm) with ⟨gap, rest, rfl, hall, hcomment⟩ | ⟨hcomment, hnone⟩
        · exact .inl ⟨c :: gap, rest, rfl, List.forall_mem_cons.2 ⟨hgap, hall⟩, hcomment⟩
        · refine .inr ⟨hcomment, ?_⟩
          cases hblank : Text.isBlank c with
          | true => rw [Import.afterKeyword_cons_of_blank hblank, hnone]
          | false => exact Import.afterKeyword_cons_of_ne hblank hhash line
      · have hnone : commentAfter false c = none := by
          refine commentAfter_of_notMem ?_
          simp only [gaps, List.mem_cons, List.not_mem_nil, or_false, not_or] at hgap
          simp [ignored, hgap, hhash, Ne.symm hline.1]
        cases hl : lexeme c (line ++ later) with
        | error fault =>
          rw [rolesFrom_error hnone hl] at h
          exact absurd (.head _) h
        | ok result =>
          obtain ⟨kind, length⟩ := result
          have hblank : Text.isBlank c = false := by
            refine eq_false_of_ne_true fun hblank => ?_
            obtain ⟨fault, hfault⟩ := exists_fault_of_blank hblank (line ++ later)
            cases hl.symm.trans hfault
          rw [rolesFrom_token hnone hl, List.map_cons, List.cons_append, List.zip_cons_cons]
          exact .inr ⟨leadingComment?_inToken .., Import.afterKeyword_cons_of_ne hblank hhash line⟩

/-- What has to hold of a line for it to be taken for a directive just when it starts with a comment of this form. -/
structure TakenAlike (line : List Char) (roles : List Role) : Prop where
  /-- No line of a block string has the form of a directive. -/
  quoted : roles.head? = some (.inToken .blockString) → (readDirective line).isSome = false
  /-- No comma and no byte order mark stand in front of a comment of this form. -/
  led : ∀ comment, leadingComment? (line.zip roles) = some comment → (readDirective comment).isSome = true →
    ∀ c ∈ line.takeWhile (· ≠ '#'), c ≠ ',' ∧ c ≠ '\ufeff'
  /-- Elsewhere a line of this form has it in front of its first carriage return. -/
  whole : roles.head? ≠ some (.inToken .blockString) → (readDirective line).isSome = true →
    (readDirective ((Text.trimStart line).takeWhile (· ≠ '\r'))).isSome = true

theorem trimStart_gap {gap : List Char} (hgap : ∀ c ∈ gap, c ∈ gaps) (hled : ∀ c ∈ gap, c ≠ ',' ∧ c ≠ '\ufeff')
    (rest : List Char) : Text.trimStart (gap ++ '#' :: rest) = '#' :: rest := by
  have hblank : ∀ c ∈ gap, Text.isBlank c = true := fun c hc => isBlank_of_gap (hgap c hc) (hled c hc).1 (hled c hc).2
  rw [Text.trimStart, List.dropWhile_append_of_pos hblank, List.dropWhile_cons_of_neg (by decide)]

theorem isSome_readDirective_trimStart (line : List Char) :
    (readDirective line).isSome = true ↔ (readDirective (Text.trimStart line)).isSome = true := by
  have hkeyword : afterKeyword (Text.trimStart line) = afterKeyword line := by
    rw [afterKeyword, afterKeyword, Text.trimStart, Text.trimStart, List.dropWhile_idempotent]
  rw [Import.isSome_readDirective_iff, Import.isSome_readDirective_iff, hkeyword]

/-- Behind a comma or a byte order mark no directive is found. -/
theorem led_of_readDirective {gap : List Char} (hgap : ∀ c ∈ gap, c ∈ gaps)
    (h : (readDirective (gap ++ '#' :: rest)).isSome = true) : ∀ c ∈ gap, c ≠ ',' ∧ c ≠ '\ufeff' := by
  induction gap with
  | nil => simp
  | cons c gap ih =>
    obtain ⟨found, hfound, hrequest⟩ := Import.isSome_readDirective_iff.1 h
    rw [List.cons_append] at hfound
    cases hblank : Text.isBlank c with
    | true =>
      rw [Import.afterKeyword_cons_of_blank hblank] at hfound
      refine List.forall_mem_cons.2 ⟨⟨?_, ?_⟩, ih (fun d hd => hgap d (.tail _ hd))
        (Import.isSome_readDirective_iff.2 ⟨found, hfound, hrequest⟩)⟩
      · rintro rfl
        cases hblank
      · rintro rfl
        cases hblank
    | false =>
      have hhash : c ≠ '#' := by
        rintro rfl
        exact absurd (hgap '#' (.head _)) (by decide)
      rw [Import.afterKeyword_cons_of_ne hblank hhash] at hfound
      cases hfound

theorem takenAlike_iff_of_comment {roles : List Role} {gap : List Char} (hgap : ∀ c ∈ gap, c ∈ gaps)
    (hcomment : leadingComment? ((gap ++ '#' :: rest).zip roles) = some ('#' :: rest.takeWhile (· ≠ '\r'))) :
    ((readDirective (gap ++ '#' :: rest)).isSome = true ↔
        (readDirective ('#' :: rest.takeWhile (· ≠ '\r'))).isSome = true) ↔
      TakenAlike (gap ++ '#' :: rest) roles := by
  have hunquoted {kind : TokenKind} : roles.head? ≠ some (.inToken kind) := by
    intro hhead
    rw [leadingComment?_of_quoted hhead] at hcomment
    cases hcomment
  have hfront : (gap ++ '#' :: rest).takeWhile (· ≠ '#') = gap := by
    have hnone : ∀ c ∈ gap, decide (c ≠ '#') = true := by
      intro c hc
      refine decide_eq_true ?_
      rintro rfl
      exact absurd (hgap '#' hc) (by decide)
    rw [List.takeWhile_append_of_pos hnone, List.takeWhile_cons_of_neg (by simp), List.append_nil]
  have hreturn : ('#' :: rest).takeWhile (· ≠ '\r') = '#' :: rest.takeWhile (· ≠ '\r') :=
    List.takeWhile_cons_of_pos (by decide)
  constructor
  · intro hsame
    constructor
    case quoted => exact fun hhead => absurd hhead hunquoted
    case led =>
      intro comment hled hdirective
      obtain rfl := Option.some.inj (hcomment.symm.trans hled)
      rw [hfront]
      exact led_of_readDirective hgap (hsame.2 hdirective)
    case whole =>
      intro _ hdirective
      rw [trimStart_gap hgap (led_of_readDirective hgap hdirective), hreturn]
      exact hsame.1 hdirective
  · intro halike
    constructor
    · intro hdirective
      have hwhole := halike.whole hunquoted hdirective
      rwa [trimStart_gap hgap (led_of_readDirective hgap hdirective), hreturn] at hwhole
    · intro hdirective
      have hled := halike.led _ hcomment hdirective
      rw [hfront] at hled
      rw [isSome_readDirective_trimStart, trimStart_gap hgap hled]
      have hmore := Import.isSome_readDirective_append hdirective (rest.dropWhile (· ≠ '\r'))
      rwa [List.cons_append, List.takeWhile_append_dropWhile] at hmore

/-- What a line is taken for, and what its comment is. -/
theorem takenAlike_iff {roles : List Role} (hline : '\n' ∉ line) (later : List Char)
    (h : roles = rolesFrom false (line ++ later) ∧ .unread ∉ roles ∨ roles.head? = some (.inToken .blockString)) :
    ((readDirective line).isSome = true ↔
        ∃ comment, leadingComment? (line.zip roles) = some comment ∧ (readDirective comment).isSome = true) ↔
      TakenAlike line roles := by
  rcases h with ⟨rfl, hread⟩ | hquoted
  · rcases leading_cases hline hread with ⟨gap, rest, rfl, hgap, hcomment⟩ | ⟨hcomment, hnone⟩
    · rw [← takenAlike_iff_of_comment hgap hcomment, hcomment]
      simp
    · have hdirective : (readDirective line).isSome ≠ true := by
        rw [ne_eq, Import.isSome_readDirective_iff, hnone]
        simp
      rw [hcomment]
      refine iff_of_true (iff_of_false hdirective (by simp)) ?_
      exact ⟨fun _ => eq_false_of_ne_true hdirective, by simp [hcomment], fun _ hd => absurd hd hdirective⟩
  · have hcomment := leadingComment?_of_quoted hquoted line
    rw [hcomment]
    constructor
    · intro hsame
      exact ⟨fun _ => eq_false_of_ne_true fun hd => by simpa using hsame.1 hd, by simp [hcomment],
        fun hunquoted => absurd hquoted hunquoted⟩
    · intro halike
      exact iff_of_false (by simp [halike.quoted hquoted]) (by simp)

/-- The roles of the characters from the start of a line on. -/
def rolesAt (text : String) (index : Nat) : List Role := (roles text).drop (Text.startOf index text.toList)

end Document

namespace Import

open Document (leadingComment? rolesAt)

theorem mem_directives_iff {text : String} {index : Nat} {line : List Char}
    (h : (Text.lines text.toList)[index]? = some line) :
    (∃ directive, (index + 1, directive) ∈ directives text) ↔ (readDirective line).isSome = true := by
  simp only [directives, List.mem_filterMap, Prod.exists, List.mem_zipIdx_iff_getElem?, Option.map_eq_some_iff,
    Prod.mk.injEq, Nat.add_right_cancel_iff, Option.isSome_iff_exists]
  constructor
  · rintro ⟨directive, line', index', hline', directive', hdirective, rfl, rfl⟩
    obtain rfl := Option.some.inj (h.symm.trans hline')
    exact ⟨directive', hdirective⟩
  · rintro ⟨directive, hdirective⟩
    exact ⟨directive, line, index, h, directive, hdirective, rfl, rfl⟩

/-- The lines of a text that are taken for directives are those that start with a comment of this form. -/
def DirectivesAreComments (text : String) : Prop :=
  ∀ index line, (Text.lines text.toList)[index]? = some line →
    ((∃ directive, (index + 1, directive) ∈ directives text) ↔
      ∃ comment, leadingComment? (line.zip (rolesAt text index)) = some comment ∧
        (readDirective comment).isSome = true)

/-- In a text that can be parsed this is so exactly if every line is taken alike. -/
theorem directives_comments_iff {text : String} {document : List Document.Definition}
    (h : Document.parse text = .ok document) : DirectivesAreComments text ↔
      ∀ index line, (Text.lines text.toList)[index]? = some line → Document.TakenAlike line (rolesAt text index) := by
  obtain ⟨-, hfault, -⟩ := Document.of_parse h
  obtain ⟨hread, -⟩ := Document.characters_tokensFrom hfault
  refine forall_congr' fun index => forall_congr' fun line => forall_congr' fun hline => ?_
  rw [mem_directives_iff hline]
  obtain ⟨before, rest, old, htext, hlength, hbefore, hold⟩ := Text.exists_startOf hline
  obtain ⟨later, rfl⟩ : ∃ later, old = line ++ later := by
    cases hold with
    | last => exact ⟨rest, rfl⟩
    | cons => exact ⟨_, List.append_assoc ..⟩
  have hroles : rolesAt text index = (Document.rolesFrom false (before ++ (line ++ later))).drop before.length := by
    rw [rolesAt, Document.roles, htext, hlength, htext]
  rw [htext] at hread
  refine Document.takenAlike_iff (Text.notMem_of_mem_lines (List.mem_of_getElem? hline)) later ?_
  rw [hroles]
  rcases Document.roles_line hbefore hread with ⟨hsame, hunread⟩ | hquoted
  · exact .inl ⟨hsame, hsame ▸ hunread⟩
  · exact .inr hquoted

/-! ## Some texts -/

/-- A directive in front of a type. -/
def plainImport : String := "# import * from \"b\"\ntype A\n"

/-- A directive that is quoted in a description. -/
def quotedImport : String := "\"\"\"\n# import * from \"b\"\n\"\"\"\ntype A\n"

/-- A directive behind a byte order mark. -/
def markedImport : String := "\ufeff# import * from \"b\"\ntype A\n"

/-- A field with the name of the keyword, behind an empty comment that ends within its line. -/
def returnedImport : String := "type A \x7b\n#\rimport (a: E = from \"b\" c: Int): Int\n\x7d\n"

theorem plainImport_directives :
    (∃ document, Document.parse plainImport = .ok document) ∧ DirectivesAreComments plainImport := by
  have hlines : Text.lines plainImport.toList = ["# import * from \"b\"".toList, "type A".toList] := by decide +kernel
  obtain ⟨document, hdocument, -⟩ := @exists_ok_of_any _ _ (Document.parse plainImport) (fun _ => true) (by decide +kernel)
  refine ⟨⟨document, hdocument⟩, (directives_comments_iff hdocument).2 fun index line hline => ?_⟩
  rw [hlines] at hline
  match index, hline with
  | 0, hline =>
    cases hline
    have hhead : (rolesAt plainImport 0).head? = some .opensComment := by decide +kernel
    refine ⟨fun hquoted => ?_, fun _ _ _ => by simp, fun _ _ => by decide +kernel⟩
    cases hhead.symm.trans hquoted
  | 1, hline =>
    cases hline
    have hnone : (readDirective "type A".toList).isSome = false := by decide +kernel
    have hcomment : leadingComment? ("type A".toList.zip (rolesAt plainImport 1)) = none := by decide +kernel
    refine ⟨fun _ => hnone, fun _ hled => ?_, fun _ hdirective => ?_⟩
    · cases hcomment.symm.trans hled
    · cases hnone.symm.trans hdirective
  | _ + 2, hline => cases hline

/-- One line that shows it. -/
theorem not_directivesAreComments {text : String} {index : Nat} {line : List Char}
    (hline : (Text.lines text.toList)[index]? = some line)
    (h : (readDirective line).isSome ≠
      (leadingComment? (line.zip (rolesAt text index))).any fun comment => (readDirective comment).isSome) :
    ¬ DirectivesAreComments text := by
  intro hall
  have hsame := hall index line hline
  rw [mem_directives_iff hline] at hsame
  refine h (Bool.eq_iff_iff.2 (hsame.trans ?_))
  rw [Option.any_eq_true]

/-- Lines that are taken for directives and start with no such comment, and one that does and is not taken for one. -/
theorem misread_directives :
    ((∃ document, Document.parse quotedImport = .ok document) ∧ ¬ DirectivesAreComments quotedImport) ∧
      ((∃ document, Document.parse markedImport = .ok document) ∧ ¬ DirectivesAreComments markedImport) ∧
        (∃ document, Document.parse returnedImport = .ok document) ∧ ¬ DirectivesAreComments returnedImport := by
  have hparsed {text : String} (h : (Document.parse text).toOption.any (fun _ => true) = true) :
      ∃ document, Document.parse text = .ok document := by
    obtain ⟨document, hdocument, -⟩ := exists_ok_of_any h
    exact ⟨document, hdocument⟩
  refine ⟨⟨hparsed (by decide +kernel), ?_⟩, ⟨hparsed (by decide +kernel), ?_⟩, hparsed (by decide +kernel), ?_⟩
  · exact @not_directivesAreComments quotedImport 1 "# import * from \"b\"".toList (by decide +kernel)
      (by decide +kernel)
  · exact @not_directivesAreComments markedImport 0 "\ufeff# import * from \"b\"".toList (by decide +kernel)
      (by decide +kernel)
  · exact @not_directivesAreComments returnedImport 1 "#\rimport (a: E = from \"b\" c: Int): Int".toList
      (by decide +kernel) (by decide +kernel)

end Import

end SchemaFragments
