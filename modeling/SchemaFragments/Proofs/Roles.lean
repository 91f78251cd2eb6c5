import SchemaFragments.Proofs.CommentLines
/-!
# Roles of characters

The tokens of a text say of each of its characters whether it belongs to a token, to a comment or to neither. At the
start of a line the reader of tokens is in a block string, or it starts as at the beginning of a text: `roles_line`.
-/

namespace SchemaFragments.Document

open Text (EndsLine)

/-- What a character of a text is to its tokens. -/
inductive Role where
  /-- Between tokens and comments: blanks, commas, byte order marks, and what ends a comment. -/
  | ignored
  | opensComment
  | inComment
  | inToken (kind : TokenKind)
  /-- Here, or further in front, no token could be read. -/
  | unread
deriving DecidableEq, Repr

/-- The role of a character that is skipped. -/
def skippedRole (inComment : Bool) (c : Char) : Role :=
  if inComment then if c = '\n' ∨ c = '\r' then .ignored else .inComment
  else if c = '#' then .opensComment else .ignored

/-- The roles of the characters of a text that starts in a comment, or between tokens. -/
def rolesFrom (inComment : Bool) : List Char → List Role
  | [] => []
  | c :: rest =>
    match commentAfter inComment c with
    | some inside => skippedRole inComment c :: rolesFrom inside rest
    | none =>
      match lexeme c rest with
      | .ok (kind, length) =>
        (c :: rest.take length).map (fun _ => .inToken kind) ++ rolesFrom false (rest.drop length)
      | .error _ => (c :: rest).map fun _ => .unread
termination_by text => text.length

def roles (text : String) : List Role := rolesFrom false text.toList

variable {depth : Nat} {position : Position} {inComment inside : Bool} {c : Char} {text rest before later : List Char}
  {kind : TokenKind} {length : Nat}

theorem rolesFrom_skipped (h : commentAfter inComment c = some inside) (rest : List Char) :
    rolesFrom inComment (c :: rest) = skippedRole inComment c :: rolesFrom inside rest := by
  rw [rolesFrom, h]

theorem rolesFrom_token (h : commentAfter inComment c = none) (hl : lexeme c rest = .ok (kind, length)) :
    rolesFrom inComment (c :: rest) =
      (c :: rest.take length).map (fun _ => .inToken kind) ++ rolesFrom false (rest.drop length) := by
  rw [rolesFrom, h, hl]

theorem rolesFrom_error {fault : Fault} (h : commentAfter inComment c = none) (hl : lexeme c rest = .error fault) :
    rolesFrom inComment (c :: rest) = (c :: rest).map fun _ => .unread := by
  rw [rolesFrom, h, hl]

theorem commentAfter_of_notMem (h : c ∉ ignored) : commentAfter false c = none := by
  simp only [ignored, List.mem_cons, List.not_mem_nil, or_false, not_or] at h
  simp [commentAfter, h]

/-! ## Roles and tokens -/

/-- The character of a token with the kind of the token. -/
def tokenCharacter? : Char × Role → Option (Char × TokenKind)
  | (c, .inToken kind) => some (c, kind)
  | _ => none

theorem skippedRole_ne (inComment : Bool) (c : Char) :
    skippedRole inComment c ≠ .unread ∧ tokenCharacter? (c, skippedRole inComment c) = none := by
  unfold skippedRole
  split_ifs <;> exact ⟨by simp, rfl⟩

/-- What is skipped has no character of a token. -/
theorem roles_skipIgnored (inComment : Bool) (position : Position) (text : List Char) :
    (.unread ∈ rolesFrom inComment text ↔ .unread ∈ rolesFrom false (skipIgnored inComment position text).2) ∧
      (text.zip (rolesFrom inComment text)).filterMap tokenCharacter? =
        ((skipIgnored inComment position text).2.zip
          (rolesFrom false (skipIgnored inComment position text).2)).filterMap tokenCharacter? := by
  induction text generalizing inComment with
  | nil =>
    rw [skipIgnored, rolesFrom, rolesFrom]
    exact ⟨Iff.rfl, rfl⟩
  | cons c rest ih =>
    rw [skipped_cons]
    cases hnext : commentAfter inComment c with
    | none =>
      cases inComment with
      | true => cases hnext
      | false => exact ⟨Iff.rfl, rfl⟩
    | some inside =>
      obtain ⟨hrole, hcharacter⟩ := skippedRole_ne inComment c
      obtain ⟨hunread, hsame⟩ := ih inside
      rw [rolesFrom_skipped hnext, List.zip_cons_cons, List.filterMap_cons_none hcharacter, List.mem_cons,
        or_iff_right hrole.symm]
      exact ⟨hunread, hsame⟩

/-- The characters with a role in a token are those of the tokens. -/
theorem characters_tokensFrom (h : (tokensFrom depth position text).fault = none) :
    .unread ∉ rolesFrom false text ∧
      (text.zip (rolesFrom false text)).filterMap tokenCharacter? =
        (tokensFrom depth position text).list.flatMap fun token => token.text.toList.map (·, token.kind) := by
  fun_induction tokensFrom depth position text with
  | case1 depth position text start hskip =>
    have hlater : (skipIgnored false position text).2 = [] := congrArg Prod.snd hskip
    obtain ⟨hunread, hsame⟩ := roles_skipIgnored false position text
    rw [hlater, rolesFrom] at hunread hsame
    exact ⟨by simp [hunread], hsame⟩
  | case2 => cases h
  | case3 => cases h
  | case4 depth position text start c later hskip kind length hlexeme inside hopen lexeme following ih =>
    have hlater : (skipIgnored false position text).2 = c :: later := congrArg Prod.snd hskip
    obtain ⟨hunread, hsame⟩ := roles_skipIgnored false position text
    obtain ⟨hunread', hsame'⟩ := ih h
    have hnone : commentAfter false c = none := commentAfter_of_notMem (skipped_stop hlater).1
    rw [hlater, rolesFrom_token hnone hlexeme] at hunread hsame
    constructor
    · rw [hunread, List.mem_append, not_or]
      exact ⟨by simp, hunread'⟩
    · have hsplit : c :: later = (c :: later.take length) ++ later.drop length := by simp
      have htoken : ((c :: later.take length).zip
          ((c :: later.take length).map fun _ => Role.inToken kind)).filterMap tokenCharacter? =
            (c :: later.take length).map (·, kind) := by
        rw [← List.map_prod_left_eq_zip, List.filterMap_map]
        exact congrFun List.filterMap_eq_map _
      rw [hsame, hsplit, List.zip_append (by simp), List.filterMap_append, htoken, hsame', List.flatMap_cons,
        String.toList_ofList]

/-! ## Roles and lines -/

theorem newline_notMem_string {escaped : Bool} (h : stringLength escaped text = some length) :
    '\n' ∉ text.take length := by
  induction text generalizing escaped length with
  | nil => cases h
  | cons c text ih =>
    rw [stringLength] at h
    split at h
    · rename_i hquote
      obtain rfl := Option.some.inj h
      simp [hquote.1]
    · split at h
      · cases h
      · rename_i hline
        obtain ⟨inner, hinner, rfl⟩ := Option.map_eq_some_iff.1 h
        rw [List.take_succ_cons, List.mem_cons, not_or]
        exact ⟨Ne.symm hline, ih hinner⟩

/-- Only a block string holds line ends. -/
theorem kind_of_newline (h : lexeme c rest = .ok (kind, length)) (hm : '\n' ∈ rest.take length) :
    kind = .blockString := by
  have hwhile {p : Char → Bool} (hp : p '\n' = false) : '\n' ∉ rest.take (rest.takeWhile p).length := by
    rw [← List.prefix_iff_eq_take.1 (List.takeWhile_prefix p)]
    intro hm
    have hline := List.mem_takeWhile_imp hm
    rw [hp] at hline
    cases hline
  unfold lexeme at h
  split_ifs at h with hpunct hdot hdots hstart hdigit hquote hquotes
  · cases h
    simp at hm
  · cases h
    rw [hdots] at hm
    simp at hm
  · cases h
    exact absurd hm (hwhile rfl)
  · have hnumber : '\n' ∉ rest.take (rest.takeWhile fun c => !endsNumber c).length := hwhile rfl
    dsimp only at h
    split_ifs at h <;> cases h <;> exact absurd hm hnumber
  · split at h
    · cases h
      rfl
    · cases h
  · split at h
    · cases h
      exact absurd hm (newline_notMem_string ‹_›)
    · cases h

/-- Behind a token the roles are those of what follows it. -/
theorem drop_behind_token {front : List Char} (hle : length ≤ front.length) (c : Char) (kind : TokenKind)
    (later : List Char) :
    ((c :: (front ++ later).take length).map (fun _ => Role.inToken kind) ++
        rolesFrom false ((front ++ later).drop length)).drop (front.length + 1) =
      (rolesFrom false (front.drop length ++ later)).drop (front.drop length).length := by
  rw [List.take_append_of_le_length hle, List.drop_append_of_le_length hle, List.map_cons, List.cons_append,
    List.drop_succ_cons, List.drop_append, List.length_map, List.length_take, Nat.min_eq_left hle,
    List.drop_of_length_le (by simp), List.nil_append, List.length_drop]

/-- A line that ends within a token ends within a block string. -/
theorem drop_within_token {front : List Char} (hends : EndsLine front) (hlt : front.length < length)
    (hl : lexeme c (front ++ later) = .ok (kind, length)) :
    ((c :: (front ++ later).take length).map (fun _ => Role.inToken kind) ++
        rolesFrom false ((front ++ later).drop length)).drop (front.length + 1) = rolesFrom false later ∨
      (((c :: (front ++ later).take length).map (fun _ => Role.inToken kind) ++
        rolesFrom false ((front ++ later).drop length)).drop (front.length + 1)).head? = some (.inToken .blockString) := by
  have hle : front.length ≤ length := Nat.le_of_lt hlt
  have hm : '\n' ∈ (front ++ later).take length := by
    rw [List.take_append, List.take_of_length_le hle]
    exact List.mem_append_left _ (List.mem_of_getLast? hends)
  obtain rfl := kind_of_newline hl hm
  rw [List.map_cons, List.cons_append, List.drop_succ_cons, List.take_append, List.take_of_length_le hle, List.map_append,
    List.append_assoc, List.drop_left' (by simp)]
  cases htail : later.take (length - front.length) with
  | nil =>
    have hlater : later = [] := (List.take_eq_nil_iff.1 htail).resolve_left (by omega)
    rw [hlater, List.append_nil, List.drop_of_length_le hle]
    exact .inl rfl
  | cons d tail => exact .inr rfl

/-- At the start of a line there is a block string, or the reader of tokens starts as at the start of a text. -/
theorem roles_after (hends : EndsLine before) :
    (rolesFrom inComment (before ++ later)).drop before.length = rolesFrom false later ∨
      .unread ∈ rolesFrom inComment (before ++ later) ∨
      ((rolesFrom inComment (before ++ later)).drop before.length).head? = some (.inToken .blockString) := by
  induction hlength : before.length using Nat.strong_induction_on generalizing inComment before with
  | _ size ih =>
    subst hlength
    obtain _ | ⟨c, front⟩ := before
    · exact absurd rfl hends.ne_nil
    have hfront : front ≠ [] → EndsLine front := fun hne => by rwa [EndsLine, List.getLast?_cons_of_ne_nil hne] at hends
    rw [List.cons_append, List.length_cons]
    cases hnext : commentAfter inComment c with
    | some inside =>
      obtain ⟨hrole, -⟩ := skippedRole_ne inComment c
      rw [rolesFrom_skipped hnext, List.drop_succ_cons, List.mem_cons, or_iff_right hrole.symm]
      by_cases hne : front = []
      · -- the line end is the only character in front, so no comment goes on behind it
        subst hne
        obtain rfl : c = '\n' := Option.some.inj hends
        obtain rfl : inside = false := by cases inComment <;> exact (Option.some.inj hnext).symm
        exact .inl rfl
      · exact ih front.length (Nat.lt_succ_self _) (hfront hne) rfl
    | none =>
      have hne : front ≠ [] := by
        rintro rfl
        obtain rfl : c = '\n' := Option.some.inj hends
        exact notMem_of_commentAfter hnext (by decide)
      cases hl : lexeme c (front ++ later) with
      | error fault =>
        rw [rolesFrom_error hnext hl]
        exact .inr (.inl (.head _))
      | ok result =>
        obtain ⟨kind, length⟩ := result
        rw [rolesFrom_token hnext hl]
        by_cases hle : length ≤ front.length
        · rw [drop_behind_token hle]
          by_cases hback : front.drop length = []
          · rw [hback]
            exact .inl rfl
          · have hlast : EndsLine (front.drop length) := ((hfront hne).drop length).resolve_left hback
            have hrest := @ih _ (by simp) false _ hlast rfl
            rw [← List.drop_append_of_le_length hle] at hrest ⊢
            exact hrest.imp_right (.imp_left fun hunread => List.mem_append_right _ hunread)
        · exact (drop_within_token (hfront hne) (Nat.lt_of_not_le hle) hl).imp_right .inr

/-- The roles of the characters from the start of a line on, in a text that can be read. -/
theorem roles_line (hends : before = [] ∨ EndsLine before) (h : .unread ∉ rolesFrom false (before ++ later)) :
    ((rolesFrom false (before ++ later)).drop before.length = rolesFrom false later ∧ .unread ∉ rolesFrom false later) ∨
      ((rolesFrom false (before ++ later)).drop before.length).head? = some (.inToken .blockString) := by
  rcases hends with rfl | hends
  · exact .inl ⟨rfl, h⟩
  · rcases @roles_after false before later hends with hsame | hunread | hquoted
    · exact .inl ⟨hsame, fun hm => h (List.mem_of_mem_drop (hsame ▸ hm))⟩
    · exact absurd hunread h
    · exact .inr hquoted

end SchemaFragments.Document
