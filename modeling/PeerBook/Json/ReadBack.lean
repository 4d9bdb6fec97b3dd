import PeerBook.Json.Decoder

/-!
# PeerBook.Json.ReadBack

What the printer writes, the parser reads back: for every plain value the tree
of its compact form is the value itself, and nothing is left over
(`Json.parse_compact`). The lemmas before it say the same of each kind of part
in front of any text that may follow it.

- Strings: `Json.pieces_escapeChar` for one character, and from it
  `Json.stringValue_escapeChars` for a whole string.
- Numbers: `Json.number?_toDigits`, where what follows must not go on with the
  number (`Json.EndsNumber`); a comma and a closing bracket do not.
- Values: `Json.value_compactChars`, by induction over the value and the two
  kinds of lists in it at once, with enough depth (`Json.depth`).

`Json.decode_compact` is what the records of the storage use.
-/

namespace PeerBook.Json

/-! ## Strings -/

/-- A code unit that is no half of a surrogate pair is a character of its own, whatever comes after
it. -/
theorem assemble_unit {u : Nat} (h : u < 0xD800) (ps : List Piece) :
    assemble (.unit u :: ps) = (assemble ps).map (Char.ofNat u :: ·) := by
  have hh : isHighSurrogate u = false := by simp [isHighSurrogate]; omega
  have hl : isLowSurrogate u = false := by simp [isLowSurrogate]; omega
  cases ps with
  | nil => simp [assemble, hh, hl]
  | cons p ps => cases p <;> simp [assemble, hh, hl]

/-- A character that is neither a quote nor a backslash nor a control character is a piece by
itself. -/
theorem pieces_cons {c : Char} (hq : c ≠ '"') (hb : c ≠ '\\') (hc : ¬c.toNat < 0x20)
    (cs : List Char) :
    pieces (c :: cs) = (pieces cs).map fun (ps, rest) => (.char c :: ps, rest) := by
  rw [pieces, if_neg hc]
  · exact hq
  · exact fun _ _ _ _ _ h _ => hb h
  · exact fun _ _ h _ => hb h

/-- The four digits that are written for a byte name it: two zeros and its halves. -/
theorem codeUnit?_halves (b : UInt8) :
    codeUnit? '0' '0' (Text.Hex.digitChar (Text.Hex.halves b).1)
      (Text.Hex.digitChar (Text.Hex.halves b).2) = some b.toNat := by
  have h0 : Text.Hex.digit? '0' = some 0 := by decide
  have hb := b.toNat_lt
  simp [codeUnit?, h0, Text.Hex.halves]
  omega

/-- What was written for one character is read as one piece: the character itself, or the code unit
of its escape. -/
theorem pieces_escapeChar (c : Char) (cs : List Char) :
    ∃ p, pieces (escapeChar c ++ cs) = (pieces cs).map (fun (ps, rest) => (p :: ps, rest)) ∧
      ∀ ps, assemble (p :: ps) = (assemble ps).map (c :: ·) := by
  unfold escapeChar
  iterate 7
    split
    · exact ⟨.char c, by subst_vars; simp [pieces, unescape?], fun _ => by simp [assemble]⟩
  split
  · rename_i h
    have hb : (UInt8.ofNat c.toNat).toNat = c.toNat := by simp; omega
    refine ⟨.unit c.toNat, ?_, fun ps => ?_⟩
    · simp [Text.Hex.encodeChars, pieces, codeUnit?_halves, hb]
    · rw [assemble_unit (by omega)]
      simp
  · rename_i hq hb _ _ _ _ _ hc
    exact ⟨.char c, pieces_cons hq hb hc cs, fun _ => by simp [assemble]⟩

/-- The written characters of a string are read as pieces up to the closing quote, and the pieces
make up the string again. -/
theorem pieces_escapeChars (cs rest : List Char) :
    ∃ ps, pieces (cs.flatMap escapeChar ++ '"' :: rest) = some (ps, rest) ∧
      assemble ps = some cs := by
  induction cs with
  | nil => exact ⟨[], by simp [pieces], by simp [assemble]⟩
  | cons c cs ih =>
    obtain ⟨ps, hps, ha⟩ := ih
    obtain ⟨p, hp, hc⟩ := pieces_escapeChar c (cs.flatMap escapeChar ++ '"' :: rest)
    refine ⟨p :: ps, ?_, ?_⟩
    · rw [List.flatMap_cons, List.append_assoc, hp, hps]; rfl
    · rw [hc, ha]; rfl

/-- A string that was written is read back. -/
theorem stringValue_escapeChars (s : String) (rest : List Char) :
    stringValue (s.toList.flatMap escapeChar ++ '"' :: rest) = some (some s, rest) := by
  obtain ⟨ps, hps, ha⟩ := pieces_escapeChars s.toList rest
  simp [stringValue, hps, ha]

/-! ## Numbers -/

/-- Whether a text cannot go on with a number that stands before it. -/
def EndsNumber (rest : List Char) : Prop :=
  ∀ c ∈ rest.head?, c.isDigit = false ∧ c ≠ '.' ∧ c ≠ 'e' ∧ c ≠ 'E'

/-- The digits at the front of a text are those of the number, if what follows does not begin with
another digit. -/
theorem takeWhile_isDigit_append {ds rest : List Char} (hd : ∀ c ∈ ds, c.isDigit)
    (hr : EndsNumber rest) : (ds ++ rest).takeWhile Char.isDigit = ds := by
  rw [List.takeWhile_append_of_pos hd]
  cases rest with
  | nil => simp
  | cons c cs => simp [(hr c (by simp)).1]

/-- What follows the digits of a number is what was written behind them. -/
theorem dropWhile_isDigit_append {ds rest : List Char} (hd : ∀ c ∈ ds, c.isDigit)
    (hr : EndsNumber rest) : (ds ++ rest).dropWhile Char.isDigit = rest := by
  rw [List.dropWhile_append_of_pos hd]
  cases rest with
  | nil => simp
  | cons c cs => simp [(hr c (by simp)).1]

/-- No numeral of more than one digit begins with a zero, so none is refused for a leading zero. The
first digit is the last quotient, which is not zero where there is another digit after it. -/
theorem toDigits_ne_zero_cons (n : Nat) (c : Char) (cs : List Char) :
    Nat.toDigits 10 n ≠ '0' :: c :: cs := by
  have head {m : Nat} (hm : 0 < m) : ∀ ds, Nat.toDigits 10 m ≠ '0' :: ds := by
    induction m using Nat.strongRecOn with
    | ind m ih =>
      intro ds h
      by_cases hlt : m < 10
      · rw [Nat.toDigits_of_lt_base hlt] at h
        have := List.head_eq_of_cons_eq h
        simp at this
        omega
      · rw [Nat.toDigits_of_base_le (by decide) (by omega)] at h
        cases ht : Nat.toDigits 10 (m / 10) with
        | nil => exact Nat.toDigits_ne_nil ht
        | cons d ds' =>
          rw [ht, List.cons_append] at h
          obtain rfl := List.head_eq_of_cons_eq h
          exact ih (m / 10) (by omega) (by omega) ds' ht
  intro h
  by_cases hn : n < 10
  · rw [Nat.toDigits_of_lt_base hn] at h
    simp at h
  · exact head (by omega) _ h

/-- The digits of a written number are read, all of them and no others. -/
theorem digits?_toDigits (n : Nat) {rest : List Char} (hr : EndsNumber rest) :
    digits? (Nat.toDigits 10 n ++ rest) = some (Nat.toDigits 10 n, rest) := by
  have hd : ∀ c ∈ Nat.toDigits 10 n, c.isDigit := fun c hc =>
    Nat.isDigit_of_mem_toDigits (by decide) (by decide) hc
  rw [digits?, takeWhile_isDigit_append hd hr, dropWhile_isDigit_append hd hr]
  split
  · exact absurd (by assumption) Nat.toDigits_ne_nil
  · rfl

/-- A written number is read as itself: its numeral has no leading zero. -/
theorem integer?_toDigits (n : Nat) {rest : List Char} (hr : EndsNumber rest) :
    integer? (Nat.toDigits 10 n ++ rest) = some (n, rest) := by
  rw [integer?, digits?_toDigits n hr]
  split
  · rename_i h
    simp only [Option.some.injEq, Prod.mk.injEq] at h
    exact absurd h.1 (toDigits_ne_zero_cons n _ _)
  · rename_i h
    simp only [Option.some.injEq, Prod.mk.injEq] at h
    rw [← h.1, ← h.2, Nat.ofDigitChars_ten_toDigits]
  · contradiction

/-- What may follow a written number is not taken for a fraction. -/
theorem fraction?_of_endsNumber {rest : List Char} (hr : EndsNumber rest) :
    fraction? rest = some (false, rest) := by
  unfold fraction?
  split
  · exact absurd rfl (hr '.' (by simp)).2.1
  · rfl

/-- What may follow a written number is not taken for an exponent. -/
theorem exponent?_of_endsNumber {rest : List Char} (hr : EndsNumber rest) :
    exponent? rest = some (false, rest) := by
  unfold exponent?
  split
  · exact absurd rfl (hr 'e' (by simp)).2.2.1
  · exact absurd rfl (hr 'E' (by simp)).2.2.2
  · rfl

/-- The first character of a numeral is a digit. -/
theorem exists_toDigits_eq_cons (n : Nat) :
    ∃ c cs, Nat.toDigits 10 n = c :: cs ∧ c.isDigit := by
  cases h : Nat.toDigits 10 n with
  | nil => exact absurd h Nat.toDigits_ne_nil
  | cons c cs =>
    exact ⟨c, cs, rfl, Nat.isDigit_of_mem_toDigits (by decide) (by decide) (h ▸ List.mem_cons_self)⟩

/-- A number that was written is read back. -/
theorem number?_toDigits (n : Nat) {rest : List Char} (hr : EndsNumber rest) :
    number? (Nat.toDigits 10 n ++ rest) = some (some n, rest) := by
  have hu : unsigned? (Nat.toDigits 10 n ++ rest) = some (some n, rest) := by
    simp [unsigned?, integer?_toDigits n hr, fraction?_of_endsNumber hr,
      exponent?_of_endsNumber hr]
  obtain ⟨c, cs, hc, hd⟩ := exists_toDigits_eq_cons n
  rw [hc, List.cons_append] at hu ⊢
  unfold number?
  split
  · simp_all
  · exact hu

/-! ## Values -/

/-- What may follow a value does not go on with a number: a comma or a closing bracket. -/
theorem endsNumber_cons {c : Char} (h : c.isDigit = false ∧ c ≠ '.' ∧ c ≠ 'e' ∧ c ≠ 'E')
    (cs : List Char) : EndsNumber (c :: cs) := by
  simpa [EndsNumber] using h

theorem endsNumber_nil : EndsNumber [] := by simp [EndsNumber]

/-- A plain value begins with a character that is no blank and closes no array, so it is not taken
for the end of the items before it. -/
theorem exists_compactChars_eq_cons {j : Json} (h : j.isPlain) :
    ∃ c cs, j.compactChars = c :: cs ∧ isSpace c = false ∧ c ≠ ']' := by
  cases j with
  | null => exact ⟨'n', _, rfl, by decide, by decide⟩
  | bool b =>
    cases b with
    | false => exact ⟨'f', _, rfl, by decide, by decide⟩
    | true => exact ⟨'t', _, rfl, by decide, by decide⟩
  | number n =>
    cases n with
    | none => simp [isPlain] at h
    | some n =>
      obtain ⟨c, cs, hc, hd⟩ := exists_toDigits_eq_cons n
      have hs : isSpace c = false ∧ c ≠ ']' := by
        constructor
        · simp only [isSpace, Bool.or_eq_false_iff, beq_eq_false_iff_ne]
          refine ⟨⟨⟨?_, ?_⟩, ?_⟩, ?_⟩ <;> rintro rfl <;> revert hd <;> decide
        · rintro rfl; revert hd; decide
      refine ⟨c, cs, ?_, hs⟩
      simp [compactChars, numberChars, hc]
  | string s =>
    cases s with
    | none => simp [isPlain] at h
    | some s => exact ⟨'"', _, rfl, by decide, by decide⟩
  | array items => exact ⟨'[', _, by rw [compactChars], by decide, by decide⟩
  | object members => exact ⟨'{', _, by rw [compactChars], by decide, by decide⟩
  | broken => simp [isPlain] at h

theorem compactChars_text (s : String) : compactChars (string (some s)) = stringChars s := by
  simp [compactChars, literalChars]

theorem compactChars_nat (n : Nat) : compactChars (number (some n)) = Nat.toDigits 10 n := by
  simp [compactChars, numberChars]

theorem skipSpace_cons {c : Char} (h : isSpace c = false) (cs : List Char) :
    skipSpace (c :: cs) = c :: cs := by
  simp [skipSpace, h]

/-- A string literal in front of a text, with its two quotes made visible. -/
theorem stringChars_append (s : String) (rest : List Char) :
    stringChars s ++ rest = '"' :: (s.toList.flatMap escapeChar ++ '"' :: rest) := by
  simp [stringChars]

/-- A written string is read as a value, and what follows is left. -/
theorem value_stringChars (n : Nat) (s : String) (rest : List Char) :
    value (n + 1) (stringChars s ++ rest) = (string (some s), some rest) := by
  rw [stringChars_append, value, skipSpace_cons (by decide)]
  simp only [stringValue_escapeChars, valueOf]

mutual

/-- How deep the reader has to go for a value. -/
def depth : Json → Nat
  | array items => itemsDepth items + 1
  | object members => membersDepth members + 1
  | _ => 1

/-- How deep the reader has to go for items. -/
def itemsDepth : List Json → Nat
  | [] => 0
  | j :: js => max (depth j) (itemsDepth js) + 1

/-- How deep the reader has to go for members. -/
def membersDepth : List (Option String × Json) → Nat
  | [] => 0
  | (_, j) :: ms => max (depth j) (membersDepth ms) + 1

end

mutual

/-- A plain value that was written is read back, and what follows is left, if the depth is
enough. -/
theorem value_compactChars (j : Json) (h : j.isPlain) {n : Nat} (hn : j.depth ≤ n)
    {rest : List Char} (hr : EndsNumber rest) :
    value n (j.compactChars ++ rest) = (j, some rest) := by
  match n, j with
  | 0, j => cases j <;> simp [depth] at hn
  | n + 1, .null => simp [compactChars, value, skipSpace, isSpace, word]
  | n + 1, .bool true => simp [compactChars, value, skipSpace, isSpace, word]
  | n + 1, .bool false => simp [compactChars, value, skipSpace, isSpace, word]
  | n + 1, .string (some s) =>
    rw [compactChars_text, value_stringChars]
  | n + 1, .number (some k) =>
    have hk := compactChars_nat k
    have hv := number?_toDigits k hr
    obtain ⟨c, cs, hc, hd⟩ := exists_toDigits_eq_cons k
    obtain ⟨c', cs', hc', hs, -⟩ := exists_compactChars_eq_cons h
    rw [hk] at hc' ⊢
    rw [hc] at hc' hv ⊢
    obtain ⟨rfl, rfl⟩ := List.cons.inj hc'
    rw [List.cons_append] at hv ⊢
    rw [value, skipSpace_cons hs]
    split
    all_goals simp_all [valueOf]
  | n + 1, .array [] => simp [compactChars, compactItems, value, skipSpace, isSpace]
  | n + 1, .array (j :: js) =>
    simp only [isPlain, depth, Nat.add_le_add_iff_right] at h hn
    have ih := items_compactItems j js h hn rest
    have hj : j.isPlain := by simp only [arePlain, Bool.and_eq_true] at h; exact h.1
    obtain ⟨c, cs, hc, hs, hb⟩ :
        ∃ c cs, compactItems (j :: js) = c :: cs ∧ isSpace c = false ∧ c ≠ ']' := by
      obtain ⟨c, cs, hc, hs⟩ := exists_compactChars_eq_cons hj
      cases js with
      | nil => exact ⟨c, cs, by rw [compactItems, hc], hs⟩
      | cons k ks => exact ⟨c, cs ++ ',' :: compactItems (k :: ks), by simp [compactItems, hc], hs⟩
    rw [hc, List.cons_append] at ih
    rw [compactChars, hc]
    simp only [List.cons_append, List.append_assoc, List.nil_append]
    rw [value, skipSpace_cons (by decide)]
    simp only [skipSpace_cons hs]
    split
    · simp_all
    · rw [ih]
  | n + 1, .object [] => simp [compactChars, compactMembers, value, skipSpace, isSpace]
  | n + 1, .object ((name, j) :: ms) =>
    simp only [isPlain, depth, Nat.add_le_add_iff_right] at h hn
    have ih := members_compactMembers name j ms h hn rest
    obtain ⟨cs, hc⟩ : ∃ cs, compactMembers ((name, j) :: ms) = '"' :: cs := by
      obtain ⟨cs, hl⟩ : ∃ cs, literalChars name = '"' :: cs := by
        cases name with
        | none => simp [membersArePlain] at h
        | some s => exact ⟨_, rfl⟩
      cases ms with
      | nil => exact ⟨_, by rw [compactMembers, hl]; rfl⟩
      | cons m ms =>
        exact ⟨cs ++ ':' :: (j.compactChars ++ ',' :: compactMembers (m :: ms)),
          by simp [compactMembers, hl]⟩
    rw [hc, List.cons_append] at ih
    rw [compactChars, hc]
    simp only [List.cons_append, List.append_assoc, List.nil_append]
    rw [value, skipSpace_cons (by decide)]
    simp only [skipSpace_cons (show isSpace '"' = false by decide)]
    exact congrArg (fun p => (object p.1, p.2)) ih

/-- Items that were written are read back up to the bracket that closes the array, by induction
along the list with `value_compactChars` for each item. -/
theorem items_compactItems (j : Json) (js : List Json) (h : arePlain (j :: js)) {n : Nat}
    (hn : itemsDepth (j :: js) ≤ n) (rest : List Char) :
    items n (compactItems (j :: js) ++ ']' :: rest) = (j :: js, some rest) := by
  match n with
  | 0 => simp [itemsDepth] at hn
  | n + 1 =>
    simp only [arePlain, Bool.and_eq_true] at h
    simp only [itemsDepth, Nat.add_le_add_iff_right, Nat.max_le] at hn
    match js with
    | [] =>
      have hv := value_compactChars j h.1 hn.1 (endsNumber_cons (c := ']') (by decide) rest)
      rw [compactItems, items, hv]
      simp [skipSpace, isSpace]
    | k :: ks =>
      have ih := items_compactItems k ks h.2 hn.2 rest
      have hv := value_compactChars j h.1 hn.1
        (endsNumber_cons (c := ',') (by decide) (compactItems (k :: ks) ++ ']' :: rest))
      simp only [compactItems, List.append_assoc, List.cons_append]
      rw [items, hv]
      simp [skipSpace, isSpace, ih]

/-- Members that were written are read back up to the bracket that closes the object, names and
values in their order; a name that occurs twice is read twice. -/
theorem members_compactMembers (name : Option String) (j : Json)
    (ms : List (Option String × Json)) (h : membersArePlain ((name, j) :: ms)) {n : Nat}
    (hn : membersDepth ((name, j) :: ms) ≤ n) (rest : List Char) :
    members n (compactMembers ((name, j) :: ms) ++ '}' :: rest) = ((name, j) :: ms, some rest) := by
  match n, name with
  | 0, _ => simp [membersDepth] at hn
  | _, none => simp [membersArePlain] at h
  | n + 1, some s =>
    simp only [membersArePlain, Bool.and_eq_true] at h
    simp only [membersDepth, Nat.add_le_add_iff_right, Nat.max_le] at hn
    match ms with
    | [] =>
      have hv := value_compactChars j h.1.2 hn.1 (endsNumber_cons (c := '}') (by decide) rest)
      simp only [compactMembers, literalChars, stringChars, List.append_assoc, List.cons_append,
        List.nil_append]
      rw [members, skipSpace_cons (by decide)]
      simp [stringValue_escapeChars, skipSpace_cons, isSpace, hv]
    | (name', k) :: ms =>
      have ih := members_compactMembers name' k ms h.2 hn.2 rest
      have hv := value_compactChars j h.1.2 hn.1
        (endsNumber_cons (c := ',') (by decide) (compactMembers ((name', k) :: ms) ++ '}' :: rest))
      simp only [compactMembers, literalChars, stringChars, List.append_assoc, List.cons_append,
        List.nil_append]
      rw [members, skipSpace_cons (by decide)]
      simp [stringValue_escapeChars, skipSpace_cons, isSpace, hv, ih]

end
/-! ## Texts -/

mutual

/-- Reading a plain value goes no deeper than the value is long, so the length of a text is enough
as a bound: every level of nesting takes at least one character. -/
theorem depth_le_length (j : Json) (h : j.isPlain) : j.depth ≤ j.compactChars.length := by
  match j with
  | .null => simp [depth, compactChars]
  | .bool true => simp [depth, compactChars]
  | .bool false => simp [depth, compactChars]
  | .number (some n) =>
    simp only [depth, compactChars_nat]
    exact Nat.length_toDigits_pos
  | .string (some s) => simp [depth, compactChars_text, stringChars]
  | .array js =>
    have := itemsDepth_le_length js (by simpa [isPlain] using h)
    simp only [depth, compactChars, List.length_cons, List.length_append]
    omega
  | .object ms =>
    have := membersDepth_le_length ms (by simpa [isPlain] using h)
    simp only [depth, compactChars, List.length_cons, List.length_append]
    omega

/-- Reading plain items goes no deeper than they are long, their brackets counted as one; the commas
between them are not even needed. -/
theorem itemsDepth_le_length (js : List Json) (h : arePlain js) :
    itemsDepth js ≤ (compactItems js).length + 1 := by
  match js with
  | [] => simp [itemsDepth]
  | [j] =>
    simp only [arePlain, Bool.and_true] at h
    have := depth_le_length j h
    simp only [itemsDepth, compactItems]
    omega
  | j :: k :: ks =>
    simp only [arePlain, Bool.and_eq_true] at h
    have := depth_le_length j h.1
    have := itemsDepth_le_length (k :: ks) (by simpa [arePlain] using h.2)
    simp only [itemsDepth, compactItems, List.length_append, List.length_cons] at this ⊢
    omega

/-- Reading plain members goes no deeper than they are long, their brackets counted as one; each
name is longer than the step that reads it. -/
theorem membersDepth_le_length (ms : List (Option String × Json)) (h : membersArePlain ms) :
    membersDepth ms ≤ (compactMembers ms).length + 1 := by
  match ms with
  | [] => simp [membersDepth]
  | [(name, j)] =>
    simp only [membersArePlain, Bool.and_true, Bool.and_eq_true] at h
    have := depth_le_length j h.2
    simp only [membersDepth, compactMembers, List.length_append, List.length_cons]
    omega
  | (name, j) :: m :: ms =>
    have hm : membersArePlain (m :: ms) := by
      simp only [membersArePlain, Bool.and_eq_true] at h ⊢; exact h.2
    simp only [membersArePlain, Bool.and_eq_true] at h
    have := depth_le_length j h.1.2
    have := membersDepth_le_length (m :: ms) hm
    simp only [membersDepth, compactMembers, List.length_append, List.length_cons] at this ⊢
    omega

end

/-- What was written is read back, and nothing is left over. -/
theorem parse_compact {j : Json} (h : j.isPlain) : parse j.compact = (j, some []) := by
  have hd := depth_le_length j h
  have := value_compactChars j h (n := 2 * j.compact.length + 2) (by simp [compact]; omega)
    endsNumber_nil
  simpa [parse, compact] using this

/-- A decoder finds in the written form of a plain value what it finds in the value. -/
theorem decode_compact {α : Type} (decoder : Decoder α) {j : Json} (h : j.isPlain) :
    decode decoder j.compact = decoder j := by
  rw [decode, parse_compact h]
  simp only [Option.map_some, show skipSpace [] = [] from rfl]
  cases decoder j <;> rfl

end PeerBook.Json
