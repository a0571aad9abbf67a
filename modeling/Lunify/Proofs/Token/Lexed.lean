import Lunify.Proofs.Token.Reading

/-!
# What tokens are made of

The content of a token that the lexer gives fits its kind: keywords are reserved words, operators and
dividers are those of the tables, identifiers are words that are neither, a number is a numeral, and a
string has its quotes around bytes that are no such quote and no line feed (`Token.Lexed`,
`lexed_of_mem_lex`).
-/

namespace Lunify

open List

variable {s : Text} {tokens : List Token}

/-- A letter followed by letters and digits. -/
def Text.IsName (s : Text) : Prop :=
  ∃ b r, s = b :: r ∧ Lexeme.isLetter b = true ∧ ∀ c ∈ r, Lexeme.isWordByte c = true

/-- Digits, with a point before, between or after them or without one. -/
inductive Text.IsMantissa : Text → Prop
  | whole {s : Text} (hne : s ≠ []) (hs : ∀ b ∈ s, Text.isDigit b = true) : IsMantissa s
  | point {s r : Text} (hne : s ≠ [] ∨ r ≠ []) (hs : ∀ b ∈ s, Text.isDigit b = true)
      (hr : ∀ b ∈ r, Text.isDigit b = true) : IsMantissa (s ++ byte '.' :: r)

/-- A mark with a sign or without one and digits, or nothing. -/
inductive Text.IsExponent : Text → Prop
  | none : IsExponent []
  | some {e : UInt8} {sign s : Text} (he : e = byte 'e' ∨ e = byte 'E')
      (hsign : sign ∈ [[], [byte '+'], [byte '-']]) (hne : s ≠ [])
      (hs : ∀ b ∈ s, Text.isDigit b = true) : IsExponent (e :: (sign ++ s))

/-- A mantissa with an exponent or without one. -/
def Text.IsNumeral (s : Text) : Prop :=
  ∃ m e, s = m ++ e ∧ m.IsMantissa ∧ e.IsExponent

/-- A numeral begins with a digit, or with a point and a digit. -/
lemma Text.IsNumeral.exists_cons {w : Text} (hw : w.IsNumeral) : ∃ b r, w = b :: r ∧
    (Text.isDigit b = true ∨ b = byte '.' ∧ ∃ c ∈ r.head?, Text.isDigit c = true) := by
  obtain ⟨man, e, rfl, hman, -⟩ := hw
  cases hman with
  | whole hne hs =>
    obtain ⟨b, s, rfl⟩ := exists_cons_of_ne_nil hne
    exact ⟨b, s ++ e, rfl, .inl (hs b mem_cons_self)⟩
  | @point s r hne hs hr =>
    cases s with
    | cons b s => exact ⟨b, _, rfl, .inl (hs b mem_cons_self)⟩
    | nil =>
      obtain ⟨c, r, rfl⟩ := exists_cons_of_ne_nil (hne.resolve_left (fun h => h rfl))
      exact ⟨byte '.', c :: r ++ e, rfl, .inr ⟨rfl, c, rfl, hr c mem_cons_self⟩⟩

/-- Bytes between two equal quotes. -/
def Text.IsQuotation (s : Text) : Prop :=
  ∃ q r, s = q :: (r ++ [q]) ∧ (q = Lexeme.doubleQuote ∨ q = Lexeme.singleQuote) ∧
    ∀ c ∈ r, c ≠ q ∧ c ≠ byte '\n'

/-- The contents of the dividers. -/
def dividerTexts : List Text :=
  [newlineText, indentText, dedentText] ++ Lexeme.dividerBytes.map ([·])

/-- The contents of the operators. -/
def operatorTexts : List Text :=
  Lexeme.symbolOperators ++ Lexeme.wordOperators

/-- Whether the content of a token fits its kind. -/
def Token.Lexed (t : Token) : Prop :=
  match t.kind with
  | .keyword => t.content ∈ reservedWords
  | .operator => t.content ∈ operatorTexts
  | .identifier => t.content.IsName ∧ t.content ∉ reservedWords ∧ t.content ∉ operatorTexts
  | .number => t.content.IsNumeral
  | .divider => t.content ∈ dividerTexts
  | .string => t.content.IsQuotation
  | .other _ => False

namespace Lexeme

lemma isLetter_of_isDigit {b : UInt8} (h : Text.isDigit b = true) :
    isLetter b = false := by
  simp only [Text.isDigit, isLetter, byte] at h ⊢
  grind

/-- A word is a name. -/
lemma isName_of_word (h : 0 < word s) : Text.IsName (s.take (word s)) := by
  cases s with
  | nil => simp [word] at h
  | cons b r =>
    by_cases hb : isLetter b = true
    · refine ⟨b, r.takeWhile isWordByte, ?_, hb, fun c hc => mem_takeWhile_imp hc⟩
      simp only [word, hb, if_true]
      rw [Nat.add_comm, take_succ_cons,
        ← prefix_iff_eq_take.1 (List.takeWhile_prefix isWordByte)]
    · simp [word, hb] at h

lemma take_digits (s : Text) : s.take (digits s) = s.takeWhile Text.isDigit :=
  (prefix_iff_eq_take.1 (List.takeWhile_prefix Text.isDigit)).symm

lemma take_digits_add (s : Text) (n : Nat) :
    s.take (digits s + n) = s.takeWhile Text.isDigit ++ (s.drop (digits s)).take n := by
  rw [take_add, take_digits]

lemma isDigit_of_mem_takeWhile : ∀ b ∈ s.takeWhile Text.isDigit, Text.isDigit b = true :=
  fun _ hb => mem_takeWhile_imp hb

lemma takeWhile_ne_nil (h : 0 < digits s) : s.takeWhile Text.isDigit ≠ [] :=
  length_pos_iff.1 h

/-- The length of a mantissa is that of one. -/
lemma isMantissa_of_mantissa (h : 0 < mantissa s) : Text.IsMantissa (s.take (mantissa s)) := by
  unfold mantissa at h ⊢
  by_cases hdigits : 0 < digits s
  · have hne := takeWhile_ne_nil hdigits
    rw [if_pos hdigits]
    have hwhole : Text.IsMantissa (s.take (digits s)) := by
      rw [take_digits]
      exact .whole hne isDigit_of_mem_takeWhile
    cases hrest : s.drop (digits s) with
    | nil => exact hwhole
    | cons b r =>
      by_cases hb : b = byte '.'
      · simp only [hb, if_true]
        rw [Nat.add_assoc, take_digits_add, hrest, hb, Nat.add_comm 1, take_succ_cons, take_digits]
        exact .point (.inl hne) isDigit_of_mem_takeWhile isDigit_of_mem_takeWhile
      · simpa only [hb, if_false] using hwhole
  · rw [if_neg hdigits] at h ⊢
    cases s with
    | nil => simp at h
    | cons b r =>
      by_cases hb : b = byte '.' ∧ 0 < digits r
      · simp only [hb, decide_true, Bool.and_self, if_true]
        rw [Nat.add_comm, take_succ_cons, take_digits]
        exact .point (s := []) (.inr (takeWhile_ne_nil hb.2)) (by simp) isDigit_of_mem_takeWhile
      · simp [hb] at h

/-- The length of an exponent is that of one. -/
lemma isExponent_take (s : Text) : Text.IsExponent (s.take (exponent s)) := by
  fun_cases exponent s with
  | case1 => exact .none
  | case2 b hb => exact .none
  | case3 b hb c r hc hdigits =>
    simp only [Bool.or_eq_true, decide_eq_true_eq] at hb hc
    rw [show 2 + digits r = digits r + 1 + 1 by omega, take_succ_cons, take_succ_cons,
      take_digits]
    have hsigned : Text.IsExponent (b :: ([c] ++ r.takeWhile Text.isDigit)) :=
      .some hb (by rcases hc with rfl | rfl <;> simp) (takeWhile_ne_nil hdigits) isDigit_of_mem_takeWhile
    exact hsigned
  | case4 => exact .none
  | case5 b hb c r hc hdigits =>
    simp only [Bool.or_eq_true, decide_eq_true_eq] at hb
    rw [if_pos hdigits, Nat.add_comm, take_succ_cons, take_digits]
    have hplain : Text.IsExponent (b :: ([] ++ (c :: r).takeWhile Text.isDigit)) :=
      .some hb (by simp) (takeWhile_ne_nil hdigits) isDigit_of_mem_takeWhile
    exact hplain
  | case6 b hb c r hc hdigits =>
    rw [if_neg hdigits]
    exact .none
  | case7 => exact .none

lemma isNumeral_of_number (h : 0 < number s) : Text.IsNumeral (s.take (number s)) := by
  unfold number at h ⊢
  by_cases hmantissa : mantissa s = 0
  · simp [hmantissa] at h
  · rw [if_neg hmantissa, take_add]
    exact ⟨_, _, rfl, isMantissa_of_mantissa (Nat.pos_of_ne_zero hmantissa), isExponent_take _⟩

/-- A string is a quotation. -/
lemma isQuotation_of_string (h : 0 < string s) : Text.IsQuotation (s.take (string s)) := by
  cases s with
  | nil => simp [string] at h
  | cons q r =>
    by_cases hq : q = doubleQuote ∨ q = singleQuote
    · set p : UInt8 → Bool := fun b => b != q && b != byte '\n' with hp
      have hsplit := takeWhile_append_dropWhile (p := p) (l := r)
      cases hdrop : r.dropWhile p with
      | nil => simp [string, hq, ← hp, hdrop] at h
      | cons b rest =>
        by_cases hb : b = q
        · subst hb
          have hlength : string (b :: r) = 2 + (r.takeWhile p).length := by
            simp [string, hq, ← hp, hdrop]
          refine ⟨b, r.takeWhile p, ?_, hq, ?_⟩
          · have htake : (r.takeWhile p ++ b :: rest).take ((r.takeWhile p).length + 1) =
                r.takeWhile p ++ [b] := by
              rw [take_length_add_append, take_succ_cons, take_zero]
            rw [hdrop] at hsplit
            rw [hlength, Nat.add_comm, take_succ_cons, ← htake, hsplit]
          · intro c hc
            simpa [hp] using mem_takeWhile_imp hc
        · simp [string, hq, ← hp, hdrop, hb] at h
    · simp [string, hq] at h

/-- An operator is one of the table. -/
lemma mem_operatorTexts (h : 0 < operator s) : s.take (operator s) ∈ operatorTexts := by
  unfold operator at h ⊢
  split
  · rename_i op hop
    have hfound : op.isPrefixOf s = true := find?_some (p := (List.isPrefixOf · s)) hop
    have hbegins : op <+: s := List.isPrefixOf_iff_prefix.1 hfound
    rw [← prefix_iff_eq_take.1 hbegins]
    exact mem_append_left _ (mem_of_find?_eq_some hop)
  · rename_i hnone
    rw [hnone] at h
    by_cases hword : wordOperators.contains (s.take (word s)) = true
    · simp only [hword, if_true]
      exact mem_append_right _ (contains_iff_mem.1 hword)
    · simp only [hword] at h
      exact absurd h (Nat.lt_irrefl 0)

lemma mem_dividerTexts (h : 0 < divider s) : s.take (divider s) ∈ dividerTexts := by
  cases s with
  | nil => simp [divider] at h
  | cons b r =>
    by_cases hb : b ∈ dividerBytes
    · have hlength : divider (b :: r) = 1 := by simp [divider, hb]
      rw [hlength]
      exact mem_append_right _ (mem_map.2 ⟨b, hb, rfl⟩)
    · simp [divider, hb] at h

/-- A word that is neither reserved nor an operator is an identifier. -/
lemma lexed_identifier (hkeyword : keyword s = 0) (hoperator : operator s = 0) (hword : 0 < word s)
    (pos : Position) : Token.Lexed ⟨.identifier, s.take (word s), pos⟩ := by
  have hname := isName_of_word hword
  refine ⟨hname, ?_, ?_⟩
  · intro hmem
    have hreserved : isReserved (s.take (word s)) = true := contains_iff_mem.2 hmem
    rw [keyword, if_pos hreserved] at hkeyword
    omega
  · intro hmem
    rcases mem_append.1 hmem with hsymbol | hword'
    · have hsymbols : ∀ op ∈ symbolOperators, ∀ b ∈ op.head?, isLetter b = false := by decide +kernel
      obtain ⟨b, r, heq, hb, -⟩ := hname
      exact absurd ((hsymbols _ hsymbol b (by rw [heq]; rfl)).symm.trans hb) Bool.false_ne_true
    · unfold operator at hoperator
      split at hoperator
      · rename_i op hop
        have hne : ∀ op ∈ symbolOperators, op.length ≠ 0 := by decide
        exact hne op (mem_of_find?_eq_some hop) hoperator
      · rw [if_pos (contains_iff_mem.2 hword')] at hoperator
        omega

/-- The first lexeme of a text fits its kind. -/
lemma lexed_of_first? {kind : Kind} {n : Nat} (h : first? s = some (kind, n)) (pos : Position) :
    Token.Lexed ⟨kind, s.take n, pos⟩ := by
  obtain ⟨hn, ⟨rfl, rfl⟩ | ⟨rfl, rfl⟩ | ⟨rfl, rfl, hkeyword, hoperator⟩ | ⟨rfl, rfl⟩ | ⟨rfl, rfl⟩ | ⟨rfl, rfl⟩⟩ :=
    cases_first? h
  · unfold keyword at hn ⊢
    split at hn
    · rename_i hreserved
      rw [if_pos hreserved]
      exact contains_iff_mem.1 hreserved
    · exact absurd hn (Nat.lt_irrefl 0)
  · exact mem_operatorTexts hn
  · exact lexed_identifier hkeyword hoperator hn pos
  · exact isNumeral_of_number hn
  · exact mem_dividerTexts hn
  · exact isQuotation_of_string hn

end Lexeme

namespace Lexer

variable {number depth : Nat}

lemma Reads.lexed {rest : Text} {column : Nat} (h : Reads number rest column s tokens) : ∀ t ∈ tokens, t.Lexed := by
  induction h with
  | nil => simp
  | space _ _ ih => exact ih
  | @lexeme column kind w s tokens _ hfirst _ ih =>
    have hlexed := Lexeme.lexed_of_first? hfirst ⟨number, column⟩
    rw [take_left] at hlexed
    exact forall_mem_cons.2 ⟨hlexed, ih⟩

lemma lexed_of_mem_depthChange {old new : Nat} {pos : Position} :
    ∀ t ∈ depthChange old new pos, t.Lexed := by
  intro t ht
  unfold depthChange at ht
  split at ht
  · obtain rfl := eq_of_mem_replicate ht
    exact mem_append_left _ (by simp)
  · obtain rfl := eq_of_mem_replicate ht
    exact mem_append_left _ (by simp)

lemma ReadsLine.lexed {last : Bool} {line : Text} {depth' : Nat}
    (h : ReadsLine number depth last line tokens depth') : ∀ t ∈ tokens, t.Lexed := by
  cases h with
  | blank => simp
  | last => exact lexed_of_mem_depthChange
  | text _ _ h => exact forall_mem_append.2 ⟨lexed_of_mem_depthChange, h.lexed⟩

lemma ReadsLines.lexed {lines : List Text} (h : ReadsLines number depth lines tokens) : ∀ t ∈ tokens, t.Lexed := by
  induction h with
  | nil => simp
  | last h => exact h.lexed
  | cons h _ ih =>
    refine forall_mem_append.2 ⟨h.lexed, forall_mem_cons.2 ⟨?_, ih⟩⟩
    exact mem_append_left _ mem_cons_self

end Lexer

/-- The tokens of a source fit their kinds. -/
theorem lexed_of_mem_lex {source : Text} (h : lex source = .ok tokens) : ∀ t ∈ tokens, t.Lexed :=
  (Lexer.lex_eq_ok_iff.1 h).lexed

end Lunify
