import Lunify.Proofs.Token.Layout

/-!
# Lexemes in other surroundings

A lexeme is found again, with the same kind and length, where it stands alone (`Lexeme.first?_of_lexed`)
and where white space comes after it (`Lexeme.first?_append_space`).
-/

namespace Lunify

open List

namespace Lexeme

open Lexer (isSpace)

variable {b : UInt8} {s r : Text}

/-! ### Before white space -/

/-- White space is no part of any lexeme but a string. -/
lemma not_of_isSpace (hb : isSpace b = true) : isWordByte b = false ∧ Text.isDigit b = false ∧
    b ∉ dividerBytes ∧ b ∉ [doubleQuote, singleQuote] ∧
    b ∉ [byte '.', byte 'e', byte 'E', byte '+', byte '-'] ∧ ∀ op ∈ symbolOperators, b ∉ op := by
  have hspace : ∀ b ∈ [byte ' ', byte '\t', byte '\r'], isWordByte b = false ∧ Text.isDigit b = false ∧
      b ∉ dividerBytes ∧ b ∉ [doubleQuote, singleQuote] ∧
      b ∉ [byte '.', byte 'e', byte 'E', byte '+', byte '-'] ∧ ∀ op ∈ symbolOperators, b ∉ op := by
    decide +kernel
  exact hspace b (by simpa [isSpace, or_assoc] using hb)

lemma takeWhile_append_cons {p : UInt8 → Bool} (hb : p b = false) (s r : Text) :
    (s ++ b :: r).takeWhile p = s.takeWhile p := by
  induction s with
  | nil => simp [hb]
  | cons c s ih =>
    simp only [cons_append, takeWhile_cons, ih]

lemma word_append (hb : isWordByte b = false) (s r : Text) : word (s ++ b :: r) = word s := by
  cases s with
  | nil =>
    have hletter : isLetter b = false := (Bool.or_eq_false_iff.1 hb).1
    simp [word, hletter]
  | cons c s => simp only [cons_append, word, takeWhile_append_cons hb]

lemma take_word_append (hb : isWordByte b = false) (s r : Text) :
    (s ++ b :: r).take (word (s ++ b :: r)) = s.take (word s) := by
  rw [word_append hb, take_append_of_le_length (length_word_le s)]

lemma digits_append (hb : Text.isDigit b = false) (s r : Text) : digits (s ++ b :: r) = digits s := by
  rw [digits, takeWhile_append_cons hb, digits]

lemma isPrefixOf_append {op : Text} (hb : b ∉ op) (s r : Text) :
    op.isPrefixOf (s ++ b :: r) = op.isPrefixOf s := by
  induction op generalizing s with
  | nil => simp
  | cons c op ih =>
    obtain ⟨hc, hop⟩ := ne_and_not_mem_of_not_mem_cons hb
    cases s with
    | nil => simp [List.isPrefixOf, hc.symm]
    | cons d s => simp [List.isPrefixOf, ih hop]

lemma operator_append (hb : isSpace b = true) (s r : Text) : operator (s ++ b :: r) = operator s := by
  obtain ⟨hword, -, -, -, -, hsymbols⟩ := not_of_isSpace hb
  have hfind : ∀ ops : List Text, (∀ op ∈ ops, b ∉ op) →
      ops.find? (·.isPrefixOf (s ++ b :: r)) = ops.find? (·.isPrefixOf s) := by
    intro ops hops
    induction ops with
    | nil => rfl
    | cons op ops ih =>
      obtain ⟨hop, hops⟩ := forall_mem_cons.1 hops
      rw [find?_cons, find?_cons, isPrefixOf_append hop, ih hops]
  rw [operator, operator, hfind _ hsymbols, take_word_append hword, word_append hword]

lemma mantissa_append (hb : isSpace b = true) (s r : Text) : mantissa (s ++ b :: r) = mantissa s := by
  obtain ⟨-, hdigit, -, -, hmarks, -⟩ := not_of_isSpace hb
  unfold mantissa
  rw [digits_append hdigit, drop_append_of_le_length (digits_le s)]
  cases hrest : s.drop (digits s) <;> cases s <;> simp_all [digits_append]

lemma exponent_append (hb : isSpace b = true) (s r : Text) : exponent (s ++ b :: r) = exponent s := by
  obtain ⟨-, hdigit, -, -, hmarks, -⟩ := not_of_isSpace hb
  have hzero : digits (b :: r) = 0 := by simp [digits, hdigit]
  rcases s with _ | ⟨c, _ | ⟨d, s⟩⟩
  · simp_all [exponent]
  · simp_all [exponent]
  · have hdigits := digits_append hdigit (d :: s) r
    simp_all [exponent, digits_append]

lemma number_append (hb : isSpace b = true) (s r : Text) : number (s ++ b :: r) = number s := by
  have hle : mantissa s ≤ s.length := mantissa_le s
  rw [number, number, mantissa_append hb, drop_append_of_le_length hle, exponent_append hb]

lemma divider_append (hb : b ∉ dividerBytes) (s r : Text) : divider (s ++ b :: r) = divider s := by
  cases s with
  | nil => simp [divider, hb]
  | cons c s => rfl

/-- A string that ends before white space is not changed by it, and none begins where the text ends with
white space. -/
lemma string_append (hb : isSpace b = true) (h : 0 < string s ∨ r = []) :
    string (s ++ b :: r) = string s := by
  obtain ⟨-, -, -, hquote, -⟩ := not_of_isSpace hb
  cases s with
  | nil => simp_all [string]
  | cons q s =>
    by_cases hq : q = doubleQuote ∨ q = singleQuote
    · set p : UInt8 → Bool := fun b => b != q && b != byte '\n' with hp
      cases hdrop : s.dropWhile p with
      | nil =>
        have hzero : string (q :: s) = 0 := by simp [string, hq, ← hp, hdrop]
        obtain rfl : r = [] := h.resolve_left (by simp [hzero])
        have hpb : p b = true := by
          have hfeed : b ≠ byte '\n' := by
            rintro rfl
            exact absurd hb (by decide)
          have hne : b ≠ q := by
            rintro rfl
            simp_all
          simp [hp, hfeed, hne]
        have hdrop' : (s ++ [b]).dropWhile p = [] := by
          rw [dropWhile_append, hdrop]
          simp [hpb]
        rw [hzero]
        simp [string, hq, ← hp, hdrop']
      | cons c y =>
        have hdrop' : (s ++ b :: r).dropWhile p = c :: (y ++ b :: r) := by
          rw [dropWhile_append, hdrop]
          rfl
        have htake : (s ++ b :: r).takeWhile p = s.takeWhile p := by
          rw [takeWhile_append, if_neg]
          intro hall
          have hsplit := takeWhile_append_dropWhile (p := p) (l := s)
          rw [(List.takeWhile_prefix p).eq_of_length hall, hdrop] at hsplit
          simp at hsplit
        simp [string, hq, ← hp, hdrop, hdrop', htake]
    · simp [string, hq]

/-- White space after a text does not change the lexeme at its beginning, and a text without one gets one
only if more text comes after it. -/
lemma first?_append_space (hb : isSpace b = true) (h : (first? s).isSome = true ∨ r = []) :
    first? (s ++ b :: r) = first? s := by
  obtain ⟨hword, -, hdivider, -⟩ := not_of_isSpace hb
  have hkeyword : keyword (s ++ b :: r) = keyword s := by
    rw [keyword, keyword, take_word_append hword, word_append hword]
  simp only [first?, matchers, findSome?_cons, findSome?_nil, hkeyword, operator_append hb,
    word_append hword, number_append hb, divider_append hdivider] at h ⊢
  by_cases hstring : 0 < string s ∨ r = []
  · rw [string_append hb hstring]
  · obtain ⟨hzero, hne⟩ := not_or.1 hstring
    simp only [hzero, if_false, hne, or_false] at h ⊢
    split_ifs at h ⊢ <;> first | rfl | simp at h

/-! ### Alone -/

/-- What does not begin like an operator of symbols has none. -/
lemma find?_eq_none (hb : ∀ op ∈ symbolOperators, op.head? ≠ some b) (r : Text) :
    symbolOperators.find? (·.isPrefixOf (b :: r)) = none := by
  rw [List.find?_eq_none]
  intro op hop hbegins
  have hne : ∀ op ∈ symbolOperators, op ≠ [] := by decide
  obtain ⟨c, op', rfl⟩ := exists_cons_of_ne_nil (hne op hop)
  exact hb _ hop (by simp_all [List.isPrefixOf])

lemma head?_symbolOperators : ∀ op ∈ symbolOperators, ∀ b ∈ op.head?, isWordByte b = false ∧
    b ∉ [byte '.', doubleQuote, singleQuote] := by
  decide +kernel

/-- What begins with a digit, a point or a quote has no word and no operator at its beginning. -/
lemma eq_zero_of_head (hb : Text.isDigit b = true ∨ b ∈ [byte '.', doubleQuote, singleQuote]) (r : Text) :
    keyword (b :: r) = 0 ∧ operator (b :: r) = 0 ∧ word (b :: r) = 0 := by
  have hmarks : ∀ b ∈ [byte '.', doubleQuote, singleQuote], isLetter b = false := by decide +kernel
  have hword : word (b :: r) = 0 := by simp [word, hb.elim isLetter_of_isDigit (hmarks b)]
  have hnone := find?_eq_none (b := b) (fun op hop hhead => by
    have hnot := head?_symbolOperators op hop b hhead
    rcases hb with hb | hb
    · simp [isWordByte, hb] at hnot
    · exact hnot.2 hb) r
  refine ⟨?_, ?_, hword⟩
  · rw [keyword, hword]
    rfl
  · rw [operator, hnone, hword]
    rfl

lemma digits_eq (hs : ∀ b ∈ s, Text.isDigit b = true) (hr : ∀ b ∈ r.head?, Text.isDigit b = false) :
    digits (s ++ r) = s.length := by
  rw [digits, takeWhile_append_of_pos hs]
  cases r with
  | nil => simp
  | cons c r => simp [hr c rfl]

lemma length_le_digits (hs : ∀ b ∈ s, Text.isDigit b = true) (r : Text) : s.length ≤ digits (s ++ r) := by
  rw [digits, takeWhile_append_of_pos hs, length_append]
  exact Nat.le_add_right _ _

lemma length_le_exponent (h : s.IsExponent) (r : Text) : s.length ≤ exponent (s ++ r) := by
  cases h with
  | none => exact Nat.zero_le _
  | @some e sign s he hsign hne hs =>
    have hdigits := length_le_digits hs r
    have hpos : 0 < digits (s ++ r) := lt_of_lt_of_le (length_pos_iff.2 hne) hdigits
    simp only [mem_cons, not_mem_nil, or_false] at hsign
    rcases hsign with rfl | rfl | rfl
    · obtain ⟨d, s, rfl⟩ := exists_cons_of_ne_nil hne
      have hd : d ≠ byte '+' ∧ d ≠ byte '-' := by
        have hsigns : ∀ c ∈ [byte '+', byte '-'], Text.isDigit c = false := by decide +kernel
        have hdigit := hs d mem_cons_self
        constructor <;> rintro rfl <;> simp_all
      rw [cons_append] at hdigits hpos
      simp [exponent, he, hd, hpos] at hdigits ⊢
      omega
    · simp [exponent, he, hpos]
      omega
    · simp [exponent, he, hpos]
      omega

/-- An exponent does not go on with a mantissa. -/
lemma head?_exponent (h : s.IsExponent) : ∀ b ∈ s.head?, Text.isDigit b = false ∧ b ≠ byte '.' := by
  cases h with
  | none => simp
  | some he =>
    rintro _ ⟨⟩
    rcases he with rfl | rfl <;> decide

lemma length_le_mantissa (h : s.IsMantissa) (r : Text) : s.length ≤ mantissa (s ++ r) := by
  cases h with
  | whole hne hs =>
    have hdigits := length_le_digits hs r
    have hpos : 0 < digits (s ++ r) := lt_of_lt_of_le (length_pos_iff.2 hne) hdigits
    rw [mantissa.eq_def, if_pos hpos]
    split <;> [skip; split] <;> omega
  | @point s m hne hs hm =>
    have hdigits := digits_eq (r := byte '.' :: (m ++ r)) hs (by simp; decide)
    have hrest := length_le_digits hm r
    rw [append_assoc, cons_append, mantissa.eq_def, hdigits, drop_left]
    cases s with
    | nil =>
      have hpos : 0 < digits (m ++ r) :=
        lt_of_lt_of_le (length_pos_iff.2 (hne.resolve_left (by simp))) hrest
      simp [hpos]
      omega
    | cons c s =>
      simp
      omega

/-- A mantissa ends before what cannot go on with it. -/
lemma mantissa_eq_length (h : s.IsMantissa) (hr : ∀ b ∈ r.head?, Text.isDigit b = false ∧ b ≠ byte '.') :
    mantissa (s ++ r) = s.length := by
  refine le_antisymm ?_ (length_le_mantissa h r)
  cases h with
  | whole hne hs =>
    rw [mantissa.eq_def, digits_eq hs fun b hb => (hr b hb).1, if_pos (length_pos_iff.2 hne),
      drop_left]
    cases r with
    | nil => exact le_refl _
    | cons c r => simp [(hr c rfl).2]
  | @point s m hne hs hm =>
    have hdigits := digits_eq (r := byte '.' :: (m ++ r)) hs (by simp; decide)
    have hrest := digits_eq hm fun b hb => (hr b hb).1
    rw [append_assoc, cons_append, mantissa.eq_def, hdigits, drop_left]
    cases s with
    | nil =>
      simp [hrest]
      split <;> omega
    | cons c s =>
      simp [hrest]
      omega

/-- A numeral at the beginning of a text is no longer than the number that is found there. -/
lemma length_le_number (h : s.IsNumeral) (r : Text) : s.length ≤ number (s ++ r) := by
  obtain ⟨m, e, rfl, hm, he⟩ := h
  have hpos : 0 < m.length := by
    cases hm with
    | whole hne => exact length_pos_iff.2 hne
    | point => exact length_pos_iff.2 (by simp)
  rw [append_assoc, number, length_append]
  by_cases hnil : e = []
  · subst hnil
    have hle := length_le_mantissa hm ([] ++ r)
    rw [if_neg (by omega), length_nil]
    omega
  · have hhead : ∀ b ∈ (e ++ r).head?, Text.isDigit b = false ∧ b ≠ byte '.' := by
      rw [head?_append_of_ne_nil e hnil]
      exact head?_exponent he
    rw [mantissa_eq_length hm hhead, if_neg (by omega), drop_left]
    exact Nat.add_le_add_left (length_le_exponent he r) _

lemma number_eq_length (h : s.IsNumeral) : number s = s.length :=
  le_antisymm (number_le s) (by simpa using length_le_number h [])

lemma word_eq_length (h : s.IsName) : word s = s.length := by
  obtain ⟨b, r, rfl, hb, hr⟩ := h
  rw [word, if_pos hb, takeWhile_eq_self_iff.2 hr, length_cons, Nat.add_comm]

lemma string_eq_length (h : s.IsQuotation) : string s = s.length := by
  obtain ⟨q, r, rfl, hq, hr⟩ := h
  have hp : ∀ c ∈ r, (c != q && c != byte '\n') = true := by simpa using hr
  simp only [string, hq, Bool.or_eq_true, decide_eq_true_eq, if_true]
  rw [dropWhile_append_of_pos hp, takeWhile_append_of_pos hp]
  simp
  omega

/-- What is read from a text is found again where it stands alone. -/
lemma first?_of_lexed {t : Token} (h : t.Lexed) (hread : t.isSynthetic = false) :
    first? t.content = some (t.kind, t.content.length) := by
  obtain ⟨kind, s, pos⟩ := t
  unfold Token.Lexed at h
  cases kind with
  | keyword =>
    have hall : ∀ s ∈ reservedWords, first? s = some (.keyword, s.length) := by decide +kernel
    exact hall s h
  | operator =>
    have hall : ∀ s ∈ operatorTexts, first? s = some (.operator, s.length) := by decide +kernel
    exact hall s h
  | divider =>
    have hall : ∀ s ∈ dividerTexts, Token.isSynthetic ⟨.divider, s, ⟨0, 0⟩⟩ = true ∨
        first? s = some (.divider, s.length) := by decide +kernel
    exact (hall s h).resolve_left fun hlayout => absurd (hread.symm.trans hlayout) Bool.false_ne_true
  | other n => exact absurd h id
  | identifier =>
    obtain ⟨hname, hkeyword, hoperator⟩ := h
    have hword := word_eq_length hname
    obtain ⟨b, r, rfl, hb, -⟩ := hname
    have hnone := find?_eq_none (b := b) (fun op hop hhead => by
      have hnot := head?_symbolOperators op hop b hhead
      simp [isWordByte, hb] at hnot) r
    simp only [operatorTexts, mem_append, not_or] at hoperator
    have hzero : keyword (b :: r) = 0 ∧ operator (b :: r) = 0 := by
      rw [keyword, operator, hnone, hword, take_length]
      simp [isReserved, hkeyword, hoperator]
    simp [first?, matchers, hzero, hword]
  | number =>
    have hnumber := number_eq_length h
    obtain ⟨b, r, rfl, hb⟩ := h.exists_cons
    have hzero := eq_zero_of_head (hb.imp_right fun hb => by simp [hb.1]) r
    simp [first?, matchers, hzero, hnumber]
  | string =>
    have hstring := string_eq_length h
    obtain ⟨q, r, rfl, hq, -⟩ := h
    have hzero := eq_zero_of_head (.inr (mem_cons_of_mem _ (by simpa using hq))) (r ++ [q])
    have hquote : Text.isDigit q = false ∧ q ≠ byte '.' ∧ q ∉ dividerBytes := by
      rcases hq with rfl | rfl <;> decide
    have hrest : number (q :: (r ++ [q])) = 0 ∧ divider (q :: (r ++ [q])) = 0 := by
      simp [number, mantissa, digits, divider, hquote]
    simp [first?, matchers, hzero, hrest, hstring]

/-- What was read is found again before white space. -/
lemma first?_append_of_lexed {t : Token} (h : t.Lexed) (hread : t.isSynthetic = false) {r : Text}
    (hr : ∀ b ∈ r.head?, isSpace b = true) :
    first? (t.content ++ r) = some (t.kind, t.content.length) := by
  have hfirst := first?_of_lexed h hread
  rw [← hfirst]
  cases r with
  | nil => rw [append_nil]
  | cons b r => exact first?_append_space (hr b rfl) (.inl (by simp [hfirst]))

end Lexeme

end Lunify
