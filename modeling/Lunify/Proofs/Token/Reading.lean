import Mathlib.Data.List.TakeWhile
import Lunify.Token.Lexer

/-!
# Reading lines

What the lexer does to a source as relations that can be taken apart: `Lexer.Reads` for a part of a line,
`Lexer.ReadsLine` for a line and `Lexer.ReadsLines` for lines that follow each other. A part of a line is
read up to a rest that may still decide where its last lexeme ends, so that a line which is read only in
part is covered as well (`Lexer.exists_reads`).
-/

namespace Lunify

open List

namespace Lexeme

lemma length_word_le (s : Text) : word s ≤ s.length := by
  cases s with
  | nil => exact Nat.le_refl 0
  | cons b r =>
    have hle := (List.takeWhile_prefix isWordByte (l := r)).length_le
    simp only [word, length_cons]
    split <;> omega

lemma digits_le (s : Text) : digits s ≤ s.length :=
  (List.takeWhile_prefix _).length_le

lemma operator_le (s : Text) : operator s ≤ s.length := by
  have hword := length_word_le s
  unfold operator
  split
  · rename_i op hop
    have hfound : op.isPrefixOf s = true := find?_some (p := (List.isPrefixOf · s)) hop
    exact (List.isPrefixOf_iff_prefix.1 hfound).length_le
  · split <;> omega

lemma mantissa_le (s : Text) : mantissa s ≤ s.length := by
  have hrest := length_drop (i := digits s) (l := s)
  fun_cases mantissa s <;> grind [digits_le]

lemma number_le (s : Text) : number s ≤ s.length := by
  have hmantissa := mantissa_le s
  have hexponent : ∀ r : Text, exponent r ≤ r.length := by
    intro r
    fun_cases exponent r <;> grind [digits_le]
  have hrest := hexponent (s.drop (mantissa s))
  rw [length_drop] at hrest
  unfold number
  split <;> omega

lemma string_le (s : Text) : string s ≤ s.length := by
  cases s with
  | nil => exact Nat.le_refl 0
  | cons b r =>
    have hsplit := congrArg length (takeWhile_append_dropWhile (p := fun c => c != b && c != byte '\n') (l := r))
    rw [length_append] at hsplit
    unfold string
    grind

/-- The lexeme at the start of a text is that of the first matcher that matches. -/
lemma cases_first? {s : Text} {kind : Kind} {n : Nat} (h : first? s = some (kind, n)) : 0 < n ∧
    (kind = .keyword ∧ n = keyword s ∨ kind = .operator ∧ n = operator s ∨
      kind = .identifier ∧ n = word s ∧ keyword s = 0 ∧ operator s = 0 ∨ kind = .number ∧ n = number s ∨
      kind = .divider ∧ n = divider s ∨ kind = .string ∧ n = string s) := by
  refine ⟨length_pos_of_first? h, ?_⟩
  simp only [first?, matchers, findSome?_cons, findSome?_nil] at h
  split_ifs at h <;> simp_all

/-- A lexeme is a part of the text. -/
lemma length_le_of_first? {s : Text} {kind : Kind} {n : Nat} (h : first? s = some (kind, n)) :
    n ≤ s.length := by
  have hword := length_word_le s
  have hkeyword : keyword s ≤ s.length := by
    unfold keyword
    split <;> omega
  have hdivider : divider s ≤ s.length := by
    cases s with
    | nil => exact Nat.le_refl 0
    | cons b r =>
      simp only [divider, length_cons]
      split <;> omega
  obtain ⟨-, ⟨-, rfl⟩ | ⟨-, rfl⟩ | ⟨-, rfl, -⟩ | ⟨-, rfl⟩ | ⟨-, rfl⟩ | ⟨-, rfl⟩⟩ := cases_first? h
  exacts [hkeyword, operator_le s, hword, number_le s, hdivider, string_le s]

end Lexeme

namespace Lexer

/-! ### Parts of a line -/

/-- The tokens of a part of a line that begins at a column, where some rest of the line comes after it. -/
inductive Reads (number : Nat) (rest : Text) : Nat → Text → List Token → Prop
  | nil (column : Nat) : Reads number rest column [] []
  | space {column : Nat} {b : UInt8} {s : Text} {tokens : List Token} (hb : isSpace b = true)
      (h : Reads number rest (column + 1) s tokens) : Reads number rest column (b :: s) tokens
  | lexeme {column : Nat} {kind : Kind} {w s : Text} {tokens : List Token}
      (hw : ∀ b ∈ w.head?, isSpace b = false)
      (hfirst : Lexeme.first? (w ++ (s ++ rest)) = some (kind, w.length))
      (h : Reads number rest (column + w.length) s tokens) :
      Reads number rest column (w ++ s) (⟨kind, w, ⟨number, column⟩⟩ :: tokens)

variable {number depth column : Nat} {line s rest : Text} {tokens : List Token}

lemma lexemes_space {b : UInt8} (hb : isSpace b = true) (line s : Text) :
    lexemes number line column (b :: s) = lexemes number line (column + 1) s := by
  rw [lexemes, if_pos hb]

/-- Where no lexeme begins, the lexer stops. -/
lemma lexemes_stuck {b : UInt8} (hb : isSpace b = false) (hfirst : Lexeme.first? (b :: s) = none) :
    lexemes number line column (b :: s) = .error (.unexpected number column (shown line)) := by
  rw [lexemes, if_neg (by simp [hb])]
  split
  · rfl
  · rename_i hsome
    simp [hfirst] at hsome

lemma lexemes_lexeme {kind : Kind} {w : Text} (hw : ∀ b ∈ w.head?, isSpace b = false)
    (hfirst : Lexeme.first? (w ++ s) = some (kind, w.length)) :
    lexemes number line column (w ++ s) = do
      let tokens ← lexemes number line (column + w.length) s
      return ⟨kind, w, ⟨number, column⟩⟩ :: tokens := by
  have hpos := Lexeme.length_pos_of_first? hfirst
  obtain ⟨b, w, rfl⟩ := exists_cons_of_ne_nil (length_pos_iff.1 hpos)
  rw [cons_append] at hfirst
  rw [cons_append, lexemes, if_neg (by simp [hw b rfl])]
  split
  · rename_i hnone
    simp [hfirst] at hnone
  · rename_i kind' n hsome
    obtain ⟨rfl, rfl⟩ := Prod.mk.inj (Option.some.inj (hfirst.symm.trans hsome))
    rw [← cons_append, drop_left, take_left]

/-- After a part of a line, the lexer goes on with the rest. -/
lemma lexemes_append (line : Text) (h : Reads number rest column s tokens) :
    lexemes number line column (s ++ rest) =
      (lexemes number line (column + s.length) rest).map (tokens ++ ·) := by
  induction h with
  | nil column =>
    simp only [nil_append, length_nil, Nat.add_zero]
    cases lexemes number line column rest <;> rfl
  | @space column b s tokens hb h ih =>
    rw [cons_append, lexemes_space hb, ih, length_cons, Nat.add_right_comm, Nat.add_assoc]
  | @lexeme column kind w s tokens hw hfirst h ih =>
    rw [append_assoc, lexemes_lexeme hw hfirst, ih, length_append, Nat.add_assoc]
    cases lexemes number line (column + (w.length + s.length)) rest <;> rfl

/-- A line is read up to its end or up to a byte with which no lexeme begins. -/
lemma exists_reads (number column : Nat) (s : Text) :
    ∃ before rest tokens, s = before ++ rest ∧ Reads number rest column before tokens ∧
      (rest = [] ∨ ∃ b r, rest = b :: r ∧ isSpace b = false ∧ Lexeme.first? (b :: r) = none) := by
  fun_induction lexemes number [] column s with
  | case1 column => exact ⟨[], [], [], rfl, .nil column, .inl rfl⟩
  | case2 column b r hb ih =>
    obtain ⟨before, rest, tokens, rfl, hreads, hrest⟩ := ih
    exact ⟨b :: before, rest, tokens, rfl, .space hb hreads, hrest⟩
  | case3 column b r hb hnone =>
    exact ⟨[], b :: r, [], rfl, .nil column, .inr ⟨b, r, rfl, by simpa using hb, hnone⟩⟩
  | case4 column b r hb kind n hfirst ih =>
    obtain ⟨before, rest, tokens, hsplit, hreads, hrest⟩ := ih
    have hlength : ((b :: r).take n).length = n :=
      length_take_of_le (Lexeme.length_le_of_first? hfirst)
    have hall : b :: r = (b :: r).take n ++ (before ++ rest) := by
      rw [← hsplit, take_append_drop]
    have hw : ∀ c ∈ ((b :: r).take n).head?, isSpace c = false := by
      cases n with
      | zero => exact absurd (Lexeme.length_pos_of_first? hfirst) (Nat.lt_irrefl 0)
      | succ n => simpa using hb
    rw [← hlength] at hreads
    exact ⟨_, rest, _, by rw [append_assoc, ← hall],
      .lexeme hw (by rw [← hall, hlength]; exact hfirst) hreads, hrest⟩

/-- The tokens that the lexer gives are those that are read. -/
lemma lexemes_eq_ok_iff : lexemes number line column s = .ok tokens ↔ Reads number [] column s tokens := by
  constructor
  · intro h
    obtain ⟨before, rest, read, rfl, hreads, rfl | ⟨b, r, rfl, hb, hnone⟩⟩ := exists_reads number column s
    · rw [lexemes_append line hreads, lexemes] at h
      obtain rfl := Except.ok.inj h
      simpa using hreads
    · rw [lexemes_append line hreads, lexemes_stuck hb hnone] at h
      cases h
  · intro h
    have hread := lexemes_append line h
    rw [append_nil, lexemes] at hread
    rw [hread]
    simp [Except.map]

/-! ### Lines -/

/-- The tokens of a line at some depth, and the depth after it. -/
inductive ReadsLine (number depth : Nat) : Bool → Text → List Token → Nat → Prop
  | blank {line : Text} (hspace : line.all isSpace = true) : ReadsLine number depth false line [] depth
  | last {line : Text} (hspace : line.all isSpace = true) : ReadsLine number depth true line
      (depthChange depth 0 ⟨number, tabWidth * leadingTabs line⟩) 0
  | text {last : Bool} {line : Text} {read : List Token} (hspace : line.all isSpace = false)
      (hblank : (line.drop (leadingTabs line)).head? ≠ some (byte ' '))
      (h : Reads number [] (tabWidth * leadingTabs line) (line.drop (leadingTabs line)) read) :
      ReadsLine number depth last line
        (depthChange depth (leadingTabs line) ⟨number, tabWidth * leadingTabs line⟩ ++ read)
        (leadingTabs line)

lemma lineTokens_eq_ok_iff {last : Bool} {depth' : Nat} :
    lineTokens number depth last line = .ok (tokens, depth') ↔
      ReadsLine number depth last line tokens depth' := by
  constructor
  · intro h
    simp only [lineTokens] at h
    split_ifs at h with hspace hlast hblank
    · obtain ⟨rfl, rfl⟩ := Prod.mk.inj (Except.ok.inj h)
      exact hlast ▸ .last hspace
    · obtain ⟨rfl, rfl⟩ := Prod.mk.inj (Except.ok.inj h)
      rw [Bool.not_eq_true] at hlast
      exact hlast ▸ .blank hspace
    · cases hread : lexemes number line (tabWidth * leadingTabs line) (line.drop (leadingTabs line)) with
      | error e => simp [hread, bind, Except.bind] at h
      | ok read =>
        rw [hread] at h
        obtain ⟨rfl, rfl⟩ := Prod.mk.inj (Except.ok.inj h)
        exact .text (by simpa using hspace) hblank (lexemes_eq_ok_iff.1 hread)
  · intro h
    cases h with
    | blank hspace => simp [lineTokens, hspace]
    | last hspace => simp [lineTokens, hspace]
    | text hspace hblank h =>
      simp only [lineTokens, hspace, Bool.false_eq_true, if_false, hblank, lexemes_eq_ok_iff.2 h]
      rfl

/-- The tokens of lines, the first of which has a number and begins at a depth. -/
inductive ReadsLines : Nat → Nat → List Text → List Token → Prop
  | nil (number depth : Nat) : ReadsLines number depth [] []
  | last {number depth depth' : Nat} {line : Text} {tokens : List Token}
      (h : ReadsLine number depth true line tokens depth') : ReadsLines number depth [line] tokens
  | cons {number depth depth' : Nat} {line next : Text} {lines : List Text} {here later : List Token}
      (h : ReadsLine number depth false line here depth')
      (hlater : ReadsLines (number + 1) depth' (next :: lines) later) :
      ReadsLines number depth (line :: next :: lines)
        (here ++ newline number (newlineColumn line) :: later)

lemma linesTokens_eq_ok_iff {lines : List Text} :
    linesTokens number depth lines = .ok tokens ↔ ReadsLines number depth lines tokens := by
  constructor
  · intro h
    fun_induction linesTokens number depth lines generalizing tokens with
    | case1 number depth =>
      obtain rfl := Except.ok.inj h
      exact .nil number depth
    | case2 number depth line =>
      cases hline : lineTokens number depth true line with
      | error e => simp [hline, bind, Except.bind] at h
      | ok found =>
        rw [hline] at h
        obtain rfl := Except.ok.inj h
        exact .last (lineTokens_eq_ok_iff.1 hline)
    | case3 number depth line next rest ih =>
      cases hline : lineTokens number depth false line with
      | error e => simp [hline, bind, Except.bind] at h
      | ok found =>
        cases hlater : linesTokens (number + 1) found.2 (next :: rest) with
        | error e => simp [hline, hlater, bind, Except.bind] at h
        | ok later =>
          simp only [hline, hlater, bind, Except.bind] at h
          obtain rfl := Except.ok.inj h
          exact .cons (lineTokens_eq_ok_iff.1 hline) (ih found.2 hlater)
  · intro h
    induction h with
    | nil number depth => rfl
    | last h =>
      rw [linesTokens, lineTokens_eq_ok_iff.2 h]
      rfl
    | cons h _ ih =>
      rw [linesTokens, lineTokens_eq_ok_iff.2 h]
      simp only [bind, Except.bind, ih]
      rfl

lemma lex_eq_ok_iff {source : Text} :
    lex source = .ok tokens ↔ ReadsLines 0 0 (Text.lines source) tokens :=
  linesTokens_eq_ok_iff

end Lexer

end Lunify
