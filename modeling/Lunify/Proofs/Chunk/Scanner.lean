import Lunify.Chunk.Token
import Lunify.Proofs.Token.Lexed

/-!
# Scanning a text made of words

`Chunk.IsWord w l` says that the bytes `w` are one Lua token with the value `l`, and
`Chunk.Lexes s ls` that a text is made of words with these values, with blanks and line feeds between
them. Words may stand close together as long as the last byte of one and the first byte of the next
do not join (`Chunk.joins`). Such a text is scanned to its words and nothing else
(`Chunk.map_lexeme_tokens`), and two such texts can be put together where they do not join
(`Chunk.Lexes.append`).
-/

namespace Lunify

open List

namespace Chunk

variable {l : Lexeme} {s t w : Text} {b : UInt8} {ls : List Lexeme} {es ks ms ns r : List Mark} {m : Mark}

/-- The value of an operator, a punctuation mark or a reserved word. -/
def mark (s : String) : Lexeme :=
  .mark (utf8 s)

/-- Values in parentheses. -/
def inParens (ls : List Lexeme) : List Lexeme :=
  mark "(" :: (ls ++ [mark ")"])

/-! ### Words -/

/-- The value of a word that begins with a letter. -/
def wordLexeme (w : Text) : Lexeme :=
  if reservedWords.contains w then .mark w else .name w

/-- A run of digits as it is scanned: a zero before another digit is skipped. -/
def scannedDigits : Text → Text
  | b :: c :: r => if b = byte '0' then c :: r else b :: c :: r
  | s => s

/-- A numeral as it is scanned: a zero before a digit is skipped. -/
def scannedNumber : Text → Text
  | b :: c :: r => if b = byte '0' && Text.isDigit c then c :: r else b :: c :: r
  | s => s

/-- The bytes that are one token. -/
inductive IsWord : Text → Lexeme → Prop
  | word {b : UInt8} {r : Text} (hb : Lunify.Lexeme.isLetter b = true)
      (hr : ∀ c ∈ r, Lunify.Lexeme.isWordByte c = true) : IsWord (b :: r) (wordLexeme (b :: r))
  | number {w : Text} (hw : w.IsNumeral) : IsWord w (.number (scannedNumber w))
  | string {q : UInt8} {s : Text}
      (hq : q = Lunify.Lexeme.doubleQuote ∨ q = Lunify.Lexeme.singleQuote)
      (hs : ∀ c ∈ s, c ≠ q ∧ c ≠ byte '\n' ∧ c ≠ byte '\r' ∧ c ≠ byte '\\') :
      IsWord (q :: (s ++ [q])) (.string s)
  | single {b : UInt8} (hb : b ∈ singleMarks) : IsWord [b] (.mark [b])
  | double {a b : UInt8} (hab : [a, b] ∈ doubleMarks) : IsWord [a, b] (.mark [a, b])

/-- The value of bytes that are one token without quotes and digits at its start. -/
def wordOf? (w : Text) : Option Lexeme :=
  match w with
  | [] => none
  | b :: r =>
    if Lunify.Lexeme.isLetter b && r.all Lunify.Lexeme.isWordByte then some (wordLexeme w)
    else if (r.isEmpty && singleMarks.contains b) || doubleMarks.contains w then some (.mark w)
    else none

/-- Bytes with a value are one token. -/
lemma isWord_of_wordOf? (h : wordOf? w = some l) : IsWord w l := by
  cases w with
  | nil => simp [wordOf?] at h
  | cons b r =>
    simp only [wordOf?] at h
    split at h
    · rename_i hword
      simp only [Bool.and_eq_true, all_eq_true] at hword
      rw [← Option.some.inj h]
      exact .word hword.1 hword.2
    · split at h
      · rename_i hmark
        rw [← Option.some.inj h]
        simp only [Bool.or_eq_true, Bool.and_eq_true, List.isEmpty_iff,
          contains_iff_mem] at hmark
        rcases hmark with ⟨rfl, hb⟩ | hdouble
        · exact .single hb
        · have hlength : ∀ w ∈ doubleMarks, w.length = 2 := by decide
          obtain ⟨c, rfl⟩ : ∃ c, r = [c] :=
            length_eq_one_iff.1 (by simpa using hlength _ hdouble)
          exact .double hdouble
      · simp at h

/-- Whether a byte that follows another one directly may belong to the same token. -/
def joins (x b : UInt8) : Bool :=
  (Lunify.Lexeme.isWordByte x && Lunify.Lexeme.isWordByte b) ||
    ((Text.isDigit x || x = byte '.') &&
      (Text.isDigit b || b = byte '.' || b = byte 'e' || b = byte 'E')) ||
    (x = byte '-' && b = byte '-') || (x = byte '[' && (b = byte '[' || b = byte '=')) ||
    ((x = byte '=' || x = byte '<' || x = byte '>') && b = byte '=') ||
    (x = byte ':' && b = byte ':')

/-- Whether a byte may go on with a token that another byte begins. -/
def continues (b : UInt8) : Bool :=
  Lunify.Lexeme.isWordByte b || b = byte '.' || b = byte '-' || b = byte '[' || b = byte '=' ||
    b = byte ':'

/-- What is no part of a word is none of the letters that mean something in a number. -/
lemma ne_of_not_isWordByte (h : Lunify.Lexeme.isWordByte b = false) :
    Text.isDigit b = false ∧ b ≠ byte 'e' ∧ b ≠ byte 'E' ∧ b ≠ byte 'x' ∧ b ≠ byte 'X' := by
  have hne : ∀ c, Lunify.Lexeme.isWordByte c = true → b ≠ c := by
    rintro c hc rfl
    exact absurd (h.symm.trans hc) Bool.false_ne_true
  rw [Lunify.Lexeme.isWordByte, Bool.or_eq_false_iff] at h
  exact ⟨h.2, hne _ (by decide), hne _ (by decide), hne _ (by decide), hne _ (by decide)⟩

/-- A byte that cannot go on with a token joins nothing before it. -/
lemma joins_eq_false_of_continues (hb : continues b = false) (x : UInt8) : joins x b = false := by
  simp only [continues, Bool.or_eq_false_iff, decide_eq_false_iff_not] at hb
  obtain ⟨⟨⟨⟨⟨hword, hpoint⟩, hminus⟩, hbracket⟩, hequals⟩, hcolon⟩ := hb
  obtain ⟨hdigit, hsmall, hlarge, -, -⟩ := ne_of_not_isWordByte hword
  simp [joins, hword, hdigit, hsmall, hlarge, hpoint, hminus, hbracket, hequals, hcolon]

/-- Whether no token goes from one text into the next. -/
def Apart (s t : Text) : Prop :=
  ∀ x ∈ s.getLast?, ∀ b ∈ t.head?, joins x b = false

/-- The white space of generated text. -/
def IsBlank (b : UInt8) : Prop :=
  b = byte ' ' ∨ b = byte '\n'

/-- A text made of words with the given values. -/
inductive Lexes : Text → List Lexeme → Prop
  | nil : Lexes [] []
  | blank {b : UInt8} {s : Text} {ls : List Lexeme} (hb : IsBlank b) (hs : Lexes s ls) :
      Lexes (b :: s) ls
  | word {w s : Text} {l : Lexeme} {ls : List Lexeme} (hw : IsWord w l) (hapart : Apart w s)
      (hs : Lexes s ls) : Lexes (w ++ s) (l :: ls)

/-- The bytes of a numeral. -/
lemma mem_of_isNumeral (hw : w.IsNumeral) : ∀ b ∈ w, Text.isDigit b = true ∨ b ∈ utf8 ".eE+-" := by
  obtain ⟨man, e, rfl, hman, he⟩ := hw
  intro b hb
  rcases mem_append.1 hb with hb | hb
  · cases hman with
    | whole _ hs => exact .inl (hs b hb)
    | point _ hs hr =>
      rcases mem_append.1 hb with hb | hb
      · exact .inl (hs b hb)
      · rcases mem_cons.1 hb with rfl | hb
        · exact .inr (by decide)
        · exact .inl (hr b hb)
  · cases he with
    | none => cases hb
    | some he hsign _ hs =>
      have hmarks : ∀ sign ∈ [[], [byte '+'], [byte '-']], ∀ b ∈ sign, b ∈ utf8 ".eE+-" := by decide +kernel
      rcases mem_cons.1 hb with rfl | hb
      · rcases he with rfl | rfl <;> exact .inr (by decide)
      · exact (mem_append.1 hb).elim (fun hb => .inr (hmarks _ hsign b hb)) fun hb => .inl (hs b hb)

/-- A numeral ends with a digit or a point. -/
lemma getLast?_of_isNumeral (hw : w.IsNumeral) :
    ∃ x, w.getLast? = some x ∧ (Text.isDigit x = true ∨ x = byte '.') := by
  have hdigits : ∀ {s : Text}, s ≠ [] → (∀ b ∈ s, Text.isDigit b = true) → ∀ before : Text,
      ∃ x, (before ++ s).getLast? = some x ∧ (Text.isDigit x = true ∨ x = byte '.') := by
    intro s hne hs before
    refine ⟨s.getLast hne, ?_, .inl (hs _ (getLast_mem hne))⟩
    rw [getLast?_append, getLast?_eq_some_getLast hne]
    rfl
  obtain ⟨man, e, rfl, hman, he⟩ := hw
  cases he with
  | @some e sign s he _ hne hs =>
    simpa using hdigits hne hs (man ++ e :: sign)
  | none =>
    rw [append_nil]
    cases hman with
    | whole hne hs => exact hdigits hne hs []
    | @point s r _ _ hr =>
      cases r with
      | nil => exact ⟨byte '.', by simp, .inr rfl⟩
      | cons b r => simpa using hdigits (cons_ne_nil b r) hr (s ++ [byte '.'])

lemma IsWord.ne_nil (h : IsWord w l) : w ≠ [] := by
  cases h with
  | number hw =>
    obtain ⟨b, r, rfl, -⟩ := hw.exists_cons
    simp
  | _ => simp

lemma Apart.nil_right (s : Text) : Apart s [] := by
  intro x _ b hb
  simp at hb

lemma Apart.of_append_left {u : Text} (h : Apart (s ++ t) u) : Apart t u := by
  intro x hx b hb
  refine h x ?_ b hb
  rw [getLast?_append]
  simp only [Option.mem_def] at hx
  simp [hx]

/-- A text that does not join two others does not join one after the other. -/
lemma Apart.append_right (hs : Apart w s) (ht : s = [] → Apart w t) : Apart w (s ++ t) := by
  cases s with
  | nil => exact ht rfl
  | cons b r =>
    intro x hx c hc
    exact hs x hx c hc

lemma IsWord.lexes (h : IsWord w l) : Lexes w [l] := by
  rw [← append_nil w]
  exact .word h (.nil_right w) .nil

/-- Texts made of words can be put together where they do not join. -/
theorem Lexes.append {ks : List Lexeme} (hs : Lexes s ks) (ht : Lexes t ls) (hapart : Apart s t) :
    Lexes (s ++ t) (ks ++ ls) := by
  induction hs with
  | nil => exact ht
  | blank hb hs ih => exact .blank hb (ih (.of_append_left (s := [_]) hapart))
  | @word w s l ks hw hws hs ih =>
    rw [append_assoc]
    refine .word hw (hws.append_right ?_) (ih hapart.of_append_left)
    rintro rfl
    rwa [append_nil] at hapart

/-- White space can stand after a text made of words. -/
lemma Lexes.append_blanks {ks : List Lexeme} (hs : Lexes s ks) (ht : ∀ b ∈ t, IsBlank b) : Lexes (s ++ t) ks := by
  have hblanks : Lexes t [] := by
    induction t with
    | nil => exact .nil
    | cons b t ih =>
      rw [forall_mem_cons] at ht
      exact .blank ht.1 (ih ht.2)
  rw [← append_nil ks]
  refine hs.append hblanks ?_
  intro x _ b hb
  rcases ht b (mem_of_mem_head? hb) with rfl | rfl
  · exact joins_eq_false_of_continues (by decide) x
  · exact joins_eq_false_of_continues (by decide) x

/-! ### Scanning a word -/

/-- A run of elements with a property ends where an element without it follows. -/
lemma span_append {α : Type} {p : α → Bool} {l r : List α} (hl : ∀ a ∈ l, p a = true)
    (hr : ∀ a ∈ r.head?, p a = false) :
    (l ++ r).takeWhile p = l ∧ (l ++ r).dropWhile p = r := by
  rw [takeWhile_append_of_pos hl, dropWhile_append_of_pos hl]
  cases r with
  | nil => simp
  | cons a r =>
    have ha : p a = false := hr a rfl
    simp [ha]

lemma exists_of_textOf_append (h : textOf ms = s ++ t) :
    ∃ ks ns, ms = ks ++ ns ∧ textOf ks = s ∧ textOf ns = t :=
  map_eq_append_iff.1 h

lemma forall_mark {p : UInt8 → Bool} (h : textOf ms = s) (hs : ∀ c ∈ s, p c = true) : ∀ m ∈ ms, p m.byte = true := by
  intro m hm
  exact hs _ (h ▸ mem_map_of_mem hm)

lemma head?_of_apart {x : UInt8} (hx : w.getLast? = some x) (h : Apart w s) (hms : textOf ms = s) :
    ∀ m ∈ ms.head?, joins x m.byte = false := by
  intro m hm
  refine h x hx m.byte ?_
  rw [← hms, textOf, head?_map, Option.mem_def.1 hm]
  rfl

/-- A word that begins with a letter is one token. -/
lemma tokenFrom_word (hb : Lunify.Lexeme.isLetter m.byte = true)
    (hw : ∀ c ∈ w, Lunify.Lexeme.isWordByte c = true) (hapart : Apart (m.byte :: w) s)
    (hr : textOf r = w ++ s) : ∃ t r', tokenFrom m r = .ok (t, r') ∧
      t.lexeme = wordLexeme (m.byte :: w) ∧ textOf r' = s := by
  obtain ⟨ks, ns, rfl, hks, hns⟩ := exists_of_textOf_append hr
  obtain ⟨x, hx⟩ : ∃ x, (m.byte :: w).getLast? = some x := ⟨_, getLast?_eq_some_getLast (by simp)⟩
  have hxword : Lunify.Lexeme.isWordByte x = true := by
    rcases mem_cons.1 (mem_of_getLast? hx) with rfl | hmem
    · simp [Lunify.Lexeme.isWordByte, hb]
    · exact hw x hmem
  have hstop : ∀ n ∈ ns.head?, Lunify.Lexeme.isWordByte n.byte = false := by
    intro n hn
    have hjoin := head?_of_apart hx hapart hns n hn
    simp only [joins, hxword, Bool.true_and, Bool.or_eq_false_iff] at hjoin
    exact hjoin.1.1.1.1.1
  obtain ⟨htake, hdrop⟩ := span_append (forall_mark hks hw) hstop
  refine ⟨⟨wordLexeme (m.byte :: w), m.place.line, lastPlace m.place (m :: ks), m.byte :: w⟩, ns, ?_,
    rfl, hns⟩
  have htext : textOf (m :: ks) = m.byte :: w := congrArg (m.byte :: ·) hks
  unfold tokenFrom
  simp only [hb, if_true, htake, hdrop, htext, wordLexeme]

/-- A byte that does not join a digit or a point does not go on with a number. -/
lemma stops_of_joins {x : UInt8} (hx : Text.isDigit x = true ∨ x = byte '.') (h : joins x b = false) :
    Text.isDigit b = false ∧ b ≠ byte '.' ∧ b ≠ byte 'e' ∧ b ≠ byte 'E' := by
  simp only [joins, Bool.or_eq_false_iff] at h
  have hnumber := h.1.1.1.1.2
  rcases hx with hx | hx
  · simpa [hx, and_assoc] using hnumber
  · simpa [hx, and_assoc] using hnumber

/-- The exponent of a number ends where no digit follows, and nothing else is one. -/
lemma exponentPart_append (hes : (textOf es).IsExponent)
    (hns : ∀ n ∈ ns.head?, isDecimal n = false ∧ n.byte ≠ byte 'e' ∧ n.byte ≠ byte 'E') (start : Place) :
    ∃ last, exponentPart start (es ++ ns) = ⟨textOf es, last, ns⟩ := by
  generalize htext : textOf es = x at hes
  cases hes with
  | none =>
    obtain rfl := map_eq_nil_iff.1 htext
    cases ns with
    | nil => exact ⟨start, rfl⟩
    | cons n ns =>
      obtain ⟨-, hsmall, hlarge⟩ := hns n rfl
      exact ⟨start, by simp [exponentPart, hsmall, hlarge]⟩
  | @some e sign s he hsign hne hs =>
    obtain ⟨m, es, rfl, rfl, hes⟩ := map_eq_cons_iff.1 htext
    obtain ⟨ss, ds, rfl, hss, hds⟩ := exists_of_textOf_append hes
    obtain ⟨b, s, rfl⟩ := exists_cons_of_ne_nil hne
    obtain ⟨d, ds, rfl, rfl, hmore⟩ := map_eq_cons_iff.1 hds
    rw [forall_mem_cons] at hs
    obtain ⟨htake, hdrop⟩ := span_append (p := isDecimal) (forall_mark hmore hs.2) fun n hn =>
      (hns n hn).1
    have hdigit : d.byte ≠ byte '+' ∧ d.byte ≠ byte '-' := by
      constructor <;> intro heq <;> rw [heq] at hs <;> exact absurd hs.1 (by decide)
    refine ⟨lastPlace start (d :: ds), ?_⟩
    simp only [mem_cons, not_mem_nil, or_false] at hsign
    rcases hsign with rfl | rfl | rfl
    · obtain rfl := map_eq_nil_iff.1 hss
      simp [exponentPart, he, hdigit, htake, hdrop, textOf, hmore]
    all_goals
      obtain ⟨k, ss, rfl, hk, hss⟩ := map_eq_cons_iff.1 hss
      obtain rfl := map_eq_nil_iff.1 hss
      simp [exponentPart, he, hk, htake, hdrop, textOf, hmore]

/-- Digits end where an exponent begins, and where nothing follows that belongs to a number. -/
lemma head?_exponent_append (hes : (textOf es).IsExponent)
    (hns : ∀ n ∈ ns.head?, isDecimal n = false ∧ n.byte ≠ byte '.' ∧ n.byte ≠ byte 'e' ∧ n.byte ≠ byte 'E') :
    ∀ n ∈ (es ++ ns).head?, isDecimal n = false ∧ n.byte ≠ byte '.' := by
  generalize htext : textOf es = x at hes
  cases hes with
  | none =>
    obtain rfl := map_eq_nil_iff.1 htext
    exact fun n hn => ⟨(hns n hn).1, (hns n hn).2.1⟩
  | some he _ _ _ =>
    obtain ⟨k, es, rfl, hk, -⟩ := map_eq_cons_iff.1 htext
    rintro n hn
    obtain rfl := Option.some.inj hn
    rw [isDecimal, hk]
    rcases he with rfl | rfl <;> decide

/-- The places after a point, if there is one. -/
def IsPlaces (ps : List Mark) : Prop :=
  ps = [] ∨ ∃ p qs, ps = p :: qs ∧ p.byte = byte '.' ∧ ∀ q ∈ qs, isDecimal q = true

/-- A decimal number ends where nothing follows that belongs to it. -/
lemma decimalNumber_append {ps : List Mark} (hks : ∀ k ∈ ks, isDecimal k = true) (hps : IsPlaces ps)
    (hes : (textOf es).IsExponent)
    (hns : ∀ n ∈ ns.head?, isDecimal n = false ∧ n.byte ≠ byte '.' ∧ n.byte ≠ byte 'e' ∧ n.byte ≠ byte 'E') :
    ∃ last, decimalNumber m (ks ++ (ps ++ (es ++ ns))) = ⟨textOf (m :: (ks ++ (ps ++ es))), last, ns⟩ := by
  have hexponent := exponentPart_append hes fun n hn => ⟨(hns n hn).1, (hns n hn).2.2⟩
  have hstop := head?_exponent_append hes hns
  rcases hps with rfl | ⟨p, qs, rfl, hp, hqs⟩
  · obtain ⟨htake, hdrop⟩ := span_append hks fun n hn => (hstop n hn).1
    obtain ⟨last, hlast⟩ := hexponent (lastPlace m.place (m :: ks))
    refine ⟨last, ?_⟩
    rw [nil_append, nil_append]
    cases hrest : es ++ ns with
    | nil =>
      rw [hrest] at hlast
      rw [hrest, append_nil] at htake hdrop
      rw [append_nil]
      simp [decimalNumber, htake, hdrop, hlast, textOf]
    | cons k rest =>
      rw [hrest] at htake hdrop hlast hstop
      have hk : k.byte ≠ byte '.' := (hstop k rfl).2
      simp [decimalNumber, htake, hdrop, hlast, hk, textOf]
  · have hpoint : isDecimal p = false := by
      rw [isDecimal, hp]
      decide
    obtain ⟨htake, hdrop⟩ := span_append (r := p :: qs ++ (es ++ ns)) hks (by rintro _ ⟨⟩; exact hpoint)
    obtain ⟨htake', hdrop'⟩ := span_append hqs fun n hn => (hstop n hn).1
    obtain ⟨last, hlast⟩ := hexponent (lastPlace m.place (m :: ks ++ (p :: qs)))
    refine ⟨last, ?_⟩
    rw [cons_append] at htake hdrop ⊢
    rw [cons_append] at hlast
    simp [decimalNumber, htake, hdrop, hp, htake', hdrop', hlast, textOf]

lemma scannedNumber_eq_self {r : Text} (h : ∀ c ∈ r.head?, Text.isDigit c = false) :
    scannedNumber (b :: r) = b :: r := by
  cases r with
  | nil => rfl
  | cons c r => simp [scannedNumber, h c rfl]

/-- A number ends where nothing follows that belongs to it, and a zero before a digit is skipped. -/
lemma number_append {ps : List Mark} (hks : ∀ k ∈ ks, isDecimal k = true) (hps : IsPlaces ps)
    (hes : (textOf es).IsExponent)
    (hns : ∀ n ∈ ns.head?, isDecimal n = false ∧ n.byte ≠ byte '.' ∧ n.byte ≠ byte 'e' ∧ n.byte ≠ byte 'E')
    (hhex : ∀ n ∈ (ks ++ (ps ++ (es ++ ns))).head?, n.byte ≠ byte 'x' ∧ n.byte ≠ byte 'X') :
    ∃ last, number m (ks ++ (ps ++ (es ++ ns))) =
      .ok ⟨scannedNumber (textOf (m :: (ks ++ (ps ++ es)))), last, ns⟩ := by
  cases ks with
  | nil =>
    obtain ⟨last, hdecimal⟩ := decimalNumber_append (m := m) hks hps hes hns
    rw [nil_append, nil_append] at hdecimal
    rw [nil_append] at hhex ⊢
    have hstop : ∀ n ∈ (ps ++ (es ++ ns)).head?, isDecimal n = false := by
      rcases hps with rfl | ⟨p, qs, rfl, hp, -⟩
      · exact fun n hn => (head?_exponent_append hes hns n hn).1
      · rintro n hn
        obtain rfl := Option.some.inj hn
        rw [isDecimal, hp]
        decide
    have hself : scannedNumber (textOf (m :: (ps ++ es))) = textOf (m :: (ps ++ es)) := by
      refine scannedNumber_eq_self fun b hb => ?_
      rw [head?_map] at hb
      obtain ⟨n, hn, rfl⟩ := Option.map_eq_some_iff.1 hb
      refine hstop n ?_
      rw [← append_assoc, head?_append, hn]
      rfl
    refine ⟨last, ?_⟩
    rw [nil_append, hself, ← hdecimal]
    cases hrest : ps ++ (es ++ ns) with
    | nil => rfl
    | cons n rest =>
      rw [hrest] at hhex hstop
      obtain ⟨hx, hX⟩ := hhex n rfl
      have hn : isDecimal n = false := hstop n rfl
      simp [number, hx, hX, hn]
  | cons k ks =>
    rw [forall_mem_cons] at hks
    obtain ⟨hx, hX⟩ := hhex k rfl
    by_cases hzero : m.byte = byte '0'
    · obtain ⟨last, hdecimal⟩ := decimalNumber_append (m := k) hks.2 hps hes hns
      refine ⟨last, ?_⟩
      rw [cons_append]
      have hk : Text.isDigit k.byte = true := hks.1
      simp [number, hzero, hx, hX, hks.1, hdecimal, scannedNumber, textOf, hk]
    · obtain ⟨last, hdecimal⟩ := decimalNumber_append (m := m) (forall_mem_cons.2 hks) hps hes hns
      refine ⟨last, ?_⟩
      rw [cons_append] at hdecimal ⊢
      simp [number, hzero, hdecimal, scannedNumber, textOf]

/-- The marks of a numeral and of what follows it. -/
lemma exists_marks_of_isNumeral (hw : w.IsNumeral) (h : textOf (m :: r) = w ++ s) :
    ∃ ks ps es ns, r = ks ++ (ps ++ (es ++ ns)) ∧ textOf ns = s ∧
      textOf (m :: (ks ++ (ps ++ es))) = w ∧ (∀ k ∈ ks, isDecimal k = true) ∧ IsPlaces ps ∧
      (textOf es).IsExponent ∧ (isDecimal m = true ∨ m.byte = byte '.' ∧ ks ≠ []) := by
  obtain ⟨man, e, rfl, hman, he⟩ := hw
  rw [append_assoc] at h
  obtain ⟨ms, ls, hms, hman', hls⟩ := exists_of_textOf_append h
  obtain ⟨es, ns, rfl, rfl, hns⟩ := exists_of_textOf_append hls
  cases hman with
  | whole hne hs =>
    obtain ⟨b, s, rfl⟩ := exists_cons_of_ne_nil hne
    obtain ⟨k, ks, rfl, rfl, hks⟩ := map_eq_cons_iff.1 hman'
    obtain ⟨rfl, rfl⟩ := List.cons.inj hms
    rw [forall_mem_cons] at hs
    refine ⟨ks, [], es, ns, rfl, hns, ?_, forall_mark hks hs.2, .inl rfl, he, .inl hs.1⟩
    simp [textOf, hks]
  | @point s r hne hs hr =>
    obtain ⟨ks, ps, rfl, hks, hps⟩ := exists_of_textOf_append hman'
    obtain ⟨p, qs, rfl, hp, hqs⟩ := map_eq_cons_iff.1 hps
    cases ks with
    | nil =>
      -- The point is the first byte, so that its places take the part of the digits.
      obtain rfl : [] = s := hks
      obtain ⟨rfl, rfl⟩ := List.cons.inj hms
      refine ⟨qs, [], es, ns, rfl, hns, ?_, forall_mark hqs hr, .inl rfl, he, .inr ⟨hp, ?_⟩⟩
      · simp [textOf, hqs, hp]
      · rintro rfl
        exact hne.elim (fun hs => hs rfl) fun hr => hr hqs.symm
    | cons k ks =>
      obtain ⟨rfl, rfl⟩ := List.cons.inj hms
      obtain ⟨b, s, rfl, rfl, hks'⟩ : ∃ b s', s = b :: s' ∧ m.byte = b ∧ textOf ks = s' :=
        ⟨_, _, hks.symm, rfl, rfl⟩
      rw [forall_mem_cons] at hs
      refine ⟨ks, p :: qs, es, ns, by simp, hns, ?_, forall_mark hks' hs.2,
        .inr ⟨p, qs, rfl, hp, forall_mark hqs hr⟩, he, .inl hs.1⟩
      simp [textOf, ← hks', hp, hqs]

/-- A numeral is one token. -/
lemma tokenFrom_number (hw : w.IsNumeral) (hapart : Apart w s) (hr : textOf (m :: r) = w ++ s) :
    ∃ t r', tokenFrom m r = .ok (t, r') ∧
      t.lexeme = .number (scannedNumber w) ∧ textOf r' = s := by
  obtain ⟨x, hx, hlast⟩ := getLast?_of_isNumeral hw
  obtain ⟨ks, ps, es, ns, rfl, hns, htext, hks, hps, hes, hm⟩ := exists_marks_of_isNumeral hw hr
  have hjoin := head?_of_apart hx hapart hns
  have hstop : ∀ n ∈ ns.head?, isDecimal n = false ∧ n.byte ≠ byte '.' ∧ n.byte ≠ byte 'e' ∧
      n.byte ≠ byte 'E' := fun n hn => stops_of_joins hlast (hjoin n hn)
  have hhex : ∀ n ∈ (ks ++ (ps ++ (es ++ ns))).head?, n.byte ≠ byte 'x' ∧ n.byte ≠ byte 'X' := by
    intro n hn
    rw [show ks ++ (ps ++ (es ++ ns)) = ks ++ (ps ++ es) ++ ns by simp] at hn
    cases hrest : ks ++ (ps ++ es) with
    | nil =>
      -- The numeral is one digit, and a letter would join it.
      rw [hrest] at hn htext
      obtain rfl : m.byte = x := by
        rw [← htext] at hx
        exact Option.some.inj hx
      have hdigit : Text.isDigit m.byte = true :=
        hm.resolve_right fun h => h.2 (append_eq_nil_iff.1 hrest).1
      have hplain := hjoin n hn
      simp only [joins, Lunify.Lexeme.isWordByte, hdigit, Bool.or_true, Bool.true_and,
        Bool.or_eq_false_iff] at hplain
      obtain ⟨-, -, -, hsmall, hlarge⟩ :=
        ne_of_not_isWordByte (b := n.byte) (by simp [Lunify.Lexeme.isWordByte, hplain])
      exact ⟨hsmall, hlarge⟩
    | cons k rest =>
      rw [hrest] at hn htext
      obtain rfl := Option.some.inj hn
      have hmem : k.byte ∈ w := by
        rw [← htext]
        simp [textOf]
      rcases mem_of_isNumeral hw _ hmem with hdigit | hmark
      · constructor <;> intro heq <;> rw [heq] at hdigit <;> exact absurd hdigit (by decide)
      · constructor <;> intro heq <;> rw [heq] at hmark <;> exact absurd hmark (by decide)
  obtain ⟨last, hnumber⟩ := number_append (m := m) hks hps hes hstop hhex
  rw [htext] at hnumber
  refine ⟨⟨.number (scannedNumber w), m.place.line, last, scannedNumber w⟩, ns, ?_, rfl, hns⟩
  have hletter : Lunify.Lexeme.isLetter m.byte = false := by
    rcases hm with hm | ⟨hm, -⟩
    · exact Lunify.Lexeme.isLetter_of_isDigit hm
    · rw [hm]
      decide
  have hbegins : (Text.isDigit m.byte || (decide (m.byte = byte '.') &&
      (((ks ++ (ps ++ (es ++ ns))).head?.map isDecimal).getD false))) = true := by
    rcases hm with hm | ⟨hm, hne⟩
    · rw [show Text.isDigit m.byte = true from hm, Bool.true_or]
    · obtain ⟨k, ks, rfl⟩ := exists_cons_of_ne_nil hne
      simp [hm, hks k mem_cons_self]
  unfold tokenFrom
  simp only [hletter, hbegins, hnumber, if_true, Bool.false_eq_true, if_false]
  rfl

/-- The bytes up to a closing quote are those of a string. -/
lemma quotedString_append {q : UInt8} (hm : m.byte = q)
    (hks : ∀ k ∈ ks, k.byte ≠ q ∧ k.byte ≠ byte '\n' ∧ k.byte ≠ byte '\\') (content : Text) :
    quotedString q content (ks ++ m :: ns) = .ok ⟨content.reverse ++ textOf ks, m.place, ns⟩ := by
  induction ks generalizing content with
  | nil => rw [nil_append, quotedString.eq_def]; simp [hm, textOf]
  | cons k ks ih =>
    obtain ⟨⟨hquote, hbreak, hescape⟩, hks⟩ := forall_mem_cons.1 hks
    rw [cons_append, quotedString.eq_def]
    simp [hquote, hbreak, hescape, ih hks, textOf]

/-- A quote begins a string. -/
lemma tokenFrom_quote
    (hq : m.byte = Lunify.Lexeme.doubleQuote ∨ m.byte = Lunify.Lexeme.singleQuote) (r : List Mark) :
    tokenFrom m r = (do
      let s ← quotedString m.byte [] r
      return (⟨.string s.value, m.place.line, s.last, s.value⟩, s.rest)) := by
  have hkind : Lunify.Lexeme.isLetter m.byte = false ∧ Text.isDigit m.byte = false ∧
      m.byte ≠ byte '.' := by
    rcases hq with hq | hq <;> rw [hq] <;> decide
  unfold tokenFrom
  simp only [hkind, hq, decide_false, Bool.false_and, Bool.or_self, Bool.false_eq_true,
    if_false, Bool.or_eq_true, decide_eq_true_eq, if_true]

/-- A string in quotes is one token. -/
lemma tokenFrom_string (hq : m.byte = Lunify.Lexeme.doubleQuote ∨ m.byte = Lunify.Lexeme.singleQuote)
    (hs : ∀ c ∈ s, c ≠ m.byte ∧ c ≠ byte '\n' ∧ c ≠ byte '\r' ∧ c ≠ byte '\\')
    (hr : textOf r = s ++ [m.byte] ++ t) : ∃ k r', tokenFrom m r = .ok (k, r') ∧
      k.lexeme = .string s ∧ textOf r' = t := by
  rw [append_assoc] at hr
  obtain ⟨ks, ns, rfl, hks, hns⟩ := exists_of_textOf_append hr
  obtain ⟨n, ns, rfl, hn, hns⟩ : ∃ n ns', ns = n :: ns' ∧ n.byte = m.byte ∧ textOf ns' = t :=
    map_eq_cons_iff.1 hns
  have hplain : ∀ k ∈ ks, k.byte ≠ m.byte ∧ k.byte ≠ byte '\n' ∧ k.byte ≠ byte '\\' := by
    intro k hk
    obtain ⟨hquote, hbreak, -, hescape⟩ := hs k.byte (hks ▸ mem_map_of_mem hk)
    exact ⟨hquote, hbreak, hescape⟩
  have hquoted : quotedString m.byte [] (ks ++ n :: ns) = .ok ⟨[].reverse ++ textOf ks, n.place, ns⟩ :=
    quotedString_append hn hplain []
  rw [reverse_nil, nil_append, hks] at hquoted
  refine ⟨⟨.string s, m.place.line, n.place, s⟩, ns, ?_, rfl, hns⟩
  rw [tokenFrom_quote hq, hquoted]
  rfl

lemma singleMarks_plain : ∀ b ∈ singleMarks, Lunify.Lexeme.isLetter b = false ∧
    Text.isDigit b = false ∧ b ≠ byte '.' ∧ b ≠ Lunify.Lexeme.doubleQuote ∧
    b ≠ Lunify.Lexeme.singleQuote ∧ b ≠ byte '~' := by
  decide +kernel

lemma doubleMarks_plain : ∀ w ∈ doubleMarks, ∀ b ∈ w.head?, Lunify.Lexeme.isLetter b = false ∧
    Text.isDigit b = false ∧ b ≠ byte '.' ∧ b ≠ Lunify.Lexeme.doubleQuote ∧
    b ≠ Lunify.Lexeme.singleQuote ∧ b ≠ byte '[' := by
  decide +kernel

lemma joins_of_mem_doubleMarks {c : UInt8} (h : [b, c] ∈ doubleMarks) (hb : b ≠ byte '~') :
    joins b c = true := by
  have hall : ∀ w ∈ doubleMarks, ∀ x ∈ w.head?, ∀ y ∈ w.getLast?, x ≠ byte '~' → joins x y = true := by
    decide +kernel
  exact hall _ h b rfl c rfl hb

/-- A byte that is a mark by itself is one token. -/
lemma tokenFrom_single (hb : m.byte ∈ singleMarks) (hapart : Apart [m.byte] s) (hr : textOf r = s) :
    ∃ t r', tokenFrom m r = .ok (t, r') ∧
      t.lexeme = .mark [m.byte] ∧ textOf r' = s := by
  obtain ⟨hletter, hdigit, hpoint, hdouble, hsingle, htilde⟩ := singleMarks_plain _ hb
  have hstop := head?_of_apart rfl hapart hr
  refine ⟨markToken [m.byte] m.place.line m.place [m.byte], r, ?_, rfl, hr⟩
  unfold tokenFrom
  cases r with
  | nil =>
    simp [hletter, hdigit, hpoint, hdouble, hsingle, beginsWith, tokenFrom.single, hb]
  | cons c r =>
    have hjoin : joins m.byte c.byte = false := hstop c rfl
    have hmark : [m.byte, c.byte] ∉ doubleMarks := by
      intro hmem
      exact absurd (hjoin.symm.trans (joins_of_mem_doubleMarks hmem htilde)) Bool.false_ne_true
    have hlong : m.byte = byte '[' → c.byte ≠ byte '[' ∧ c.byte ≠ byte '=' := by
      intro hbracket
      simp only [joins, hbracket, Bool.or_eq_false_iff] at hjoin
      simpa using hjoin.1.1.2
    have hbracket : ¬(m.byte = byte '[' ∧ (c.byte = byte '[' ∨ c.byte = byte '=')) := by
      rintro ⟨hbracket, hc | hc⟩
      · exact (hlong hbracket).1 hc
      · exact (hlong hbracket).2 hc
    simp [hletter, hdigit, hpoint, hdouble, hsingle, beginsWith, tokenFrom.single, hb, hmark, hbracket]

lemma tokenFrom_double {n : Mark} (h : [m.byte, n.byte] ∈ doubleMarks) :
    tokenFrom m (n :: r) =
      .ok (markToken [m.byte, n.byte] m.place.line n.place [m.byte, n.byte], r) := by
  obtain ⟨hletter, hdigit, hpoint, hdouble, hsingle, hbracket⟩ := doubleMarks_plain _ h _ rfl
  unfold tokenFrom
  simp [hletter, hdigit, hpoint, hdouble, hsingle, hbracket, h]

/-- A word is scanned as one token, and what follows it is left. -/
lemma exists_tokenFrom (hw : IsWord w l) (hapart : Apart w s) (hms : textOf (m :: r) = w ++ s) :
    ∃ t r', tokenFrom m r = .ok (t, r') ∧ t.lexeme = l ∧ textOf r' = s := by
  cases hw with
  | word hb hr =>
    obtain ⟨rfl, hrest⟩ := List.cons.inj hms
    exact tokenFrom_word hb hr hapart hrest
  | number hw => exact tokenFrom_number hw hapart hms
  | string hq hs =>
    obtain ⟨rfl, hrest⟩ := List.cons.inj hms
    exact tokenFrom_string hq hs hrest
  | single hb =>
    obtain ⟨rfl, hrest⟩ := List.cons.inj hms
    exact tokenFrom_single hb hapart hrest
  | double hab =>
    obtain ⟨rfl, hrest⟩ := List.cons.inj hms
    obtain ⟨n, r, rfl, rfl, hr⟩ := map_eq_cons_iff.1 hrest
    exact ⟨_, r, tokenFrom_double hab, rfl, hr⟩

/-- Digits are one token. -/
lemma isWord_of_isDigit (hne : s ≠ []) (hs : ∀ b ∈ s, Text.isDigit b = true) :
    IsWord s (.number (scannedDigits s)) := by
  have hscanned : scannedNumber s = scannedDigits s := by
    match s, hs with
    | [], _ | [_], _ => rfl
    | b :: c :: r, hs => simp [scannedNumber, scannedDigits, hs c (by simp)]
  rw [← hscanned]
  exact .number ⟨s, [], (append_nil s).symm, .whole hne hs, .none⟩

/-! ### Scanning a text -/

/-- What a word can begin with: no white space, and a hyphen only if it is the word. -/
lemma IsWord.head {r : Text} (h : IsWord (b :: r) l) :
    b ≠ byte ' ' ∧ b ≠ byte '\t' ∧ b ≠ byte '\n' ∧ (b = byte '-' → r = []) := by
  have hne : ∀ {c}, Lunify.Lexeme.isWordByte b = true → Lunify.Lexeme.isWordByte c = false →
      b ≠ c := by
    rintro c hb hc rfl
    exact absurd (hc.symm.trans hb) Bool.false_ne_true
  cases h with
  | word hb _ =>
    have hword : Lunify.Lexeme.isWordByte b = true := by simp [Lunify.Lexeme.isWordByte, hb]
    exact ⟨hne hword (by decide), hne hword (by decide), hne hword (by decide),
      fun heq => absurd heq (hne hword (by decide))⟩
  | number hw =>
    obtain ⟨c, r', heq, hc⟩ := hw.exists_cons
    obtain ⟨rfl, rfl⟩ := List.cons.inj heq
    rcases hc with hb | ⟨rfl, -⟩
    · have hword : Lunify.Lexeme.isWordByte b = true := by simp [Lunify.Lexeme.isWordByte, hb]
      exact ⟨hne hword (by decide), hne hword (by decide), hne hword (by decide),
        fun heq => absurd heq (hne hword (by decide))⟩
    · exact ⟨by decide, by decide, by decide, fun heq => absurd heq (by decide)⟩
  | string hq _ => rcases hq with rfl | rfl <;> simp [byte, Lunify.Lexeme.doubleQuote,
      Lunify.Lexeme.singleQuote]
  | single hb =>
    have hmarks : ∀ b ∈ singleMarks, b ≠ byte ' ' ∧ b ≠ byte '\t' ∧ b ≠ byte '\n' := by decide +kernel
    exact ⟨(hmarks b hb).1, (hmarks b hb).2.1, (hmarks b hb).2.2, fun _ => rfl⟩
  | double hab =>
    have hmarks : ∀ w ∈ doubleMarks, ∀ b ∈ w.head?, b ≠ byte ' ' ∧ b ≠ byte '\t' ∧ b ≠ byte '\n' ∧
        b ≠ byte '-' := by
      decide +kernel
    obtain ⟨hspace, htab, hbreak, hminus⟩ := hmarks _ hab b rfl
    exact ⟨hspace, htab, hbreak, fun heq => absurd heq hminus⟩

/-- A word that is followed by nothing that joins it is the next token. -/
lemma exists_scan_word (hw : IsWord w l) (hapart : Apart w s) (hms : textOf ms = w ++ s) (fuel : Nat) :
    ∃ t r, scan (fuel + 1) ms = t :: scan fuel r ∧ t.lexeme = l ∧ textOf r = s := by
  obtain ⟨b, w', rfl⟩ := exists_cons_of_ne_nil hw.ne_nil
  obtain ⟨m, r, rfl, rfl, hr⟩ := map_eq_cons_iff.1 hms
  obtain ⟨hspace, htab, hbreak, hminus⟩ := hw.head
  obtain ⟨t, r', htoken, hl, hr'⟩ := exists_tokenFrom hw hapart (m := m) (r := r) hms
  refine ⟨t, r', ?_, hl, hr'⟩
  have hcomment : (decide (m.byte = byte '-') && beginsWith (byte '-') r) = false := by
    rw [Bool.eq_false_iff, ne_eq, Bool.and_eq_true, decide_eq_true_eq]
    rintro ⟨hm, hbegins⟩
    obtain rfl := hminus hm
    have hr : textOf r = s := hr
    rw [beginsWith, decide_eq_true_eq, ← head?_map, ← textOf, hr] at hbegins
    have hjoin := hapart _ rfl _ hbegins
    rw [hm] at hjoin
    exact absurd hjoin (by decide)
  have hdrop : (m :: r).dropWhile isSpace = m :: r := by
    simp [isSpace, hspace, htab, hbreak]
  rw [scan]
  simp only [hdrop, hcomment, htoken, Bool.false_eq_true, if_false]

lemma scan_cons_blank (hm : IsBlank m.byte) (ms : List Mark) {fuel : Nat} (hfuel : 0 < fuel) :
    scan fuel (m :: ms) = scan fuel ms := by
  obtain ⟨fuel, rfl⟩ := Nat.exists_eq_add_of_lt hfuel
  have hspace : isSpace m = true := by
    rcases hm with hm | hm <;> simp [isSpace, hm]
  rw [Nat.zero_add, scan, scan]
  simp only [dropWhile_cons, hspace, if_true]

/-- A text made of words is scanned to their values, up to the end of the text. -/
theorem map_lexeme_scan (hs : Lexes s ls) (hms : textOf ms = s) {fuel : Nat} (hfuel : s.length < fuel) :
    (scan fuel ms).map Token.lexeme = ls ++ [.finish] := by
  induction hs generalizing ms fuel with
  | nil =>
    obtain rfl := map_eq_nil_iff.1 hms
    obtain ⟨fuel, rfl⟩ := Nat.exists_eq_add_of_lt hfuel
    rfl
  | blank hb hs ih =>
    obtain ⟨m, ms, rfl, rfl, hrest⟩ := map_eq_cons_iff.1 hms
    rw [length_cons] at hfuel
    rw [scan_cons_blank hb ms (by omega)]
    exact ih hrest (by omega)
  | @word w s l ls hw hapart hs ih =>
    have hlength : 0 < w.length := length_pos_iff.2 hw.ne_nil
    rw [length_append] at hfuel
    obtain ⟨fuel, rfl⟩ : ∃ n, fuel = n + 1 := ⟨fuel - 1, by omega⟩
    obtain ⟨t, r, hscan, rfl, hr⟩ := exists_scan_word hw hapart hms fuel
    rw [hscan, map_cons, ih hr (by omega), cons_append]

/-- A word has no carriage return. -/
lemma IsWord.notMem_return (h : IsWord w l) : byte '\r' ∉ w := by
  have hword : ∀ {b}, Lunify.Lexeme.isWordByte b = true → b ≠ byte '\r' := by
    rintro b hb rfl
    exact absurd hb (by decide)
  cases h with
  | @word b r hb hr =>
    rw [mem_cons, not_or]
    refine ⟨(hword (by simp [Lunify.Lexeme.isWordByte, hb])).symm, fun hmem => hword (hr _ hmem) rfl⟩
  | number hw =>
    intro hmem
    exact (mem_of_isNumeral hw _ hmem).elim (by decide) (by decide)
  | @string q s hq hs =>
    have hquote : byte '\r' ≠ q := by rcases hq with rfl | rfl <;> decide
    simp only [mem_cons, mem_append, not_mem_nil, or_false, not_or]
    exact ⟨hquote, fun hmem => (hs _ hmem).2.2.1 rfl, hquote⟩
  | single hb =>
    have hmarks : byte '\r' ∉ singleMarks := by decide
    rw [mem_singleton]
    rintro rfl
    exact hmarks hb
  | double hab =>
    have hmarks : ∀ w ∈ doubleMarks, byte '\r' ∉ w := by decide
    exact hmarks _ hab

/-- The bytes of a text without carriage returns are those of its marks. -/
lemma textOf_marks (hs : byte '\r' ∉ s) (line column : Int) : textOf (marks line column s) = s := by
  have hbyte : ∀ b ∈ s, b ≠ byte '\r' := fun b hb heq => hs (heq ▸ hb)
  clear hs
  fun_induction marks line column s with
  | case1 => rfl
  | case2 line column b hbreak =>
    have hb : b ≠ byte '\r' := hbyte b (by simp)
    simp_all [textOf]
  | case3 line column b hbreak => rfl
  | case4 line column b c r hpair ih =>
    have hb : b ≠ byte '\r' := hbyte b (by simp)
    have hc : c ≠ byte '\r' := hbyte c (by simp)
    simp [isBreakPair, hb, hc] at hpair
  | case5 line column b c r hpair hbreak ih =>
    have hb : b ≠ byte '\r' := hbyte b (by simp)
    rw [forall_mem_cons] at hbyte
    simp only [hb, decide_false, Bool.or_false, decide_eq_true_eq] at hbreak
    rw [textOf, map_cons, ← textOf, ih hbyte.2, hbreak]
  | case6 line column b c r hpair hbreak ih =>
    rw [forall_mem_cons] at hbyte
    rw [textOf, map_cons, ← textOf, ih hbyte.2]

/-- The values of the tokens of a text made of words. -/
theorem map_lexeme_tokens (hs : Lexes s ls) : (tokens s).map Token.lexeme = ls ++ [.finish] := by
  have hreturn : byte '\r' ∉ s := by
    induction hs with
    | nil => simp
    | blank hb hs ih =>
      rw [mem_cons, not_or]
      refine ⟨?_, ih⟩
      rcases hb with rfl | rfl <;> decide
    | word hw hapart hs ih =>
      rw [mem_append, not_or]
      exact ⟨hw.notMem_return, ih⟩
  exact map_lexeme_scan hs (textOf_marks hreturn 1 0) (Nat.lt_succ_self _)

end Chunk

end Lunify
