import Lunify.Proofs.Token.Lexemes

/-!
# Layout inside of lines

How far the tokens of a line stand apart says nothing: `respace` writes tokens with one blank between those
of a line, as many tabs before them as blocks are open, and nothing on a blank line. That text has the same
tokens on the same lines (`lex_respace`), and so it is a normal form of the layout inside of lines.
-/

namespace Lunify

open List

/-- Tokens written line by line, where some blocks are open and the line may have begun: the first token of a
line comes after a tab for each open block, and each other one after a blank. -/
def respace (depth : Nat) (begun : Bool) : List Token → Text
  | [] => []
  | t :: ts =>
    if t.isDivider newlineText then byte '\n' :: respace depth false ts
    else if t.isDivider indentText then respace (depth + 1) begun ts
    else if t.isDivider dedentText then respace (depth - 1) begun ts
    else (if begun then [byte ' '] else List.replicate depth (byte '\t')) ++
      (t.content ++ respace depth true ts)

/-- A token without its column. -/
def Token.onLine (t : Token) : Kind × Text × Int :=
  (t.kind, t.content, t.pos.line)

namespace Lexer

variable {number depth depth' d : Nat} {begun : Bool} {rest : List Token}

variable {tokens : List Token} {s : Text}

/-! ### What is written -/

lemma respace_indents (n d : Nat) (pos : Position) :
    respace d begun (List.replicate n ⟨.divider, indentText, pos⟩ ++ rest) = respace (d + n) begun rest := by
  induction n generalizing d with
  | zero => rfl
  | succ n ih =>
    have hstep : ∀ ts, respace d begun (⟨.divider, indentText, pos⟩ :: ts) = respace (d + 1) begun ts :=
      fun _ => rfl
    rw [replicate_succ, cons_append, hstep, ih, Nat.add_right_comm, Nat.add_assoc]

lemma respace_dedents (n d : Nat) (pos : Position) :
    respace d begun (List.replicate n ⟨.divider, dedentText, pos⟩ ++ rest) = respace (d - n) begun rest := by
  induction n generalizing d with
  | zero => rfl
  | succ n ih =>
    have hstep : ∀ ts, respace d begun (⟨.divider, dedentText, pos⟩ :: ts) = respace (d - 1) begun ts :=
      fun _ => rfl
    rw [replicate_succ, cons_append, hstep, ih, Nat.sub_sub, Nat.add_comm]

/-- A change of depth is not written. -/
lemma respace_depthChange (old new : Nat) (pos : Position) :
    respace old begun (depthChange old new pos ++ rest) = respace new begun rest := by
  unfold depthChange
  split
  · rw [respace_indents, Nat.add_sub_cancel' (by omega)]
  · rw [respace_dedents, Nat.sub_sub_self (by omega)]

lemma respace_read {t : Token} (ht : t.isSynthetic = false) :
    respace depth begun (t :: rest) = (if begun then [byte ' '] else List.replicate depth (byte '\t')) ++
      (t.content ++ respace depth true rest) := by
  simp [respace, isDivider_of_read _ ht]

/-- The tokens of a line that has begun come after blanks. -/
lemma respace_reads {read : List Token} (hread : ∀ t ∈ read, t.isSynthetic = false) :
    respace depth true (read ++ rest) =
      read.flatMap (fun t => byte ' ' :: t.content) ++ respace depth true rest := by
  induction read with
  | nil => rfl
  | cons t read ih =>
    obtain ⟨ht, hread⟩ := forall_mem_cons.1 hread
    rw [cons_append, respace_read ht, ih hread]
    simp

/-- It does not matter whether a line has begun where it ends. -/
lemma respace_ended (hrest : ∀ t ∈ rest.head?, t.isDivider newlineText = true) :
    respace depth true rest = respace depth false rest := by
  cases rest with
  | nil => rfl
  | cons t rest => simp [respace, hrest t rfl]

/-- What is written does not depend on the places of tokens. -/
lemma respace_congr {ts us : List Token} (h : ts.map Token.onLine = us.map Token.onLine) :
    respace d begun ts = respace d begun us := by
  induction ts generalizing us d begun with
  | nil =>
    obtain rfl := map_eq_nil_iff.1 h.symm
    rfl
  | cons t ts ih =>
    obtain ⟨u, us, rfl, hu, hus⟩ := map_eq_cons_iff.1 h.symm
    obtain ⟨hkind, hcontent, -⟩ : u.kind = t.kind ∧ u.content = t.content ∧ u.pos.line = t.pos.line := by
      simpa [Token.onLine] using hu
    simp only [respace, Token.isDivider, hkind, hcontent, ih hus.symm]

/-! ### What is read -/

/-- A token that can be read from a line. -/
structure Readable (number : Nat) (t : Token) : Prop where
  read : t.isSynthetic = false
  lexed : t.Lexed
  line : t.pos.line = number
  head : ∀ b ∈ t.content.head?, isSpace b = false
  noFeed : byte '\n' ∉ t.content

lemma Reads.readable {column : Nat} {rest : Text} (h : Reads number rest column s tokens)
    (hfeed : byte '\n' ∉ s) : ∀ t ∈ tokens, Readable number t := by
  have hhead : ∀ t ∈ tokens, ∀ b ∈ t.content.head?, isSpace b = false := by
    clear hfeed
    induction h with
    | nil => simp
    | space _ _ ih => exact ih
    | lexeme hw _ _ ih => exact forall_mem_cons.2 ⟨hw, ih⟩
  intro t ht
  obtain ⟨hread, hline, -, -, hcontent⟩ := (h.isChain hfeed).2 t ht
  exact ⟨hread, h.lexed t ht, hline, hhead t ht, hcontent⟩

/-- A token is read again before white space. -/
lemma Readable.reads {t : Token} (ht : Readable number t) {column : Nat}
    (hs : ∀ b ∈ s.head?, isSpace b = true) (h : Reads number [] (column + t.content.length) s tokens) :
    Reads number [] column (t.content ++ s) (⟨t.kind, t.content, ⟨number, column⟩⟩ :: tokens) :=
  .lexeme ht.head (Lexeme.first?_append_of_lexed ht.lexed ht.read (by simpa using hs)) h

/-- Tokens that come after blanks are read again. -/
lemma exists_reads_blanks (h : ∀ t ∈ tokens, Readable number t) (column : Nat) :
    ∃ tokens', Reads number [] column (tokens.flatMap fun t => byte ' ' :: t.content) tokens' ∧
      tokens'.map Token.onLine = tokens.map Token.onLine := by
  induction tokens generalizing column with
  | nil => exact ⟨[], .nil column, rfl⟩
  | cons t tokens ih =>
    obtain ⟨ht, htokens⟩ := forall_mem_cons.1 h
    obtain ⟨tokens', hreads, hsame⟩ := ih htokens (column + 1 + t.content.length)
    refine ⟨_, .space rfl (ht.reads ?_ hreads), ?_⟩
    · cases tokens with
      | nil => simp
      | cons u tokens => simp; decide
    · rw [map_cons, hsame, map_cons]
      simp [Token.onLine, ht.line]

/-- Text after tabs is a line at the depth of the tabs. -/
lemma readsLine_tabs (depth tabs : Nat) (last : Bool) {b : UInt8} {read : List Token} (hb : isSpace b = false)
    (h : Reads number [] (tabWidth * tabs) (b :: s) read) :
    ReadsLine number depth last (List.replicate tabs (byte '\t') ++ b :: s)
      (depthChange depth tabs ⟨number, tabWidth * tabs⟩ ++ read) tabs := by
  have htab : b ≠ byte '\t' ∧ b ≠ byte ' ' := by
    constructor <;> rintro rfl <;> exact absurd hb (by decide)
  have htabs : leadingTabs (List.replicate tabs (byte '\t') ++ b :: s) = tabs := by
    rw [leadingTabs, takeWhile_append_of_pos (by simp), takeWhile_cons_of_neg (by simp [htab])]
    simp
  have hdrop : (List.replicate tabs (byte '\t') ++ b :: s).drop tabs = b :: s := by
    simp
  have hspace : (List.replicate tabs (byte '\t') ++ b :: s).all isSpace = false := by
    simp [hb]
  have hline := @ReadsLine.text number depth last _ read hspace
  rw [htabs, hdrop] at hline
  exact hline (by simpa using htab.2) h

/-- A line is read again as it is written, with the same tokens and the same depth after it. -/
lemma ReadsLine.exists_respaced {last : Bool} {line : Text}
    (h : ReadsLine number depth last line tokens depth') (hfeed : byte '\n' ∉ line) :
    ∃ line' tokens', ReadsLine number depth last line' tokens' depth' ∧ byte '\n' ∉ line' ∧
      tokens'.map Token.onLine = tokens.map Token.onLine ∧
      ∀ rest : List Token, (∀ t ∈ rest.head?, t.isDivider newlineText = true) →
        respace depth false (tokens ++ rest) = line' ++ respace depth' false rest := by
  cases h with
  | blank => exact ⟨[], [], .blank rfl, not_mem_nil, rfl, fun _ _ => rfl⟩
  | last =>
    refine ⟨[], _, .last rfl, not_mem_nil, ?_, fun rest _ => respace_depthChange _ _ _⟩
    simp [depthChange, Token.onLine]
  | @text _ _ read hspace _ h =>
    have hreadable := h.readable fun hmem => hfeed (mem_of_mem_drop hmem)
    obtain ⟨t, ts, rfl⟩ := exists_cons_of_ne_nil (h.ne_nil (all_isSpace_drop hspace))
    obtain ⟨ht, hts⟩ := forall_mem_cons.1 hreadable
    obtain ⟨tokens', hreads, hsame⟩ :=
      exists_reads_blanks hts (tabWidth * leadingTabs line + t.content.length)
    have hblank : ∀ b ∈ (ts.flatMap fun u => byte ' ' :: u.content).head?, isSpace b = true := by
      cases ts with
      | nil => simp
      | cons u ts => simp; decide
    have htext := ht.reads hblank hreads
    -- The first token is not empty, and what it begins with ends the tabs.
    obtain ⟨b, w, hw⟩ := exists_cons_of_ne_nil (length_pos_iff.1
      (Lexeme.length_pos_of_first? (Lexeme.first?_of_lexed ht.lexed ht.read)))
    have hb : isSpace b = false := ht.head b (by rw [hw]; rfl)
    rw [hw, cons_append] at htext
    refine ⟨_, _, readsLine_tabs depth (leadingTabs line) last hb htext, ?_, ?_, fun rest hrest => ?_⟩
    · rw [← cons_append, ← hw]
      simp only [mem_append, mem_flatMap, not_or, not_exists, not_and]
      refine ⟨fun hmem => absurd (eq_of_mem_replicate hmem) (by decide), ht.noFeed, ?_⟩
      intro u hu hmem
      exact (mem_cons.1 hmem).elim (by decide) (hts u hu).noFeed
    · rw [map_append, map_append, map_cons, map_cons, hsame]
      simp [Token.onLine, hw, ht.line]
    · rw [append_assoc, respace_depthChange, cons_append, respace_read ht.read,
        respace_reads fun u hu => (hts u hu).read, respace_ended hrest, hw]
      simp

/-- Lines are read again as they are written, with the same tokens. -/
lemma ReadsLines.exists_respaced {lines : List Text} (h : ReadsLines number depth lines tokens)
    (hne : lines ≠ []) (hfeed : ∀ line ∈ lines, byte '\n' ∉ line) :
    ∃ tokens', ReadsLines number depth (Text.lines (respace depth false tokens)) tokens' ∧
      tokens'.map Token.onLine = tokens.map Token.onLine := by
  induction h with
  | nil => exact absurd rfl hne
  | @last number depth depth' line tokens h =>
    obtain ⟨line', tokens', hline, hfeed', hsame, htext⟩ := h.exists_respaced (hfeed line (by simp))
    have hwhole := htext [] (by simp)
    rw [append_nil, respace, append_nil] at hwhole
    rw [hwhole, Text.lines, Text.splitOn_of_notMem hfeed']
    exact ⟨tokens', .last hline, hsame⟩
  | @cons number depth depth' line next lines here later h _ ih =>
    obtain ⟨line', tokens', hline, hfeed', hsame, htext⟩ := h.exists_respaced (hfeed line (by simp))
    obtain ⟨later', hlater, hsame'⟩ :=
      ih (cons_ne_nil _ _) fun l hl => hfeed l (mem_cons_of_mem _ hl)
    obtain ⟨next', lines', hnext⟩ := exists_cons_of_ne_nil
      (Text.splitOn_ne_nil (byte '\n') (respace depth' false later))
    have hbreak : respace depth' false (newline number (newlineColumn line) :: later) =
        byte '\n' :: respace depth' false later := rfl
    rw [htext _ (by rintro _ ⟨⟩; rfl), hbreak, Text.lines, Text.splitOn_append_cons hfeed']
    rw [Text.lines] at hlater
    rw [hnext] at hlater ⊢
    refine ⟨_, .cons hline hlater, ?_⟩
    rw [map_append, map_append, map_cons, map_cons, hsame, hsame']
    rfl

end Lexer

/-- Lexing does not depend on the layout inside of lines. If a source has tokens, so has the text in which
each line with tokens has a tab for each open block, then the contents of its tokens with single blanks between
them, and in which other lines are empty. These tokens have the same kinds and contents and are on the same
lines, and written out once more they give the same text. -/
theorem lex_respace {source : Text} {tokens : List Token} (h : lex source = .ok tokens) :
    ∃ tokens', lex (respace 0 false tokens) = .ok tokens' ∧
      tokens'.map Token.onLine = tokens.map Token.onLine ∧
      respace 0 false tokens' = respace 0 false tokens := by
  obtain ⟨tokens', hreads, hsame⟩ := (Lexer.lex_eq_ok_iff.1 h).exists_respaced
    (Text.splitOn_ne_nil _ _) fun line hline => Text.notMem_of_mem_splitOn hline
  exact ⟨tokens', Lexer.lex_eq_ok_iff.2 hreads, hsame, Lexer.respace_congr hsame⟩

/-- A block with crowded and with wide lines, and a string with white space in it. -/
theorem lex_respace_block :
    ∃ tokens tokens', lex (utf8 "if a:\n  \t\n\tb='\t '  +1.e\t\t\n") = .ok tokens ∧
      respace 0 false tokens = utf8 "if a :\n\n\tb = '\t ' + 1. e\n" ∧
      lex (utf8 "if a :\n\n\tb = '\t ' + 1. e\n") = .ok tokens' ∧
      tokens'.map Token.onLine = tokens.map Token.onLine := by
  let tokens : List Token :=
    [⟨.keyword, utf8 "if", ⟨0, 0⟩⟩, ⟨.identifier, utf8 "a", ⟨0, 3⟩⟩, ⟨.divider, utf8 ":", ⟨0, 4⟩⟩,
      ⟨.divider, newlineText, ⟨0, 5⟩⟩, ⟨.divider, newlineText, ⟨1, 3⟩⟩, ⟨.divider, indentText, ⟨2, 4⟩⟩,
      ⟨.identifier, utf8 "b", ⟨2, 4⟩⟩, ⟨.operator, utf8 "=", ⟨2, 5⟩⟩, ⟨.string, utf8 "'\t '", ⟨2, 6⟩⟩,
      ⟨.operator, utf8 "+", ⟨2, 12⟩⟩, ⟨.number, utf8 "1.", ⟨2, 13⟩⟩, ⟨.identifier, utf8 "e", ⟨2, 15⟩⟩,
      ⟨.divider, newlineText, ⟨2, 18⟩⟩, ⟨.divider, dedentText, ⟨3, 0⟩⟩]
  have hlex : lex (utf8 "if a:\n  \t\n\tb='\t '  +1.e\t\t\n") = .ok tokens := by decide +kernel
  have htext : respace 0 false tokens = utf8 "if a :\n\n\tb = '\t ' + 1. e\n" := by decide +kernel
  obtain ⟨tokens', hlex', hsame, -⟩ := lex_respace hlex
  exact ⟨tokens, tokens', hlex, htext, htext ▸ hlex', hsame⟩

end Lunify
