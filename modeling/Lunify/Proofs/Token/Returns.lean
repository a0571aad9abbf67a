import Lunify.Proofs.Token.Faults
import Lunify.Proofs.Token.Lexemes
import Lunify.Proofs.Tree.Moved

/-!
# Lines that end with a carriage return

A carriage return is white space, so it makes no token, and a line is read in the same way with one at its
end. All it changes is where the line ends: `lex_crlf`. A string that is not closed before it is refused
with and without it, and the line that an error shows is the same, since it is shown without it.
-/

namespace Lunify

open List

/-- A source with a carriage return before every line feed. -/
def crlf (source : Text) : Text :=
  source.flatMap fun b => if b = byte '\n' then [byte '\r', byte '\n'] else [b]

/-- Where a token stands if lines end with a carriage return: only their ends are further right. -/
def Token.returned (t : Token) : Position :=
  if t.isDivider newlineText then ⟨t.pos.line, t.pos.column + 1⟩ else t.pos

/-- Lines with a carriage return at the end of each but the last. -/
def Text.returned : List Text → List Text
  | line :: next :: rest => (line ++ [byte '\r']) :: returned (next :: rest)
  | lines => lines

lemma crlf_of_notMem {s : Text} (h : byte '\n' ∉ s) : crlf s = s := by
  induction s with
  | nil => rfl
  | cons b s ih =>
    obtain ⟨hb, hs⟩ := not_or.1 (mt mem_cons.2 h)
    have hstep : crlf (b :: s) = (if b = byte '\n' then [byte '\r', byte '\n'] else [b]) ++ crlf s := rfl
    rw [hstep, if_neg (Ne.symm hb), ih hs, singleton_append]

/-- The lines of a source with carriage returns. -/
lemma lines_crlf (s : Text) : Text.lines (crlf s) = Text.returned (Text.lines s) := by
  unfold Text.lines
  fun_induction Text.splitOn (byte '\n') s with
  | case1 s hnil =>
    have hs := Text.notMem_of_dropWhile_eq_nil hnil
    rw [crlf_of_notMem hs, Text.splitOn_of_notMem hs]
    rfl
  | case2 s b r hcons ih =>
    have hline := Text.notMem_takeWhile (byte '\n') s
    obtain ⟨next, rest, hlines⟩ := exists_cons_of_ne_nil (Text.splitOn_ne_nil (byte '\n') r)
    have hsplit : crlf s = (s.takeWhile (· != byte '\n') ++ [byte '\r']) ++ byte '\n' :: crlf r := by
      conv_lhs => rw [Text.eq_of_dropWhile_eq_cons hcons]
      rw [crlf, flatMap_append, ← crlf, crlf_of_notMem hline]
      simp [crlf]
    rw [hsplit, Text.splitOn_append_cons (by simpa using ⟨hline, by decide⟩), ih, hlines]
    rfl

namespace Lexer

variable {number depth column : Nat} {rest : Text} {tokens : List Token}

lemma shown_return (line : Text) : shown (line ++ [byte '\r']) = shown line := by
  simp [shown, Text.dropEndWhile]

/-- White space at the end of a line does not change how it is read. -/
lemma Reads.append_space {s : Text} {b : UInt8} (hb : isSpace b = true)
    (h : Reads number rest column s tokens) : Reads number (rest ++ [b]) column s tokens := by
  induction h with
  | nil column => exact .nil column
  | space hc _ ih => exact .space hc ih
  | @lexeme column kind w s tokens hw hfirst _ ih =>
    refine .lexeme hw ?_ ih
    rw [← append_assoc s, ← append_assoc w, Lexeme.first?_append_space hb (.inr rfl), hfirst]

/-- The tokens of a part of a line are read from the text. -/
lemma Reads.isSynthetic {s : Text} (h : Reads number rest column s tokens) :
    ∀ t ∈ tokens, t.isSynthetic = false := by
  induction h with
  | nil => simp
  | space _ _ ih => exact ih
  | lexeme _ hfirst _ ih => exact forall_mem_cons.2 ⟨isSynthetic_of_first? hfirst _, ih⟩

lemma lexemes_return (line s : Text) : lexemes number (line ++ [byte '\r']) column (s ++ [byte '\r']) =
    lexemes number line column s := by
  have hreturn : isSpace (byte '\r') = true := by decide
  obtain ⟨before, rest, tokens, rfl, hreads, hrest⟩ := exists_reads number column s
  rw [append_assoc, lexemes_append _ (hreads.append_space hreturn), lexemes_append _ hreads]
  rcases hrest with rfl | ⟨b, r, rfl, hb, hnone⟩
  · rw [nil_append, lexemes_space hreturn, lexemes, lexemes]
  · have hnone' : Lexeme.first? (b :: (r ++ [byte '\r'])) = none := by
      rw [← cons_append, Lexeme.first?_append_space hreturn (.inr rfl), hnone]
    rw [cons_append, lexemes_stuck hb hnone', lexemes_stuck hb hnone, shown_return]

lemma leadingTabs_return (line : Text) : leadingTabs (line ++ [byte '\r']) = leadingTabs line :=
  leadingTabs_append (by rintro _ ⟨⟩; decide) line

lemma drop_leadingTabs_append (line s : Text) :
    (line ++ s).drop (leadingTabs line) = line.drop (leadingTabs line) ++ s :=
  drop_append_of_le_length (List.takeWhile_prefix _).length_le

lemma all_isSpace_return (line : Text) : (line ++ [byte '\r']).all isSpace = line.all isSpace := by
  have hreturn : isSpace (byte '\r') = true := by decide
  simp [hreturn]

/-- A line has the same tokens with a carriage return at its end, or the same error. -/
lemma lineTokens_return (line : Text) :
    lineTokens number depth false (line ++ [byte '\r']) = lineTokens number depth false line := by
  simp only [lineTokens, all_isSpace_return, leadingTabs_return, drop_leadingTabs_append, lexemes_return,
    shown_return]
  by_cases hspace : line.all isSpace = true
  · rw [if_pos hspace, if_pos hspace]
  · have hdrop := all_isSpace_drop (Bool.not_eq_true _ ▸ hspace)
    have hne : line.drop (leadingTabs line) ≠ [] := by
      intro hnil
      rw [hnil] at hdrop
      cases hdrop
    rw [head?_append_of_ne_nil _ hne]

lemma newlineColumn_return (line : Text) :
    newlineColumn (line ++ [byte '\r']) = newlineColumn line + 1 := by
  simp only [newlineColumn, all_isSpace_return, leadingTabs_return, drop_leadingTabs_append,
    length_append, length_singleton]
  split <;> omega

/-- No token of a line is the end of it, so they all stay where they are. -/
lemma ReadsLine.map_returned {depth' : Nat} {last : Bool} {line : Text}
    (h : ReadsLine number depth last line tokens depth') :
    tokens.map (Token.moved Token.returned) = tokens := by
  have hstays : ∀ t : Token, t.isDivider newlineText = false → t.moved Token.returned = t := by
    intro t ht
    simp [Token.moved, Token.returned, ht, Token.relocate]
  have hdepth : ∀ new pos, ∀ t ∈ depthChange depth new pos, t.moved Token.returned = t := by
    intro new pos t ht
    obtain ⟨n, w, hw, heq⟩ := exists_depthChange depth new pos
    rw [heq] at ht
    obtain rfl := eq_of_mem_replicate ht
    rcases hw with rfl | rfl <;> rfl
  refine (map_congr_left ?_).trans (map_id' tokens)
  cases h with
  | blank => simp
  | last => exact hdepth _ _
  | text _ _ h =>
    exact forall_mem_append.2 ⟨hdepth _ _, fun t ht => hstays t
      (isDivider_of_read (by simp) (h.isSynthetic t ht))⟩

/-- The tokens of lines with carriage returns. -/
lemma linesTokens_returned (lines : List Text) :
    linesTokens number depth (Text.returned lines) =
      (linesTokens number depth lines).map (List.map (Token.moved Token.returned)) := by
  fun_induction linesTokens number depth lines with
  | case1 number depth => rfl
  | case2 number depth line =>
    rw [Text.returned, linesTokens]
    · cases hline : lineTokens number depth true line with
      | error e => rfl
      | ok found => exact congrArg Except.ok (lineTokens_eq_ok_iff.1 hline).map_returned.symm
    · simp
  | case3 number depth line next rest ih =>
    obtain ⟨next', rest', hrest⟩ : ∃ next' rest', Text.returned (next :: rest) = next' :: rest' := by
      cases rest <;> exact ⟨_, _, rfl⟩
    rw [Text.returned, hrest, linesTokens, lineTokens_return, newlineColumn_return, ← hrest]
    cases hline : lineTokens number depth false line with
    | error e => rfl
    | ok found =>
      have hmap := (lineTokens_eq_ok_iff.1 hline).map_returned
      simp only [bind, Except.bind, ih]
      cases linesTokens (number + 1) found.2 (next :: rest) with
      | error e => rfl
      | ok later =>
        simp only [Except.map, pure, Except.pure, map_append, map_cons, hmap]
        rfl

end Lexer

/-- A source has the same tokens with carriage returns before its line feeds, up to the columns of the
ends of lines, or the same error. -/
lemma lex_crlf (source : Text) :
    lex (crlf source) = (lex source).map (List.map (Token.moved Token.returned)) := by
  rw [lex, lines_crlf, Lexer.linesTokens_returned, ← lex]

end Lunify
