import Lunify.Proofs.Token.Layout

/-!
# The depth of a place in a source

Blocks are opened and closed by dividers that the lexer puts in. `Lexer.Tracks P d tokens e` says that the tokens
lead from the depth `d` to the depth `e`, never below the outermost one, and that whatever is read from the
text stands at a depth that `P` allows. It composes along `++`, so the depth is followed line by line: before
the tokens of a line it is the number of its leading tabs.
-/

namespace Lunify

open List

namespace Lexer

/-- The tokens lead from a depth to a depth, and what is read from the text stands at a depth that `P`
allows. -/
inductive Tracks (P : Token → Nat → Prop) : Nat → List Token → Nat → Prop
  | nil (d : Nat) : Tracks P d [] d
  | indent {d e : Nat} {t : Token} {ts : List Token} (ht : t.isDivider indentText = true)
      (h : Tracks P (d + 1) ts e) : Tracks P d (t :: ts) e
  | dedent {d e : Nat} {t : Token} {ts : List Token} (ht : t.isDivider dedentText = true)
      (h : Tracks P d ts e) : Tracks P (d + 1) (t :: ts) e
  | newline {d e : Nat} {t : Token} {ts : List Token} (ht : t.isDivider newlineText = true)
      (h : Tracks P d ts e) : Tracks P d (t :: ts) e
  | read {d e : Nat} {t : Token} {ts : List Token} (ht : t.isSynthetic = false) (hP : P t d)
      (h : Tracks P d ts e) : Tracks P d (t :: ts) e

/-- How many blocks tokens open. -/
def indents (tokens : List Token) : Nat :=
  tokens.countP (Token.isDivider indentText)

/-- How many blocks tokens close. -/
def dedents (tokens : List Token) : Nat :=
  tokens.countP (Token.isDivider dedentText)

namespace Tracks

variable {P Q : Token → Nat → Prop} {d e f : Nat} {ts us : List Token}

lemma append (hts : Tracks P d ts e) (hus : Tracks P e us f) : Tracks P d (ts ++ us) f := by
  induction hts with
  | nil => exact hus
  | indent ht _ ih => exact .indent ht (ih hus)
  | dedent ht _ ih => exact .dedent ht (ih hus)
  | newline ht _ ih => exact .newline ht (ih hus)
  | read ht hP _ ih => exact .read ht hP (ih hus)

/-- There is a depth between tokens that follow each other. -/
lemma exists_between (h : Tracks P d (ts ++ us) f) : ∃ e, Tracks P d ts e ∧ Tracks P e us f := by
  induction ts generalizing d with
  | nil => exact ⟨d, .nil d, h⟩
  | cons t ts ih =>
    cases h with
    | indent ht h =>
      obtain ⟨e, hts, hus⟩ := ih h
      exact ⟨e, .indent ht hts, hus⟩
    | dedent ht h =>
      obtain ⟨e, hts, hus⟩ := ih h
      exact ⟨e, .dedent ht hts, hus⟩
    | newline ht h =>
      obtain ⟨e, hts, hus⟩ := ih h
      exact ⟨e, .newline ht hts, hus⟩
    | read ht hP h =>
      obtain ⟨e, hts, hus⟩ := ih h
      exact ⟨e, .read ht hP hts, hus⟩

lemma imp (hPQ : ∀ t d, P t d → Q t d) (h : Tracks P d ts e) : Tracks Q d ts e := by
  induction h with
  | nil d => exact .nil d
  | indent ht _ ih => exact .indent ht ih
  | dedent ht _ ih => exact .dedent ht ih
  | newline ht _ ih => exact .newline ht ih
  | read ht hP _ ih => exact .read ht (hPQ _ _ hP) ih

/-- The depth counts the open blocks. -/
lemma balance (h : Tracks P d ts e) : d + indents ts = e + dedents ts := by
  have hid : indentText ≠ dedentText := by decide
  have hni : newlineText ≠ indentText := by decide
  have hnd : newlineText ≠ dedentText := by decide
  induction h with
  | nil => rfl
  | indent ht _ ih =>
    simp only [indents, dedents, countP_cons, ht, isDivider_ne ht hid] at ih ⊢
    simp only [if_true, Bool.false_eq_true, if_false]
    omega
  | dedent ht _ ih =>
    simp only [indents, dedents, countP_cons, ht, isDivider_ne ht hid.symm] at ih ⊢
    simp only [if_true, Bool.false_eq_true, if_false]
    omega
  | newline ht _ ih =>
    simpa [indents, dedents, countP_cons, isDivider_ne ht hni, isDivider_ne ht hnd] using ih
  | read ht _ _ ih =>
    simpa [indents, dedents, countP_cons, isDivider_of_read (w := indentText) (by simp) ht,
      isDivider_of_read (w := dedentText) (by simp) ht] using ih

/-- A token that is read from the text stands at an allowed depth, which the tokens before it lead to. -/
lemma of_read {t : Token} (h : Tracks P 0 (ts ++ t :: us) e) (ht : t.isSynthetic = false) :
    ∃ d, P t d ∧ indents ts = d + dedents ts := by
  obtain ⟨d, hts, hus⟩ := h.exists_between
  refine ⟨d, ?_, by simpa using hts.balance⟩
  cases hus with
  | indent hdivider | dedent hdivider | newline hdivider =>
    rw [isDivider_of_read (by simp) ht] at hdivider
    exact absurd hdivider Bool.false_ne_true
  | read _ hP _ => exact hP

end Tracks

/-! ### The depth along the lines -/

variable {P : Token → Nat → Prop}

/-- A change of depth leads from the old depth to the new one. -/
lemma tracks_depthChange (old new : Nat) (pos : Position) :
    Tracks P old (depthChange old new pos) new := by
  have hindents : ∀ n d, Tracks P d (List.replicate n ⟨.divider, indentText, pos⟩) (d + n) := by
    intro n
    induction n with
    | zero => exact fun d => .nil d
    | succ n ih =>
      intro d
      rw [replicate_succ, Nat.add_comm n 1, ← Nat.add_assoc]
      exact .indent rfl (ih (d + 1))
  have hdedents : ∀ n d, Tracks P (d + n) (List.replicate n ⟨.divider, dedentText, pos⟩) d := by
    intro n
    induction n with
    | zero => exact fun d => .nil d
    | succ n ih => exact fun d => .dedent rfl (ih d)
  unfold depthChange
  split
  · have h := hindents (new - old) old
    rwa [Nat.add_sub_cancel' (by omega)] at h
  · have h := hdedents (old - new) new
    rwa [Nat.add_sub_cancel' (by omega)] at h

lemma tracks_read {tokens : List Token} {d : Nat} (h : ∀ t ∈ tokens, t.isSynthetic = false ∧ P t d) :
    Tracks P d tokens d := by
  induction tokens with
  | nil => exact .nil d
  | cons t ts ih =>
    obtain ⟨ht, hts⟩ := forall_mem_cons.1 h
    exact .read ht.1 ht.2 (ih hts)

variable {number depth : Nat} {tokens : List Token}

/-- The tokens of a line lead to the depth after it, and those that are read from it stand at the depth of its
leading tabs. -/
lemma ReadsLine.tracks {last : Bool} {line : Text} {depth' : Nat}
    (h : ReadsLine number depth last line tokens depth') (hfeed : byte '\n' ∉ line) :
    Tracks (fun t d => t.pos.line = number ∧ d = leadingTabs line) depth tokens depth' ∧
      (last = true → line.all isSpace = true → depth' = 0) := by
  cases h with
  | blank => exact ⟨.nil depth, by simp⟩
  | last => exact ⟨tracks_depthChange depth 0 _, fun _ _ => rfl⟩
  | text hspace _ h =>
    have hwithin := (h.isChain fun hmem => hfeed (mem_of_mem_drop hmem)).2
    refine ⟨(tracks_depthChange depth (leadingTabs line) _).append (tracks_read fun t ht => ?_), by simp [hspace]⟩
    exact ⟨(hwithin t ht).read, (hwithin t ht).line, rfl⟩

/-- The tokens of the lines from a number on. If the last line is white space, no block is open after it. -/
lemma tracks_linesTokens {all lines : List Text} (hall : all.drop number = lines)
    (hfeed : ∀ line ∈ lines, byte '\n' ∉ line) (h : linesTokens number depth lines = .ok tokens) :
    ∃ depth', Tracks (fun t d => ∃ n : Nat, t.pos.line = n ∧ ∃ line, all[n]? = some line ∧
        d = leadingTabs line) depth tokens depth' ∧
      ∀ line, lines.getLast? = some line → line.all isSpace = true → depth' = 0 := by
  have hnumber : ∀ {number line lines}, all.drop number = line :: lines → all[number]? = some line := by
    intro number line lines hall
    rw [← head?_drop, hall, head?_cons]
  rw [linesTokens_eq_ok_iff] at h
  induction h with
  | nil number depth => exact ⟨depth, .nil depth, by simp⟩
  | @last number depth depth' line tokens h =>
    obtain ⟨htracks, hend⟩ := h.tracks (hfeed line (by simp))
    refine ⟨depth', htracks.imp fun t d ⟨ht, hd⟩ => ⟨number, ht, line, hnumber hall, hd⟩, ?_⟩
    rintro _ ⟨⟩ hspace
    exact hend rfl hspace
  | @cons number depth depth' line next lines here later h _ ih =>
    obtain ⟨htracks, -⟩ := h.tracks (hfeed line (by simp))
    have hdrop : all.drop (number + 1) = next :: lines := by
      rw [← tail_drop, hall, tail_cons]
    obtain ⟨depth'', htracks', hend⟩ := ih hdrop fun l hl => hfeed l (mem_cons_of_mem _ hl)
    refine ⟨depth'', ?_, fun l hl => hend l (by rwa [getLast?_cons_cons] at hl)⟩
    exact (htracks.imp fun t d ⟨ht, hd⟩ => ⟨number, ht, line, hnumber hall, hd⟩).append (.newline rfl htracks')

/-- A change of depth comes after the end of a line, or after a change of the same kind. -/
lemma changes_after {a b : Token} (h : a.Precedes b) {w : Text} (hw : w ∈ [indentText, dedentText])
    (hb : b.isDivider w = true) : a.isDivider newlineText = true ∨ a.isDivider w = true := by
  have hsynthetic := isSynthetic_of_isDivider (mem_cons_of_mem _ hw) hb
  have hunique : ∀ v, b.isDivider v = true → v = w := by
    intro v hv
    by_contra hne
    exact absurd ((isDivider_ne hb (Ne.symm hne)).symm.trans hv) Bool.false_ne_true
  cases ha : a.isSynthetic with
  | false => exact absurd (hunique _ ((h.onLine ha).2 hsynthetic) ▸ hw) (by decide)
  | true =>
    have hlayout : ∃ v ∈ [newlineText, indentText, dedentText], a.isDivider v = true := by
      simp only [mem_cons, exists_eq_or_imp, not_mem_nil, or_false]
      simpa [Token.isSynthetic, Token.isDivider, and_or_left, or_assoc] using ha
    obtain ⟨v, hv, hdivider⟩ := hlayout
    rcases mem_cons.1 hv with rfl | hv
    · exact .inl hdivider
    · have hsame := (h.changes v hv hdivider).resolve_right (by simp [hsynthetic])
      exact .inr (hunique v hsame ▸ hdivider)

end Lexer

/-- The dividers that open and close blocks follow the leading tabs of the lines. No block is closed that was
not opened; before a token that was read from the text, as many blocks are open as its line has leading tabs;
blocks are opened or closed, and never both, where a line begins; and a last line of white space closes all. -/
theorem lex_tracks_tabs {source : Text} {tokens : List Token} (h : lex source = .ok tokens) :
    (∀ ts, ts <+: tokens → Lexer.dedents ts ≤ Lexer.indents ts) ∧
    (∀ (before : List Token) (t : Token) after, tokens = before ++ t :: after → t.isSynthetic = false →
      ∃ n : Nat, t.pos.line = n ∧ ∃ line, (Text.lines source)[n]? = some line ∧
        Lexer.indents before = leadingTabs line + Lexer.dedents before) ∧
    (tokens.IsChain fun a b => ∀ w ∈ [indentText, dedentText], b.isDivider w = true →
      a.isDivider newlineText = true ∨ a.isDivider w = true) ∧
    ∀ line, (Text.lines source).getLast? = some line → line.all Lexer.isSpace = true →
      Lexer.indents tokens = Lexer.dedents tokens := by
  have hfeed : ∀ line ∈ Text.lines source, byte '\n' ∉ line :=
    fun line hline => Text.notMem_of_mem_splitOn hline
  obtain ⟨depth, htracks, hend⟩ := Lexer.tracks_linesTokens (List.drop_zero) hfeed h
  refine ⟨?_, ?_, (isChain_of_lex h).1.imp fun a b hab w => Lexer.changes_after hab, ?_⟩
  · rintro ts ⟨us, rfl⟩
    obtain ⟨d, hts, -⟩ := htracks.exists_between
    have hbalance := hts.balance
    omega
  · rintro before t after rfl ht
    obtain ⟨d, ⟨n, hn, line, hline, rfl⟩, hbalance⟩ := htracks.of_read ht
    exact ⟨n, hn, line, hline, hbalance⟩
  · intro line hline hspace
    have hbalance := htracks.balance
    rw [hend line hline hspace] at hbalance
    omega

/-- Lines of white space inside blocks, and one at the end. -/
theorem lex_tracks_tabs_blank :
    ∃ tokens, lex (utf8 "if a:\n\n\tif b:\n\t\tpass\n \n\tpass\n\t\t") = .ok tokens ∧
      Lexer.indents tokens = 2 ∧ (∀ ts, ts <+: tokens → Lexer.dedents ts ≤ Lexer.indents ts) ∧
      Lexer.indents tokens = Lexer.dedents tokens := by
  let divider : Text → Int → Int → Token := fun w line column => ⟨.divider, w, ⟨line, column⟩⟩
  let keyword : String → Int → Int → Token := fun w line column => ⟨.keyword, utf8 w, ⟨line, column⟩⟩
  let name : String → Int → Int → Token := fun w line column => ⟨.identifier, utf8 w, ⟨line, column⟩⟩
  let tokens : List Token :=
    [keyword "if" 0 0, name "a" 0 3, divider (utf8 ":") 0 4, divider newlineText 0 5,
      divider newlineText 1 0, divider indentText 2 4, keyword "if" 2 4, name "b" 2 7,
      divider (utf8 ":") 2 8, divider newlineText 2 9, divider indentText 3 8, keyword "pass" 3 8,
      divider newlineText 3 12, divider newlineText 4 1, divider dedentText 5 4, keyword "pass" 5 4,
      divider newlineText 5 8, divider dedentText 6 8]
  have hlex : lex (utf8 "if a:\n\n\tif b:\n\t\tpass\n \n\tpass\n\t\t") = .ok tokens := by
    decide +kernel
  obtain ⟨hbegins, -, -, hend⟩ := lex_tracks_tabs hlex
  exact ⟨tokens, hlex, by decide, hbegins,
    hend (utf8 "\t\t") (by decide +kernel) (by decide +kernel)⟩

end Lunify
