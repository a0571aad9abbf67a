import Mathlib.Data.List.Chain
import Lunify.Proofs.Text.Split
import Lunify.Proofs.Token.Lexed

/-!
# How the tokens of a source are laid out

The tokens of a source follow each other: none begins before the one before it has ended, the tokens of
one line have a `newline` after them, and the tokens after that are on later lines. The changes of depth
stand between a `newline` and the first token of a line (`Token.Precedes`, `isChain_of_lex`).
-/

namespace Lunify

open List

/-- How neighbouring tokens of a source stand to each other. -/
structure Token.Precedes (a b : Token) : Prop where
  /-- The first one ends before the second one begins. -/
  ordered : a.finish.le b.pos
  /-- What was read from the text is followed on its line, if only by the end of it. -/
  onLine : a.isSynthetic = false →
    b.pos.line = a.pos.line ∧ (b.isSynthetic = true → b.isDivider newlineText = true)
  /-- The end of a line is followed by a later line. -/
  later : a.isDivider newlineText = true → a.pos.line < b.pos.line
  /-- A change of depth is followed by others of its kind, and then by what was read from the text. -/
  changes : ∀ w ∈ [indentText, dedentText], a.isDivider w = true → b.isDivider w = true ∨ b.isSynthetic = false

/-- Facts about single tokens of a source. -/
structure Token.Placed (t : Token) : Prop where
  line : 0 ≤ t.pos.line
  column : 0 ≤ t.pos.column
  noFeed : byte '\n' ∉ t.content

namespace Lexer

variable {w : Text} {t : Token}

/-- What is read from the text is no layout: a divider that is read is one byte. -/
lemma isSynthetic_of_first? {r : Text} {kind : Kind} (h : Lexeme.first? (w ++ r) = some (kind, w.length))
    (pos : Position) :
    Token.isSynthetic ⟨kind, w, pos⟩ = false := by
  by_cases hkind : kind = .divider
  · have hdivider : Lexeme.divider (w ++ r) ≤ 1 := by
      unfold Lexeme.divider
      grind
    have hlength : w.length ≤ 1 := by
      have hcases := (Lexeme.cases_first? h).2
      simp only [hkind, reduceCtorEq, false_and, false_or, or_false, true_and] at hcases
      omega
    have hlong : ∀ t ∈ [newlineText, indentText, dedentText], ¬t.length ≤ 1 := by decide
    have hlayout : ∀ t ∈ [newlineText, indentText, dedentText], w ≠ t := by
      rintro t ht rfl
      exact hlong w ht hlength
    simp only [forall_mem_cons] at hlayout
    simp [Token.isSynthetic, hlayout]
  · simp [Token.isSynthetic, hkind]

/-- What is known of the tokens of a part of a line. -/
structure Within (number : Nat) (first last : Nat) (t : Token) : Prop where
  read : t.isSynthetic = false
  line : t.pos.line = number
  first_le : (first : Int) ≤ t.pos.column
  le_last : t.pos.column + t.content.length ≤ last
  noFeed : byte '\n' ∉ t.content

lemma finish_of_read (h : t.isSynthetic = false) :
    t.finish = ⟨t.pos.line, t.pos.column + t.content.length⟩ := by
  simp [Token.finish, h]

/-- A divider of layout was not read from the text. -/
lemma isSynthetic_of_isDivider (hw : w ∈ [newlineText, indentText, dedentText]) (h : t.isDivider w = true) :
    t.isSynthetic = true := by
  simp only [Token.isDivider, Bool.and_eq_true, decide_eq_true_eq] at h
  simp only [mem_cons, not_mem_nil, or_false] at hw
  simp only [Token.isSynthetic, h.1, h.2, decide_true, Bool.true_and, Bool.or_eq_true,
    decide_eq_true_eq]
  tauto

lemma isDivider_of_read (hw : w ∈ [newlineText, indentText, dedentText]) (ht : t.isSynthetic = false) :
    t.isDivider w = false := by
  rw [Bool.eq_false_iff]
  intro h
  exact absurd (ht.symm.trans (isSynthetic_of_isDivider hw h)) Bool.false_ne_true

lemma isDivider_ne {v : Text} (ht : t.isDivider v = true) (hvw : v ≠ w) : t.isDivider w = false := by
  simp only [Token.isDivider, Bool.and_eq_true, decide_eq_true_eq] at ht
  simp [Token.isDivider, ht.2, hvw]

/-- Tokens that were read from one line, in order. -/
lemma precedes_of_read {a b : Token} (ha : a.isSynthetic = false) (hb : b.isSynthetic = false)
    (hline : a.pos.line = b.pos.line) (hcolumn : a.pos.column + a.content.length ≤ b.pos.column) :
    a.Precedes b where
  ordered := by
    rw [finish_of_read ha]
    exact .inr ⟨hline, hcolumn⟩
  onLine _ := ⟨hline.symm, fun h => absurd (hb.symm.trans h) Bool.false_ne_true⟩
  later h := by
    have hsynthetic := isSynthetic_of_isDivider (by simp) h
    exact absurd (ha.symm.trans hsynthetic) Bool.false_ne_true
  changes _ _ _ := .inr hb

variable {number depth depth' column : Nat} {rest line : Text} {last : Bool} {tokens : List Token}

/-- The tokens of a part of a line follow each other. -/
lemma Reads.isChain {s : Text} (h : Reads number rest column s tokens) (hfeed : byte '\n' ∉ s) :
    tokens.IsChain Token.Precedes ∧ ∀ t ∈ tokens, Within number column (column + s.length) t := by
  induction h with
  | nil column => exact ⟨.nil, by simp⟩
  | @space column b s tokens hb h ih =>
    obtain ⟨hchain, hwithin⟩ := ih fun hmem => hfeed (mem_cons_of_mem b hmem)
    refine ⟨hchain, fun t ht => ?_⟩
    obtain ⟨hread, hline, hfirst, hlast, hcontent⟩ := hwithin t ht
    refine ⟨hread, hline, by omega, ?_, hcontent⟩
    rw [length_cons]
    omega
  | @lexeme column kind w s tokens hw hfirst h ih =>
    obtain ⟨hchain, hwithin⟩ := ih fun hmem => hfeed (mem_append_right w hmem)
    have hread := isSynthetic_of_first? hfirst ⟨number, column⟩
    refine ⟨hchain.cons fun t ht => ?_, forall_mem_cons.2 ⟨?_, fun t ht => ?_⟩⟩
    · obtain ⟨hread', hline, hcolumn, -, -⟩ := hwithin t (mem_of_mem_head? ht)
      exact precedes_of_read hread hread' hline.symm (by simpa using hcolumn)
    · refine ⟨hread, rfl, Int.le_refl _, ?_, fun hmem => hfeed (mem_append_left s hmem)⟩
      simp only [length_append]
      omega
    · obtain ⟨hread', hline, hcolumn, hlast, hcontent⟩ := hwithin t ht
      refine ⟨hread', hline, by omega, ?_, hcontent⟩
      rw [length_append]
      omega

/-- A part of a line that is not just white space has tokens. -/
lemma Reads.ne_nil {s : Text} (h : Reads number rest column s tokens) (hspace : s.all isSpace = false) :
    tokens ≠ [] := by
  induction h with
  | nil => simp at hspace
  | space hb _ ih => exact ih (by simpa [hb] using hspace)
  | lexeme => exact cons_ne_nil _ _

/-- A change of depth at a place, before something on the same line. -/
lemma precedes_of_depth (hw : w = indentText ∨ w = dedentText) {pos : Position} {b : Token}
    (hle : pos.le b.pos) (hb : b = ⟨.divider, w, pos⟩ ∨ b.isSynthetic = false) :
    Token.Precedes ⟨.divider, w, pos⟩ b := by
  have hsynthetic : Token.isSynthetic ⟨.divider, w, pos⟩ = true := by
    rcases hw with rfl | rfl <;> simp [Token.isSynthetic]
  have hnewline : Token.isDivider newlineText ⟨.divider, w, pos⟩ = false := by
    rcases hw with rfl | rfl <;> simp [Token.isDivider] <;> decide
  constructor
  · rwa [Token.finish, if_pos hsynthetic]
  · intro h
    exact absurd (h.symm.trans hsynthetic) Bool.false_ne_true
  · intro h
    exact absurd (hnewline.symm.trans h) Bool.false_ne_true
  · intro v hv h
    rcases hb with rfl | hb
    · exact .inl h
    · exact .inr hb

/-- What is known of the tokens of a line. -/
structure OfLine (number : Nat) (t : Token) : Prop where
  line : t.pos.line = number
  placed : t.Placed

lemma exists_depthChange (old new : Nat) (pos : Position) :
    ∃ n w, (w = indentText ∨ w = dedentText) ∧
      depthChange old new pos = List.replicate n ⟨.divider, w, pos⟩ := by
  unfold depthChange
  split
  · exact ⟨_, indentText, .inl rfl, rfl⟩
  · exact ⟨_, dedentText, .inr rfl, rfl⟩

/-- Changes of depth follow each other. -/
lemma isChain_depthChange (old new number column : Nat) :
    (depthChange old new ⟨number, column⟩).IsChain Token.Precedes ∧
      ∀ t ∈ depthChange old new ⟨number, column⟩, OfLine number t := by
  obtain ⟨n, w, hw, heq⟩ := exists_depthChange old new ⟨number, column⟩
  have hrefl : Token.Precedes ⟨.divider, w, ⟨number, column⟩⟩ ⟨.divider, w, ⟨number, column⟩⟩ :=
    precedes_of_depth hw (.inr ⟨rfl, Int.le_refl _⟩) (.inl rfl)
  rw [heq]
  refine ⟨isChain_replicate_of_rel n hrefl, fun t ht => ?_⟩
  obtain rfl := eq_of_mem_replicate ht
  have hfeed : byte '\n' ∉ w := by rcases hw with rfl | rfl <;> decide
  exact ⟨rfl, Int.natCast_nonneg number, Int.natCast_nonneg column, hfeed⟩

/-- Changes of depth come before the tokens of the line. -/
lemma isChain_depthChange_append {old new number column last : Nat} {tokens : List Token}
    (hchain : tokens.IsChain Token.Precedes) (hwithin : ∀ t ∈ tokens, Within number column last t) :
    (depthChange old new ⟨number, column⟩ ++ tokens).IsChain Token.Precedes := by
  refine (isChain_depthChange old new number column).1.append hchain ?_
  intro a ha b hb
  obtain ⟨n, w, hw, heq⟩ := exists_depthChange old new ⟨number, column⟩
  rw [heq] at ha
  obtain rfl := eq_of_mem_replicate (mem_of_getLast? ha)
  obtain ⟨hread, hline, hcolumn, -, -⟩ := hwithin b (mem_of_mem_head? hb)
  exact precedes_of_depth hw (.inr ⟨hline.symm, hcolumn⟩) (.inr hread)

lemma isSpace_of_mem_tabs {line : Text} : ∀ b ∈ line.take (leadingTabs line), isSpace b = true := by
  intro b hb
  rw [leadingTabs, ← prefix_iff_eq_take.1 (List.takeWhile_prefix _)] at hb
  have htab : b = byte '\t' := by simpa using mem_takeWhile_imp hb
  rw [htab]
  decide

/-- After the leading tabs of a line there is more than white space if the line is not blank. -/
lemma all_isSpace_drop (hspace : line.all isSpace = false) :
    (line.drop (leadingTabs line)).all isSpace = false := by
  rw [← take_append_drop (leadingTabs line) line, all_append,
    all_eq_true.2 isSpace_of_mem_tabs, Bool.true_and] at hspace
  exact hspace

/-- The tokens of a line follow each other. Before the end of a line that is not the last one, nothing but
text stands. -/
lemma ReadsLine.isChain (h : ReadsLine number depth last line tokens depth') (hfeed : byte '\n' ∉ line) :
    tokens.IsChain Token.Precedes ∧ (∀ t ∈ tokens, OfLine number t) ∧
      (last = false → ∀ t ∈ tokens.getLast?, t.isSynthetic = false ∧
        t.pos.column + t.content.length ≤ newlineColumn line) := by
  cases h with
  | blank => exact ⟨.nil, by simp, by simp⟩
  | last =>
    obtain ⟨hchain, hof⟩ := isChain_depthChange depth 0 number (tabWidth * leadingTabs line)
    exact ⟨hchain, hof, by simp⟩
  | @text _ _ read hspace hblank h =>
    obtain ⟨hchain, hwithin⟩ := h.isChain fun hmem => hfeed (mem_of_mem_drop hmem)
    have hne := h.ne_nil (all_isSpace_drop hspace)
    refine ⟨isChain_depthChange_append hchain hwithin, ?_, fun _ t ht => ?_⟩
    · refine forall_mem_append.2 ⟨(isChain_depthChange depth _ number _).2, fun t ht => ?_⟩
      obtain ⟨-, hline, hcolumn, -, hcontent⟩ := hwithin t ht
      exact ⟨hline, by omega, by omega, hcontent⟩
    · rw [getLast?_append, getLast?_eq_some_getLast hne, Option.some_or] at ht
      obtain rfl := Option.some.inj ht
      obtain ⟨hread, -, -, hlast, -⟩ := hwithin _ (getLast_mem hne)
      refine ⟨hread, ?_⟩
      rw [newlineColumn, hspace]
      exact hlast

/-- The end of a line comes after what was read from it. -/
lemma precedes_newline {number column : Nat} (ht : t.isSynthetic = false) (hline : t.pos.line = number)
    (hcolumn : t.pos.column + t.content.length ≤ column) :
    t.Precedes (newline number column) where
  ordered := by
    rw [finish_of_read ht]
    exact .inr ⟨hline, hcolumn⟩
  onLine _ := ⟨hline.symm, fun _ => rfl⟩
  later h := by
    have hsynthetic := isSynthetic_of_isDivider (by simp) h
    exact absurd (ht.symm.trans hsynthetic) Bool.false_ne_true
  changes w hw h := by
    have hsynthetic := isSynthetic_of_isDivider (mem_cons_of_mem _ hw) h
    exact absurd (ht.symm.trans hsynthetic) Bool.false_ne_true

lemma newline_precedes {number column : Nat} (hline : number < t.pos.line) :
    (newline number column).Precedes t where
  ordered := .inl hline
  onLine h := absurd h (by simp [newline, Token.isSynthetic])
  later _ := hline
  changes w hw h := by
    have hne : ∀ w ∈ [indentText, dedentText], newlineText ≠ w := by decide
    simp [newline, Token.isDivider, hne w hw] at h

/-- The tokens of a list of lines follow each other. -/
lemma ReadsLines.isChain {lines : List Text} (h : ReadsLines number depth lines tokens)
    (hfeed : ∀ line ∈ lines, byte '\n' ∉ line) :
    tokens.IsChain Token.Precedes ∧ ∀ t ∈ tokens, (number : Int) ≤ t.pos.line ∧ t.Placed := by
  induction h with
  | nil => exact ⟨.nil, by simp⟩
  | @last number depth depth' line tokens h =>
    obtain ⟨hchain, hof, -⟩ := h.isChain (hfeed line (by simp))
    exact ⟨hchain, fun t ht => ⟨Int.le_of_eq (hof t ht).line.symm, (hof t ht).placed⟩⟩
  | @cons number depth depth' line next lines here later h _ ih =>
    obtain ⟨hchain, hof, hend⟩ := h.isChain (hfeed line (by simp))
    obtain ⟨hchain', hof'⟩ := ih fun l hl => hfeed l (mem_cons_of_mem _ hl)
    refine ⟨hchain.append (hchain'.cons fun t ht => ?_) ?_, ?_⟩
    · obtain ⟨hle, -⟩ := hof' t (mem_of_mem_head? ht)
      exact newline_precedes (by omega)
    · rintro a ha _ ⟨⟩
      obtain ⟨hread, hcolumn⟩ := hend rfl a ha
      exact precedes_newline hread (hof a (mem_of_getLast? ha)).line hcolumn
    · rw [forall_mem_append, forall_mem_cons]
      refine ⟨fun t ht => ⟨Int.le_of_eq (hof t ht).line.symm, (hof t ht).placed⟩, ⟨Int.le_refl _, ?_⟩, ?_⟩
      · have hnewline : byte '\n' ∉ newlineText := by decide
        exact ⟨Int.natCast_nonneg _, Int.natCast_nonneg _, hnewline⟩
      · intro t ht
        obtain ⟨hle, hplaced⟩ := hof' t ht
        exact ⟨by omega, hplaced⟩

end Lexer

/-- The tokens of a source follow each other, each at a place in the text. -/
theorem isChain_of_lex {source : Text} {tokens : List Token} (h : lex source = .ok tokens) :
    tokens.IsChain Token.Precedes ∧ ∀ t ∈ tokens, t.Placed := by
  obtain ⟨hchain, hof⟩ :=
    (Lexer.lex_eq_ok_iff.1 h).isChain fun line hline => Text.notMem_of_mem_splitOn hline
  exact ⟨hchain, fun t ht => (hof t ht).2⟩

end Lunify
