import Mathlib.Data.Set.Function
import Lunify.Grammar.Builtin
import Lunify.Proofs.Text.Split
import Lunify.Proofs.Text.Words
import Lunify.Proofs.Tree.Derivation

/-!
# Rule text

Which grammars can be read from rule text, and that they can be read back. `Rule.IsWritable` says what the
symbols of a rule look like: all of them are words without the mark of comments, the left-hand side holds
no arrow and the right-hand side no bar. The rules of a text have this form (`isWritable_of_load`), and
rules of this form are read back from what `Grammar.text` writes (`load_text`).
-/

namespace Lunify

open List

/-- Whether a rule can be written. An arrow may stand on the right and a bar on the left. -/
structure Rule.IsWritable (r : Rule) : Prop where
  lhs_isWord : r.lhs.IsWord
  lhs_comment : byte '#' ∉ r.lhs
  lhs_arrow : ¬ utf8 "->" <:+: r.lhs
  rhs_isWord : ∀ w ∈ r.rhs, w.IsWord
  rhs_comment : ∀ w ∈ r.rhs, byte '#' ∉ w
  rhs_bar : ∀ w ∈ r.rhs, byte '|' ∉ w

namespace Grammar

open Tree (bind_eq_ok_iff)

variable {line lhs : Text} {rules : List Rule} {r : Rule}

/-! ### What is read -/

lemma mapError_eq_ok_iff {ε ε' α : Type} {f : ε → ε'} {x : Except ε α} {a : α} :
    x.mapError f = .ok a ↔ x = .ok a := by
  cases x <;> simp [Except.mapError]

lemma alternative_eq_ok {alt : Text} (h : alternative lhs alt = .ok r) :
    r.lhs = lhs ∧ r.rhs = Text.words alt := by
  unfold alternative at h
  split at h
  · cases h
  · rename_i s rest hwords
    cases h
    exact ⟨rfl, hwords.symm⟩

/-- Each rule of a list of alternatives is one of them. -/
lemma exists_of_mapM_alternative {alts : List Text} (h : alts.mapM (alternative lhs) = .ok rules)
    (hr : r ∈ rules) : ∃ alt ∈ alts, r.lhs = lhs ∧ r.rhs = Text.words alt := by
  induction alts generalizing rules with
  | nil =>
    cases h
    exact absurd hr not_mem_nil
  | cons alt alts ih =>
    rw [mapM_cons, bind_eq_ok_iff] at h
    obtain ⟨first, hfirst, h⟩ := h
    obtain ⟨rest, hrest, h⟩ := bind_eq_ok_iff.1 h
    cases h
    rcases mem_cons.1 hr with rfl | hr
    · exact ⟨alt, mem_cons_self, alternative_eq_ok hfirst⟩
    · obtain ⟨alt', hmem, heq⟩ := ih hrest hr
      exact ⟨alt', mem_cons_of_mem _ hmem, heq⟩

/-- The rules on a line without comment can be written. -/
lemma isWritable_of_lineRules (hline : byte '#' ∉ line) (h : lineRules line = .ok rules) (hr : r ∈ rules) :
    r.IsWritable := by
  unfold lineRules at h
  split at h
  · cases h
  · rename_i left right hcut
    obtain ⟨heq, harrow⟩ := Text.cutAt_eq_some (by decide) hcut
    split at h
    · rename_i lhs hwords
      obtain ⟨alt, halt, hlhs, hrhs⟩ := exists_of_mapM_alternative h hr
      have hleft : lhs.IsWord ∧ lhs <:+: left :=
        Text.isWord_of_mem_words (hwords ▸ mem_singleton_self lhs)
      have hright : ∀ w ∈ r.rhs, w.IsWord ∧ w <:+: alt := fun w hw =>
        Text.isWord_of_mem_words (hrhs ▸ hw)
      have halt' : alt <:+: right := Text.isInfix_of_mem_splitOn halt
      have hfree : byte '#' ∉ left ∧ byte '#' ∉ right := by
        rw [heq] at hline
        simp only [mem_append, not_or] at hline
        exact ⟨hline.1, hline.2.2⟩
      exact {
        lhs_isWord := hlhs ▸ hleft.1
        lhs_comment := fun hmem => hfree.1 (hleft.2.subset (hlhs ▸ hmem))
        lhs_arrow := fun hinfix => harrow ((hlhs ▸ hinfix).trans hleft.2)
        rhs_isWord := fun w hw => (hright w hw).1
        rhs_comment := fun w hw hmem => hfree.2 (((hright w hw).2.trans halt').subset hmem)
        rhs_bar := fun w hw hmem => Text.notMem_of_mem_splitOn halt ((hright w hw).2.subset hmem) }
    · cases h

/-- The rules on lines can be written. -/
lemma isWritable_of_linesRules {number : Nat} {lines : List Text} (h : linesRules number lines = .ok rules)
    (hr : r ∈ rules) : r.IsWritable := by
  induction lines generalizing number rules with
  | nil =>
    cases h
    exact absurd hr not_mem_nil
  | cons line lines ih =>
    rw [linesRules] at h
    split at h
    · exact ih h hr
    · obtain ⟨first, hline, h⟩ := bind_eq_ok_iff.1 h
      obtain ⟨later, hlater, h⟩ := bind_eq_ok_iff.1 h
      cases h
      rcases mem_append.1 hr with hr | hr
      · exact isWritable_of_lineRules (Text.notMem_takeWhile _ line) (mapError_eq_ok_iff.1 hline) hr
      · exact ih hlater hr

lemma isWritable_of_load {text : Text} {g : Grammar} (h : load text = .ok g) :
    ∀ r ∈ g.rules, r.IsWritable := by
  intro r hr
  obtain ⟨rules, hlines, h⟩ := bind_eq_ok_iff.1 h
  cases rules with
  | nil => cases h
  | cons first rest =>
    cases h
    exact isWritable_of_linesRules hlines hr

/-! ### What is written -/

/-- A written rule: the left-hand side, a space, the arrow, a space and the symbols of the right-hand side. -/
lemma render_eq (r : Rule) :
    r.render = r.lhs ++ 32 :: (utf8 "->" ++ 32 :: Text.join [32] r.rhs) := by
  have harrow : utf8 " -> " = 32 :: (utf8 "->" ++ [32]) := by decide
  have hspace : utf8 " " = [32] := by decide
  rw [Rule.render, harrow, hspace]
  simp

lemma notMem_render {b : UInt8} (hb : b ∉ utf8 " -> ") (hlhs : b ∉ r.lhs) (hrhs : ∀ w ∈ r.rhs, b ∉ w) :
    b ∉ r.render := by
  have hspace : b ∉ utf8 " " := fun hmem =>
    hb ((by decide : utf8 " " ⊆ utf8 " -> ") hmem)
  simp only [Rule.render, mem_append, not_or]
  exact ⟨⟨hlhs, hb⟩, Text.notMem_join hspace hrhs⟩

/-- No arrow begins before the one of the rule: the space before it ends the left-hand side. -/
lemma cutAt_render (h : r.IsWritable) :
    Text.cutAt (utf8 "->") r.render = some (r.lhs ++ [32], 32 :: Text.join [32] r.rhs) := by
  have hassoc : r.render = (r.lhs ++ [32]) ++ (utf8 "->" ++ 32 :: Text.join [32] r.rhs) := by
    rw [render_eq]
    simp
  rw [hassoc]
  refine Text.cutAt_append fun t ht hsuffix hbegins => ?_
  obtain ⟨u, rfl, hu⟩ : ∃ u, t = u ++ [32] ∧ u <:+ r.lhs := by
    rcases suffix_concat_iff.1 hsuffix with rfl | ⟨u, rfl, hu⟩
    · exact absurd rfl ht
    · exact ⟨u, rfl, hu⟩
  have harrow : utf8 "->" = [45, 62] := by decide
  rw [harrow] at hbegins
  match u with
  | [] => simp at hbegins
  | [b] => simp at hbegins
  | b :: c :: u =>
    refine h.lhs_arrow (List.IsInfix.trans ?_ hu.isInfix)
    rw [harrow]
    simp only [cons_append, cons_prefix_cons] at hbegins
    exact ⟨[], u, by simp [hbegins.1, hbegins.2.1]⟩

lemma alternative_of_words {alt : Text} (h : Text.words alt = r.rhs) : alternative r.lhs alt = .ok r := by
  obtain ⟨lhs, rhs, hne⟩ := r
  obtain ⟨s, rest, rfl⟩ := exists_cons_of_ne_nil hne
  simp only [alternative, h]

/-- A written rule is read back. -/
lemma lineRules_render (h : r.IsWritable) : lineRules r.render = .ok [r] := by
  have hleft : Text.words (r.lhs ++ [32]) = [r.lhs] := by
    rw [Text.words_append_space h.lhs_isWord, Text.words_of_dropBlanks_eq_nil Text.dropBlanks_nil]
  have hright : Text.words (32 :: Text.join [32] r.rhs) = r.rhs := by
    rw [Text.words_cons_space, Text.words_join h.rhs_isWord]
  have hbar : byte '|' ∉ 32 :: Text.join [32] r.rhs := by
    rw [mem_cons, not_or]
    exact ⟨by decide, Text.notMem_join (by decide) h.rhs_bar⟩
  rw [lineRules, cutAt_render h]
  simp only [hleft, Text.splitOn_of_notMem hbar, mapM_cons, alternative_of_words hright, mapM_nil]
  rfl

/-- Written rules, one to a line, are read back. -/
lemma linesRules_render (number : Nat) (h : ∀ r ∈ rules, r.IsWritable) :
    linesRules number (rules.map Rule.render ++ [[]]) = .ok rules := by
  induction rules generalizing number with
  | nil =>
    have hblank : Text.isBlank (withoutComment []) = true := by
      rw [withoutComment, takeWhile_nil, Text.isBlank, Text.dropBlanks_nil]
      rfl
    rw [map_nil, nil_append, linesRules, if_pos hblank]
    rfl
  | cons r rules ih =>
    rw [forall_mem_cons] at h
    have hcomment : withoutComment r.render = r.render := by
      refine takeWhile_eq_self_iff.2 fun b hb => bne_iff_ne.2 ?_
      rintro rfl
      exact notMem_render (by decide) h.1.lhs_comment h.1.rhs_comment hb
    have hblank : ¬ Text.isBlank r.render = true := by
      intro hblank
      have hwords := Text.words_of_dropBlanks_eq_nil (isEmpty_iff.1 hblank)
      rw [render_eq, Text.words_append_space h.1.lhs_isWord] at hwords
      cases hwords
    rw [map_cons, cons_append, linesRules, hcomment, if_neg hblank, lineRules_render h.1,
      ih (number + 1) h.2]
    rfl

/-- The lines that a grammar is written on. -/
lemma lines_text (h : ∀ r ∈ rules, r.IsWritable) :
    Text.lines (rules.flatMap fun r => r.render ++ utf8 "\n") = rules.map Rule.render ++ [[]] := by
  induction rules with
  | nil => exact Text.splitOn_of_notMem not_mem_nil
  | cons r rules ih =>
    rw [forall_mem_cons] at h
    have hrender : byte '\n' ∉ r.render := by
      refine notMem_render (by decide) (h.1.lhs_isWord.notMem ?_) fun w hw => (h.1.rhs_isWord w hw).notMem ?_
        <;> decide
    have hbreak : utf8 "\n" = [byte '\n'] := by decide
    rw [flatMap_cons, hbreak, append_assoc, singleton_append, Text.lines,
      Text.splitOn_append_cons hrender, ← hbreak, ← Text.lines, ih h.2]
    rfl

lemma load_text {g : Grammar} (h : ∀ r ∈ g.rules, r.IsWritable) : load g.text = .ok g := by
  obtain ⟨rules, hne⟩ := g
  obtain ⟨r, rest, rfl⟩ := exists_cons_of_ne_nil hne
  rw [load, text, lines_text h, linesRules_render 1 h]
  rfl

/-! ### What a text identifies -/

variable {g g' : Grammar}

lemma eq_of_text_eq (hg : ∀ r ∈ g.rules, r.IsWritable) (hg' : ∀ r ∈ g'.rules, r.IsWritable)
    (h : g.text = g'.text) : g = g' := by
  have hload : load g.text = .ok g' := h ▸ load_text hg'
  rw [load_text hg] at hload
  exact Except.ok.inj hload

/-- Unless the hashes of their texts collide, grammars with the same digest are the same. -/
lemma eq_of_digest_eq (hg : ∀ r ∈ g.rules, r.IsWritable) (hg' : ∀ r ∈ g'.rules, r.IsWritable)
    (hhash : Set.InjOn Keccak.hash {g.text, g'.text}) (h : g.digest = g'.digest) : g = g' :=
  eq_of_text_eq hg hg' (hhash (by simp) (by simp) h)

/-- The text of a grammar that was read is read as that grammar again, so with the same rules in the same
order, the same start symbol, terminals, tags and digest. It tells grammars apart: two that were read and have
the same text have the same rules, and two with the same digest give the same trees and errors, unless the
hashes of their texts collide. -/
theorem load_text_of_load {source : Text} (h : load source = .ok g) :
    load g.text = .ok g ∧
      ∀ {source' : Text} {g' : Grammar}, load source' = .ok g' →
        (g.text = g'.text → g.rules = g'.rules) ∧
        (Set.InjOn Keccak.hash {g.text, g'.text} → g.digest = g'.digest →
          ∀ tokens, parse g tokens = parse g' tokens) := by
  have hg := isWritable_of_load h
  refine ⟨load_text hg, fun h' => ⟨fun htext => ?_, fun hhash hdigest tokens => ?_⟩⟩
  · rw [eq_of_text_eq hg (isWritable_of_load h') htext]
  · rw [eq_of_digest_eq hg (isWritable_of_load h') hhash hdigest]

/-- Arrows on the right, bars on the left, comments, and blanks of two and three bytes: two texts of one
grammar. -/
theorem load_text_of_load_unicode :
    ∃ g g' : Grammar, load (utf8 "# marks\nA|B\u00a0->->a\u2003-|c # last") = .ok g ∧
      load (utf8 "A|B\t-> ->a - \r\n\u3000\nA|B->c") = .ok g' ∧
      g.text = utf8 "A|B -> ->a -\nA|B -> c\n" ∧ load g.text = .ok g ∧ g.rules = g'.rules ∧
      ∀ tokens, parse g tokens = parse g' tokens := by
  let g : Grammar :=
    ⟨[⟨utf8 "A|B", [utf8 "->a", utf8 "-"], by decide⟩, ⟨utf8 "A|B", [utf8 "c"], by decide⟩], by decide⟩
  have hload : load (utf8 "# marks\nA|B\u00a0->->a\u2003-|c # last") = .ok g := by decide +kernel
  have hload' : load (utf8 "A|B\t-> ->a - \r\n\u3000\nA|B->c") = .ok g := by decide +kernel
  have hhash : Set.InjOn Keccak.hash {g.text, g.text} := by
    rw [Set.pair_eq_singleton]
    exact Set.injOn_singleton _ _
  obtain ⟨hrules, hparse⟩ := (load_text_of_load hload).2 hload'
  exact ⟨g, g, hload, hload', by decide, (load_text_of_load hload).1, hrules rfl, hparse hhash rfl⟩

end Grammar

end Lunify
