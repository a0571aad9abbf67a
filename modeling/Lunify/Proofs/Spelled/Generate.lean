import Lunify.Proofs.Rendering.Generate

/-!
# The pieces of a rendered program stay apart

Scanning the text of a rendered program gives the tokens of the texts that its steps write, one text after the
other (`tokens_generate`). So no two texts join, begin a comment or open a long bracket together, and none is
cut. A number may end with a point and a name may begin with an `e`, so this depends on what can follow what,
and on the lines that statements are on.
-/

namespace Lunify

open Tree Grammar
open Chunk (Lexes)

lemma lexes_terminated {s : Text} {ls : List Chunk.Lexeme} (h : Lexes s ls) : Lexes (terminated s) ls := by
  unfold terminated
  split
  · exact h
  · exact h.append_blanks (by simp [Chunk.IsBlank])

/-- The tree of a program is rendered as the tokens that it stands for. -/
lemma Tree.Stated.exists_generate {source : Text} {tokens : List Token} {tree : Tree} {ls : List Chunk.Lexeme}
    (h : Stated True "<program>" tree ls) (hlex : lex source = .ok tokens)
    (hparse : parse builtin tokens = .ok tree) :
    ∃ out, generate tree = .ok out ∧ Lexes out ls ∧ (Plan.plan id tree).flatMap Step.values = ls := by
  obtain ⟨-, -, hleaves⟩ := isDerivation_of_parse_eq_ok acceptSymbol_notMem_builtin hparse
  obtain ⟨hchain, hplaced⟩ := isChain_of_lex hlex
  have hlays := (outcome_iff_lays (by decide)).1 (h.outcome (laid_of_parse hlex hparse))
  have hsets := hlays.sets [] (by simp [LineStart])
  rw [hleaves] at hsets
  have hstands : Stands [] 0 Cursor.start [] (tokens ++ []) := by simpa using stands_start hplaced
  obtain ⟨c, hrun, hlexes, -⟩ := hsets.writes trivial (by simpa using ⟨hchain, hplaced⟩) hstands .nil trivial
  refine ⟨terminated c.text, ?_, lexes_terminated hlexes, hsets.values trivial⟩
  rw [generate, hrun]
  rfl

/-- A program that Lua can read the strings of is rendered as the tokens that it stands for. -/
lemma exists_generate_stated {source : Text} {tokens : List Token} {tree : Tree}
    (hlex : lex source = .ok tokens) (hparse : parse builtin tokens = .ok tree)
    (hplain : ∀ tok ∈ tokens, tok.IsPlain) :
    ∃ ls out, Stated True "<program>" tree ls ∧ generate tree = .ok out ∧ Lexes out ls ∧
      (Plan.plan id tree).flatMap Step.values = ls := by
  obtain ⟨hlabel, hderivation, hleaves⟩ := isDerivation_of_parse_eq_ok acceptSymbol_notMem_builtin hparse
  have hfits : Fits True tree := fun tok htok =>
    ⟨lexed_of_mem_lex hlex tok (hleaves ▸ htok), fun _ => hplain tok (hleaves ▸ htok)⟩
  obtain ⟨ls, hstated⟩ := exists_stated ⟨hderivation, hlabel.trans start_builtin⟩ hfits (by decide)
  obtain ⟨out, hout⟩ := hstated.exists_generate hlex hparse
  exact ⟨ls, out, hstated, hout⟩

/-- An expression that is rendered on its own is written as the tokens that it stands for. -/
lemma exists_fragment_spelled {e : Tree} (he : Derives "<expression>" e) (hfits : Fits True e) :
    ∃ ls tok out, Spelled True "<expression>" e ls ∧ e.first? = some tok ∧ fragment e = .ok out ∧ Lexes out ls ∧
      (Plan.plan (Position.relativeTo tok.pos) e).flatMap Step.values = ls := by
  obtain ⟨ls, hspelled⟩ := exists_spelled he hfits (by decide)
  obtain ⟨tok, -, htok, -⟩ := hspelled.leads
  have hwritten : Written True (Position.relativeTo tok.pos) Open e ls Ended := hspelled.written hfits.allLexed _
  have hemits := hwritten.emits trivial
  obtain ⟨c, hrun, hlexes, -⟩ := hemits.writes Cursor.start [] .nil open_start
  have htext : Plan.fragmentText (Plan.plan (Position.relativeTo tok.pos) e) = .ok c.text := by
    rw [Plan.fragmentText, hrun]
    rfl
  exact ⟨ls, tok, c.text, hspelled, htok, by simp only [fragment, htok, htext], hlexes, hemits.values⟩

/-- Scanning a rendered program gives the tokens of the single texts that are written, in their order, if Lua
can read its strings as they are. The same holds of every expression that is rendered on its own. -/
theorem tokens_generate {source : Text} {tokens : List Token} {tree : Tree}
    (hlex : lex source = .ok tokens) (hparse : parse builtin tokens = .ok tree)
    (hplain : ∀ tok ∈ tokens, tok.IsPlain) :
    (∃ out, generate tree = .ok out ∧ (Chunk.tokens out).map Chunk.Token.lexeme =
      (Plan.plan id tree).flatMap Step.values ++ [.finish]) ∧
    ∀ e : Tree, e.IsDerivation builtin → e.label = expressionLabel → e.leaves <:+: tokens →
      ∃ tok out, e.first? = some tok ∧ fragment e = .ok out ∧ (Chunk.tokens out).map Chunk.Token.lexeme =
        (Plan.plan (Position.relativeTo tok.pos) e).flatMap Step.values ++ [.finish] := by
  constructor
  · obtain ⟨ls, out, -, hgenerate, hlexes, hvalues⟩ := exists_generate_stated hlex hparse hplain
    exact ⟨out, hgenerate, by rw [hvalues, Chunk.map_lexeme_tokens hlexes]⟩
  · intro e he hlabel hpart
    have hfits : Fits True e := fun tok htok =>
      ⟨lexed_of_mem_lex hlex tok (hpart.subset htok), fun _ => hplain tok (hpart.subset htok)⟩
    obtain ⟨ls, tok, out, -, htok, hfragment, hlexes, hvalues⟩ := exists_fragment_spelled ⟨he, hlabel⟩ hfits
    exact ⟨tok, out, htok, hfragment, by rw [hvalues, Chunk.map_lexeme_tokens hlexes]⟩

/-- A number that ends with a point does not go on with the name on the next line, and two minus signs begin no
comment. -/
theorem tokens_generate_point :
    ∃ tokens tree, lex (utf8 "x = 1.\ne = - -x\n") = .ok tokens ∧ parse builtin tokens = .ok tree ∧
      generate tree = .ok (utf8 "x = 1.\ne = - -x\n") ∧
      (Chunk.tokens (utf8 "x = 1.\ne = - -x\n")).map Chunk.Token.lexeme =
        (Plan.plan id tree).flatMap Step.values ++ [.finish] := by
  let source := utf8 "x = 1.\ne = - -x\n"
  obtain ⟨hlex, hparse⟩ := lex_parse_ofSource source (by decide +kernel)
  have hkinds : ∀ tok ∈ (Tree.ofSource source).leaves, tok.kind ≠ .string := by decide +kernel
  obtain ⟨⟨out, hgenerate, htokens⟩, -⟩ := tokens_generate hlex hparse
    fun tok htok hkind => absurd hkind (hkinds tok htok)
  have hout : generate (.ofSource source) = .ok (utf8 "x = 1.\ne = - -x\n") := by decide +kernel
  obtain rfl := Except.ok.inj (hgenerate.symm.trans hout)
  exact ⟨_, _, hlex, hparse, hout, htokens⟩

end Lunify
