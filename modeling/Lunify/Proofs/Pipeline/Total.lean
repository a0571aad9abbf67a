import Lunify.Pipeline.Basic
import Lunify.Proofs.Rendering.Generate
import Lunify.Proofs.Scope.Check

/-!
# The stages fail on bad sources only

With the built-in grammar every source has a Lua text, or its failure is one that the source is to blame
for: it does not lex, it does not parse, or it breaks a scoping rule. Parsing always finds the derivation
that the chart promises, and the scope check and the rendering find all the parts of a node that they look
for.
-/

namespace Lunify

open Grammar

/-- Parsing with the built-in grammar fails on the tokens only. -/
lemma parse_builtin_eq_error {tokens : List Token} {e : ParseError}
    (h : parse builtin tokens = .error e) :
    e = .noNewline ∨ ∃ tok expected, e = .unexpected tok expected := by
  cases hnewline : endsWithNewline tokens with
  | false =>
    rw [parse, hnewline] at h
    exact .inl (Except.error.inj h).symm
  | true =>
    cases hs : (recognize builtin tokens).accepting? with
    | none =>
      simp only [parse, hnewline, if_true, hs] at h
      exact .inr ⟨_, _, (Except.error.inj h).symm⟩
    | some s =>
      obtain ⟨tree, htree, -⟩ := exists_parse_eq_ok acceptSymbol_notMem_builtin hnewline hs
      rw [htree] at h
      cases h

section Lua

variable {p : Pipeline} {source : Text} {tokens : List Token}

lemma lua_eq_lex {e : LexError} (hlex : lex source = .error e) : p.lua source = .error (.lex e) := by
  simp only [Pipeline.lua, Pipeline.stages, hlex]

lemma lua_eq_parse {e : ParseError} (hlex : lex source = .ok tokens)
    (hparse : parse p.grammar tokens = .error e) : p.lua source = .error (.parse e) := by
  simp only [Pipeline.lua, Pipeline.stages, hlex, hparse]

lemma lua_eq_ofTree {tree : Tree} (hlex : lex source = .ok tokens)
    (hparse : parse p.grammar tokens = .ok tree) : p.lua source = p.ofTree tree := by
  simp only [Pipeline.lua, Pipeline.stages, hlex, hparse]

end Lua

/-- A tree of a source has a Lua text, or it breaks a scoping rule that is checked. -/
lemma ofTree_builtin {source : Text} {tokens : List Token} {tree : Tree} (hlex : lex source = .ok tokens)
    (hparse : parse builtin tokens = .ok tree) (skipCheck : Bool) :
    (∃ lua, (Pipeline.mk builtin skipCheck false).ofTree tree = .ok lua) ∨
      skipCheck = false ∧ ∃ v, check tree = .error (.violation v) ∧
        (Pipeline.mk builtin skipCheck false).ofTree tree = .error (.scope v) := by
  obtain ⟨-, ht, -⟩ := isDerivation_of_parse_eq_ok acceptSymbol_notMem_builtin hparse
  obtain ⟨c, -, hgenerate⟩ := exists_generate hlex hparse
  unfold Pipeline.ofTree
  cases skipCheck with
  | true =>
    refine .inl ⟨terminated c.text, ?_⟩
    simp only [hgenerate]
    rfl
  | false =>
    rcases Scope.check_cases ht with ⟨-, hcheck⟩ | ⟨-, v, hcheck⟩
    · refine .inl ⟨terminated c.text, ?_⟩
      simp only [hcheck, hgenerate]
      rfl
    · refine .inr ⟨rfl, v, hcheck, ?_⟩
      simp only [hcheck]
      rfl

/-- With the built-in grammar, a source has a Lua text, or it fails to lex, to end its last line, to parse
or to respect a scoping rule. The stages never fail on their own account. -/
theorem lua_builtin (skipCheck : Bool) (source : Text) :
    (∃ lua, (Pipeline.mk builtin skipCheck false).lua source = .ok lua) ∨
    ∃ f, (Pipeline.mk builtin skipCheck false).lua source = .error f ∧ f.verdict ≠ .internal ∧
      ((∃ e, f = .lex e) ∨ f = .parse .noNewline ∨ (∃ tok expected, f = .parse (.unexpected tok expected)) ∨
        skipCheck = false ∧ ∃ v, f = .scope v) := by
  set p : Pipeline := ⟨builtin, skipCheck, false⟩
  have hgrammar : p.grammar = builtin := rfl
  cases hlex : lex source with
  | error e =>
    refine .inr ⟨.lex e, lua_eq_lex hlex, ?_, .inl ⟨e, rfl⟩⟩
    cases e <;> simp [Failure.verdict]
  | ok tokens =>
    cases hparse : parse builtin tokens with
    | error e =>
      refine .inr ⟨.parse e, lua_eq_parse hlex (hgrammar ▸ hparse), ?_⟩
      rcases parse_builtin_eq_error hparse with rfl | ⟨tok, expected, rfl⟩
      · exact ⟨by simp [Failure.verdict], .inr (.inl rfl)⟩
      · exact ⟨by simp [Failure.verdict], .inr (.inr (.inl ⟨tok, expected, rfl⟩))⟩
    | ok tree =>
      rw [lua_eq_ofTree hlex (hgrammar ▸ hparse)]
      rcases ofTree_builtin hlex hparse skipCheck with ⟨lua, hlua⟩ | ⟨hskip, v, -, hfailure⟩
      · exact .inl ⟨lua, hlua⟩
      · exact .inr ⟨.scope v, hfailure, by simp [Failure.verdict], .inr (.inr (.inr ⟨hskip, v, rfl⟩))⟩

end Lunify
