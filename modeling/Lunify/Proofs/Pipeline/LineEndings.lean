import Lunify.Proofs.Pipeline.Total
import Lunify.Proofs.Rendering.Composition
import Lunify.Proofs.Scope.Moved
import Lunify.Proofs.Token.Returns

/-!
# Lua texts do not depend on line endings

With a carriage return before every line feed, a source has the same tokens but for the columns of the ends
of lines. These columns reach the tree and the errors, but nothing looks at them: the tree is the same up
to them, the scoping rules do not depend on places, and no step of the rendering is made from the end of a
line. So the Lua text is the same, or the verdict is (`lua_crlf`).
-/

namespace Lunify

open List

open Grammar Tree

/-! ### Parsing -/

lemma endsWithNewline_moved (f : Token → Position) (tokens : List Token) :
    endsWithNewline (tokens.map (Token.moved f)) = endsWithNewline tokens := by
  have hdedent : Token.isDivider dedentText ∘ Token.moved f = Token.isDivider dedentText := rfl
  unfold endsWithNewline
  rw [← map_reverse, dropWhile_map, hdedent]
  cases tokens.reverse.dropWhile (Token.isDivider dedentText) <;> rfl

/-- Tokens at other places have the same tree at other places, or none for the same reason. -/
lemma parse_moved (f : Token → Position) (tokens : List Token) :
    (∃ tree, parse builtin tokens = .ok tree ∧
      parse builtin (tokens.map (Token.moved f)) = .ok (tree.moved f)) ∨
    ∃ e e', parse builtin tokens = .error e ∧ parse builtin (tokens.map (Token.moved f)) = .error e' ∧
      (Failure.parse e').verdict = (Failure.parse e).verdict := by
  have hnewline := endsWithNewline_moved f tokens
  have hchart : recognize builtin (tokens.map (Token.moved f)) = recognize builtin tokens := by
    rw [recognize, map_map]
    rfl
  cases hparse : parse builtin tokens with
  | ok tree =>
    obtain ⟨hlabel, ht, rfl⟩ := isDerivation_of_parse_eq_ok acceptSymbol_notMem_builtin hparse
    have hmoved := parse_leaves (ht.moved f) ((label_moved f tree).trans hlabel)
    rw [leaves_moved, hnewline] at hmoved
    exact .inl ⟨tree, rfl, hmoved (endsWithNewline_of_parse hparse)⟩
  | error e =>
    refine .inr ⟨e, ?_⟩
    cases hends : endsWithNewline tokens with
    | false =>
      simp only [parse, hnewline, hends, Bool.false_eq_true, if_false] at hparse ⊢
      obtain rfl := Except.error.inj hparse
      exact ⟨_, trivial, rfl, rfl⟩
    | true =>
      cases haccepting : (recognize builtin tokens).accepting? with
      | none =>
        simp only [parse, hnewline, hends, if_true, hchart, haccepting] at hparse ⊢
        obtain rfl := Except.error.inj hparse
        exact ⟨_, trivial, rfl, rfl⟩
      | some s =>
        obtain ⟨tree, htree, -⟩ := exists_parse_eq_ok acceptSymbol_notMem_builtin hends haccepting
        rw [htree] at hparse
        cases hparse

/-! ### Rendering -/

/-- Steps that go through tokens stay the same if all that is moved is layout. -/
lemma Accounts.map_moved {f : Token → Position} (hf : ∀ t : Token, t.isSynthetic = false → f t = t.pos)
    {done tokens : List Token} {steps : List Step} (h : Accounts done steps tokens) :
    steps.map (Step.moved f) = steps := by
  have hread : ∀ t : Token, t.isSynthetic = false → t.moved f = t := by
    intro t ht
    rw [Token.moved, hf t ht]
    rfl
  have hvisible : ∀ t : Token, t.isVisible = true → t.moved f = t :=
    fun t ht => hread t (Token.isSynthetic_of_isVisible ht)
  induction h with
  | nil => rfl
  | silent _ _ ih => exact ih
  | token ht _ _ ih | keyword _ ht _ _ ih | drop _ ht _ ih | before _ ht _ _ ih =>
    rw [map_cons, ih, Step.moved, hvisible _ ht]
  | insert _ _ _ ih => rw [map_cons, ih, Step.moved]
  | span _ ht _ _ ih =>
    rw [map_cons, ih, Step.moved, hvisible _ (ht _ (by simp)), hvisible _ (ht _ (by simp))]
  | close _ _ hopener _ hlast _ ih =>
    have hlast := (mem_filter.1 (mem_of_getLast? hlast)).2
    rw [map_cons, ih, Step.moved, hvisible _ hopener, hread _ (by simpa using hlast)]

lemma Token.returned_of_read {t : Token} (ht : t.isSynthetic = false) : t.returned = t.pos := by
  rw [returned, Lexer.isDivider_of_read (by simp) ht]
  rfl

/-- The ends of lines do not show in expressions. -/
lemma shows_returned : Plan.Shows (IsPart builtin) Token.returned Token.returned id id := by
  refine ⟨fun _ => rfl, IsPart.child, fun {e tok} he hexpression hfirst => ?_⟩
  have hlabel : e.label = utf8 "<expression>" := of_decide_eq_true hexpression
  replace he := he.isDerivation (hlabel ▸ (isTerminal_builtin_eq_false_iff "<expression>").2 (by decide))
  have hstays : ∀ t ∈ e.leaves, t.returned = t.pos := fun t ht => Token.returned_of_read
    (Token.isSynthetic_of_isVisible (isVisible_of_mem_leaves he (by decide) hlabel t ht))
  rw [first?_eq_head? he] at hfirst
  rw [moved_eq_self e hstays, hstays tok (mem_of_mem_head? hfirst)]

/-- A program is rendered by the same steps if the ends of its lines are further right. -/
lemma plan_returned {source : Text} {tokens : List Token} {tree : Tree} (hlex : lex source = .ok tokens)
    (hparse : parse builtin tokens = .ok tree) :
    Plan.plan id (tree.moved Token.returned) = Plan.plan id tree := by
  obtain ⟨-, ht, -⟩ := isDerivation_of_parse_eq_ok acceptSymbol_notMem_builtin hparse
  rw [Plan.plan_moved shows_returned tree (shows_returned.children (.inl ht))]
  exact (accounts_and_goes hlex hparse).1.map_moved fun _ => Token.returned_of_read

/-! ### All stages -/

lemma ofTree_returned {source : Text} {tokens : List Token} {tree : Tree} (hlex : lex source = .ok tokens)
    (hparse : parse builtin tokens = .ok tree) (p : Pipeline) :
    p.ofTree (tree.moved Token.returned) = p.ofTree tree ∨
      ∃ v v', p.ofTree tree = .error (.scope v) ∧ p.ofTree (tree.moved Token.returned) = .error (.scope v') := by
  obtain ⟨-, ht, -⟩ := isDerivation_of_parse_eq_ok acceptSymbol_notMem_builtin hparse
  have hgenerate : generate (tree.moved Token.returned) = generate tree := by
    rw [generate, plan_returned hlex hparse, ← generate]
  unfold Pipeline.ofTree
  rw [hgenerate]
  cases p.skipCheck with
  | true => exact .inl rfl
  | false =>
    rcases check_moved Token.returned ht with ⟨hcheck, hcheck'⟩ | ⟨v, v', hcheck, hcheck'⟩
    · rw [hcheck, hcheck']
      exact .inl rfl
    · rw [hcheck, hcheck']
      exact .inr ⟨v, v', rfl, rfl⟩

/-- Line endings make no difference. With a carriage return before every line feed, a source fails to lex
with the same error, or its tokens differ in the columns of the ends of lines alone. With the built-in
grammar it has the same Lua text, or it fails with the same verdict, whether or not the scoping rules are
checked and the Lua text is read back. -/
theorem lua_crlf (source : Text) (skipCheck verify : Bool) :
    lex (crlf source) = (lex source).map (List.map (Token.moved Token.returned)) ∧
    ((∃ lua, (Pipeline.mk builtin skipCheck verify).lua source = .ok lua ∧
        (Pipeline.mk builtin skipCheck verify).lua (crlf source) = .ok lua) ∨
      ∃ e e', (Pipeline.mk builtin skipCheck verify).lua source = .error e ∧
        (Pipeline.mk builtin skipCheck verify).lua (crlf source) = .error e' ∧ e'.verdict = e.verdict) := by
  set p : Pipeline := ⟨builtin, skipCheck, verify⟩
  have hgrammar : p.grammar = builtin := rfl
  have hlex' := lex_crlf source
  refine ⟨hlex', ?_⟩
  cases hlex : lex source with
  | error e =>
    rw [hlex] at hlex'
    exact .inr ⟨_, _, lua_eq_lex hlex, lua_eq_lex hlex', rfl⟩
  | ok tokens =>
    rw [hlex] at hlex'
    rcases parse_moved Token.returned tokens with ⟨tree, hparse, hparse'⟩ | ⟨e, e', hparse, hparse', hsame⟩
    · rw [lua_eq_ofTree hlex (hgrammar ▸ hparse), lua_eq_ofTree hlex' (hgrammar ▸ hparse')]
      rcases ofTree_returned hlex hparse p with heq | ⟨v, v', hv, hv'⟩
      · rw [heq]
        cases p.ofTree tree with
        | ok lua => exact .inl ⟨lua, rfl, rfl⟩
        | error e => exact .inr ⟨e, e, rfl, rfl, rfl⟩
      · exact .inr ⟨_, _, hv, hv', rfl⟩
    · exact .inr ⟨_, _, lua_eq_parse hlex (hgrammar ▸ hparse), lua_eq_parse hlex' (hgrammar ▸ hparse'), hsame⟩

end Lunify
