import Mathlib.Computability.ContextFreeGrammar
import Lunify.Grammar.Basic

/-!
# The language of a grammar

The rules of a grammar are those of a context-free grammar whose alphabet are the symbols: a symbol
without rules is read as a terminal, any other as a nonterminal. A word of the language is a list of
symbols without rules that the start symbol derives by rewriting.

Rewriting steps may come in any order, which is the wrong shape for an induction along a chart.
`Grammar.Yields` is the same relation with the derivation as a forest: `g.Yields α w` says that the
symbols of `α` derive consecutive parts of `w`. The main statement is
`Grammar.mem_language_iff_yields`.
-/

namespace Lunify

open List

namespace Grammar

variable {r : Rule}

/-- A symbol as a letter of the context-free grammar. -/
def letter (g : Grammar) (s : Symbol) :=
  if g.isTerminal s then Symbol.terminal (N := Symbol) s else Symbol.nonterminal s

/-- A rule over the letters of a grammar. -/
def letterRule (g : Grammar) (r : Rule) : ContextFreeRule Symbol Symbol :=
  ⟨r.lhs, r.rhs.map g.letter⟩

/-- The rules of a grammar as a context-free grammar. -/
abbrev toContextFree (g : Grammar) : ContextFreeGrammar Symbol :=
  ⟨Symbol, g.start, (g.rules.map g.letterRule).toFinset⟩

/-- The words that the start symbol derives. -/
def language (g : Grammar) : Language Symbol :=
  g.toContextFree.language

/-- A forest of derivations: the symbols on the left derive, one after the other, the parts of the
word on the right. -/
inductive Yields (g : Grammar) : List Symbol → List Symbol → Prop
  | nil : Yields g [] []
  | terminal {s : Symbol} {α w : List Symbol} (hs : g.isTerminal s) (hα : Yields g α w) :
      Yields g (s :: α) (s :: w)
  | rule {r : Rule} {α u v : List Symbol} (hr : r ∈ g.rules) (hu : Yields g r.rhs u)
      (hv : Yields g α v) : Yields g (r.lhs :: α) (u ++ v)

/-! ### Terminals -/

lemma isTerminal_eq_false_iff (g : Grammar) (s : Symbol) :
    g.isTerminal s = false ↔ ∃ r ∈ g.rules, r.lhs = s := by
  simp [isTerminal]

lemma isTerminal_lhs {g : Grammar} (hr : r ∈ g.rules) : g.isTerminal r.lhs = false :=
  (g.isTerminal_eq_false_iff r.lhs).2 ⟨r, hr, rfl⟩

lemma isTerminal_start (g : Grammar) : g.isTerminal g.start = false :=
  isTerminal_lhs (head_mem g.rules_ne_nil)

lemma letter_eq_terminal_iff (g : Grammar) (s t : Symbol) :
    g.letter s = Symbol.terminal t ↔ g.isTerminal s ∧ s = t := by
  unfold letter
  split <;> simp_all

lemma letter_eq_nonterminal_iff (g : Grammar) (s t : Symbol) :
    g.letter s = Symbol.nonterminal t ↔ g.isTerminal s = false ∧ s = t := by
  unfold letter
  split <;> simp_all

/-! ### Forests -/

namespace Yields

variable {g : Grammar}

variable {w α β : List Symbol}

lemma append {u v : List Symbol} (hα : g.Yields α u) (hβ : g.Yields β v) :
    g.Yields (α ++ β) (u ++ v) := by
  induction hα with
  | nil => exact hβ
  | terminal hs _ ih => exact .terminal hs ih
  | @rule r α' u' v' hr hu _ _ ih =>
    rw [append_assoc]
    exact .rule hr hu ih

/-- A forest over two lists of symbols falls into a forest over each. -/
lemma exists_of_append (h : g.Yields (α ++ β) w) : ∃ u v, w = u ++ v ∧ g.Yields α u ∧ g.Yields β v := by
  generalize hγ : α ++ β = γ at h
  induction h generalizing α with
  | nil =>
    obtain ⟨rfl, rfl⟩ := append_eq_nil_iff.1 hγ
    exact ⟨[], [], rfl, .nil, .nil⟩
  | @terminal s γ' w' hs hγ' ih =>
    rcases append_eq_cons_iff.1 hγ with ⟨rfl, rfl⟩ | ⟨α', rfl, rfl⟩
    · exact ⟨[], s :: w', rfl, .nil, .terminal hs hγ'⟩
    · obtain ⟨u, v, rfl, hu, hv⟩ := ih rfl
      exact ⟨s :: u, v, rfl, .terminal hs hu, hv⟩
  | @rule r γ' u' v' hr hu' hv' _ ih =>
    rcases append_eq_cons_iff.1 hγ with ⟨rfl, rfl⟩ | ⟨α', rfl, rfl⟩
    · exact ⟨[], u' ++ v', rfl, .nil, .rule hr hu' hv'⟩
    · obtain ⟨u, v, rfl, hu, hv⟩ := ih rfl
      exact ⟨u' ++ u, v, (append_assoc u' u v).symm, .rule hr hu' hu, hv⟩

/-- Symbols without rules derive only themselves. -/
lemma eq_of_terminals (hα : ∀ s ∈ α, g.isTerminal s) (h : g.Yields α w) : w = α := by
  induction h with
  | nil => rfl
  | @terminal s α' w' _ _ ih =>
    rw [ih fun t ht => hα t (mem_cons_of_mem s ht)]
  | @rule r α' u v hr _ _ _ _ =>
    have hlhs : g.isTerminal r.lhs := hα r.lhs mem_cons_self
    rw [isTerminal_lhs hr] at hlhs
    exact absurd hlhs Bool.false_ne_true

lemma of_terminals (hα : ∀ s ∈ α, g.isTerminal s) : g.Yields α α := by
  induction α with
  | nil => exact .nil
  | cons s α ih =>
    exact .terminal (hα s mem_cons_self) (ih fun t ht => hα t (mem_cons_of_mem s ht))

/-- Undoing a rewriting step: what the symbols of a right-hand side derive, its left-hand side
derives in their place. -/
lemma of_rewrite (hr : r ∈ g.rules) (h : g.Yields (α ++ r.rhs ++ β) w) : g.Yields (α ++ r.lhs :: β) w := by
  obtain ⟨u, v, rfl, hu, hv⟩ := exists_of_append h
  obtain ⟨u₁, u₂, rfl, hu₁, hu₂⟩ := exists_of_append hu
  rw [append_assoc]
  exact hu₁.append (.rule hr hu₂ hv)

/-! ### Forests and rewriting -/

lemma letterRule_mem (hr : r ∈ g.rules) : g.letterRule r ∈ g.toContextFree.rules := by
  simp only [toContextFree, mem_toFinset]
  exact mem_map_of_mem hr

/-- A forest gives a derivation by rewriting. -/
lemma derives (h : g.Yields α w) : g.toContextFree.Derives (α.map g.letter) (w.map Symbol.terminal) := by
  induction h with
  | nil => exact ContextFreeGrammar.Derives.refl []
  | @terminal s α' w' hs _ ih =>
    have hletter : g.letter s = Symbol.terminal s := (g.letter_eq_terminal_iff s s).2 ⟨hs, rfl⟩
    rw [map_cons, map_cons, hletter]
    exact ih.append_left [Symbol.terminal s]
  | @rule r α' u v hr _ _ ihu ihv =>
    have hletter : g.letter r.lhs = Symbol.nonterminal r.lhs :=
      (g.letter_eq_nonterminal_iff r.lhs r.lhs).2 ⟨isTerminal_lhs hr, rfl⟩
    have hstep : g.toContextFree.Produces [Symbol.nonterminal r.lhs] (r.rhs.map g.letter) :=
      ⟨g.letterRule r, letterRule_mem hr, ContextFreeRule.Rewrites.input_output⟩
    rw [map_cons, map_append, hletter]
    have hhead := (hstep.trans_derives ihu).append_right (α'.map g.letter)
    exact hhead.trans (ihv.append_left (u.map Symbol.terminal))

/-- A rewriting step between lists of letters replaces the left-hand side of a rule of the grammar
by its right-hand side. -/
lemma exists_of_produces {β : List _} (h : g.toContextFree.Produces (α.map g.letter) β) :
    ∃ r ∈ g.rules, ∃ α₁ α₂, α = α₁ ++ r.lhs :: α₂ ∧ β = (α₁ ++ r.rhs ++ α₂).map g.letter := by
  obtain ⟨r', hr', hrewrites⟩ := h
  obtain ⟨p, q, hα, rfl⟩ := hrewrites.exists_parts
  obtain ⟨r, hr, rfl⟩ := mem_map.1 (mem_toFinset.1 hr')
  rw [append_assoc] at hα
  obtain ⟨α₁, α', rfl, rfl, hα'⟩ := map_eq_append_iff.1 hα
  obtain ⟨s, α₂, rfl, hs, rfl⟩ := map_eq_cons_iff.1 hα'
  obtain ⟨-, rfl⟩ := (g.letter_eq_nonterminal_iff s r.lhs).1 hs
  refine ⟨r, hr, α₁, α₂, rfl, ?_⟩
  rw [map_append, map_append]
  rfl

/-- A derivation by rewriting gives a forest. -/
lemma of_derives (h : g.toContextFree.Derives (α.map g.letter) (w.map Symbol.terminal)) : g.Yields α w := by
  generalize hβ : α.map g.letter = β at h
  -- The induction adds steps at the front, so that the symbols it speaks about remain letters.
  induction h using Relation.ReflTransGen.head_induction_on generalizing α with
  | refl =>
    have hmem : ∀ s ∈ α, g.isTerminal s := by
      intro s hs
      have hs' : g.letter s ∈ w.map Symbol.terminal := hβ ▸ mem_map_of_mem hs
      obtain ⟨t, -, ht⟩ := mem_map.1 hs'
      exact ((g.letter_eq_terminal_iff s t).1 ht.symm).1
    have hletters : α.map g.letter = α.map Symbol.terminal := by
      refine map_congr_left fun s hs => ?_
      exact (g.letter_eq_terminal_iff s s).2 ⟨hmem s hs, rfl⟩
    have hinj : Function.Injective (Symbol.terminal (T := Symbol) (N := Symbol)) :=
      fun _ _ hst => Symbol.terminal.inj hst
    have hα : α = w := map_injective_iff.2 hinj (hletters ▸ hβ)
    exact hα ▸ of_terminals hmem
  | head hstep _ ih =>
    subst hβ
    obtain ⟨r, hr, α₁, α₂, rfl, rfl⟩ := exists_of_produces hstep
    exact of_rewrite hr (ih rfl)

end Yields

/-- The words of the language are those that a forest over the start symbol derives. -/
theorem mem_language_iff_yields (g : Grammar) (w : List Symbol) :
    w ∈ g.language ↔ g.Yields [g.start] w := by
  have hstart : [g.start].map g.letter = [Symbol.nonterminal g.toContextFree.initial] := by
    rw [map_singleton, (g.letter_eq_nonterminal_iff g.start g.start).2
      ⟨g.isTerminal_start, rfl⟩]
  unfold language
  rw [ContextFreeGrammar.mem_language_iff, ← hstart]
  exact ⟨Yields.of_derives, Yields.derives⟩

end Grammar

end Lunify
