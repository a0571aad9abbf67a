import Lunify.Proofs.Grammar.Language

/-!
# What a sentential form begins with

A list of terminals is viable if the start symbol derives a sentential form that begins with it
(`Grammar.Begins`). The form may go on with symbols that derive no word at all, so that this asks less
than a word of the language with that beginning.

`Grammar.Offers` is the same relation as a path through a forest: `g.Offers α w t` says that the symbols of
`α` derive a form in which `t` comes right after `w`. The path goes past symbols that derive parts of `w`,
and into the symbol that has `t`.
-/

namespace Lunify

open List

namespace Grammar

/-- Whether the start symbol derives a sentential form that begins with the given terminals. -/
def Begins (g : Grammar) (w : List Symbol) : Prop :=
  ∃ rest, g.toContextFree.Derives [Symbol.nonterminal g.start] (w.map Symbol.terminal ++ rest)

/-- The path to a terminal: the symbols on the left derive a form that begins with the word and goes on with
the terminal. -/
inductive Offers (g : Grammar) : List Symbol → List Symbol → Symbol → Prop
  | here {t : Symbol} {α : List Symbol} (ht : g.isTerminal t) : Offers g (t :: α) [] t
  | inside {r : Rule} {α w : List Symbol} {t : Symbol} (hr : r ∈ g.rules) (h : Offers g r.rhs w t) :
      Offers g (r.lhs :: α) w t
  | after {s t : Symbol} {α u v : List Symbol} (hs : g.Yields [s] u) (h : Offers g α v t) :
      Offers g (s :: α) (u ++ v) t

variable {g : Grammar}

lemma Begins.of_append {u v : List Symbol} (h : g.Begins (u ++ v)) : g.Begins u := by
  obtain ⟨rest, h⟩ := h
  refine ⟨v.map Symbol.terminal ++ rest, ?_⟩
  rwa [← append_assoc, ← map_append]

lemma letter_start (g : Grammar) : g.letter g.start = Symbol.nonterminal g.start :=
  (g.letter_eq_nonterminal_iff g.start g.start).2 ⟨g.isTerminal_start, rfl⟩

/-- Letters that are terminals stand for themselves. -/
lemma eq_of_map_letter {α w : List Symbol} (h : α.map g.letter = w.map Symbol.terminal) :
    α = w ∧ ∀ s ∈ α, g.isTerminal s := by
  induction α generalizing w with
  | nil => exact ⟨(map_eq_nil_iff.1 h.symm).symm, fun s hs => absurd hs not_mem_nil⟩
  | cons s α ih =>
    obtain ⟨t, w, rfl, hst, hw⟩ := map_eq_cons_iff.1 h.symm
    obtain ⟨hs, rfl⟩ := (g.letter_eq_terminal_iff s t).1 hst.symm
    obtain ⟨rfl, hα⟩ := ih hw.symm
    exact ⟨rfl, forall_mem_cons.2 ⟨hs, hα⟩⟩

namespace Offers

variable {α β u v w : List Symbol} {t : Symbol}

lemma isTerminal (h : g.Offers α w t) : g.isTerminal t = true := by
  induction h with
  | here ht => exact ht
  | inside _ _ ih => exact ih
  | after _ _ ih => exact ih

lemma append_right (h : g.Offers α w t) (β : List Symbol) : g.Offers (α ++ β) w t := by
  induction h with
  | here ht => exact .here ht
  | inside hr h _ => exact .inside hr h
  | after hs _ ih => exact .after hs ih

/-- A path past symbols that derive a word. -/
lemma append_left (hα : g.Yields α u) (h : g.Offers β v t) : g.Offers (α ++ β) (u ++ v) t := by
  induction hα with
  | nil => exact h
  | @terminal s α' w' hs _ ih =>
    have hself : g.Yields [s] [s] := .terminal hs .nil
    exact after (u := [s]) hself ih
  | @rule r α' u' v' hr hu _ _ ih =>
    have hlhs : g.Yields [r.lhs] (u' ++ []) := .rule hr hu .nil
    rw [append_nil] at hlhs
    rw [append_assoc]
    exact .after hlhs ih

/-- A path through two lists of symbols ends in the first one, or goes past it. -/
lemma exists_of_append (h : g.Offers (α ++ β) w t) :
    g.Offers α w t ∨ ∃ u v, w = u ++ v ∧ g.Yields α u ∧ g.Offers β v t := by
  induction α generalizing w with
  | nil => exact .inr ⟨[], w, rfl, .nil, h⟩
  | cons s α ih =>
    cases h with
    | here ht => exact .inl (.here ht)
    | inside hr h => exact .inl (.inside hr h)
    | @after _ _ _ u _ hs h =>
      rcases ih h with h | ⟨u', v', rfl, hα, hβ⟩
      · exact .inl (.after hs h)
      · exact .inr ⟨u ++ u', v', (append_assoc u u' v').symm, hs.append hα, hβ⟩

/-- Undoing a rewriting step. -/
lemma of_rewrite {r : Rule} (hr : r ∈ g.rules) (h : g.Offers (α ++ r.rhs ++ β) w t) :
    g.Offers (α ++ r.lhs :: β) w t := by
  rw [append_assoc] at h
  rcases h.exists_of_append with h | ⟨u, v, rfl, hα, h⟩
  · exact h.append_right _
  · refine append_left hα ?_
    rcases h.exists_of_append with h | ⟨u', v', rfl, hrhs, h⟩
    · exact .inside hr h
    · have hlhs : g.Yields [r.lhs] (u' ++ []) := .rule hr hrhs .nil
      rw [append_nil] at hlhs
      exact .after hlhs h

/-- A derivation by rewriting gives a path to each terminal at the beginning of its last form. -/
lemma of_derives {rest : List _} (h : g.toContextFree.Derives (α.map g.letter)
    (w.map Symbol.terminal ++ Symbol.terminal t :: rest)) : g.Offers α w t := by
  generalize hγ : α.map g.letter = γ at h
  induction h using Relation.ReflTransGen.head_induction_on generalizing α with
  | refl =>
    obtain ⟨α₁, α', rfl, hα₁, hα'⟩ := map_eq_append_iff.1 hγ
    obtain ⟨s, α₂, rfl, hs, -⟩ := map_eq_cons_iff.1 hα'
    obtain ⟨hterminal, rfl⟩ := (g.letter_eq_terminal_iff s t).1 hs
    obtain ⟨rfl, hterminals⟩ := eq_of_map_letter hα₁
    have hpath : g.Offers (α₁ ++ s :: α₂) (α₁ ++ []) s :=
      append_left (.of_terminals hterminals) (.here hterminal)
    rwa [append_nil] at hpath
  | head hstep _ ih =>
    subst hγ
    obtain ⟨r, hr, α₁, α₂, rfl, rfl⟩ := Yields.exists_of_produces hstep
    exact of_rewrite hr (ih rfl)

end Offers

lemma Begins.offers {w : List Symbol} {t : Symbol} (h : g.Begins (w ++ [t])) : g.Offers [g.start] w t := by
  obtain ⟨rest, h⟩ := h
  rw [map_append, append_assoc, map_singleton, singleton_append, ← letter_start,
    ← map_singleton] at h
  exact .of_derives h

end Grammar

end Lunify
