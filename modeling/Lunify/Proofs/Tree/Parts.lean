import Mathlib.Logic.Relation
import Lunify.Proofs.Tree.Derivation

/-!
# Parts of a tree

`Tree.IsSubtree` says that a tree is a part of another one. A tree that parsing gives has no node without
children, so every part of it begins with its first token (`Tree.full_of_parse`). Unrolling a left-recursive
list loses no leaf (`Tree.leavesOf_flattenAs`).
-/

namespace Lunify

open List

namespace Tree

/-- Whether a tree is a part of another one, reached through children. -/
def IsSubtree (t u : Tree) : Prop :=
  Relation.ReflTransGen (fun c u => c ∈ u.children) t u

lemma IsSubtree.isInfix_leaves {t u : Tree} (h : t.IsSubtree u) : t.leaves <:+: u.leaves := by
  induction h with
  | refl => exact infix_rfl
  | @tail u v _ hmem ih =>
    cases v with
    | leaf => cases hmem
    | node l ts =>
      obtain ⟨before, after, rfl⟩ := append_of_mem hmem
      rw [leaves, leavesOf_append, leavesOf]
      exact ih.trans ⟨leavesOf before, leavesOf after, append_assoc _ _ _⟩

/-- The part of a tree at the end of a path. -/
def part (t : Tree) (path : List Nat) : Tree :=
  path.foldl (fun t i => t.children.getD i t) t

lemma isSubtree_part (t : Tree) (path : List Nat) : (t.part path).IsSubtree t := by
  induction path generalizing t with
  | nil => exact .refl
  | cons i path ih =>
    refine (ih (t.children.getD i t)).trans ?_
    rw [getD_eq_getElem?_getD]
    cases h : t.children[i]? with
    | none => exact .refl
    | some c => exact .single (mem_of_getElem? h)

/-- The flattened children of a node have its leaves. -/
lemma leavesOf_flattenAs (l : Text) : ∀ t : Tree, t.isLeaf = false → leavesOf (flattenAs l t) = t.leaves
  | .node _ [], _ => rfl
  | .node _ (.leaf _ _ :: _), _ => rfl
  | .node _ (.node l' us :: ts), _ => by
    rw [flattenAs]
    split
    · rw [leavesOf_append, leavesOf_flattenAs l _ rfl]
      rfl
    · rfl

/-! ### First tokens -/

/-- Whether a tree begins with a token. -/
def Leads (t : Tree) : Prop :=
  ∃ tok rest, t.first? = some tok ∧ t.leaves = tok :: rest

lemma Leads.node {t : Tree} (h : Leads t) (s : Text) (ts : List Tree) : Leads (.node s (t :: ts)) := by
  obtain ⟨tok, rest, hfirst, hleaves⟩ := h
  exact ⟨tok, rest ++ leavesOf ts, by rw [first?, hfirst], by rw [leaves, leavesOf, hleaves, cons_append]⟩

lemma leads_leaf (s : Text) (tok : Token) : Leads (.leaf s tok) :=
  ⟨tok, [], by rw [first?], by rw [leaves]⟩

/-- Whether all parts of a tree begin with a token. -/
def Full (t : Tree) : Prop :=
  ∀ u, u.IsSubtree t → Leads u

lemma full_leaf (s : Text) (tok : Token) : Full (.leaf s tok) := by
  intro u hu
  rcases hu.cases_tail with rfl | ⟨c, -, hc⟩
  · exact leads_leaf s tok
  · cases hc

lemma full_node (l : Text) {ts : List Tree} (hne : ts ≠ []) (hts : ∀ t ∈ ts, Full t) : Full (.node l ts) := by
  intro u hu
  rcases hu.cases_tail with rfl | ⟨c, hc, hmem⟩
  · obtain ⟨t, ts, rfl⟩ := exists_cons_of_ne_nil hne
    exact (hts t mem_cons_self t .refl).node l ts
  · exact hts c hmem u hc

lemma full_ofTerminal (s : Symbol) (tok : Token) : Full (ofTerminal s tok) := by
  unfold ofTerminal
  split
  · exact full_node s (cons_ne_nil _ _) (forall_mem_singleton.2 (full_leaf s tok))
  · exact full_leaf s tok

variable {g : Grammar}

/-- The trees of terminals are full, and there is one unless the symbols that remain are all. -/
lemma full_of_terminals {α symbols : List Symbol} {tokens rest : List Token} {ts : List Tree}
    (h : terminals g α tokens = .ok (ts, symbols, rest)) : (α ≠ symbols → ts ≠ []) ∧ ∀ t ∈ ts, Full t := by
  fun_induction terminals g α tokens generalizing ts symbols rest with
  | case1 | case4 =>
    cases h
    simp
  | case2 => cases h
  | case3 a α _ tok tokens ih =>
    obtain ⟨⟨ts, symbols', rest'⟩, hterminals, h⟩ := bind_eq_ok_iff.1 h
    cases h
    exact ⟨fun _ => cons_ne_nil _ _, forall_mem_cons.2 ⟨full_ofTerminal a tok, (ih hterminals).2⟩⟩

mutual

/-- The tree of a state is full: no rule has an empty right-hand side. -/
lemma full_of_unfold : ∀ (s : State) {tokens rest : List Token} {t : Tree},
    unfold g s tokens = .ok (t, rest) → Full t
  | ⟨_, rule, _, _, _, back⟩, tokens, rest, t, h => by
    rw [unfold] at h
    obtain ⟨⟨ts, rest'⟩, hsymbols, h⟩ := bind_eq_ok_iff.1 h
    cases h
    obtain ⟨hne, hts⟩ := full_of_unfoldSymbols _ back hsymbols
    exact full_node rule.lhs (hne rule.rhs_ne_nil) hts

lemma full_of_unfoldSymbols (s : State) : ∀ (back : List State) {α : List Symbol} {tokens rest : List Token}
    {ts : List Tree}, unfoldSymbols g s back α tokens = .ok (ts, rest) → (α ≠ [] → ts ≠ []) ∧ ∀ t ∈ ts, Full t
  | [], α, tokens, rest, ts, h => full_of_terminals (unfoldSymbols_nil_eq_ok_iff.1 h)
  | c :: back, α, tokens, rest, ts, h => by
    obtain ⟨trees, symbols, remaining, tree, middle, later, hterminals, hunfold, hlater, rfl⟩ :=
      unfoldSymbols_cons_eq_ok_iff.1 h
    refine ⟨fun _ => by simp, ?_⟩
    rw [forall_mem_append, forall_mem_cons]
    exact ⟨(full_of_terminals hterminals).2, full_of_unfold c hunfold, (full_of_unfoldSymbols s back hlater).2⟩

end

/-- Every part of a tree that parsing gives begins with a token. -/
lemma full_of_parse {tokens : List Token} {tree : Tree} (h : parse g tokens = .ok tree) : Full tree := by
  unfold parse at h
  split at h
  · simp only at h
    split at h
    · cases h
    · split at h
      · cases h
      · rename_i root _ _
        unfold ofState at h
        cases hunfold : unfold g root tokens with
        | error e =>
          rw [hunfold] at h
          cases h
        | ok p =>
          rw [hunfold] at h
          change Except.mapError _ (if _ then _ else _) = _ at h
          split at h <;> cases h
          exact full_of_unfold root hunfold
  · cases h

/-! ### Derivations -/

/-- The parts of a derivation: derivations, and the leaves of identifiers, numbers and strings. -/
def IsPart (g : Grammar) (t : Tree) : Prop :=
  t.IsDerivation g ∨ t.isLeaf = true ∧ g.isTerminal t.label = true

lemma IsPart.child {l : Text} {ts : List Tree} (h : IsPart g (.node l ts)) : ∀ t ∈ ts, IsPart g t := by
  rcases h with h | ⟨hleaf, -⟩
  · cases h with
    | category hs => exact forall_mem_singleton.2 (.inr ⟨rfl, hs⟩)
    | rule _ _ hts => exact fun t ht => .inl (hts t ht)
  · cases hleaf

lemma IsPart.isSubtree {t tree : Tree} (h : IsPart g tree) (hsub : t.IsSubtree tree) : IsPart g t := by
  induction hsub with
  | refl => exact h
  | @tail _ u _ hmem ih =>
    cases u with
    | leaf => cases hmem
    | node l ts => exact ih (h.child _ hmem)

/-- What is named by a symbol with rules is a derivation. -/
lemma IsPart.isDerivation {t : Tree} (h : IsPart g t) (hrules : g.isTerminal t.label = false) :
    t.IsDerivation g :=
  h.resolve_right fun hleaf => Bool.false_ne_true (hrules.symm.trans hleaf.2)

end Tree

end Lunify
