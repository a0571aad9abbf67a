import Lunify.Proofs.Grammar.Unambiguous
import Lunify.Proofs.Scope.Rules
import Lunify.Proofs.Tree.Parts

/-!
# Lists with commas

Arguments, parameters and the elements of literals are left-recursive lists. Their items are the elements
that were derived, with one comma between two of them (`Scope.separated`). So the numbers of arguments and
parameters that are compared are those of the derivation (`flatten_faithful`).
-/

namespace Lunify

open List

namespace Scope

open Tree Grammar

/-- The symbols of lists with commas, each with the symbol of its elements. -/
def listRules : List (String × String) :=
  [("<arguments>", "<expression>"), ("<parameters>", "<Identifier>"), ("<items>", "<expression>"),
    ("<pairs>", "<pair>"), ("<keywords>", "<keyword_argument>")]

lemma listRules_spec : ∀ p ∈ listRules, (p.1, [[p.2], [p.1, ",", p.2]]) ∈ builtinTable ∧ p.2 ≠ p.1 ∧
    p.2 ∈ builtinCategories ++ builtinTable.map Prod.fst := by
  decide

/-- Whether a list is unrolled as it was derived: its elements are derived from the symbol `E`, they are its
items, and between two of them there is one comma. -/
structure Separated (E : String) (t : Tree) : Prop where
  derived : ∀ u ∈ elements t, u.IsDerivation builtin ∧ u.label = utf8 E
  items : t.items = elements t
  flatten : ∃ (first : Tree) (rest : List (Token × Tree)), elements t = first :: rest.map Prod.snd ∧
    (∀ p ∈ rest, p.1.content = utf8 ",") ∧
    t.flatten = first :: rest.flatMap fun p => [.leaf (utf8 ",") p.1, p.2]

/-- What is derived from a category or by a rule is a node. -/
lemma isLeaf_of_derived {E : String} (hE : E ∈ builtinCategories ++ builtinTable.map Prod.fst) {u : Tree}
    (hu : u.IsDerivation builtin) (hlabel : u.label = utf8 E) : u.isLeaf = false := by
  cases hu with
  | leaf hs hcategory =>
    rw [label] at hlabel
    subst hlabel
    rcases mem_append.1 hE with hE | hE
    · exact (isCategory_builtin.2 E hE).symm.trans hcategory
    · exact hs.symm.trans ((isTerminal_builtin_eq_false_iff E).2 hE)
  | category | rule => rfl

lemma flattenAs_of_ne {l l' : Text} {t : Tree} (h : t.label ≠ l) (ts : List Tree) :
    flattenAs l (.node l' (t :: ts)) = t :: ts := by
  cases t with
  | leaf => rfl
  | node k us => exact if_neg h

/-- A list of the built-in grammar is unrolled as it was derived. -/
lemma separated {p : String × String} (hp : p ∈ listRules) {t : Tree} (ht : t.IsDerivation builtin)
    (hlabel : t.label = utf8 p.1) : Separated p.2 t := by
  obtain ⟨hL, hne, hE⟩ := listRules_spec p hp
  have hrules : builtin.isTerminal (utf8 p.1) = false :=
    (isTerminal_builtin_eq_false_iff p.1).2 (mem_map_of_mem hL)
  induction ht with
  | leaf hs => exact absurd (hrules.symm.trans (hlabel ▸ hs)) Bool.false_ne_true
  | category hs => exact absurd (hrules.symm.trans (hlabel ▸ hs)) Bool.false_ne_true
  | @rule r ts hr hlabels hts ih =>
    obtain ⟨hlabels', -⟩ := children_eq (.rule hr hlabels hts) p.1 _ hL hlabel
    rw [label] at hlabel
    simp only [mem_cons, not_mem_nil, or_false, exists_eq_or_imp, exists_eq_left, map_cons, map_nil,
      map_eq_cons_iff, map_eq_nil_iff] at hlabels'
    rcases hlabels' with ⟨e, _, rfl, he, rfl⟩ |
      ⟨list, _, rfl, hlist, comma, _, rfl, hcomma, e, _, rfl, he, rfl⟩
    · have hflatten : Tree.flatten (.node r.lhs [e]) = [e] :=
        flattenAs_of_ne (by rw [he, label, hlabel]; exact fun h => hne (utf8_injective h)) []
      have hleaf := isLeaf_of_derived hE (hts e (by simp)) he
      refine ⟨by simpa [elements] using ⟨hts e (by simp), he⟩, ?_, e, [], rfl, by simp, hflatten⟩
      cases e <;> simp_all [Tree.items, elements, isLeaf, isLeafOf]
    · obtain ⟨hderived, hitems, first, rest, helements, hcommas, hflatten⟩ := ih list (by simp) hlist
      obtain ⟨us, rfl, -⟩ := children_of_label (hts list (by simp)) hL hlist
      obtain ⟨tok, rfl, hsymbol⟩ := leaf_of_label (hts comma (by simp)) (by decide) hcomma
      have htok := (Token.content_of_symbol (by decide) hsymbol).1
      have hleaf := isLeaf_of_derived hE (hts e (by simp)) he
      have hflatten' : Tree.flatten (.node r.lhs [.node (utf8 p.1) us, .leaf (utf8 ",") tok, e]) =
          Tree.flatten (.node (utf8 p.1) us) ++ [.leaf (utf8 ",") tok, e] := by
        rw [Tree.flatten, label, flattenAs, if_pos hlabel.symm, hlabel]
        rfl
      refine ⟨?_, ?_, first, rest ++ [(tok, e)], ?_, ?_, ?_⟩
      · rw [elements, forall_mem_append, forall_mem_singleton]
        exact ⟨hderived, hts e (by simp), he⟩
      · rw [Tree.items, hflatten', filter_append, elements, ← hitems, Tree.items]
        cases e <;> simp_all [isLeaf, isLeafOf]
      · rw [elements, helements]
        simp
      · exact forall_mem_append.2 ⟨hcommas, forall_mem_singleton.2 htok⟩
      · rw [hflatten', hflatten]
        simp

end Scope

open Tree Grammar Scope

/-- Unrolling lists is faithful. The flattened children of a node have its leaves, in their order. In every
tree that parsing gives, the first token of a part is the first of its leaves. In a tree of the built-in
grammar, lists are unrolled as they were derived, and so the arguments and the parameters that are counted
are the derived ones. -/
theorem flatten_faithful :
    (∀ (l : Text) (ts : List Tree), leavesOf (Tree.node l ts).flatten = (Tree.node l ts).leaves) ∧
    (∀ (g : Grammar) (tokens : List Token) (tree : Tree), parse g tokens = .ok tree →
      ∀ t : Tree, t.IsSubtree tree → ∃ tok rest, t.first? = some tok ∧ t.leaves = tok :: rest) ∧
    ∀ (tokens : List Token) (tree : Tree), parse builtin tokens = .ok tree →
      ∀ (l : Text) (ts : List Tree), IsSubtree (.node l ts) tree →
        (∀ p ∈ listRules, l = utf8 p.1 → Separated p.2 (.node l ts)) ∧
        argumentCount ts = ((ts.find? (Tree.is argumentsLabel)).map elements).elim 0 List.length ∧
        parameterTokens ts = ((ts.find? (Tree.is parametersLabel)).map elements).elim [] (List.map first?) := by
  refine ⟨fun l ts => leavesOf_flattenAs l _ rfl, fun g tokens tree h => full_of_parse h, ?_⟩
  intro tokens tree hparse l ts hsub
  obtain ⟨-, htree, -⟩ := isDerivation_of_parse_eq_ok acceptSymbol_notMem_builtin hparse
  have hnode : IsDerivation builtin (.node l ts) :=
    (IsPart.isSubtree (.inl htree) hsub).resolve_right fun hleaf => Bool.false_ne_true hleaf.1
  have hitems : ∀ p ∈ listRules, ∀ u, ts.find? (Tree.is (utf8 p.1)) = some u → u.items = elements u := by
    intro p hp u hu
    cases hnode with
    | category =>
      obtain rfl := mem_singleton.1 (mem_of_find?_eq_some hu)
      rfl
    | rule _ _ hts =>
      have hlabel : u.label = utf8 p.1 := by simpa [Tree.is] using find?_some hu
      exact (separated hp (hts u (mem_of_find?_eq_some hu)) hlabel).items
  refine ⟨fun p hp hl => separated hp hnode hl, ?_, ?_⟩
  · unfold argumentCount
    cases hfind : ts.find? (Tree.is argumentsLabel) with
    | none => rfl
    | some u => exact congrArg length (hitems ("<arguments>", _) mem_cons_self u hfind)
  · unfold parameterTokens
    cases hfind : ts.find? (Tree.is parametersLabel) with
    | none => rfl
    | some u => exact congrArg (map first?) (hitems ("<parameters>", "<Identifier>") (by decide) u hfind)

/-- A function with two parameters. -/
theorem flatten_faithful_parameters :
    ∃ (tree list : Tree) (ts : List Tree), parse builtin tree.leaves = .ok tree ∧ list ∈ ts ∧
      IsSubtree (.node (utf8 "<function>") ts) tree ∧ Separated "<Identifier>" list ∧
      (parameterTokens ts).map (Option.map Token.content) = [some (utf8 "a"), some (utf8 "b")] := by
  let word : String → Kind → Int → Tree := fun w kind column => .leaf (utf8 w) ⟨kind, utf8 w, ⟨0, column⟩⟩
  let name : String → Int → Tree := fun x column => identifier ⟨.identifier, utf8 x, ⟨0, column⟩⟩
  let node : String → List Tree → Tree := fun l ts => .node (utf8 l) ts
  let list := node "<parameters>" [node "<parameters>" [name "a" 6], word "," .divider 7, name "b" 9]
  let ts := [word "def" .keyword 0, name "f" 4, word "(" .divider 5, list, word ")" .divider 10,
    word ":" .divider 11, node "<block>" [node "<simple_statement>" [word "pass" .keyword 13],
      word "newline" .divider 17]]
  let tree := node "<program>" [node "<statements>" [node "<statement>" [node "<compound_statement>" [
    node "<function>" ts]]]]
  have hparse : parse builtin tree.leaves = .ok tree := parse_of_follows (by decide)
  have hfunction : IsSubtree (node "<function>" ts) tree :=
    .head mem_cons_self (.head mem_cons_self (.head mem_cons_self (.single mem_cons_self)))
  have hlist : list ∈ ts := by simp [ts]
  obtain ⟨-, -, hlists⟩ := flatten_faithful
  have hseparated := (hlists _ _ hparse _ _ (.head hlist hfunction)).1
    ("<parameters>", "<Identifier>") (by decide) rfl
  refine ⟨tree, list, ts, hparse, hlist, hfunction, hseparated, ?_⟩
  rw [(hlists _ _ hparse _ _ hfunction).2.2]
  decide

end Lunify
