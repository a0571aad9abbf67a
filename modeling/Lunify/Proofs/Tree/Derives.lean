import Lunify.Proofs.Core.Parsed
import Lunify.Proofs.Tree.Edges

/-!
# Trees derived from a symbol

`Tree.Derives s t` says that a tree is derived from a symbol of the built-in grammar. Its children are
then derived from the symbols of a right-hand side (`Tree.Derives.children`).
-/

namespace Lunify

open List

namespace Tree

open Grammar

/-- Whether a tree is derived from a symbol of the built-in grammar. -/
structure Derives (s : String) (t : Tree) : Prop where
  derivation : t.IsDerivation builtin
  label : t.label = utf8 s

/-- Trees are derived from the symbols that they are labelled with. -/
lemma forall₂_derives_iff {rhs : List String} {ts : List Tree} : List.Forall₂ Derives rhs ts ↔
    ts.map Tree.label = rhs.map utf8 ∧ ∀ t ∈ ts, t.IsDerivation builtin := by
  constructor
  · intro h
    induction h with
    | nil => exact ⟨rfl, by simp⟩
    | cons ht _ ih => exact ⟨by rw [map_cons, map_cons, ih.1, ht.label], forall_mem_cons.2 ⟨ht.derivation, ih.2⟩⟩
  · rintro ⟨hlabels, hts⟩
    induction ts generalizing rhs with
    | nil =>
      rw [map_eq_nil_iff.1 hlabels.symm]
      exact .nil
    | cons t ts ih =>
      obtain ⟨w, rhs, rfl, hw, hlabels⟩ := map_eq_cons_iff.1 hlabels.symm
      rw [forall_mem_cons] at hts
      exact .cons ⟨hts.1, hw.symm⟩ (ih hlabels.symm hts.2)

namespace Derives

variable {s w : String} {t : Tree}

/-- The children of a tree are derived from the symbols of a right-hand side. -/
lemma children (h : Derives s t) {alternatives : List (List String)}
    (hs : (s, alternatives) ∈ builtinTable) :
    ∃ ts, t = .node (utf8 s) ts ∧ ∃ rhs ∈ alternatives, List.Forall₂ Derives rhs ts := by
  obtain ⟨ts, rfl, ⟨rhs, hrhs, hlabels⟩, hts⟩ := children_of_label h.derivation hs h.label
  exact ⟨ts, rfl, rhs, hrhs, forall₂_derives_iff.2 ⟨hlabels, hts⟩⟩

lemma isWord (h : Derives w t) (hw : w ∈ builtinWords := by decide) : Core.IsWord w t :=
  leaf_of_label h.derivation hw h.label

lemma exists_node (h : Derives s t) (hs : s ∈ builtinTable.map Prod.fst) :
    ∃ ts, t = .node (utf8 s) ts := by
  obtain ⟨p, hp, rfl⟩ := mem_map.1 hs
  obtain ⟨ts, rfl, -⟩ := h.children hp
  exact ⟨ts, rfl⟩

/-- A tree derived from a category of tokens has just one token, which is of that category. -/
lemma exists_category (h : Derives s t) (hs : s ∈ builtinCategories) :
    ∃ tok, t = .node (utf8 s) [.leaf (utf8 s) tok] ∧ tok.symbol = utf8 s :=
  category_of_label h.derivation hs h.label

end Derives

/-- Induction over derivations, by the table: from the children of a node to the node. -/
theorem Derives.induct {motive : String → Tree → Prop}
    (terminal : ∀ {s : String} {t : Tree}, s ∉ builtinTable.map Prod.fst → Derives s t → motive s t)
    (node : ∀ {p : String × List (List String)} {rhs : List String} {ts : List Tree},
      p ∈ builtinTable → rhs ∈ p.2 → List.Forall₂ (fun w u => Derives w u ∧ motive w u) rhs ts →
      motive p.1 (.node (utf8 p.1) ts))
    {s : String} {t : Tree} (h : Derives s t) : motive s t := by
  have hderivation := h.derivation
  induction hderivation generalizing s with
  | leaf hs | category hs =>
    refine terminal (fun hmem => ?_) h
    have hrules := (isTerminal_builtin_eq_false_iff s).2 hmem
    exact absurd (hrules.symm.trans (h.label ▸ hs)) Bool.false_ne_true
  | @rule r ts hr hlabels hts ih =>
    obtain ⟨p, hp, rhs, hrhs, hlhs, hr'⟩ := exists_of_mem_builtin hr
    obtain rfl : p.1 = s := utf8_injective (hlhs.symm.trans h.label)
    have hderives := forall₂_derives_iff.2 ⟨hlabels.trans hr', hts⟩
    have hall := ((forall₂_and_left _ _).2 ⟨ih, hderives.flip⟩).flip
    rw [hlhs]
    exact node hp hrhs (hall.imp fun w u h => ⟨h.2, h.1 h.2⟩)

/-- Trees derived from the symbols of a right-hand side make a tree derived from the left-hand side. -/
lemma derives_of_line {s : String} {rhs : List String} {ts : List Tree}
    (hline : hasLine (utf8 s) (rhs.map utf8) = true) (hts : List.Forall₂ Derives rhs ts) :
    Derives s (.node (utf8 s) ts) := by
  obtain ⟨r, hr, hlhs, hrhs⟩ := exists_of_hasLine hline
  obtain ⟨hlabels, hts⟩ := forall₂_derives_iff.1 hts
  have hnode : IsDerivation builtin (.node r.lhs ts) := .rule hr (hlabels.trans hrhs.symm) hts
  rw [hlhs] at hnode
  exact ⟨hnode, rfl⟩

/-- A divider of layout is derived from its word. -/
lemma derives_divider {w : String} (hw : w ∈ builtinWords) {tok : Token}
    (htok : tok.isDivider (utf8 w) = true) : Derives w (.leaf (utf8 w) tok) := by
  simp only [Token.isDivider, Bool.and_eq_true, decide_eq_true_eq] at htok
  have hsymbol : tok.symbol = utf8 w := by rw [Token.symbol, htok.1, htok.2]
  exact ⟨.leaf (isTerminal_builtin_of_mem (mem_append_left _ hw)) (isCategory_builtin.1 w hw)
    hsymbol, rfl⟩

/-! ### The last body of a construct -/

/-- The first body comes after the header. -/
lemma find?_block_append {header rest : List Tree} {body : Tree}
    (hheader : ∀ t ∈ header, Core.IsHeaderPart t) (hbody : body.label = blockLabel) :
    (header ++ body :: rest).find? (Tree.is blockLabel) = some body := by
  have hnone : header.find? (Tree.is blockLabel) = none := by
    rw [find?_eq_none]
    intro t ht
    simpa [Tree.is] using (hheader t ht).1
  rw [find?_append, hnone, Option.none_or, find?_cons_of_pos]
  rwa [Tree.is, decide_eq_true_eq]

/-- What ends a construct is among the parts after its first body. -/
lemma lastBody_append {header : List Tree} {body : Tree} (hheader : ∀ t ∈ header, Core.IsHeaderPart t)
    (hnode : ∃ l us, body = .node l us) (hbody : body.label = blockLabel) (rest : List Tree) :
    Plan.lastBody (header ++ body :: rest) = Plan.lastAlternative (some body) rest := by
  obtain ⟨l, us, rfl⟩ := hnode
  obtain rfl : l = blockLabel := hbody
  have hne : blockLabel ≠ utf8 "<else>" := fun heq => absurd (utf8_injective heq) (by decide)
  rw [Plan.lastBody, find?_block_append hheader rfl, Core.lastAlternative_append hheader,
    Plan.lastAlternative, if_neg hne]

/-- A construct with one body ends with it. -/
lemma lastBody_block {header : List Tree} {body : Tree} (hheader : ∀ t ∈ header, Core.IsHeaderPart t)
    (hnode : ∃ l us, body = .node l us) (hbody : body.label = blockLabel) :
    Plan.lastBody (header ++ [body]) = some body := by
  rw [lastBody_append hheader hnode hbody, Plan.lastAlternative]

/-- A construct with an alternative ends with the last body of that. -/
lemma lastBody_alternative {header us : List Tree} {body last : Tree}
    (hheader : ∀ t ∈ header, Core.IsHeaderPart t) (hnode : ∃ l us, body = .node l us)
    (hbody : body.label = blockLabel) (h : Plan.lastBody us = some last) :
    Plan.lastBody (header ++ [body, .node (utf8 "<else>") us]) = some last := by
  rw [lastBody_append hheader hnode hbody, Plan.lastAlternative, if_pos rfl]
  exact h

/-- Children in two groups. -/
lemma exists_of_forall₂_append {R : String → Tree → Prop} {header rest : List String} {ts : List Tree}
    (h : List.Forall₂ R (header ++ rest) ts) :
    ∃ us vs, ts = us ++ vs ∧ List.Forall₂ R header us ∧ List.Forall₂ R rest vs := by
  induction header generalizing ts with
  | nil => exact ⟨[], ts, rfl, .nil, h⟩
  | cons s header ih =>
    obtain ⟨t, ts, ht, hts, rfl⟩ := forall₂_cons_left_iff.1 h
    obtain ⟨us, vs, rfl, hus, hvs⟩ := ih hts
    exact ⟨t :: us, vs, rfl, .cons ht hus, hvs⟩

end Tree

end Lunify
