import Lunify.Tree.Form
import Lunify.Proofs.Grammar.Builtin

/-!
# Nodes with a form

A node of a program whose label has a form of its own has one of a few lists of children. The lemmas
here give that list for the forms that bind or use names, with its identifiers opened up to their
tokens. A terminal has no form, but for the category of identifiers.
-/

namespace Lunify

open List

/-- A form other than that of a mere sequence comes from its label. -/
lemma Form.mem_labels {l : Text} (h : Form.ofLabel l ≠ .sequence) :
    (l, Form.ofLabel l) ∈ Form.labels := by
  unfold Form.ofLabel at h ⊢
  cases hlookup : Form.labels.lookup l with
  | none => simp [hlookup] at h
  | some f =>
    obtain ⟨before, after, hlabels, -⟩ := lookup_eq_some_iff.1 hlookup
    rw [hlabels]
    exact mem_append_right _ mem_cons_self

/-- The symbol of the grammar that a construct is named after. -/
def Form.symbol : Form → String
  | .function => "<function>"
  | .conditional => "<if>"
  | .alternative => "<else>"
  | .whileLoop => "<while>"
  | .forLoop => "<for>"
  | .assignment => "<assignment>"
  | .call => "<function_call>"
  | .length => "<len>"
  | .list => "<list>"
  | .set => "<set>"
  | .dict => "<dict>"
  | .pair => "<pair>"
  | .keywordArgument => "<keyword_argument>"
  | .inversion => "<inversion>"
  | .factor => "<factor>"
  | .identifier => "<Identifier>"
  | .sequence => ""

lemma Form.labels_symbol : ∀ p ∈ Form.labels, p.1 = utf8 p.2.symbol := by
  simp [Form.labels, Form.symbol, identifierSymbol]

lemma Form.ofLabel_symbol (f : Form) (hf : f ≠ .sequence) : Form.ofLabel (utf8 f.symbol) = f := by
  have hlabels : ∀ p ∈ Form.labels, Form.ofLabel p.1 = p.2 := by decide
  refine hlabels (utf8 f.symbol, f) ?_
  cases f with
  | sequence => exact absurd rfl hf
  | _ => simp only [Form.labels, Form.symbol, identifierSymbol, mem_cons, true_or, or_true]

namespace Tree

open Grammar

/-- An identifier with the given token. -/
def identifier (tok : Token) : Tree :=
  .node identifierSymbol [.leaf identifierSymbol tok]

@[simp] lemma label_identifier (tok : Token) : (identifier tok).label = identifierSymbol :=
  rfl

@[simp] lemma first?_identifier (tok : Token) : (identifier tok).first? = some tok := by
  simp [identifier, first?]

lemma eq_identifier {t : Tree} (ht : t.IsDerivation builtin) (hlabel : t.label = identifierSymbol) :
    ∃ tok, t = identifier tok :=
  (category_of_label ht (by decide) hlabel).imp fun _ h => h.1

lemma label_eq_of_form {l : Text} (f : Form) (hl : Form.ofLabel l = f) (s : String)
    (hs : f.symbol = s) (hf : f ≠ .sequence) : l = utf8 s := by
  rw [← hs, ← hl]
  exact Form.labels_symbol _ (Form.mem_labels (hl.trans_ne hf))

/-- The children of a node for which the table has the given line. -/
lemma children_eq {l : Text} {ts : List Tree} (h : IsDerivation builtin (.node l ts)) (s : String)
    (alternatives : List (List String)) (hs : (s, alternatives) ∈ builtinTable) (hl : l = utf8 s) :
    (∃ rhs ∈ alternatives, ts.map label = rhs.map utf8) ∧ ∀ u ∈ ts, u.IsDerivation builtin := by
  obtain ⟨ts', heq, hlabels, hts⟩ := children_of_label h hs hl
  rw [(Tree.node.inj heq).2]
  exact ⟨hlabels, hts⟩

lemma isDerivation_child {s : String} {ts : List Tree} (h : IsDerivation builtin (.node (utf8 s) ts))
    (hs : s ∈ builtinTable.map Prod.fst) {t : Tree} (ht : t ∈ ts) : t.IsDerivation builtin := by
  obtain ⟨p, hp, rfl⟩ := mem_map.1 hs
  exact (children_eq h p.1 p.2 hp rfl).2 t ht

/-- A terminal has no form of its own, unless it is the category of identifiers. -/
lemma form_of_isTerminal {s : Symbol} (hs : builtin.isTerminal s = true) :
    Form.ofLabel s = .sequence ∨ s = identifierSymbol := by
  by_contra! h
  obtain ⟨hform, hs'⟩ := h
  have hlabels : ∀ p ∈ Form.labels, p.1 = identifierSymbol ∨
      ∃ l ∈ builtinTable.map Prod.fst, p.1 = utf8 l := by
    decide
  obtain hid | ⟨l, hl, heq⟩ := hlabels _ (Form.mem_labels hform)
  · exact hs' hid
  · have hrules := (isTerminal_builtin_eq_false_iff l).2 hl
    rw [← heq, hs] at hrules
    exact Bool.false_ne_true hrules.symm

lemma form_of_leaf {s : Symbol} (hs : builtin.isTerminal s = true) (hcategory : isCategory s = false) :
    Form.ofLabel s = .sequence := by
  refine (form_of_isTerminal hs).resolve_right fun heq => ?_
  rw [heq] at hcategory
  exact absurd hcategory (by decide)

@[simp] lemma form_identifierSymbol : Form.ofLabel identifierSymbol = .identifier :=
  Form.ofLabel_symbol .identifier (by decide)

section Shapes

variable {l : Text} {ts : List Tree}

/-- The children of a node whose form has the given line of the table. -/
lemma children_of_form (h : IsDerivation builtin (.node l ts)) {f : Form} (hl : Form.ofLabel l = f)
    (hf : f ≠ .sequence) (alternatives : List (List String))
    (hs : (f.symbol, alternatives) ∈ builtinTable) :
    (∃ rhs ∈ alternatives, ts.map label = rhs.map utf8) ∧ ∀ u ∈ ts, u.IsDerivation builtin :=
  children_eq h f.symbol alternatives hs (label_eq_of_form f hl _ rfl hf)

/-- An assignment has a target, which is an identifier or a subscript, and a value. -/
lemma shape_assignment (h : IsDerivation builtin (.node l ts)) (hl : Form.ofLabel l = .assignment) :
    ∃ target sign value, ts = [target, sign, value] ∧
      ((∃ tok, target = identifier tok) ∨ target.label = utf8 "<subscript>") := by
  obtain ⟨⟨_, hrhs, hlabels⟩, hts⟩ := children_of_form h hl (by decide)
    (["<Identifier>", "<subscript>"].map fun w => [w, "=", "<expression>"]) (by decide)
  obtain ⟨w, hw, rfl⟩ := mem_map.1 hrhs
  simp only [map_cons, map_nil, map_eq_cons_iff, map_eq_nil_iff] at hlabels
  obtain ⟨target, _, rfl, htarget, sign, _, rfl, -, value, _, rfl, -, rfl⟩ := hlabels
  simp only [mem_cons, not_mem_nil, or_false] at hw
  rcases hw with rfl | rfl
  · exact ⟨target, sign, value, rfl, .inl (eq_identifier (hts target (by simp)) htarget)⟩
  · exact ⟨target, sign, value, rfl, .inr htarget⟩

/-- A loop has a variable, an iterable, which is a range or an expression, and a body. -/
lemma shape_forLoop (h : IsDerivation builtin (.node l ts)) (hl : Form.ofLabel l = .forLoop) :
    ∃ a tok b iterable c body, ts = [a, identifier tok, b, iterable, c, body] ∧
      a.label = utf8 "for" ∧ b.label = utf8 "in" ∧
      (iterable.label = rangeLabel ∨ iterable.label = expressionLabel) ∧ c.label = utf8 ":" ∧
      body.label = blockLabel := by
  obtain ⟨⟨_, hrhs, hlabels⟩, hts⟩ := children_of_form h hl (by decide)
    (["<range>", "<expression>"].map fun w => ["for", "<Identifier>", "in", w, ":", "<block>"]) (by decide)
  obtain ⟨w, hw, rfl⟩ := mem_map.1 hrhs
  simp only [map_cons, map_nil, map_eq_cons_iff, map_eq_nil_iff] at hlabels
  obtain ⟨a, _, rfl, ha, x, _, rfl, hx, b, _, rfl, hb, iterable, _, rfl, hiterable, c, _, rfl, hc, body, _, rfl,
    hbody, rfl⟩ := hlabels
  obtain ⟨tok, rfl⟩ := eq_identifier (hts x (by simp)) hx
  simp only [mem_cons, not_mem_nil, or_false] at hw
  have hiterable := hw.imp (fun hw => hw ▸ hiterable) fun hw => hw ▸ hiterable
  exact ⟨a, tok, b, iterable, c, body, rfl, ha, hb, hiterable, hc, hbody⟩

/-- A call has a callee, and it may have arguments. -/
lemma shape_call (h : IsDerivation builtin (.node l ts)) (hl : Form.ofLabel l = .call) :
    ∃ tok a c, a.label = utf8 "(" ∧ c.label = utf8 ")" ∧ (ts = [identifier tok, a, c] ∨
      ∃ arguments, ts = [identifier tok, a, arguments, c] ∧ arguments.label = argumentsLabel) := by
  obtain ⟨hlabels, hts⟩ := children_of_form h hl (by decide)
    [["<Identifier>", "(", ")"], ["<Identifier>", "(", "<arguments>", ")"]] (by decide)
  simp only [mem_cons, not_mem_nil, or_false, exists_eq_or_imp, exists_eq_left,
    map_cons, map_nil, map_eq_cons_iff, map_eq_nil_iff] at hlabels
  rcases hlabels with ⟨x, _, rfl, hx, a, _, rfl, ha, c, _, rfl, hc, rfl⟩ |
    ⟨x, _, rfl, hx, a, _, rfl, ha, arguments, _, rfl, harguments, c, _, rfl, hc, rfl⟩
  · obtain ⟨tok, rfl⟩ := eq_identifier (hts x (by simp)) hx
    exact ⟨tok, a, c, ha, hc, .inl rfl⟩
  · obtain ⟨tok, rfl⟩ := eq_identifier (hts x (by simp)) hx
    exact ⟨tok, a, c, ha, hc, .inr ⟨arguments, rfl, harguments⟩⟩

/-- A keyword argument has a key and a value. -/
lemma shape_keywordArgument (h : IsDerivation builtin (.node l ts))
    (hl : Form.ofLabel l = .keywordArgument) : ∃ key sign value, ts = [key, sign, value] := by
  obtain ⟨hlabels, -⟩ := children_of_form h hl (by decide) [["<Identifier>", "=", "<expression>"]]
    (by decide)
  simp only [mem_cons, not_mem_nil, or_false, exists_eq_left, map_cons,
    map_nil, map_eq_cons_iff, map_eq_nil_iff] at hlabels
  obtain ⟨key, _, rfl, -, sign, _, rfl, -, value, _, rfl, -, rfl⟩ := hlabels
  exact ⟨key, sign, value, rfl⟩

lemma shape_identifier (h : IsDerivation builtin (.node l ts)) (hl : Form.ofLabel l = .identifier) :
    ∃ tok, Tree.node l ts = identifier tok :=
  eq_identifier h (label_eq_of_form _ hl "<Identifier>" rfl (by decide))

/-- A function has a name and a body, and it may have parameters. -/
lemma shape_function (h : IsDerivation builtin (.node l ts)) (hl : Form.ofLabel l = .function) :
    ∃ a tok b c d body, a.label = utf8 "def" ∧ b.label = utf8 "(" ∧ c.label = utf8 ")" ∧
      d.label = utf8 ":" ∧ body.label = blockLabel ∧ (ts = [a, identifier tok, b, c, d, body] ∨
        ∃ parameters, ts = [a, identifier tok, b, parameters, c, d, body] ∧
          parameters.label = parametersLabel) := by
  obtain ⟨hlabels, hts⟩ := children_of_form h hl (by decide)
    [["def", "<Identifier>", "(", ")", ":", "<block>"],
      ["def", "<Identifier>", "(", "<parameters>", ")", ":", "<block>"]] (by decide)
  simp only [mem_cons, not_mem_nil, or_false, exists_eq_or_imp, exists_eq_left,
    map_cons, map_nil, map_eq_cons_iff, map_eq_nil_iff] at hlabels
  rcases hlabels with ⟨a, _, rfl, ha, x, _, rfl, hx, b, _, rfl, hb, c, _, rfl, hc, d, _, rfl, hd,
      body, _, rfl, hbody, rfl⟩ |
    ⟨a, _, rfl, ha, x, _, rfl, hx, b, _, rfl, hb, parameters, _, rfl, hparameters, c, _, rfl, hc,
      d, _, rfl, hd, body, _, rfl, hbody, rfl⟩
  · obtain ⟨tok, rfl⟩ := eq_identifier (hts x (by simp)) hx
    exact ⟨a, tok, b, c, d, body, ha, hb, hc, hd, hbody, .inl rfl⟩
  · obtain ⟨tok, rfl⟩ := eq_identifier (hts x (by simp)) hx
    exact ⟨a, tok, b, c, d, body, ha, hb, hc, hd, hbody, .inr ⟨parameters, rfl, hparameters⟩⟩

end Shapes

end Tree

end Lunify
