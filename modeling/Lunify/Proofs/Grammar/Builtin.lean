import Lunify.Grammar.Builtin
import Lunify.Proofs.Tree.Derivation

/-!
# Trees of the built-in grammar

`Grammar.builtinTable` lists the rules of the built-in grammar by their left-hand sides, and
`Grammar.builtin_rules` says that reading the built-in rule text gives just these. What the children
of a node can be is then looked up by its label: `Tree.children_of_label` for a symbol with rules,
`Tree.leaf_of_label` for a terminal and `Tree.category_of_label` for a category of tokens.
-/

namespace Lunify

open List

namespace Grammar

/-- The symbols of the built-in grammar that have rules, each with its right-hand sides. -/
def builtinTable : List (String × List (List String)) :=
  [
    ("<program>", [["<statements>"]]),
    ("<statements>", [["<statement>"], ["<statements>", "<statement>"]]),
    ("<statement>", [["<simple_statement>", "newline"], ["<compound_statement>"], ["newline"]]),
    ("<simple_statement>", [["<assignment>"], ["<function_call>"], ["<print>"], ["<return>"],
      ["break"], ["continue"], ["pass"]]),
    ("<compound_statement>", [["<function>"], ["<if>"], ["<while>"], ["<for>"]]),
    ("<block>", [["<simple_statement>", "newline"], ["<newlines>", "indent", "<statements>",
      "dedent"]]),
    ("<newlines>", [["newline"], ["<newlines>", "newline"]]),
    ("<assignment>", [["<Identifier>", "=", "<expression>"], ["<subscript>", "=", "<expression>"]]),
    ("<function>", [["def", "<Identifier>", "(", ")", ":", "<block>"], ["def", "<Identifier>", "(",
      "<parameters>", ")", ":", "<block>"]]),
    ("<parameters>", [["<Identifier>"], ["<parameters>", ",", "<Identifier>"]]),
    ("<return>", [["return"], ["return", "<expression>"]]),
    ("<print>", [["print", "(", ")"], ["print", "(", "<arguments>", ")"]]),
    ("<function_call>", [["<Identifier>", "(", ")"], ["<Identifier>", "(", "<arguments>", ")"]]),
    ("<arguments>", [["<expression>"], ["<arguments>", ",", "<expression>"]]),
    ("<if>", [["if", "<expression>", ":", "<block>"], ["if", "<expression>", ":", "<block>",
      "<else>"]]),
    ("<else>", [["elif", "<expression>", ":", "<block>"], ["elif", "<expression>", ":", "<block>",
      "<else>"], ["else", ":", "<block>"]]),
    ("<while>", [["while", "<expression>", ":", "<block>"]]),
    ("<for>", [["for", "<Identifier>", "in", "<range>", ":", "<block>"], ["for", "<Identifier>",
      "in", "<expression>", ":", "<block>"]]),
    ("<range>", [["range", "(", "<expression>", ")"], ["range", "(", "<expression>", ",",
      "<expression>", ")"], ["range", "(", "<expression>", ",", "<expression>", ",",
      "<expression>", ")"]]),
    ("<expression>", [["<disjunction>"]]),
    ("<disjunction>", [["<disjunction>", "or", "<conjunction>"], ["<conjunction>"]]),
    ("<conjunction>", [["<conjunction>", "and", "<inversion>"], ["<inversion>"]]),
    ("<inversion>", [["not", "<inversion>"], ["<comparison>"]]),
    ("<comparison>", [["<sum>", "<compare_op>", "<sum>"], ["<sum>"]]),
    ("<compare_op>", [["=="], ["!="], ["<"], [">"], ["<="], [">="]]),
    ("<sum>", [["<sum>", "<sum_op>", "<term>"], ["<term>"]]),
    ("<sum_op>", [["+"], ["-"]]),
    ("<term>", [["<term>", "<term_op>", "<factor>"], ["<factor>"]]),
    ("<term_op>", [["*"], ["/"], ["%"]]),
    ("<factor>", [["-", "<factor>"], ["+", "<factor>"], ["<power>"]]),
    ("<power>", [["<primary>", "**", "<factor>"], ["<primary>"]]),
    ("<primary>", [["<atom>"], ["<function_call>"], ["<subscript>"], ["<len>"], ["(",
      "<expression>", ")"]]),
    ("<subscript>", [["<primary>", "[", "<expression>", "]"]]),
    ("<len>", [["len", "(", "<expression>", ")"]]),
    ("<atom>", [["<Identifier>"], ["<Number>"], ["<String>"], ["True"], ["False"], ["None"],
      ["<list>"], ["<dict>"], ["<set>"]]),
    ("<list>", [["[", "]"], ["[", "<items>", "]"], ["[", "<items>", ",", "]"]]),
    ("<items>", [["<expression>"], ["<items>", ",", "<expression>"]]),
    ("<dict>", [["\x7b", "\x7d"], ["\x7b", "<pairs>", "\x7d"], ["\x7b", "<pairs>", ",", "\x7d"],
      ["dict", "(", ")"], ["dict", "(", "<keywords>", ")"]]),
    ("<pairs>", [["<pair>"], ["<pairs>", ",", "<pair>"]]),
    ("<pair>", [["<expression>", ":", "<expression>"]]),
    ("<keywords>", [["<keyword_argument>"], ["<keywords>", ",", "<keyword_argument>"]]),
    ("<keyword_argument>", [["<Identifier>", "=", "<expression>"]]),
    ("<set>", [["\x7b", "<items>", "\x7d"], ["\x7b", "<items>", ",", "\x7d"]])
  ]

/-- The symbols of the built-in grammar that stand for the content of a token. -/
def builtinWords : List String :=
  [
    "newline", "break", "continue", "pass", "indent", "dedent", "=", "def", "(", ")", ":", ",",
    "return", "print", "if", "elif", "else", "while", "for", "in", "range", "or", "and", "not",
    "==", "!=", "<", ">", "<=", ">=", "+", "-", "*", "/", "%", "**", "[", "]", "len", "True",
    "False", "None", "\x7b", "\x7d", "dict"]

/-- The symbols of the built-in grammar that stand for a category of tokens. -/
def builtinCategories : List String :=
  ["<Identifier>", "<Number>", "<String>"]

lemma builtinTable_nodup : (builtinTable.map Prod.fst).Nodup := by
  decide

lemma builtinTable_ne_nil : ∀ p ∈ builtinTable, p.2 ≠ [] := by
  decide

lemma notMem_builtinTable : ∀ w ∈ builtinWords ++ builtinCategories,
    w ∉ builtinTable.map Prod.fst := by
  decide

/-- The words of the built-in grammar name no category, and the categories do. -/
lemma isCategory_builtin : (∀ w ∈ builtinWords, isCategory (utf8 w) = false) ∧
    ∀ c ∈ builtinCategories, isCategory (utf8 c) = true := by
  decide

lemma builtinWords_disjoint : ∀ w ∈ builtinWords, w ∉ builtinCategories := by
  decide

/-- The rule text of the built-in grammar holds the rules of the table. -/
theorem builtin_rules : builtin.rules.map (fun r => (r.lhs, r.rhs)) =
    builtinTable.flatMap fun p => p.2.map fun rhs => (utf8 p.1, rhs.map utf8) := by
  decide +kernel

lemma utf8_injective : Function.Injective utf8 := by
  intro s t h
  unfold utf8 at h
  have harray : s.toByteArray.data = t.toByteArray.data := Array.toList_inj.1 h
  exact String.toByteArray_inj.1 (ByteArray.ext harray)

/-- The rules of the built-in grammar are those of the table. -/
lemma exists_of_mem_builtin {r : Rule} (hr : r ∈ builtin.rules) :
    ∃ p ∈ builtinTable, ∃ rhs ∈ p.2, r.lhs = utf8 p.1 ∧ r.rhs = rhs.map utf8 := by
  have hmem : (r.lhs, r.rhs) ∈ builtin.rules.map (fun r => (r.lhs, r.rhs)) :=
    mem_map_of_mem hr
  rw [builtin_rules, mem_flatMap] at hmem
  obtain ⟨p, hp, hmem⟩ := hmem
  obtain ⟨rhs, hrhs, heq⟩ := mem_map.1 hmem
  obtain ⟨hl, hr⟩ := Prod.mk.inj heq
  exact ⟨p, hp, rhs, hrhs, hl.symm, hr.symm⟩

lemma exists_mem_builtin {p : String × List (List String)} (hp : p ∈ builtinTable) {rhs : List String}
    (hrhs : rhs ∈ p.2) : ∃ r ∈ builtin.rules, r.lhs = utf8 p.1 ∧ r.rhs = rhs.map utf8 := by
  have hmem : (utf8 p.1, rhs.map utf8) ∈ builtin.rules.map (fun r => (r.lhs, r.rhs)) := by
    rw [builtin_rules, mem_flatMap]
    exact ⟨p, hp, mem_map.2 ⟨rhs, hrhs, rfl⟩⟩
  obtain ⟨r, hr, heq⟩ := mem_map.1 hmem
  exact ⟨r, hr, Prod.mk.inj heq⟩

/-- A symbol has rules in the built-in grammar exactly when it has a line in the table. -/
lemma isTerminal_builtin_eq_false_iff (l : String) :
    builtin.isTerminal (utf8 l) = false ↔ l ∈ builtinTable.map Prod.fst := by
  rw [isTerminal_eq_false_iff]
  constructor
  · rintro ⟨r, hr, hl⟩
    obtain ⟨p, hp, -, -, hlhs, -⟩ := exists_of_mem_builtin hr
    rw [← utf8_injective (hlhs.symm.trans hl)]
    exact mem_map_of_mem hp
  · intro h
    obtain ⟨p, hp, rfl⟩ := mem_map.1 h
    obtain ⟨rhs, hrhs⟩ := exists_mem_of_ne_nil _ (builtinTable_ne_nil p hp)
    obtain ⟨r, hr, hlhs, -⟩ := exists_mem_builtin hp hrhs
    exact ⟨r, hr, hlhs⟩

lemma isTerminal_builtin_of_mem {w : String} (hw : w ∈ builtinWords ++ builtinCategories) :
    builtin.isTerminal (utf8 w) = true := by
  rw [← Bool.not_eq_false, isTerminal_builtin_eq_false_iff]
  exact notMem_builtinTable w hw

/-- The reserved symbol of charts occurs in no rule of the built-in grammar. -/
lemma acceptSymbol_notMem_builtin : ∀ r ∈ builtin.rules, acceptSymbol ∉ r.rhs := by
  intro r hr hmem
  obtain ⟨p, hp, rhs, hrhs, -, hr⟩ := exists_of_mem_builtin hr
  have htable : ∀ p ∈ builtinTable, ∀ rhs ∈ p.2, "γ" ∉ rhs := by decide
  rw [hr] at hmem
  obtain ⟨w, hw, heq⟩ := mem_map.1 hmem
  exact htable p hp rhs hrhs (utf8_injective heq ▸ hw)

lemma start_eq_of_rules {g : Grammar} {l : Symbol} {rhs : List Symbol}
    {rest : List (Symbol × List Symbol)}
    (h : g.rules.map (fun r => (r.lhs, r.rhs)) = (l, rhs) :: rest) : g.start = l := by
  have hhead := congrArg List.head? h
  rw [head?_map, head?_eq_some_head g.rules_ne_nil] at hhead
  exact congrArg Prod.fst (Option.some.inj hhead)

lemma start_builtin : builtin.start = utf8 "<program>" :=
  start_eq_of_rules builtin_rules

end Grammar

open Grammar

/-- The token of a word has the word as its content, and its kind is no category. -/
lemma Token.content_of_symbol {w : String} {tok : Token} (hw : w ∉ builtinCategories)
    (h : tok.symbol = utf8 w) : tok.content = utf8 w ∧ tok.kind ≠ .identifier ∧
      tok.kind ≠ .number ∧ tok.kind ≠ .string := by
  have hne : ∀ c ∈ builtinCategories, utf8 c ≠ utf8 w := by
    intro c hc heq
    exact hw (utf8_injective heq ▸ hc)
  unfold Token.symbol at h
  split at h
  · exact absurd h (hne "<Identifier>" (by decide))
  · exact absurd h (hne "<Number>" (by decide))
  · exact absurd h (hne "<String>" (by decide))
  · rename_i hidentifier hnumber hstring
    exact ⟨h, hidentifier, hnumber, hstring⟩

namespace Tree

/-- A derivation is the tree of a token, or it has the children of one of the rules of its label. -/
lemma cases_of_label {t : Tree} (ht : t.IsDerivation builtin) {l : String} (hlabel : t.label = utf8 l) :
    (l ∉ builtinTable.map Prod.fst ∧ ∃ tok, t = ofTerminal (utf8 l) tok ∧ tok.symbol = utf8 l) ∨
      ∃ p ∈ builtinTable, p.1 = l ∧ ∃ ts, t = .node (utf8 l) ts ∧
        (∃ rhs ∈ p.2, ts.map label = rhs.map utf8) ∧ ∀ u ∈ ts, u.IsDerivation builtin := by
  have hnone (hs : builtin.isTerminal (utf8 l) = true) : l ∉ builtinTable.map Prod.fst := by
    rw [← isTerminal_builtin_eq_false_iff, hs]
    exact Bool.false_ne_true.symm
  cases ht with
  | leaf hs hcategory htoken | category hs hcategory htoken =>
    obtain rfl := hlabel
    exact .inl ⟨hnone hs, _, by simp [ofTerminal, hcategory], htoken⟩
  | @rule r ts hr hlabels hts =>
    obtain ⟨p, hp, rhs, hrhs, hlhs, hr⟩ := exists_of_mem_builtin hr
    exact .inr ⟨p, hp, utf8_injective (hlhs.symm.trans hlabel), ts, congrArg (node · ts) hlabel,
      ⟨rhs, hrhs, hlabels.trans hr⟩, hts⟩

/-- The children of a node whose label has rules are those of one of its rules. -/
lemma children_of_label {t : Tree} (ht : t.IsDerivation builtin) {l : String}
    {alternatives : List (List String)} (hl : (l, alternatives) ∈ builtinTable)
    (hlabel : t.label = utf8 l) :
    ∃ ts, t = .node (utf8 l) ts ∧ (∃ rhs ∈ alternatives, ts.map label = rhs.map utf8) ∧
      ∀ u ∈ ts, u.IsDerivation builtin := by
  rcases cases_of_label ht hlabel with ⟨hnone, -⟩ | ⟨⟨_, _⟩, hp, rfl, hchildren⟩
  · exact absurd (mem_map_of_mem hl) hnone
  · obtain ⟨-, rfl⟩ := Prod.mk.inj (inj_on_of_nodup_map builtinTable_nodup hp hl rfl)
    exact hchildren

/-- A tree whose label is a terminal is that of a token. -/
lemma ofTerminal_of_label {t : Tree} (ht : t.IsDerivation builtin) {l : String}
    (hl : l ∈ builtinWords ++ builtinCategories) (hlabel : t.label = utf8 l) :
    ∃ tok, t = ofTerminal (utf8 l) tok ∧ tok.symbol = utf8 l := by
  rcases cases_of_label ht hlabel with ⟨-, htok⟩ | ⟨p, hp, rfl, -⟩
  · exact htok
  · exact absurd (mem_map_of_mem hp) (notMem_builtinTable _ hl)

/-- A tree whose label is a word is a leaf. -/
lemma leaf_of_label {t : Tree} (ht : t.IsDerivation builtin) {w : String} (hw : w ∈ builtinWords)
    (hlabel : t.label = utf8 w) : ∃ tok, t = .leaf (utf8 w) tok ∧ tok.symbol = utf8 w := by
  obtain ⟨tok, rfl, htok⟩ := ofTerminal_of_label ht (mem_append_left _ hw) hlabel
  exact ⟨tok, by simp [ofTerminal, isCategory_builtin.1 w hw], htok⟩

/-- A tree whose label is a category of tokens has just one leaf. -/
lemma category_of_label {t : Tree} (ht : t.IsDerivation builtin) {c : String}
    (hc : c ∈ builtinCategories) (hlabel : t.label = utf8 c) :
    ∃ tok, t = .node (utf8 c) [.leaf (utf8 c) tok] ∧ tok.symbol = utf8 c := by
  obtain ⟨tok, rfl, htok⟩ := ofTerminal_of_label ht (mem_append_right _ hc) hlabel
  exact ⟨tok, by simp [ofTerminal, isCategory_builtin.2 c hc], htok⟩

/-! ### Deciding derivations -/

/-- Whether a symbol has a rule with the given right-hand side in the table. -/
def hasLine (l : Symbol) (rhs : List Symbol) : Bool :=
  builtinTable.any fun p => utf8 p.1 = l && p.2.any fun alternative => alternative.map utf8 = rhs

/-- Whether a node stands for a token of a category. -/
def isToken (l : Symbol) : List Tree → Bool
  | [.leaf l' tok] => builtinCategories.any (fun c => utf8 c = l) && l' = l && tok.symbol = l
  | _ => false

mutual

/-- Whether a tree is a derivation by the table. -/
def follows : Tree → Bool
  | .leaf l tok => builtinWords.any (fun w => utf8 w = l) && tok.symbol = l
  | .node l ts => isToken l ts || (hasLine l (ts.map label) && followsAll ts)

/-- Whether the trees of a list are derivations by the table. -/
def followsAll : List Tree → Bool
  | [] => true
  | t :: ts => follows t && followsAll ts

end

/-- The table has only rules of the built-in grammar. -/
lemma exists_of_hasLine {l : Symbol} {rhs : List Symbol} (h : hasLine l rhs = true) :
    ∃ r ∈ builtin.rules, r.lhs = l ∧ r.rhs = rhs := by
  simp only [hasLine, any_eq_true, Bool.and_eq_true, decide_eq_true_eq] at h
  obtain ⟨p, hp, rfl, alternative, hmem, rfl⟩ := h
  exact exists_mem_builtin hp hmem

/-- A node for a token of a category is a derivation. -/
lemma isDerivation_of_isToken {l : Symbol} {ts : List Tree} (h : isToken l ts = true) :
    IsDerivation builtin (.node l ts) := by
  unfold isToken at h
  split at h
  · simp only [Bool.and_eq_true, any_eq_true, decide_eq_true_eq] at h
    obtain ⟨⟨⟨c, hc, rfl⟩, rfl⟩, htoken⟩ := h
    exact .category (isTerminal_builtin_of_mem (mem_append_right _ hc))
      (isCategory_builtin.2 c hc) htoken
  · exact absurd h Bool.false_ne_true

mutual

/-- A tree that follows the table is a derivation. -/
lemma isDerivation_of_follows : ∀ t : Tree, t.follows = true → t.IsDerivation builtin
  | .leaf l tok, h => by
    simp only [follows, Bool.and_eq_true, any_eq_true, decide_eq_true_eq] at h
    obtain ⟨⟨w, hw, rfl⟩, htoken⟩ := h
    exact .leaf (isTerminal_builtin_of_mem (mem_append_left _ hw)) (isCategory_builtin.1 w hw)
      htoken
  | .node l ts, h => by
    simp only [follows, Bool.or_eq_true, Bool.and_eq_true] at h
    rcases h with htoken | ⟨hline, hts⟩
    · exact isDerivation_of_isToken htoken
    · obtain ⟨r, hr, rfl, hrhs⟩ := exists_of_hasLine hline
      exact .rule hr hrhs.symm (isDerivation_of_followsAll ts hts)

lemma isDerivation_of_followsAll : ∀ ts : List Tree, followsAll ts = true →
    ∀ t ∈ ts, t.IsDerivation builtin
  | [], _ => by simp
  | t :: ts, h => by
    simp only [followsAll, Bool.and_eq_true] at h
    exact forall_mem_cons.2
      ⟨isDerivation_of_follows t h.1, isDerivation_of_followsAll ts h.2⟩

end

end Tree

end Lunify
