import Lunify.Proofs.Token.Layout
import Lunify.Proofs.Tree.Shape
import Lunify.Rendering.Plan

/-!
# Where derivations stand on their lines

What stands within a line has visible tokens only (`Tree.isVisible_of_mem_leaves`), and no node begins with
the opening or the closing of a block (`Tree.head_ne_depth`). The grammar is read symbol by symbol: each of the
checks below looks at all right-hand sides of the table.
-/

namespace Lunify

open List

variable {s : String}

/-! ### Tokens -/

namespace Token

/-- Whether a token is the statement that does nothing. -/
def isPass (t : Token) : Bool :=
  t.kind = .keyword && t.content = utf8 "pass"

/-- Whether a token is neither layout nor `pass`. -/
def isVisible (t : Token) : Bool :=
  !t.isSynthetic && !t.isPass

lemma isSynthetic_of_isVisible {t : Token} (h : t.isVisible = true) : t.isSynthetic = false := by
  simp only [isVisible, Bool.and_eq_true, Bool.not_eq_true'] at h
  exact h.1

/-- The symbols of layout and `pass`. -/
def hiddenWords : List String :=
  ["newline", "indent", "dedent", "pass"]

/-- A token with any other symbol is visible. -/
lemma isVisible_of_symbol {t : Token} (h : t.symbol = utf8 s) (hs : s ∉ hiddenWords) :
    t.isVisible = true := by
  have hne : ∀ w ∈ hiddenWords, utf8 s ≠ utf8 w := by
    intro w hw heq
    exact hs (Grammar.utf8_injective heq ▸ hw)
  have hnewline := hne "newline" (by decide)
  have hindent := hne "indent" (by decide)
  have hdedent := hne "dedent" (by decide)
  have hpass := hne "pass" (by decide)
  simp only [isVisible, Bool.and_eq_true, Bool.not_eq_true', isSynthetic, isPass]
  cases hkind : t.kind with
  | divider =>
    rw [symbol, hkind] at h
    simp [h, newlineText, indentText, dedentText, hnewline, hindent, hdedent]
  | keyword =>
    rw [symbol, hkind] at h
    simp [h, hpass]
  | _ => simp

/-- A token with a symbol of layout is that divider, where its content fits its kind. -/
lemma isDivider_of_symbol {t : Token} (h : t.symbol = utf8 s) (hs : s ∈ ["newline", "indent", "dedent"])
    (hlexed : t.Lexed) : t.isDivider (utf8 s) = true := by
  have hspec : ∀ s ∈ ["newline", "indent", "dedent"], utf8 s ∉ reservedWords ∧
      utf8 s ∉ operatorTexts ∧ utf8 s ∉ Grammar.builtinCategories.map utf8 := by
    decide
  obtain ⟨hkeyword, hoperator, hcategory⟩ := hspec s hs
  unfold Lexed at hlexed
  unfold symbol at h
  cases hkind : t.kind with
  | divider =>
    simp only [hkind] at h
    simp [isDivider, hkind, h]
  | keyword =>
    simp only [hkind] at h hlexed
    exact absurd (h ▸ hlexed) hkeyword
  | operator =>
    simp only [hkind] at h hlexed
    exact absurd (h ▸ hlexed) hoperator
  | other n => simp [hkind] at hlexed
  | _ =>
    simp only [hkind] at h
    exact absurd (h ▸ mem_map_of_mem (by decide)) hcategory

lemma isSynthetic_of_symbol {t : Token} (h : t.symbol = utf8 s) (hs : s ∈ ["newline", "indent", "dedent"])
    (hlexed : t.Lexed) : t.isSynthetic = true :=
  Lexer.isSynthetic_of_isDivider (mem_map_of_mem hs) (isDivider_of_symbol h hs hlexed)

/-- A token with the symbol of a category is of that category, where its content fits its kind. -/
lemma kind_of_symbol {t : Token} (h : t.symbol = utf8 s) (hs : s ∈ Grammar.builtinCategories)
    (hlexed : t.Lexed) :
    (s, t.kind) ∈ [("<Identifier>", .identifier), ("<Number>", .number), ("<String>", .string)] := by
  have hspec : ∀ s ∈ Grammar.builtinCategories,
      utf8 s ∉ reservedWords ∧ utf8 s ∉ operatorTexts ∧ utf8 s ∉ dividerTexts := by
    decide
  obtain ⟨hkeyword, hoperator, hdivider⟩ := hspec s hs
  unfold Lexed at hlexed
  unfold symbol at h
  cases hkind : t.kind with
  | identifier =>
    simp only [hkind] at h
    simp [← Grammar.utf8_injective h]
  | number =>
    simp only [hkind] at h
    simp [← Grammar.utf8_injective h]
  | string =>
    simp only [hkind] at h
    simp [← Grammar.utf8_injective h]
  | keyword =>
    simp only [hkind] at h hlexed
    exact absurd (h ▸ hlexed) hkeyword
  | operator =>
    simp only [hkind] at h hlexed
    exact absurd (h ▸ hlexed) hoperator
  | divider =>
    simp only [hkind] at h hlexed
    exact absurd (h ▸ hlexed) hdivider
  | other n => simp [hkind] at hlexed

@[simp] lemma content_place (view : Position → Position) (t : Token) : (Plan.place view t).content = t.content :=
  rfl

end Token

/-- Whether a line goes on after some tokens. -/
def MidLine (done : List Token) : Prop :=
  ∃ t, done.getLast? = some t ∧ t.isVisible = true

/-- Whether a line begins after some tokens. -/
def LineStart (done : List Token) : Prop :=
  ∀ t, done.getLast? = some t → t.isSynthetic = true

lemma lineStart_append {done tokens : List Token}
    (h : ∃ t, tokens.getLast? = some t ∧ t.isSynthetic = true) : LineStart (done ++ tokens) := by
  obtain ⟨t, hlast, ht⟩ := h
  intro u hu
  rw [getLast?_append, hlast, Option.some_or] at hu
  exact Option.some.inj hu ▸ ht

namespace Tree

open Grammar

variable {t : Tree}

/-- The tokens of a tree where they are taken to stand. -/
def placed (view : Position → Position) (t : Tree) : List Token :=
  t.leaves.map (Plan.place view)

lemma placed_node (view : Position → Position) (l : Text) (ts : List Tree) :
    placed view (.node l ts) = ts.flatMap (placed view) := by
  rw [placed, leaves, leavesOf_eq_flatMap, map_flatMap]
  rfl

lemma placed_leaf (view : Position → Position) (l : Text) (tok : Token) :
    placed view (.leaf l tok) = [Plan.place view tok] := by
  simp [placed, leaves]

lemma mem_leaves_of_mem {l : Text} {ts : List Tree} (ht : t ∈ ts) {tok : Token} (htok : tok ∈ t.leaves) :
    tok ∈ (Tree.node l ts).leaves :=
  mem_leaves_node.2 ⟨t, ht, htok⟩

/-- A token of a node is a token of a child. -/
lemma exists_mem_of_mem_leaves {l : Text} {ts : List Tree} {tok : Token}
    (htok : tok ∈ (Tree.node l ts).leaves) : ∃ t ∈ ts, tok ∈ t.leaves :=
  mem_leaves_node.1 htok

lemma leaves_ne_nil (ht : t.IsDerivation builtin) : t.leaves ≠ [] := by
  induction ht with
  | leaf => simp [leaves]
  | category => simp [leaves, leavesOf]
  | @rule r ts hr hlabels hts ih =>
    cases ts with
    | nil => exact absurd hlabels.symm r.rhs_ne_nil
    | cons t ts =>
      rw [leaves, leavesOf]
      exact append_ne_nil_of_left_ne_nil (ih t mem_cons_self) _

/-- Every child has tokens. -/
lemma length_children_le {l : Text} {ts : List Tree} (h : (Tree.node l ts).IsDerivation builtin) :
    ts.length ≤ (Tree.node l ts).leaves.length := by
  cases h with
  | category => simp [leaves, leavesOf]
  | rule _ _ hts =>
    rw [leaves]
    clear * - hts
    induction ts with
    | nil => exact Nat.zero_le _
    | cons t ts ih =>
      have ht := length_pos_of_ne_nil (leaves_ne_nil (hts t mem_cons_self))
      have hrest := ih fun u hu => hts u (mem_cons_of_mem t hu)
      rw [leavesOf, length_append, length_cons]
      omega

/-- The first token of a derivation is the first of its tokens. -/
lemma first?_eq_head? (ht : t.IsDerivation builtin) : t.first? = t.leaves.head? := by
  induction ht with
  | leaf => simp [first?, leaves]
  | category => simp [first?, leaves, leavesOf]
  | @rule r ts hr hlabels hts ih =>
    cases ts with
    | nil => exact absurd hlabels.symm r.rhs_ne_nil
    | cons t ts =>
      rw [first?, ih t mem_cons_self, leaves, leavesOf, head?_append_of_ne_nil]
      exact leaves_ne_nil (hts t mem_cons_self)

/-! ### What stands within a line -/

/-- The symbols with rules of what stands within a line. -/
def inlineRules : List String :=
  ["<assignment>", "<parameters>", "<return>", "<print>", "<function_call>", "<arguments>", "<range>",
    "<expression>", "<disjunction>", "<conjunction>", "<inversion>", "<comparison>", "<compare_op>",
    "<sum>", "<sum_op>", "<term>", "<term_op>", "<factor>", "<power>", "<primary>", "<subscript>",
    "<len>", "<atom>", "<list>", "<items>", "<dict>", "<pairs>", "<pair>", "<keywords>",
    "<keyword_argument>", "<set>"]

/-- The symbols of what stands within a line and is not `pass`. -/
def inlineSymbols : List String :=
  builtinWords.filter (fun w => !Token.hiddenWords.contains w) ++ builtinCategories ++ inlineRules

lemma inlineSymbols_closed : (∀ s ∈ inlineSymbols, s ∉ Token.hiddenWords) ∧
    ∀ p ∈ builtinTable, p.1 ∈ inlineSymbols → ∀ rhs ∈ p.2, ∀ s ∈ rhs, s ∈ inlineSymbols := by
  decide

/-- All tokens of what stands within a line are visible. -/
lemma isVisible_of_mem_leaves (ht : t.IsDerivation builtin) (hs : s ∈ inlineSymbols)
    (hlabel : t.label = utf8 s) : ∀ tok ∈ t.leaves, tok.isVisible = true := by
  induction ht generalizing s with
  | @leaf s' tok _ _ htoken =>
    have hsymbol : tok.symbol = utf8 s := htoken.trans hlabel
    simpa [leaves] using Token.isVisible_of_symbol hsymbol (inlineSymbols_closed.1 s hs)
  | @category s' tok _ _ htoken =>
    have hsymbol : tok.symbol = utf8 s := htoken.trans hlabel
    simpa [leaves, leavesOf] using Token.isVisible_of_symbol hsymbol (inlineSymbols_closed.1 s hs)
  | @rule r ts hr hlabels _ ih =>
    obtain ⟨p, hp, rhs, hrhs, hlhs, hr'⟩ := exists_of_mem_builtin hr
    obtain rfl : p.1 = s := utf8_injective (hlhs.symm.trans hlabel)
    have hparts := inlineSymbols_closed.2 p hp hs rhs hrhs
    have hts : ∀ t ∈ ts, ∀ tok ∈ t.leaves, tok.isVisible = true := by
      intro t ht
      have hmem : t.label ∈ rhs.map utf8 := by
        rw [← hr', ← hlabels]
        exact mem_map_of_mem ht
      obtain ⟨w, hw, heq⟩ := mem_map.1 hmem
      exact ih t ht (hparts w hw) heq.symm
    intro tok htok
    obtain ⟨t, ht, hmem⟩ := exists_mem_of_mem_leaves htok
    exact hts t ht tok hmem

/-- What a tree begins with, read symbol by symbol: if only the symbols `A` can begin with a divider, no other
symbol does. -/
lemma head_ne_divider {A : List String} {w : String}
    (hA : ∀ p ∈ builtinTable, p.1 ∉ A → ∀ rhs ∈ p.2, ∀ s ∈ rhs.head?, s ∉ A ∧ s ≠ w)
    (ht : t.IsDerivation builtin) (hlabel : t.label = utf8 s) (hs : s ∉ A ∧ s ≠ w) :
    ∀ tok ∈ t.leaves.head?, tok.isDivider (utf8 w) = false := by
  have hsymbol : ∀ (s : String) (tok : Token), s ≠ w → tok.symbol = utf8 s → tok.isDivider (utf8 w) = false := by
    intro s tok hs htok
    by_contra hdivider
    simp only [Bool.not_eq_false, Token.isDivider, Bool.and_eq_true, decide_eq_true_eq] at hdivider
    rw [Token.symbol, hdivider.1, hdivider.2] at htok
    exact hs (utf8_injective htok).symm
  induction ht generalizing s with
  | @leaf _ tok _ _ htoken => simpa [leaves] using hsymbol s tok hs.2 (htoken.trans hlabel)
  | @category _ tok _ _ htoken => simpa [leaves, leavesOf] using hsymbol s tok hs.2 (htoken.trans hlabel)
  | @rule r ts hr hlabels hts ih =>
    obtain ⟨p, hp, rhs, hrhs, hlhs, hr'⟩ := exists_of_mem_builtin hr
    obtain rfl : p.1 = s := utf8_injective (hlhs.symm.trans hlabel)
    rw [hr'] at hlabels
    cases ts with
    | nil => simp [leaves, leavesOf]
    | cons t ts =>
      obtain ⟨w', rhs', rfl, hfirst, -⟩ := map_eq_cons_iff.1 hlabels.symm
      rw [leaves, leavesOf, head?_append_of_ne_nil _ (leaves_ne_nil (hts t mem_cons_self))]
      exact ih t mem_cons_self hfirst.symm (hA p hp hs.1 _ hrhs w' rfl)

/-- No node begins with the opening or the closing of a block. -/
lemma head_ne_depth {w : String} (hw : w ∈ ["indent", "dedent"]) (ht : t.IsDerivation builtin)
    (hlabel : t.label = utf8 s) (hs : s ∉ ["indent", "dedent"]) :
    ∀ tok ∈ t.leaves.head?, tok.isDivider (utf8 w) = false := by
  have htable : ∀ w ∈ ["indent", "dedent"], ∀ p ∈ builtinTable, p.1 ∉ [] → ∀ rhs ∈ p.2, ∀ s ∈ rhs.head?,
      s ∉ ([] : List String) ∧ s ≠ w := by decide
  refine head_ne_divider (htable w hw) ht hlabel ⟨not_mem_nil, ?_⟩
  rintro rfl
  exact hs hw

end Tree

end Lunify
