import Lunify.Proofs.Chunk.Expressions
import Lunify.Proofs.Spelled.Emission

/-!
# Operators and their operands

`OperatorTree` is an expression without its spelling: names and literals, and operators with their operands.
`Tree.operatorTree` is what a parsed expression says, in the operators of Lua, and
`Chunk.Expr.operatorTree` is what Lua reads.

`Tree.strength` is how strongly the outermost operator of an expression binds when Lua reads its text.
`Tree.keepsOperands` leaves out the expressions in which this matters: a sum or a product after `not`, and a
length that is subscripted or raised to a power.
-/

namespace Lunify

open List

open Chunk (Lexeme mark)

/-- An expression as its operators see it: names and literals, and operators with their operands. -/
inductive OperatorTree where
  | leaf (l : Lexeme)
  | node (operator : Text) (operands : List OperatorTree)

namespace OperatorTree

/-- The members of a list with commas. -/
def members : OperatorTree → List OperatorTree
  | .leaf _ => []
  | .node operator operands => if operator = utf8 "," then operands else []

/-- An entry of a table. -/
def entry (key value : OperatorTree) : OperatorTree :=
  .node (utf8 "=") [key, value]

/-- A table with the given entries. -/
def table (entries : List OperatorTree) : OperatorTree :=
  .node (utf8 "\x7b\x7d") entries

/-- An element as an entry of a table: the value at its index in a list, a key in a set. -/
def element (isList : Bool) (i : Nat) (x : OperatorTree) : OperatorTree :=
  if isList then entry (.leaf (.number (Text.ofNat i))) x else entry x (.leaf (mark "true"))

end OperatorTree

/-! ### What Lua reads -/

namespace Chunk

/-- The sign of an operator with two operands. -/
def BinaryOp.sign : BinaryOp → String
  | .or => "or"
  | .and => "and"
  | .eq => "=="
  | .ne => "~="
  | .lt => "<"
  | .le => "<="
  | .gt => ">"
  | .ge => ">="
  | .concat => ".."
  | .arith .add => "+"
  | .arith .sub => "-"
  | .arith .mul => "*"
  | .arith .div => "/"
  | .arith .mod => "%"
  | .arith .pow => "^"

/-- The sign of an operator with one operand. -/
def UnaryOp.sign : UnaryOp → String
  | .neg => "-"
  | .not => "not"
  | .length => "#"

mutual

/-- The operators of an expression that Lua reads. Functions are no operators and keep nothing. -/
def Expr.operatorTree : Expr → OperatorTree
  | .constant _ c => .leaf c.lexeme
  | .varargs _ _ => .leaf (mark "...")
  | .name _ x => .leaf (.name x)
  | .index _ object key => .node (utf8 "[]") [object.operatorTree, key.operatorTree]
  | .call _ _ f args => .node (utf8 "()") (f.operatorTree :: operatorTrees args)
  | .method _ _ object x args =>
    .node (utf8 ":") (object.operatorTree :: .leaf (.name x) :: operatorTrees args)
  | .table _ fields => .table (entryTrees fields)
  | .function _ _ _ _ _ => .node (utf8 "function") []
  | .binary _ op l r => .node (utf8 op.sign) [l.operatorTree, r.operatorTree]
  | .unary _ op e => .node (utf8 op.sign) [e.operatorTree]

/-- The operators of some expressions. -/
def operatorTrees : List Expr → List OperatorTree
  | [] => []
  | e :: es => e.operatorTree :: operatorTrees es

/-- The operators of a field of a table. -/
def Field.operatorTree : Field → OperatorTree
  | .item value => value.operatorTree
  | .pair key value => .entry key.operatorTree value.operatorTree

/-- The operators of the fields of a table. -/
def entryTrees : List Field → List OperatorTree
  | [] => []
  | f :: fs => f.operatorTree :: entryTrees fs

end

lemma operatorTrees_eq_map (es : List Expr) : operatorTrees es = es.map Expr.operatorTree := by
  induction es with
  | nil => rfl
  | cons e es ih => rw [operatorTrees, ih, map_cons]

lemma entryTrees_eq_map (fs : List Field) : entryTrees fs = fs.map Field.operatorTree := by
  induction fs with
  | nil => rfl
  | cons f fs ih => rw [entryTrees, ih, map_cons]

/-- Parentheses are no operator. -/
@[simp]
lemma operatorTree_parenthesized (line : Int) (e : Expr) :
    (e.parenthesized line).operatorTree = e.operatorTree := by
  cases e <;> simp [Expr.parenthesized, Expr.operatorTree]

end Chunk

/-! ### What a tree says -/

/-- The value that a table has for a label. -/
def labelled {α : Type} (table : List (String × α)) (other : α) (l : Text) : α :=
  (table.findSome? fun p => if utf8 p.1 = l then some p.2 else none).getD other

/-- The value that a table has for a symbol. -/
lemma labelled_utf8 {α : Type} (table : List (String × α)) (other : α) (s : String) :
    labelled table other (utf8 s) = (table.lookup s).getD other := by
  induction table with
  | nil => rfl
  | cons p table ih =>
    obtain ⟨s', a⟩ := p
    rw [labelled, findSome?_cons, lookup_cons]
    by_cases hs : s = s'
    · simp [hs]
    · have hne : utf8 s' ≠ utf8 s := fun heq => hs (Grammar.utf8_injective heq).symm
      rw [if_neg hne, beq_eq_false_iff_ne.2 hs]
      exact ih

lemma labelled_of_ne {α : Type} {table : List (String × α)} {other : α} {l : Text}
    (h : ∀ p ∈ table, utf8 p.1 ≠ l) : labelled table other l = other := by
  rw [labelled, findSome?_eq_none_iff.2 fun p hp => if_neg (h p hp), Option.getD_none]

/-- What the children of a node say together. -/
inductive Construct where
  | operation
  | enclosed
  | index
  | length
  | call
  | list
  | set
  | dict
  | pair
  | keyword
  | sequence
deriving DecidableEq, Repr

namespace Construct

open OperatorTree

/-- The symbols of constructs that are no operations. -/
def symbols : List (String × Construct) :=
  [("<primary>", .enclosed), ("<subscript>", .index), ("<len>", .length), ("<function_call>", .call),
    ("<list>", .list), ("<set>", .set), ("<dict>", .dict), ("<pair>", .pair),
    ("<keyword_argument>", .keyword), ("<arguments>", .sequence), ("<items>", .sequence),
    ("<pairs>", .sequence), ("<keywords>", .sequence)]

/-- The key that a word is in a `dict` call. -/
def key : Lexeme → Text
  | .mark x | .name x => x
  | _ => []

/-- The operators of a construct, from what its children say. A plus sign before an operand changes
nothing. -/
def combine : Construct → List OperatorTree → OperatorTree
  | .sequence, [x] => .node (utf8 ",") [x]
  | .sequence, [xs, _, x] => .node (utf8 ",") (xs.members ++ [x])
  | .list, xs => .table ((xs.flatMap members).mapIdx (element true))
  | .set, xs => .table ((xs.flatMap members).mapIdx (element false))
  | .dict, xs => .table (xs.flatMap members)
  | .call, f :: xs => .node (utf8 "()") (f :: xs.flatMap members)
  | .index, [x, _, k, _] => .node (utf8 "[]") [x, k]
  | .length, [_, _, x, _] => .node (utf8 "#") [x]
  | .enclosed, [_, x, _] => x
  | .pair, [k, _, v] => .entry k v
  | .keyword, [.leaf k, _, v] => .entry (.leaf (.string (key k))) v
  | .operation, [.leaf (.mark op), x] => if op = utf8 "+" then x else .node op [x]
  | .operation, [x, .leaf (.mark op), y] => .node op [x, y]
  | _, [x] => x
  | _, _ => .node [] []

lemma combine_single {c : Construct} (hc : c ∈ [operation, enclosed]) (x : OperatorTree) :
    c.combine [x] = x := by
  simp only [mem_cons, not_mem_nil, or_false] at hc
  rcases hc with rfl | rfl
  · cases x with
    | leaf l => cases l <;> rfl
    | node => rfl
  · rfl

lemma combine_unary (op : Text) (x : OperatorTree) :
    operation.combine [.leaf (.mark op), x] = if op = utf8 "+" then x else .node op [x] :=
  rfl

lemma combine_binary (op : Text) (x y : OperatorTree) :
    operation.combine [x, .leaf (.mark op), y] = .node op [x, y] := by
  cases x with
  | leaf l => cases l <;> rfl
  | node => rfl

end Construct

/-- The operators and literals that are spelled in another way in Lua. -/
def luaSpellings : List (String × String) :=
  [("**", "^"), ("!=", "~="), ("True", "true"), ("False", "false"), ("None", "nil")]

/-- The Lua token that a token stands for. -/
def Token.luaLexeme (tok : Token) : Lexeme :=
  (Chunk.values (labelled (luaSpellings.map fun p => (p.1, utf8 p.2)) tok.content tok.content)).headD .finish

namespace Tree

open Grammar Core OperatorTree

mutual

/-- The operators of a tree, in Lua. -/
def operatorTree : Tree → OperatorTree
  | .leaf _ tok => .leaf tok.luaLexeme
  | .node l ts => (labelled Construct.symbols .operation l).combine (operatorTrees ts)

/-- The operators of some trees, in Lua. -/
def operatorTrees : List Tree → List OperatorTree
  | [] => []
  | t :: ts => operatorTree t :: operatorTrees ts

end

/-- How strongly the operations of a symbol bind in Lua. -/
def strengths : List (String × Nat) :=
  [("<disjunction>", 1), ("<conjunction>", 2), ("<comparison>", 3), ("<sum>", 6), ("<term>", 7),
    ("<inversion>", 8), ("<factor>", 8), ("<len>", 8), ("<power>", 9)]

/-- How strongly the outermost operator of a tree binds in Lua. What has no such operator, or is in
parentheses, has the strength ten. -/
def strength : Tree → Nat
  | .leaf _ _ => 10
  | .node _ [t] => t.strength
  | .node l [k, t] => if k.isLeafOf (utf8 "+") then t.strength else labelled strengths 10 l
  | .node l _ => labelled strengths 10 l

/-- Whether the operator at a node keeps its operands in Lua: what is negated is no sum and no product, and
what is raised to a power or subscripted has no operator outside of parentheses, so that it is no length. -/
def keepsOperandsAt (l : Text) : List Tree → Bool
  | [_, t] => l ≠ utf8 "<inversion>" || t.strength ≤ 3 || 8 ≤ t.strength
  | t :: _ => (l ≠ utf8 "<power>" && l ≠ utf8 "<subscript>") || t.strength = 10
  | [] => true

mutual

/-- Whether all operators of a tree keep their operands in Lua. -/
def keepsOperands : Tree → Bool
  | .leaf _ _ => true
  | .node l ts => keepsOperandsAt l ts && allKeepOperands ts

/-- Whether all operators of some trees keep their operands in Lua. -/
def allKeepOperands : List Tree → Bool
  | [] => true
  | t :: ts => keepsOperands t && allKeepOperands ts

end

variable {plain : Prop} {l : Text} {s w lua : String} {t k : Tree} {ts : List Tree} {ls : List Lexeme}

lemma allKeepOperands_eq_true : allKeepOperands ts = true ↔ ∀ t ∈ ts, t.keepsOperands = true := by
  induction ts with
  | nil => simp [allKeepOperands]
  | cons t ts ih => simp [allKeepOperands, ih]

/-! ### Strengths -/

/-- An operator between operands or around them has the strength of its symbol. -/
lemma strength_node (h : 3 ≤ ts.length) :
    (Tree.node (utf8 s) ts).strength = (strengths.lookup s).getD 10 := by
  match ts, h with
  | _ :: _ :: _ :: _, _ => rw [strength, labelled_utf8]; all_goals simp

/-- An operator before its operand has the strength of its symbol. -/
lemma strength_before (hk : IsWord w k) (hw : w ∉ builtinCategories ∧ w ≠ "+") :
    (Tree.node (utf8 s) [k, t]).strength = (strengths.lookup s).getD 10 := by
  obtain ⟨tok, rfl, htok⟩ := hk
  have hcontent := (Token.content_of_symbol hw.1 htok).1
  have hne : tok.content ≠ utf8 "+" := by
    rw [hcontent]
    exact fun heq => hw.2 (utf8_injective heq)
  rw [strength, ← labelled_utf8, if_neg (by simp [isLeafOf, hne])]

lemma strength_plus (hk : IsWord "+" k) : (Tree.node l [k, t]).strength = t.strength := by
  obtain ⟨tok, rfl, htok⟩ := hk
  rw [strength, if_pos (by simp [isLeafOf, (Token.content_of_symbol (by decide) htok).1])]

/-- The strengths of trees. -/
lemma strength_mem (t : Tree) : t.strength ∈ [1, 2, 3, 6, 7, 8, 9, 10] := by
  have hlabelled : ∀ l, labelled strengths 10 l ∈ [1, 2, 3, 6, 7, 8, 9, 10] := by
    intro l
    rw [labelled]
    cases hfound : strengths.findSome? fun p => if utf8 p.1 = l then some p.2 else none with
    | none => decide
    | some n =>
      obtain ⟨p, hp, hn⟩ := exists_of_findSome?_eq_some hfound
      have hall : ∀ p ∈ strengths, p.2 ∈ [1, 2, 3, 6, 7, 8, 9, 10] := by decide
      obtain rfl : p.2 = n := by simpa using (Option.ite_none_right_eq_some.1 hn).2
      exact hall p hp
  fun_induction strength t with
  | case1 => decide
  | case2 _ _ ih => exact ih
  | case3 _ _ _ _ ih => exact ih
  | case4 => exact hlabelled _
  | case5 => exact hlabelled _

/-- How strongly the trees of a symbol bind at least. -/
def level (s : String) : Nat :=
  ([("<expression>", 1), ("<disjunction>", 1), ("<conjunction>", 2), ("<inversion>", 3), ("<comparison>", 3),
    ("<sum>", 6), ("<term>", 7), ("<arguments>", 0), ("<parameters>", 0), ("<pairs>", 0), ("<pair>", 0),
    ("<keywords>", 0), ("<keyword_argument>", 0)].lookup s).getD 8

/-- The trees of a symbol bind as strongly as its level says. -/
lemma Spelled.level_le (h : Spelled plain (.symbol s) t ls) : level s ≤ t.strength := by
  generalize hφ : Phrase.symbol s = φ at h
  induction h generalizing s with
  | category hs =>
    cases hφ
    have hlevel : ∀ s ∈ builtinCategories, level s ≤ 10 := by decide
    exact hlevel _ hs
  | literal _ ht =>
    obtain ⟨tok, rfl, -⟩ := ht
    cases hφ
    exact (by decide : level "<atom>" ≤ 10)
  | single hs _ ih =>
    cases hφ
    have hlevel : ∀ q ∈ singleRules, level q.1 ≤ level q.2 := by decide
    exact (hlevel _ hs).trans (ih rfl)
  | binary hs =>
    cases hφ
    have hlevel : ∀ q ∈ binaryRules, level q.1 ≤ (strengths.lookup q.1).getD 10 := by decide
    rw [strength_node (by simp)]
    exact hlevel _ hs
  | comma hs =>
    cases hφ
    have hlevel : ∀ q ∈ commaRules, level q.1 = 0 := by decide
    exact (hlevel _ hs).symm ▸ Nat.zero_le _
  | not hk =>
    cases hφ
    rw [strength_before hk (by decide)]
    decide
  | neg hk =>
    cases hφ
    rw [strength_before hk (by decide)]
    decide
  | pos hk _ ih =>
    cases hφ
    rw [strength_plus hk]
    exact ih rfl
  | empty hs ha =>
    cases hφ
    have hspec : ∀ q ∈ [("<list>", "[", "]"), ("<dict>", "\x7b", "\x7d")],
        (q.2.1 ∉ builtinCategories ∧ q.2.1 ≠ "+") ∧ level q.1 ≤ (strengths.lookup q.1).getD 10 := by decide
    rw [strength_before ha (hspec _ hs).1]
    exact (hspec _ hs).2
  | table hs =>
    cases hφ
    have hspec : ∀ q ∈ [("<list>", "[", "]", true), ("<set>", "\x7b", "\x7d", false)],
        level q.1 ≤ (strengths.lookup q.1).getD 10 := by decide
    rw [strength_node (by simp)]
    exact hspec _ hs
  | dict =>
    cases hφ
    rw [strength_node (by simp)]
    decide
  | firstItem | nextItem => cases hφ
  | _ =>
    cases hφ
    rw [strength_node (by simp)]
    decide

/-- A primary expression binds as strongly as an operator before its operand. -/
lemma Spelled.le_strength_of_isPrimary (h : Spelled plain (.symbol s) t ls) (ht : Plan.isPrimary t = true) :
    8 ≤ t.strength := by
  have hprimary : t.label = utf8 "<primary>" → 8 ≤ t.strength := by
    intro hlabel
    obtain rfl := utf8_injective (h.label.symm.trans hlabel)
    exact h.level_le
  fun_induction Plan.isPrimary t generalizing s with
  | case1 => cases ht
  | case2 l u ih =>
    rw [Bool.or_eq_true, decide_eq_true_eq] at ht
    rcases ht with rfl | ht
    · exact hprimary rfl
    · cases h with
      | single _ hu =>
        refine ih hu ht fun hlabel => ?_
        obtain rfl := utf8_injective (hu.label.symm.trans hlabel)
        exact hu.level_le
      | category => cases ht
      | literal _ hu =>
        obtain ⟨tok, rfl, -⟩ := hu
        cases ht
  | case3 l ts hts => exact hprimary (of_decide_eq_true ht)

/-- A negation or a comparison is an operation, or it stands for something else. -/
lemma Spelled.cases_of_level (h : Spelled plain (.symbol s) t ls) (hs : s = "<inversion>" ∨ s = "<comparison>") :
    (∃ s' u, (s, s') ∈ singleRules ∧ t = .node (utf8 s) [u] ∧ Spelled plain (.symbol s') u ls) ∨
    (s = "<comparison>" ∧ t.children.length = 3) ∨ 8 ≤ t.strength := by
  have hother : ∀ s ∈ builtinCategories ++ commaRules.map Prod.fst ++ ["<list>", "<set>", "<dict>"],
      s ≠ "<inversion>" ∧ s ≠ "<comparison>" := by decide
  have hne : ∀ {s'}, s' ∈ builtinCategories ++ commaRules.map Prod.fst ++ ["<list>", "<set>", "<dict>"] →
      s' ≠ s := by
    rintro s' hs' rfl
    exact hs.elim (hother _ hs').1 (hother _ hs').2
  generalize hφ : Phrase.symbol s = φ at h
  cases h with
  | category hs' =>
    cases hφ
    exact absurd rfl (hne (mem_append_left _ (mem_append_left _ hs')))
  | single hs' hu =>
    cases hφ
    exact .inl ⟨_, _, hs', rfl, hu⟩
  | binary hs' =>
    cases hφ
    have hrule : ∀ q ∈ binaryRules, q.1 ≠ "<inversion>" := by decide
    exact .inr (.inl ⟨hs.resolve_left (hrule _ hs'), rfl⟩)
  | comma hs' =>
    cases hφ
    refine absurd rfl (hne (mem_append_left _ (mem_append_right _ ?_)))
    exact mem_map_of_mem (f := Prod.fst) hs'
  | not hk =>
    rw [strength_before hk (by decide)]
    exact .inr (.inr (by decide))
  | empty hs' =>
    cases hφ
    have hmem : ∀ q ∈ [("<list>", "[", "]"), ("<dict>", "\x7b", "\x7d")],
        q.1 ∈ ["<list>", "<set>", "<dict>"] := by decide
    exact absurd rfl (hne (mem_append_right _ (hmem _ hs')))
  | table hs' =>
    cases hφ
    have hmem : ∀ q ∈ [("<list>", "[", "]", true), ("<set>", "\x7b", "\x7d", false)],
        q.1 ∈ ["<list>", "<set>", "<dict>"] := by decide
    exact absurd rfl (hne (mem_append_right _ (hmem _ hs')))
  | firstItem | nextItem => cases hφ
  | _ =>
    cases hφ
    exact absurd hs (by decide)

/-- An operand of `not` that is no comparison, no sum and no product binds as strongly as `not`. -/
lemma Spelled.le_strength_of_inversion (h : Spelled plain "<inversion>" t ls)
    (ht : Plan.isComparison t = false) (hstrength : t.strength ≤ 3 ∨ 8 ≤ t.strength) : 8 ≤ t.strength := by
  refine hstrength.elim (fun hle => ?_) id
  rcases h.cases_of_level (.inl rfl) with ⟨s, u, hs, rfl, hu⟩ | ⟨heq, -⟩ | h8
  · have hrule : ∀ q ∈ singleRules, q.1 = "<inversion>" → q.2 = "<comparison>" := by decide
    obtain rfl : s = "<comparison>" := hrule _ hs rfl
    rcases hu.cases_of_level (.inr rfl) with ⟨s', v, hs', rfl, hv⟩ | ⟨-, hlength⟩ | h8
    · have hlevel : ∀ q ∈ singleRules, q.1 = "<comparison>" → 6 ≤ level q.2 := by decide
      have hle' : v.strength ≤ 3 := hle
      have hge := (hlevel _ hs' rfl).trans hv.level_le
      omega
    · have hcomparison : Plan.isComparison (.node (utf8 "<inversion>") [u]) = true := by
        change (u.is (utf8 "<comparison>") && decide (u.children.length = 3)) = true
        simp [Tree.is, hu.label, hlength]
      exact absurd (ht.symm.trans hcomparison) Bool.false_ne_true
    · exact h8
  · exact absurd heq (by decide)
  · exact h8

/-! ### Operators -/

lemma operatorTrees_eq_map (ts : List Tree) : operatorTrees ts = ts.map operatorTree := by
  induction ts with
  | nil => rfl
  | cons t ts ih => rw [operatorTrees, ih, map_cons]

lemma operatorTree_node (s : String) (ts : List Tree) : (Tree.node (utf8 s) ts).operatorTree =
    ((Construct.symbols.lookup s).getD .operation).combine (ts.map operatorTree) := by
  rw [operatorTree, labelled_utf8, operatorTrees_eq_map]

/-- The words of operators and literals, in Lua. -/
def spelledWords : List (String × String) :=
  ("not", "not") :: (operatorWords ++ operatorRules.map Prod.snd ++ literalWords)

lemma spelledWords_spec : ∀ p ∈ spelledWords, p.1 ∉ builtinCategories ∧
    ((luaSpellings.map fun q => (q.1, utf8 q.2)).lookup p.1).getD (utf8 p.1) = utf8 p.2 ∧
    Chunk.wordOf? (utf8 p.2) = some (mark p.2) := by
  decide

lemma luaLexeme_of_isWord {tok : Token} {x : Lexeme}
    (h : Chunk.IsWord (labelled (luaSpellings.map fun p => (p.1, utf8 p.2)) tok.content tok.content) x) :
    tok.luaLexeme = x := by
  rw [Token.luaLexeme, h.lexes.values_eq, headD_cons]

lemma operatorTree_word (hw : (w, lua) ∈ spelledWords) (ht : IsWord w t) :
    t.operatorTree = .leaf (mark lua) := by
  obtain ⟨tok, rfl, htok⟩ := ht
  obtain ⟨hcategory, htext, hword⟩ := spelledWords_spec _ hw
  have hcontent := (Token.content_of_symbol hcategory htok).1
  rw [operatorTree, luaLexeme_of_isWord]
  rw [hcontent, labelled_utf8, htext]
  exact Chunk.isWord_of_wordOf? hword

/-- The operator of an operation. -/
lemma IsOperator.operatorTree_eq {o : String} (h : IsOperator o t lua) : t.operatorTree = .leaf (mark lua) := by
  cases h with
  | word hw ht => exact operatorTree_word (by simp [spelledWords, hw]) ht
  | among hs ht =>
    have hoperation : ∀ q ∈ operatorRules, (Construct.symbols.lookup q.1).getD .operation = .operation := by
      decide
    have hmem : (_, lua) ∈ spelledWords :=
      mem_cons_of_mem _ (mem_append_left _ (mem_append_right _ (mem_map_of_mem (f := Prod.snd) hs)))
    rw [operatorTree_node, hoperation _ hs, map_singleton, operatorTree_word hmem ht]
    rfl

lemma luaSpellings_spec : ∀ p ∈ luaSpellings, (utf8 p.1 ∈ reservedWords ∨ utf8 p.1 ∈ operatorTexts) ∧
    ∀ b ∈ (utf8 p.1).head?, Text.isDigit b = false ∧ b ≠ byte '.' ∧ b ≠ Lunify.Lexeme.doubleQuote ∧
      b ≠ Lunify.Lexeme.singleQuote := by
  decide +kernel

/-- A token of a category is spelled as it is. -/
lemma luaLexeme_category {tok : Token} {x : Lexeme} (hs : s ∈ builtinCategories) (htok : tok.symbol = utf8 s)
    (hlexed : tok.Lexed) (hword : Chunk.IsWord tok.content x) : tok.luaLexeme = x := by
  have hother : ∀ p ∈ luaSpellings, utf8 p.1 ≠ tok.content := by
    intro p hp heq
    obtain ⟨hmem, hhead⟩ := luaSpellings_spec p hp
    rw [heq] at hmem hhead
    have hkind := Token.kind_of_symbol htok hs hlexed
    simp only [mem_cons, Prod.mk.injEq, not_mem_nil, or_false] at hkind
    rcases hkind with ⟨-, hkind⟩ | ⟨-, hkind⟩ | ⟨-, hkind⟩ <;> simp only [Token.Lexed, hkind] at hlexed
    · exact hmem.elim hlexed.2.1 hlexed.2.2
    · obtain ⟨b, r, hcons, hb⟩ := hlexed.exists_cons
      obtain ⟨hdigit, hpoint, -⟩ := hhead b (by simp [hcons])
      rcases hb with hb | ⟨hb, -⟩
      · exact absurd (hdigit.symm.trans hb) Bool.false_ne_true
      · exact hpoint hb
    · obtain ⟨q, r, hcons, hq, -⟩ := hlexed
      obtain ⟨-, -, hdouble, hsingle⟩ := hhead q (by simp [hcons])
      exact hq.elim hdouble hsingle
  refine luaLexeme_of_isWord ?_
  rwa [labelled_of_ne]
  intro p hp
  obtain ⟨q, hq, rfl⟩ := mem_map.1 hp
  exact hother q hq

end Tree

end Lunify
