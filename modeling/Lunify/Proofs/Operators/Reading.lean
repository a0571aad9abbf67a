import Lunify.Proofs.Operators.Meaning
import Lunify.Proofs.Spelled.Generate

/-!
# Lua reads the operators of the source

The text of an expression means the operators of its tree (`Tree.Spelled.hasMeaning`), so if Lua reads it as
an expression at all, it reads these operators with these operands (`operatorTree_of_isReadAs`). This needs the
operands to be kept: `not a + b` is read as `(not a) + b`.
-/

namespace Lunify

open List

open Chunk (Lexeme mark)

variable {T : OperatorTree} {n : Nat}

/-- Whether a Lua text as a whole is read as the given expression. -/
def Chunk.IsReadAs (s : Text) (e : Chunk.Expr) : Prop :=
  ∃ fuel rest, Reader.expr fuel 0 (tokens s) = .ok (e, rest) ∧ Reader.next rest = .finish

namespace Tree

open Grammar Core OperatorTree
open Chunk (inParens)
open Chunk.Reader (Means MeansExprs MeansArgs MeansFields IsNaming)

variable {s : String} {φ : Phrase} {t : Tree} {ls : List Lexeme}

variable {tok : Token}

/-! ### Tokens of categories -/

lemma isWord_unique {w : Text} {l l' : Lexeme} (h : Chunk.IsWord w l) (h' : Chunk.IsWord w l') : l = l' := by
  have heq := h.lexes.values_eq.symm.trans h'.lexes.values_eq
  exact (List.cons.inj heq).1

lemma unaryOp?_reservedWords : ∀ r ∈ Chunk.reservedWords, r ∉ operatorTexts → Chunk.Reader.unaryOp? r = none := by
  decide

/-- An identifier is a name in Lua, or a reserved word. -/
lemma isNaming_of_identifier {l : Lexeme} (htok : tok.symbol = identifierSymbol) (hlexed : tok.Lexed)
    (hword : Chunk.IsWord tok.content l) : IsNaming l := by
  have hkind := Token.kind_of_symbol (s := "<Identifier>") htok (by decide) hlexed
  have hkind : tok.kind = .identifier := by simpa using hkind
  simp only [Token.Lexed, hkind] at hlexed
  obtain ⟨⟨b, r, hcons, hb, hr⟩, -, hoperator⟩ := hlexed
  rw [hcons] at hword hoperator
  rw [isWord_unique hword (.word hb hr), Chunk.wordLexeme]
  split
  · rename_i hreserved
    have hmem := contains_iff_mem.1 hreserved
    have hnone := unaryOp?_reservedWords _ hmem hoperator
    exact .inr (by simp [Chunk.Reader.isReservedName, hmem, hnone])
  · exact .inl ⟨_, rfl⟩

/-- A token of a category means itself. -/
lemma means_category {l : Lexeme} (hs : s ∈ builtinCategories) (htok : tok.symbol = utf8 s)
    (hlexed : tok.Lexed) (hplain : tok.IsPlain) (hword : Chunk.IsWord tok.content l) :
    Means 10 (.leaf l) [l] := by
  have hkind := Token.kind_of_symbol htok hs hlexed
  simp only [mem_cons, Prod.mk.injEq, not_mem_nil, or_false] at hkind
  rcases hkind with ⟨rfl, -⟩ | ⟨-, hkind⟩ | ⟨-, hkind⟩
  · exact Chunk.Reader.means_naming (isNaming_of_identifier htok hlexed hword)
  · simp only [Token.Lexed, hkind] at hlexed
    rw [isWord_unique hword (.number hlexed)]
    exact Chunk.Reader.means_constant (.number _)
  · simp only [Token.Lexed, hkind] at hlexed
    obtain ⟨q, r, hcons, hq, hr⟩ := hlexed
    have hplain := hplain hkind
    rw [hcons] at hword hplain
    have hstring : Chunk.IsWord (q :: (r ++ [q])) (.string r) := by
      refine .string hq fun c hc => ?_
      obtain ⟨hbackslash, hreturn⟩ := hplain c (by simp [hc])
      exact ⟨(hr c hc).1, (hr c hc).2, hreturn, hbackslash⟩
    rw [isWord_unique hword hstring]
    exact Chunk.Reader.means_constant (.string r)

/-! ### Expressions -/

/-- What a tree of a symbol has to be read as. -/
inductive Role where
  | expression
  | arguments
  | entries
  | entry
  | parameters
deriving DecidableEq, Repr

/-- The roles of symbols. -/
def role (s : String) : Role :=
  ([("<arguments>", .arguments), ("<pairs>", .entries), ("<keywords>", .entries), ("<pair>", .entry),
    ("<keyword_argument>", .entry), ("<parameters>", .parameters)].lookup s).getD .expression

/-- Whether Lua tokens mean what a tree of a symbol says, in its role. -/
def RoleMeans (t : Tree) (ls : List Lexeme) : Role → Prop
  | .expression => Means t.strength t.operatorTree ls
  | .arguments => MeansExprs t.operatorTree.members ls
  | .entries => MeansFields t.operatorTree.members ls
  | .entry => MeansFields [t.operatorTree] ls
  | .parameters => True

/-- Whether Lua tokens mean what a tree says. -/
def HasMeaning : Phrase → Tree → List Lexeme → Prop
  | .symbol s, t, ls => RoleMeans t ls (role s)
  | .items isList n, t, ls =>
    t.operatorTree.members.length = n ∧ MeansFields (t.operatorTree.members.mapIdx (element isList)) ls

/-- Whether the strings of a tree are read by Lua as they are, and its operators keep their operands. -/
structure IsTame (t : Tree) : Prop where
  plain : Fits True t
  keeps : t.keepsOperands = true

lemma IsTame.child {l : Text} {ts : List Tree} (h : IsTame (.node l ts)) {t : Tree} (ht : t ∈ ts := by simp) :
    IsTame t where
  plain := h.plain.child ht
  keeps := by
    have hkeeps := h.keeps
    rw [keepsOperands, Bool.and_eq_true] at hkeeps
    exact allKeepOperands_eq_true.1 hkeeps.2 t ht

lemma IsTame.keepsOperandsAt {l : Text} {ts : List Tree} (h : IsTame (.node l ts)) :
    keepsOperandsAt l ts = true := by
  have hkeeps := h.keeps
  rw [keepsOperands, Bool.and_eq_true] at hkeeps
  exact hkeeps.1

lemma strength_pos (t : Tree) : 0 < t.strength := by
  have hall : ∀ n ∈ [1, 2, 3, 6, 7, 8, 9, 10], 0 < n := by decide
  exact hall _ t.strength_mem

section Constructs

variable {s' l o r w lua : String} {u v k a b : Tree} {ks cls : List Lexeme} {cs : List Tree} {isList : Bool}

/-- Symbols that stand for others, with their roles and constructs. -/
lemma singleRules_spec : ∀ q ∈ singleRules,
    (role q.1 = .expression ∧ role q.2 = .expression ∧
      (Construct.symbols.lookup q.1).getD .operation ∈ [Construct.operation, .enclosed]) ∨
    (role q.1 = .arguments ∧ role q.2 = .expression ∧
      (Construct.symbols.lookup q.1).getD .operation = .sequence) ∨
    (role q.1 = .entries ∧ role q.2 = .entry ∧ (Construct.symbols.lookup q.1).getD .operation = .sequence) ∨
    role q.1 = .parameters := by
  decide

/-- A symbol that stands for another one. -/
lemma roleMeans_single (hs : (s, s') ∈ singleRules) (h : RoleMeans t ls (role s')) :
    RoleMeans (.node (utf8 s) [t]) ls (role s) := by
  rcases singleRules_spec _ hs with ⟨hr, hr', hc⟩ | ⟨hr, hr', hc⟩ | ⟨hr, hr', hc⟩ | hr <;> rw [hr]
  · rw [hr'] at h
    rw [RoleMeans, operatorTree_node, map_singleton, Construct.combine_single hc, strength]
    exact h
  · rw [hr'] at h
    rw [RoleMeans, operatorTree_node, hc]
    exact Chunk.Reader.meansList_singleton ⟨_, t.strength_pos, h⟩
  · rw [hr'] at h
    rw [RoleMeans, operatorTree_node, hc]
    exact h
  · trivial

lemma members_comma (hc : (Construct.symbols.lookup s).getD .operation = .sequence) :
    (Tree.node (utf8 s) [t, u, v]).operatorTree.members = t.operatorTree.members ++ [v.operatorTree] := by
  rw [operatorTree_node, hc]
  rfl

/-- A list with one more member. -/
lemma roleMeans_comma (hs : (s, s') ∈ commaRules) (ht : RoleMeans t ks (role s))
    (hv : RoleMeans v ls (role s')) : RoleMeans (.node (utf8 s) [t, u, v]) (ks ++ mark "," :: ls) (role s) := by
  have hspec : ∀ q ∈ commaRules,
      (role q.1 = .arguments ∧ role q.2 = .expression ∧
        (Construct.symbols.lookup q.1).getD .operation = .sequence) ∨
      (role q.1 = .entries ∧ role q.2 = .entry ∧ (Construct.symbols.lookup q.1).getD .operation = .sequence) ∨
      role q.1 = .parameters := by decide
  rcases hspec _ hs with ⟨hr, hr', hc⟩ | ⟨hr, hr', hc⟩ | hr <;> rw [hr] at ht ⊢
  · rw [hr'] at hv
    rw [RoleMeans, members_comma hc]
    exact ht.append (Chunk.Reader.meansList_singleton ⟨_, v.strength_pos, hv⟩)
  · rw [hr'] at hv
    rw [RoleMeans, members_comma hc]
    exact ht.append hv
  · trivial

/-- The operators of operations, in Lua. -/
def operatorSpellings : List (String × String) :=
  operatorWords ++ operatorRules.map fun q => (q.1, q.2.2)

lemma IsOperator.mem (h : IsOperator o t lua) : (o, lua) ∈ operatorSpellings := by
  cases h with
  | word hw => exact mem_append_left _ hw
  | among hs => exact mem_append_right _ (mem_map_of_mem (f := fun q => (q.1, q.2.2)) hs)

/-- The operands of an operation bind more strongly than its operator. A power binds its right operand less
strongly than its left one. -/
lemma binaryRules_spec : ∀ q ∈ binaryRules, ∀ p ∈ operatorSpellings, p.1 = q.2.2.1 →
    p.2 ∈ Chunk.Reader.infixes ∧ role q.1 = .expression ∧ role q.2.1 = .expression ∧
    role q.2.2.2 = .expression ∧ (Construct.symbols.lookup q.1).getD .operation = .operation ∧
    ((Chunk.Reader.binaryOp? (utf8 p.2)).map Prod.snd =
        some ((strengths.lookup q.1).getD 10, (strengths.lookup q.1).getD 10) ∧
      (strengths.lookup q.1).getD 10 ≤ 7 ∧ (strengths.lookup q.1).getD 10 ≤ level q.2.1 ∧
      (strengths.lookup q.1).getD 10 < level q.2.2.2 ∨
    q.1 = "<power>" ∧ p.2 = "^" ∧ 8 ≤ level q.2.2.2) := by
  decide

/-- An operation. -/
lemma roleMeans_binary (hs : (s, l, o, r) ∈ binaryRules) (ht : Spelled True l t ks) (hu : IsOperator o u lua)
    (hv : Spelled True r v ls) (htame : IsTame (.node (utf8 s) [t, u, v])) (ht' : RoleMeans t ks (role l))
    (hv' : RoleMeans v ls (role r)) :
    RoleMeans (.node (utf8 s) [t, u, v]) (ks ++ mark lua :: ls) (role s) := by
  obtain ⟨hlua, hr, hrl, hrr, hc, hspec⟩ := binaryRules_spec _ hs _ hu.mem rfl
  have hoperators : (Tree.node (utf8 s) [t, u, v]).operatorTree =
      .node (utf8 lua) [t.operatorTree, v.operatorTree] := by
    rw [operatorTree_node, hc, map_cons, map_cons, hu.operatorTree_eq]
    exact Construct.combine_binary _ _ _
  rw [hrl] at ht'
  rw [hrr] at hv'
  rw [hr, RoleMeans, hoperators, strength_node (by simp)]
  rcases hspec with ⟨hop, hle, hleft, hright⟩ | ⟨rfl, rfl, hright⟩
  · obtain ⟨⟨op, _, _⟩, hop, heq⟩ := Option.map_eq_some_iff.1 hop
    obtain ⟨rfl, rfl⟩ := Prod.mk.inj heq
    exact Chunk.Reader.means_binary hop hlua ht' hv' (hleft.trans ht.level_le)
      (hright.trans_le hv.level_le) hle
  · have hbase : t.strength = 10 := by simpa [keepsOperandsAt] using htame.keepsOperandsAt
    rw [RoleMeans, hbase] at ht'
    exact Chunk.Reader.means_power ht' hv' (hright.trans hv.level_le)

/-- An operator before its operand. -/
lemma means_before {op : Chunk.UnaryOp} (hk : IsWord w k) (hw : (w, w) ∈ spelledWords ∧ w ∈ ["-", "not", "#"])
    (hop : Chunk.Reader.unaryOp? (utf8 w) = some op)
    (hc : (Construct.symbols.lookup s).getD .operation = .operation) (hs : (strengths.lookup s).getD 10 = 8)
    (hT : t.operatorTree = T) (h : Means n T ls) (hn : 8 ≤ n) :
    Means (Tree.node (utf8 s) [k, t]).strength (Tree.node (utf8 s) [k, t]).operatorTree (mark w :: ls) := by
  have hne : ∀ w ∈ ["-", "not", "#"], w ≠ "+" := by decide
  have hplus : utf8 w ≠ utf8 "+" := fun heq => hne w hw.2 (utf8_injective heq)
  have hoperators : (Tree.node (utf8 s) [k, t]).operatorTree = .node (utf8 w) [T] := by
    rw [operatorTree_node, hc, map_cons, map_singleton, operatorTree_word hw.1 hk, hT, mark,
      Construct.combine_unary, if_neg hplus]
  rw [hoperators, strength_before hk ⟨(spelledWords_spec _ hw.1).1, hne w hw.2⟩, hs]
  exact Chunk.Reader.means_unary hop hw.2 h hn

/-- A negation. A comparison after it is put in parentheses. -/
lemma means_not (hk : IsWord "not" k) (ht : Spelled True "<inversion>" t ls)
    (htame : IsTame (.node (utf8 "<inversion>") [k, t])) (h : Means t.strength t.operatorTree ls) :
    Means (Tree.node (utf8 "<inversion>") [k, t]).strength
      (Tree.node (utf8 "<inversion>") [k, t]).operatorTree
      (mark "not" :: if Plan.isComparison t then inParens ls else ls) := by
  have hop : Chunk.Reader.unaryOp? (utf8 "not") = some .not := by decide
  by_cases hcomparison : Plan.isComparison t = true
  · rw [if_pos hcomparison]
    exact means_before hk (by decide) hop rfl rfl rfl (Chunk.Reader.means_inParens h t.strength_pos) (by decide)
  · rw [if_neg hcomparison]
    have hkeeps : t.strength ≤ 3 ∨ 8 ≤ t.strength := by
      simpa [keepsOperandsAt] using htame.keepsOperandsAt
    exact means_before hk (by decide) hop rfl rfl rfl h
      (ht.le_strength_of_inversion (by simpa using hcomparison) hkeeps)

/-- A length. What is no primary expression is put in parentheses. -/
lemma means_length (ht : Spelled True "<expression>" t ls) (h : Means t.strength t.operatorTree ls) :
    Means (Tree.node (utf8 "<len>") [k, a, t, b]).strength
      (Tree.node (utf8 "<len>") [k, a, t, b]).operatorTree
      (mark "#" :: if Plan.isPrimary t then ls else inParens ls) := by
  have hop : Chunk.Reader.unaryOp? (utf8 "#") = some .length := by decide
  rw [operatorTree_node, strength_node (by simp)]
  by_cases hprimary : Plan.isPrimary t = true
  · rw [if_pos hprimary]
    exact Chunk.Reader.means_unary hop (by decide) h (ht.le_strength_of_isPrimary hprimary)
  · rw [if_neg hprimary]
    exact Chunk.Reader.means_unary hop (by decide) (Chunk.Reader.means_inParens h t.strength_pos) (by decide)

/-- The name of a function. -/
lemma IsName.isNaming {f : Tree} {x : Lexeme} (hf : IsName f x) (hplain : Fits True f) :
    IsNaming x ∧ f.operatorTree = .leaf x := by
  obtain ⟨tok, rfl, htok, hword⟩ := hf
  obtain ⟨hlexed, -⟩ := hplain tok (by simp [leaves, leavesOf])
  refine ⟨isNaming_of_identifier htok hlexed hword, ?_⟩
  rw [identifierSymbol, operatorTree_node, map_singleton, Construct.combine_single (by decide), operatorTree,
    luaLexeme_category (s := "<Identifier>") (by decide) htok hlexed hword]

/-- A call. -/
lemma means_functionCall {f : Tree} {x : Lexeme} {us : List Tree} {Ts : List OperatorTree} (hf : IsName f x)
    (hplain : Fits True f) (hus : 2 ≤ us.length) (hTs : (us.map operatorTree).flatMap members = Ts)
    (h : MeansArgs Ts ls) :
    Means (Tree.node (utf8 "<function_call>") (f :: us)).strength
      (Tree.node (utf8 "<function_call>") (f :: us)).operatorTree (x :: inParens ls) := by
  obtain ⟨hnaming, hname⟩ := hf.isNaming hplain
  have hoperators : (Tree.node (utf8 "<function_call>") (f :: us)).operatorTree =
      .node (utf8 "()") (.leaf x :: Ts) := by
    rw [operatorTree_node, map_cons, hname, ← hTs]
    rfl
  rw [hoperators, strength_node (by simpa using hus)]
  exact Chunk.Reader.means_call hnaming h

lemma members_word (h : IsWord w t) : t.operatorTree.members = [] := by
  obtain ⟨tok, rfl, -⟩ := h
  rw [operatorTree, members]

lemma members_trailing (h : IsTrailing cs cls) :
    (cs.map operatorTree).flatMap members = [] ∧ (cls = [] ∨ cls = [mark ","]) := by
  cases h with
  | none => exact ⟨rfl, .inl rfl⟩
  | comma hc => exact ⟨by simp [members_word hc], .inr rfl⟩

lemma members_literal (ha : IsWord w a) (hc : IsTrailing cs cls) (hb : IsWord s b) :
    ((a :: t :: (cs ++ [b])).map operatorTree).flatMap members = t.operatorTree.members := by
  simp [flatMap_append, members_word ha, members_word hb, (members_trailing hc).1]

/-- An element of a list or of a set. -/
lemma meansFields_element (i : Nat) (h : Means n T ls) (hn : 0 < n) :
    MeansFields [element isList i T] (elementLexemes isList i ls) := by
  cases isList with
  | false =>
    exact Chunk.Reader.meansFields_pair h hn (Chunk.Reader.means_constant (.bool true)) (by decide)
  | true =>
    exact Chunk.Reader.meansFields_pair (Chunk.Reader.means_constant (.number _)) (by decide) h hn

/-- The key of a `dict` call is the word that it is. -/
lemma operatorTree_keyword (htok : tok.symbol = identifierSymbol) (hlexed : tok.Lexed) :
    (Tree.node (utf8 "<keyword_argument>") [.node identifierSymbol [.leaf identifierSymbol tok], u, v]).operatorTree =
      .entry (.leaf (.string tok.content)) v.operatorTree := by
  have hkind := Token.kind_of_symbol (s := "<Identifier>") htok (by decide) hlexed
  have hkind : tok.kind = .identifier := by simpa using hkind
  have hname := hlexed
  simp only [Token.Lexed, hkind] at hname
  obtain ⟨⟨c, r, hcons, hc, hr⟩, -⟩ := hname
  have hlexeme : tok.luaLexeme = Chunk.wordLexeme tok.content :=
    luaLexeme_category (s := "<Identifier>") (by decide) htok hlexed (hcons ▸ .word hc hr)
  have hkey : Construct.key (Chunk.wordLexeme tok.content) = tok.content := by
    unfold Chunk.wordLexeme
    split <;> rfl
  have hfirst : (Tree.node identifierSymbol [.leaf identifierSymbol tok]).operatorTree =
      .leaf (Chunk.wordLexeme tok.content) := by
    rw [identifierSymbol, operatorTree_node, map_singleton, Construct.combine_single (by decide),
      operatorTree, hlexeme]
  rw [operatorTree_node, map_cons, hfirst]
  exact congrArg (fun x => entry (.leaf (.string x)) v.operatorTree) hkey

end Constructs

/-- The text of a tree means what the tree says. -/
theorem Spelled.hasMeaning (h : Spelled True φ t ls) (htame : IsTame t) : HasMeaning φ t ls := by
  induction h with
  | @category s tok l hs htok hword =>
    obtain ⟨hlexed, hplain⟩ := htame.plain tok (by simp [leaves, leavesOf])
    have hspec : ∀ s ∈ builtinCategories, role s = .expression ∧
        (Construct.symbols.lookup s).getD .operation ∈ [Construct.operation, .enclosed] := by decide
    rw [HasMeaning, (hspec s hs).1, RoleMeans, operatorTree_node, map_singleton,
      Construct.combine_single (hspec s hs).2, operatorTree, luaLexeme_category hs htok hlexed (hword trivial)]
    exact means_category hs htok hlexed (hplain trivial) (hword trivial)
  | @literal w lua t hw ht =>
    have hconstant : ∀ p ∈ literalWords, ∃ c ∈ [.nil, .bool true, .bool false],
        Chunk.Constant.lexeme c = mark p.2 := by decide
    obtain ⟨c, -, hc⟩ := hconstant _ hw
    have hmem : (w, lua) ∈ spelledWords := mem_cons_of_mem _ (mem_append_right _ hw)
    have hoperators : (Tree.node (utf8 "<atom>") [t]).operatorTree = .leaf (mark lua) := by
      rw [operatorTree_node, map_singleton, Construct.combine_single (by decide), operatorTree_word hmem ht]
    obtain ⟨tok, rfl, -⟩ := ht
    rw [HasMeaning, show role "<atom>" = .expression by decide, RoleMeans, hoperators]
    rw [← hc]
    exact Chunk.Reader.means_constant c
  | single hs _ ih => exact roleMeans_single hs (ih (htame.child mem_cons_self))
  | binary hs ht hu hv iht ihv =>
    exact roleMeans_binary hs ht hu hv htame (iht htame.child) (ihv htame.child)
  | comma hs _ _ _ iht ihv =>
    exact roleMeans_comma hs (iht htame.child) (ihv htame.child)
  | not hk ht ih => exact means_not hk ht htame (ih htame.child)
  | neg hk ht ih =>
    have hop : Chunk.Reader.unaryOp? (utf8 "-") = some .neg := by decide
    exact means_before hk (by decide) hop rfl rfl rfl (ih htame.child) ht.level_le
  | @pos k t _ hk _ ih =>
    have hoperators : (Tree.node (utf8 "<factor>") [k, t]).operatorTree = t.operatorTree := by
      have hc : (Construct.symbols.lookup "<factor>").getD .operation = .operation := by decide
      have hplus : ("+", "+") ∈ spelledWords := by decide
      rw [operatorTree_node, hc, map_cons, map_singleton, operatorTree_word hplus hk, mark,
        Construct.combine_unary, if_pos rfl]
    rw [HasMeaning, show role "<factor>" = .expression by decide, RoleMeans, hoperators, strength_plus hk]
    exact ih htame.child
  | @paren a t b _ _ _ _ ih =>
    rw [HasMeaning, show role "<primary>" = .expression by decide, RoleMeans, operatorTree_node,
      strength_node (by simp)]
    exact Chunk.Reader.means_inParens (ih htame.child) t.strength_pos
  | @index t a u b _ _ _ _ _ _ iht ihu =>
    have hbase : t.strength = 10 := by simpa [keepsOperandsAt] using htame.keepsOperandsAt
    have ht : Means t.strength t.operatorTree _ := iht htame.child
    rw [hbase] at ht
    rw [HasMeaning, show role "<subscript>" = .expression by decide, RoleMeans, operatorTree_node,
      strength_node (by simp)]
    exact Chunk.Reader.means_index ht (ihu htame.child) u.strength_pos
  | length _ _ ht _ ih => exact means_length ht (ih htame.child)
  | callNothing hf ha hb =>
    exact means_functionCall hf htame.child.plain (by simp)
      (by simp [members_word ha, members_word hb]) (.inl ⟨rfl, rfl⟩)
  | call hf ha ht hb ih =>
    exact means_functionCall hf htame.child.plain (by simp)
      (by simp [members_word ha, members_word hb]) (.inr (ih htame.child))
  | @empty s l r a b hs ha hb =>
    have hspec : ∀ q ∈ [("<list>", "[", "]"), ("<dict>", "\x7b", "\x7d")], role q.1 = .expression ∧
        (q.2.1 ∉ builtinCategories ∧ q.2.1 ≠ "+") ∧ (strengths.lookup q.1).getD 10 = 10 ∧
        (Construct.symbols.lookup q.1).getD .operation ∈ [Construct.list, .dict] := by decide
    obtain ⟨hr, hl, hstrength, hc⟩ := hspec _ hs
    have hoperators : (Tree.node (utf8 s) [a, b]).operatorTree = .table [] := by
      simp only [mem_cons, not_mem_nil, or_false] at hc
      rcases hc with hc | hc <;>
        simp [operatorTree_node, hc, Construct.combine, members_word ha, members_word hb]
    rw [HasMeaning, hr, RoleMeans, hoperators, strength_before ha hl, hstrength]
    exact Chunk.Reader.means_emptyTable
  | @table s l r isList n a t b cs _ _ hs ha _ hc hb ih =>
    have hspec : ∀ q ∈ [("<list>", "[", "]", true), ("<set>", "\x7b", "\x7d", false)],
        role q.1 = .expression ∧ (strengths.lookup q.1).getD 10 = 10 ∧
        (Construct.symbols.lookup q.1).getD .operation = if q.2.2.2 then .list else .set := by decide
    obtain ⟨hr, hstrength, hconstruct⟩ := hspec _ hs
    have hoperators : (Tree.node (utf8 s) (a :: t :: (cs ++ [b]))).operatorTree =
        .table (t.operatorTree.members.mapIdx (element isList)) := by
      rw [operatorTree_node, hconstruct, ← members_literal ha hc hb]
      cases isList <;> rfl
    rw [HasMeaning, hr, RoleMeans, hoperators, strength_node (by simp), hstrength]
    exact Chunk.Reader.means_table (ih htame.child).2 (members_trailing hc).2
  | @dict a t b cs _ _ ha _ hc hb ih =>
    have hoperators : (Tree.node (utf8 "<dict>") (a :: t :: (cs ++ [b]))).operatorTree =
        .table t.operatorTree.members := by
      rw [operatorTree_node, ← members_literal ha hc hb]
      rfl
    rw [HasMeaning, show role "<dict>" = .expression by decide, RoleMeans, hoperators, strength_node (by simp)]
    exact Chunk.Reader.means_table (ih htame.child) (members_trailing hc).2
  | @dictNothing k a b hk ha hb =>
    have hoperators : (Tree.node (utf8 "<dict>") [k, a, b]).operatorTree = .table [] := by
      rw [operatorTree_node]
      exact congrArg OperatorTree.table (by simp [members_word hk, members_word ha, members_word hb])
    rw [HasMeaning, show role "<dict>" = .expression by decide, RoleMeans, hoperators, strength_node (by simp)]
    exact Chunk.Reader.means_emptyTable
  | @dictCall k a t b ls hk ha _ hb ih =>
    have hoperators : (Tree.node (utf8 "<dict>") [k, a, t, b]).operatorTree = .table t.operatorTree.members := by
      rw [operatorTree_node]
      exact congrArg OperatorTree.table (by simp [members_word hk, members_word ha, members_word hb])
    rw [HasMeaning, show role "<dict>" = .expression by decide, RoleMeans, hoperators, strength_node (by simp)]
    have hentries : Means 10 (.table t.operatorTree.members) (inBraces (ls ++ [])) :=
      Chunk.Reader.means_table (ih htame.child) (.inl rfl)
    rwa [append_nil] at hentries
  | @pair t c u _ _ _ _ _ iht ihu =>
    rw [HasMeaning, show role "<pair>" = .entry by decide, RoleMeans, operatorTree_node]
    exact Chunk.Reader.meansFields_pair (iht htame.child) t.strength_pos
      (ihu htame.child) u.strength_pos
  | @keyword tok c u _ htok _ _ ih =>
    obtain ⟨hlexed, -⟩ := htame.plain tok (by simp [leaves, leavesOf])
    have hkey := Chunk.Reader.means_constant (.string tok.content)
    rw [HasMeaning, show role "<keyword_argument>" = .entry by decide, RoleMeans, operatorTree_keyword htok hlexed]
    exact Chunk.Reader.meansFields_pair hkey (by decide) (ih htame.child) u.strength_pos
  | @firstItem isList t _ _ ih =>
    have hmembers : (Tree.node (utf8 "<items>") [t]).operatorTree.members = [t.operatorTree] := by
      rw [operatorTree_node]
      rfl
    rw [HasMeaning, hmembers]
    exact ⟨rfl, meansFields_element 0 (ih htame.child) t.strength_pos⟩
  | @nextItem isList n t c u _ _ _ _ _ iht ihu =>
    obtain ⟨hlength, ht⟩ := iht htame.child
    rw [HasMeaning, members_comma rfl, mapIdx_concat, hlength, length_append, hlength]
    exact ⟨rfl, ht.append (meansFields_element n (ihu htame.child) u.strength_pos)⟩

end Tree

open Tree Grammar

/-- What is read from a whole text is what its tokens are read as. -/
lemma of_reads {α : Type} {r : Nat → Chunk.Reader α} {extra fuel : Nat} {F : Lexeme → Prop} {Q : α → Prop}
    {out : Text} {ls : List Lexeme} {a : α} {rest : List Chunk.Token}
    (h : Chunk.Reader.Reads False r extra F ls Q) (hF : F .finish) (hlexes : Chunk.Lexes out ls)
    (hread : r fuel (Chunk.tokens out) = .ok (a, rest)) (hfinish : Chunk.Reader.next rest = .finish) : Q a := by
  obtain ⟨us, fs, hsplit, hus, hfs⟩ := map_eq_append_iff.1 (Chunk.map_lexeme_tokens hlexes)
  obtain ⟨f, rfl, hf⟩ := map_eq_singleton_iff.1 hfs
  have hend : Chunk.Reader.next [f] = .finish := hf
  rw [hsplit] at hread
  rcases h fuel nofun us [f] hus (hend ▸ hF) with ⟨_, heq, b, rfl, hb⟩ | ⟨-, hwrong⟩
  · obtain ⟨rfl, -⟩ := Prod.mk.inj (Except.ok.inj (hread.symm.trans heq))
    exact hb
  · rcases hwrong _ hread with hstuck | hstuck <;>
      exact absurd (hfinish.symm.trans hstuck) Lexeme.noConfusion

/-- A text with a meaning is read as what it means. -/
lemma operatorTree_of_means {out : Text} {ls : List Lexeme} {x : Chunk.Expr} (hn : 0 < n)
    (h : Chunk.Reader.Means n T ls) (hlexes : Chunk.Lexes out ls) (hread : Chunk.IsReadAs out x) :
    x.operatorTree = T := by
  obtain ⟨fuel, rest, hread, hfinish⟩ := hread
  have hends : Chunk.Reader.EndsExpr False .finish := ⟨⟨rfl, .inr (.inl rfl)⟩, rfl⟩
  exact (of_reads (h.isExpr hn).reads hends hlexes hread hfinish :)

end Lunify
