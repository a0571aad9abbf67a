import Lunify.Proofs.Core.Spelling
import Lunify.Proofs.Grammar.Machine
import Lunify.Proofs.Tree.Derives

/-!
# The Lua tokens of an expression

`Tree.Spelled φ t ls` says which Lua tokens a tree of the built-in grammar stands for: there is one rule for
each construct, in terms of the tokens of its parts. Every tree of an expression has such tokens
(`Tree.exists_spelled`), as long as Lua can read its strings as they are.
-/

namespace Lunify

open List

namespace Tree

open Grammar Core
open Chunk (Lexeme mark inParens)

/-- What a tree is taken for: a tree of a symbol, or the elements of a list or of a set, with the number of
these. -/
inductive Phrase where
  | symbol (s : String)
  | items (isList : Bool) (n : Nat)
deriving DecidableEq, Repr

instance : Coe String Phrase :=
  ⟨.symbol⟩

/-- The symbols that may stand for another one alone. -/
def singleRules : List (String × String) :=
  [("<expression>", "<disjunction>"), ("<disjunction>", "<conjunction>"),
    ("<conjunction>", "<inversion>"), ("<inversion>", "<comparison>"), ("<comparison>", "<sum>"),
    ("<sum>", "<term>"), ("<term>", "<factor>"), ("<factor>", "<power>"), ("<power>", "<primary>"),
    ("<primary>", "<atom>"), ("<primary>", "<function_call>"), ("<primary>", "<subscript>"),
    ("<primary>", "<len>"), ("<atom>", "<Identifier>"), ("<atom>", "<Number>"), ("<atom>", "<String>"),
    ("<atom>", "<list>"), ("<atom>", "<dict>"), ("<atom>", "<set>"), ("<arguments>", "<expression>"),
    ("<parameters>", "<Identifier>"), ("<pairs>", "<pair>"), ("<keywords>", "<keyword_argument>")]

/-- The symbols of operations with their operands and their operator. -/
def binaryRules : List (String × String × String × String) :=
  [("<disjunction>", "<disjunction>", "or", "<conjunction>"),
    ("<conjunction>", "<conjunction>", "and", "<inversion>"),
    ("<comparison>", "<sum>", "<compare_op>", "<sum>"), ("<sum>", "<sum>", "<sum_op>", "<term>"),
    ("<term>", "<term>", "<term_op>", "<factor>"), ("<power>", "<primary>", "**", "<factor>")]

/-- The symbols of lists with commas and those of their members. -/
def commaRules : List (String × String) :=
  [("<arguments>", "<expression>"), ("<parameters>", "<Identifier>"), ("<pairs>", "<pair>"),
    ("<keywords>", "<keyword_argument>")]

/-- The operators that are words of the grammar, in Lua. -/
def operatorWords : List (String × String) :=
  [("or", "or"), ("and", "and"), ("**", "^")]

/-- The operators that are one of several, in Lua. -/
def operatorRules : List (String × String × String) :=
  [("<compare_op>", "==", "=="), ("<compare_op>", "!=", "~="), ("<compare_op>", "<", "<"),
    ("<compare_op>", ">", ">"), ("<compare_op>", "<=", "<="), ("<compare_op>", ">=", ">="),
    ("<sum_op>", "+", "+"), ("<sum_op>", "-", "-"), ("<term_op>", "*", "*"), ("<term_op>", "/", "/"),
    ("<term_op>", "%", "%")]

/-- The literals that are words, in Lua. -/
def literalWords : List (String × String) :=
  [("True", "true"), ("False", "false"), ("None", "nil")]

/-- Trees of operators, with their Lua spelling. -/
inductive IsOperator : String → Tree → String → Prop
  | word {w lua : String} {t : Tree} (hw : (w, lua) ∈ operatorWords) (ht : IsWord w t) :
      IsOperator w t lua
  | among {s w lua : String} {t : Tree} (hs : (s, w, lua) ∈ operatorRules) (ht : IsWord w t) :
      IsOperator s (.node (utf8 s) [t]) lua

/-- A comma after the last member of a list, or none, in Lua. -/
inductive IsTrailing : List Tree → List Lexeme → Prop
  | none : IsTrailing [] []
  | comma {c : Tree} (hc : IsWord "," c) : IsTrailing [c] [mark ","]

/-- An element of a list with its index as the key, or of a set, of which it is a key. -/
def elementLexemes (isList : Bool) (i : Nat) (ls : List Lexeme) : List Lexeme :=
  if isList then mark "[" :: .number (Text.ofNat i) :: mark "]" :: mark "=" :: ls
  else mark "[" :: (ls ++ [mark "]", mark "=", mark "true"])

/-- Tokens in braces. -/
def inBraces (ls : List Lexeme) : List Lexeme :=
  mark "\x7b" :: (ls ++ [mark "\x7d"])

/-- Trees of names, with the token that a name is in Lua: a name, or a reserved word. -/
def IsName (t : Tree) (l : Lexeme) : Prop :=
  ∃ tok, t = .node identifierSymbol [.leaf identifierSymbol tok] ∧ tok.symbol = identifierSymbol ∧
    Chunk.IsWord tok.content l

/-- The Lua tokens that a tree of an expression stands for. What a string stands for is only known of plain
ones. -/
inductive Spelled (plain : Prop) : Phrase → Tree → List Lexeme → Prop
  | category {s : String} {tok : Token} {l : Lexeme} (hs : s ∈ builtinCategories)
      (htok : tok.symbol = utf8 s) (hword : plain → Chunk.IsWord tok.content l) :
      Spelled plain s (.node (utf8 s) [.leaf (utf8 s) tok]) [l]
  | literal {w lua : String} {t : Tree} (hw : (w, lua) ∈ literalWords) (ht : IsWord w t) :
      Spelled plain "<atom>" (.node (utf8 "<atom>") [t]) [mark lua]
  | single {s s' : String} {t : Tree} {ls : List Lexeme} (hs : (s, s') ∈ singleRules)
      (ht : Spelled plain s' t ls) : Spelled plain s (.node (utf8 s) [t]) ls
  | binary {s l o r lua : String} {t u v : Tree} {ks ls : List Lexeme}
      (hs : (s, l, o, r) ∈ binaryRules) (ht : Spelled plain l t ks) (hu : IsOperator o u lua)
      (hv : Spelled plain r v ls) : Spelled plain s (.node (utf8 s) [t, u, v]) (ks ++ mark lua :: ls)
  | comma {s s' : String} {t u v : Tree} {ks ls : List Lexeme} (hs : (s, s') ∈ commaRules)
      (ht : Spelled plain s t ks) (hu : IsWord "," u) (hv : Spelled plain s' v ls) :
      Spelled plain s (.node (utf8 s) [t, u, v]) (ks ++ mark "," :: ls)
  | not {k t : Tree} {ls : List Lexeme} (hk : IsWord "not" k) (ht : Spelled plain "<inversion>" t ls) :
      Spelled plain "<inversion>" (.node (utf8 "<inversion>") [k, t])
        (mark "not" :: if Plan.isComparison t then inParens ls else ls)
  | neg {k t : Tree} {ls : List Lexeme} (hk : IsWord "-" k) (ht : Spelled plain "<factor>" t ls) :
      Spelled plain "<factor>" (.node (utf8 "<factor>") [k, t]) (mark "-" :: ls)
  | pos {k t : Tree} {ls : List Lexeme} (hk : IsWord "+" k) (ht : Spelled plain "<factor>" t ls) :
      Spelled plain "<factor>" (.node (utf8 "<factor>") [k, t]) ls
  | paren {a t b : Tree} {ls : List Lexeme} (ha : IsWord "(" a) (ht : Spelled plain "<expression>" t ls)
      (hb : IsWord ")" b) : Spelled plain "<primary>" (.node (utf8 "<primary>") [a, t, b]) (inParens ls)
  | index {t a u b : Tree} {ks ls : List Lexeme} (ht : Spelled plain "<primary>" t ks) (ha : IsWord "[" a)
      (hu : Spelled plain "<expression>" u ls) (hb : IsWord "]" b) :
      Spelled plain "<subscript>" (.node (utf8 "<subscript>") [t, a, u, b])
        (ks ++ mark "[" :: (ls ++ [mark "]"]))
  | length {k a t b : Tree} {ls : List Lexeme} (hk : IsWord "len" k) (ha : IsWord "(" a)
      (ht : Spelled plain "<expression>" t ls) (hb : IsWord ")" b) :
      Spelled plain "<len>" (.node (utf8 "<len>") [k, a, t, b])
        (mark "#" :: if Plan.isPrimary t then ls else inParens ls)
  | callNothing {f a b : Tree} {l : Lexeme} (hf : IsName f l) (ha : IsWord "(" a)
      (hb : IsWord ")" b) :
      Spelled plain "<function_call>" (.node (utf8 "<function_call>") [f, a, b]) (l :: inParens [])
  | call {f a t b : Tree} {l : Lexeme} {ls : List Lexeme} (hf : IsName f l)
      (ha : IsWord "(" a) (ht : Spelled plain "<arguments>" t ls) (hb : IsWord ")" b) :
      Spelled plain "<function_call>" (.node (utf8 "<function_call>") [f, a, t, b]) (l :: inParens ls)
  | empty {s l r : String} {a b : Tree} (hs : (s, l, r) ∈ [("<list>", "[", "]"), ("<dict>", "\x7b", "\x7d")])
      (ha : IsWord l a) (hb : IsWord r b) : Spelled plain s (.node (utf8 s) [a, b]) (inBraces [])
  | table {s l r : String} {isList : Bool} {n : Nat} {a t b : Tree} {cs : List Tree}
      {ls cls : List Lexeme}
      (hs : (s, l, r, isList) ∈ [("<list>", "[", "]", true), ("<set>", "\x7b", "\x7d", false)])
      (ha : IsWord l a) (ht : Spelled plain (.items isList n) t ls) (hc : IsTrailing cs cls) (hb : IsWord r b) :
      Spelled plain s (.node (utf8 s) (a :: t :: (cs ++ [b]))) (inBraces (ls ++ cls))
  | dict {a t b : Tree} {cs : List Tree} {ls cls : List Lexeme} (ha : IsWord "\x7b" a)
      (ht : Spelled plain "<pairs>" t ls) (hc : IsTrailing cs cls) (hb : IsWord "\x7d" b) :
      Spelled plain "<dict>" (.node (utf8 "<dict>") (a :: t :: (cs ++ [b]))) (inBraces (ls ++ cls))
  | dictNothing {k a b : Tree} (hk : IsWord "dict" k) (ha : IsWord "(" a) (hb : IsWord ")" b) :
      Spelled plain "<dict>" (.node (utf8 "<dict>") [k, a, b]) (inBraces [])
  | dictCall {k a t b : Tree} {ls : List Lexeme} (hk : IsWord "dict" k) (ha : IsWord "(" a)
      (ht : Spelled plain "<keywords>" t ls) (hb : IsWord ")" b) :
      Spelled plain "<dict>" (.node (utf8 "<dict>") [k, a, t, b]) (inBraces ls)
  | pair {t c u : Tree} {ks ls : List Lexeme} (ht : Spelled plain "<expression>" t ks) (hc : IsWord ":" c)
      (hu : Spelled plain "<expression>" u ls) :
      Spelled plain "<pair>" (.node (utf8 "<pair>") [t, c, u]) (mark "[" :: (ks ++ mark "]" :: mark "=" :: ls))
  | keyword {tok : Token} {c u : Tree} {ls : List Lexeme} (htok : tok.symbol = identifierSymbol)
      (hc : IsWord "=" c) (hu : Spelled plain "<expression>" u ls) :
      Spelled plain "<keyword_argument>"
        (.node (utf8 "<keyword_argument>") [.node identifierSymbol [.leaf identifierSymbol tok], c, u])
        (mark "[" :: .string tok.content :: mark "]" :: mark "=" :: ls)
  | firstItem {isList : Bool} {t : Tree} {ls : List Lexeme} (ht : Spelled plain "<expression>" t ls) :
      Spelled plain (.items isList 1) (.node (utf8 "<items>") [t]) (elementLexemes isList 0 ls)
  | nextItem {isList : Bool} {n : Nat} {t c u : Tree} {ks ls : List Lexeme}
      (ht : Spelled plain (.items isList n) t ks) (hc : IsWord "," c) (hu : Spelled plain "<expression>" u ls) :
      Spelled plain (.items isList (n + 1)) (.node (utf8 "<items>") [t, c, u])
        (ks ++ mark "," :: elementLexemes isList n ls)

/-! ### Every expression has tokens -/

/-- The symbols of the parts of expressions with rules of their own. -/
def specialRules : List (String × List String) :=
  [("<inversion>", ["not", "<inversion>"]), ("<factor>", ["-", "<factor>"]),
    ("<factor>", ["+", "<factor>"]), ("<primary>", ["(", "<expression>", ")"]),
    ("<subscript>", ["<primary>", "[", "<expression>", "]"]), ("<len>", ["len", "(", "<expression>", ")"]),
    ("<function_call>", ["<Identifier>", "(", ")"]),
    ("<function_call>", ["<Identifier>", "(", "<arguments>", ")"]), ("<atom>", ["True"]),
    ("<atom>", ["False"]), ("<atom>", ["None"]), ("<list>", ["[", "]"]), ("<list>", ["[", "<items>", "]"]),
    ("<list>", ["[", "<items>", ",", "]"]), ("<dict>", ["\x7b", "\x7d"]),
    ("<dict>", ["\x7b", "<pairs>", "\x7d"]), ("<dict>", ["\x7b", "<pairs>", ",", "\x7d"]),
    ("<dict>", ["dict", "(", ")"]), ("<dict>", ["dict", "(", "<keywords>", ")"]),
    ("<pair>", ["<expression>", ":", "<expression>"]),
    ("<keyword_argument>", ["<Identifier>", "=", "<expression>"]),
    ("<set>", ["\x7b", "<items>", "\x7d"]), ("<set>", ["\x7b", "<items>", ",", "\x7d"])]

/-- The symbols of expressions and of their parts. -/
def expressionSymbols : List String :=
  builtinCategories ++ ["<expression>", "<disjunction>", "<conjunction>", "<inversion>", "<comparison>",
    "<sum>", "<term>", "<factor>", "<power>", "<primary>", "<subscript>", "<len>", "<atom>", "<list>",
    "<dict>", "<set>", "<pairs>", "<pair>", "<keywords>", "<keyword_argument>", "<function_call>",
    "<arguments>", "<parameters>"]

lemma mem_rules : ∀ p ∈ builtinTable, p.1 ∈ expressionSymbols → ∀ rhs ∈ p.2,
    (p.1, rhs) ∈ singleRules.map (fun q => (q.1, [q.2])) ∨
    (p.1, rhs) ∈ binaryRules.map (fun q => (q.1, [q.2.1, q.2.2.1, q.2.2.2])) ∨
    (p.1, rhs) ∈ commaRules.map (fun q => (q.1, [q.1, ",", q.2])) ∨ (p.1, rhs) ∈ specialRules := by
  decide

end Tree

/-- Whether Lua reads a token as it is: a string has no backslash and no carriage return. -/
def Token.IsPlain (t : Token) : Prop :=
  t.kind = .string → ∀ c ∈ t.content, c ≠ byte '\\' ∧ c ≠ byte '\r'

namespace Tree

open Grammar Core
open Chunk (Lexeme mark inParens)

/-- A name is one token of Lua. -/
lemma exists_isWord_of_identifier {tok : Token} (htok : tok.symbol = identifierSymbol) (hlexed : tok.Lexed) :
    ∃ l, Chunk.IsWord tok.content l := by
  have hkind := Token.kind_of_symbol (s := "<Identifier>") htok (by decide) hlexed
  have hkind : tok.kind = .identifier := by simpa using hkind
  simp only [Token.Lexed, hkind] at hlexed
  obtain ⟨⟨b, r, hcons, hb, hr⟩, -⟩ := hlexed
  rw [hcons]
  exact ⟨_, .word hb hr⟩

/-- A token of a category is one token of Lua, if it is plain. -/
lemma exists_isWord {plain : Prop} {s : String} {tok : Token} (hs : s ∈ builtinCategories)
    (htok : tok.symbol = utf8 s) (hlexed : tok.Lexed) (hplain : plain → tok.IsPlain) :
    ∃ l, plain → Chunk.IsWord tok.content l := by
  have hkind := Token.kind_of_symbol htok hs hlexed
  simp only [mem_cons, Prod.mk.injEq, not_mem_nil, or_false] at hkind
  rcases hkind with ⟨rfl, -⟩ | ⟨-, hkind⟩ | ⟨-, hkind⟩
  · obtain ⟨l, hl⟩ := exists_isWord_of_identifier htok hlexed
    exact ⟨l, fun _ => hl⟩
  · simp only [Token.Lexed, hkind] at hlexed
    exact ⟨_, fun _ => .number hlexed⟩
  · simp only [Token.Lexed, hkind] at hlexed
    obtain ⟨q, r, hcons, hq, hr⟩ := hlexed
    refine ⟨.string r, fun h => ?_⟩
    have hplain := hplain h hkind
    rw [hcons] at hplain ⊢
    refine .string hq fun c hc => ?_
    obtain ⟨hbackslash, hreturn⟩ := hplain c (by simp [hc])
    exact ⟨(hr c hc).1, (hr c hc).2, hreturn, hbackslash⟩

/-- Whether the contents of all tokens of a tree fit their kinds, and are read by Lua as they are if they have
to be. -/
def Fits (plain : Prop) (t : Tree) : Prop :=
  ∀ tok ∈ t.leaves, tok.Lexed ∧ (plain → tok.IsPlain)

section Parts

variable {plain : Prop} {R S : String → Tree → Prop} {a b c d e f s w : String} {rhs : List String} {t : Tree}
  {ts : List Tree} {l : Text}

lemma Fits.child (h : Fits plain (.node l ts)) (ht : t ∈ ts := by simp) : Fits plain t :=
  fun tok htok => h tok (mem_leaves_of_mem ht htok)

lemma Fits.allLexed (h : Fits plain t) : AllLexed t :=
  fun tok htok => (h tok htok).1

lemma AllLexed.fits (h : AllLexed t) : Fits False t :=
  fun tok htok => ⟨h tok htok, False.elim⟩

lemma Derives.exists_isName (h : Derives "<Identifier>" t) (hfits : Fits plain t) : ∃ l, IsName t l := by
  obtain ⟨tok, rfl, htok⟩ := h.exists_category (by decide)
  obtain ⟨l, hl⟩ := exists_isWord_of_identifier htok (hfits tok (by simp [leaves, leavesOf])).1
  exact ⟨l, tok, rfl, htok, hl⟩

lemma forall₂_of_mem (h : List.Forall₂ R rhs ts) (hS : ∀ w, ∀ u ∈ ts, R w u → S w u) :
    List.Forall₂ S rhs ts := by
  induction h with
  | nil => exact .nil
  | cons hu _ ih =>
    exact .cons (hS _ _ mem_cons_self hu) (ih fun w u hu => hS w u (mem_cons_of_mem _ hu))

lemma exists_one (h : List.Forall₂ R [a] ts) : ∃ t, ts = [t] ∧ R a t := by
  simp only [forall₂_cons_left_iff, forall₂_nil_left_iff] at h
  obtain ⟨t, _, ht, rfl, rfl⟩ := h
  exact ⟨t, rfl, ht⟩

lemma exists_two (h : List.Forall₂ R [a, b] ts) : ∃ t u, ts = [t, u] ∧ R a t ∧ R b u := by
  obtain ⟨t, us, ht, hus, rfl⟩ := forall₂_cons_left_iff.1 h
  obtain ⟨u, rfl, hu⟩ := exists_one hus
  exact ⟨t, u, rfl, ht, hu⟩

lemma exists_three (h : List.Forall₂ R [a, b, c] ts) :
    ∃ t u v, ts = [t, u, v] ∧ R a t ∧ R b u ∧ R c v := by
  obtain ⟨t, us, ht, hus, rfl⟩ := forall₂_cons_left_iff.1 h
  obtain ⟨u, v, rfl, hu, hv⟩ := exists_two hus
  exact ⟨t, u, v, rfl, ht, hu, hv⟩

lemma exists_four (h : List.Forall₂ R [a, b, c, d] ts) :
    ∃ t u v w, ts = [t, u, v, w] ∧ R a t ∧ R b u ∧ R c v ∧ R d w := by
  obtain ⟨t, us, ht, hus, rfl⟩ := forall₂_cons_left_iff.1 h
  obtain ⟨u, v, w, rfl, hu, hv, hw⟩ := exists_three hus
  exact ⟨t, u, v, w, rfl, ht, hu, hv, hw⟩

lemma exists_five (hts : List.Forall₂ R [a, b, c, d, e] ts) :
    ∃ t u v w x, ts = [t, u, v, w, x] ∧ R a t ∧ R b u ∧ R c v ∧ R d w ∧ R e x := by
  obtain ⟨t, us, ht, hus, rfl⟩ := forall₂_cons_left_iff.1 hts
  obtain ⟨u, v, w, x, rfl, hrest⟩ := exists_four hus
  exact ⟨t, u, v, w, x, rfl, ht, hrest⟩

lemma exists_six (hts : List.Forall₂ R [a, b, c, d, e, f] ts) : ∃ t u v w x y, ts = [t, u, v, w, x, y] ∧
    R a t ∧ R b u ∧ R c v ∧ R d w ∧ R e x ∧ R f y := by
  obtain ⟨t, us, ht, hus, rfl⟩ := forall₂_cons_left_iff.1 hts
  obtain ⟨u, v, w, x, y, rfl, hrest⟩ := exists_five hus
  exact ⟨t, u, v, w, x, y, rfl, ht, hrest⟩

/-- Whether a tree of a symbol has Lua tokens, if this is a symbol of expressions. -/
structure HasSpelling (plain : Prop) (s : String) (t : Tree) : Prop where
  spelled (hs : s ∈ expressionSymbols := by decide) : ∃ ls, Spelled plain s t ls
  items : s = "<items>" → ∀ isList, ∃ n ls, Spelled plain (.items isList n) t ls

/-- What is known of a part of an expression. -/
structure Part (plain : Prop) (s : String) (t : Tree) : Prop extends HasSpelling plain s t where
  derives : Derives s t
  fits : Fits plain t

lemma Part.isWord (h : Part plain w t) (hw : w ∈ builtinWords := by decide) : IsWord w t :=
  h.derives.isWord hw

lemma Part.exists_isName (h : Part plain "<Identifier>" t) : ∃ l, IsName t l :=
  h.derives.exists_isName h.fits

lemma operators_spec : ∀ q ∈ binaryRules,
    (∃ p ∈ operatorWords, p.1 = q.2.2.1 ∧ p.1 ∈ builtinWords) ∨
      ∃ p ∈ builtinTable, p.1 = q.2.2.1 ∧ ∀ rhs ∈ p.2,
        ∃ o ∈ operatorRules, o.1 = p.1 ∧ rhs = [o.2.1] ∧ o.2.1 ∈ builtinWords := by
  decide

/-- The operator of an operation. -/
lemma exists_isOperator {s l o r : String} (hs : (s, l, o, r) ∈ binaryRules) {t : Tree}
    (ht : Derives o t) : ∃ lua, IsOperator o t lua := by
  rcases operators_spec _ hs with ⟨⟨w, lua⟩, hw, rfl, hword⟩ | ⟨⟨o', alternatives⟩, hp, rfl, hrules⟩
  · exact ⟨lua, .word hw (ht.isWord hword)⟩
  · obtain ⟨us, rfl, rhs, hrhs, hus⟩ := ht.children hp
    obtain ⟨⟨_, w, lua⟩, ho, rfl, rfl, hword⟩ := hrules rhs hrhs
    obtain ⟨u, rfl, hu⟩ := exists_one hus
    exact ⟨lua, .among ho (hu.isWord hword)⟩

lemma exists_spelled_literal {lua : String} (hw : (w, lua) ∈ literalWords) (h : List.Forall₂ (Part plain) [w] ts) :
    ∃ ls, Spelled plain "<atom>" (.node (utf8 "<atom>") ts) ls := by
  have hmem : ∀ q ∈ literalWords, q.1 ∈ builtinWords := by decide
  obtain ⟨t, rfl, ht⟩ := exists_one h
  exact ⟨_, .literal hw (ht.isWord (hmem _ hw))⟩

/-- A list or a set with elements. -/
lemma exists_spelled_table {l r : String} {cs : List String} (isList : Bool)
    (hs : (s, l, r, isList) ∈ [("<list>", "[", "]", true), ("<set>", "\x7b", "\x7d", false)])
    (hcs : cs = [] ∨ cs = [","]) (h : List.Forall₂ (Part plain) (l :: "<items>" :: (cs ++ [r])) ts) :
    ∃ ls, Spelled plain s (.node (utf8 s) ts) ls := by
  have hmem : ∀ q ∈ [("<list>", "[", "]", true), ("<set>", "\x7b", "\x7d", false)],
      q.2.1 ∈ builtinWords ∧ q.2.2.1 ∈ builtinWords := by decide
  obtain ⟨hl, hr⟩ := hmem _ hs
  rcases hcs with rfl | rfl
  · obtain ⟨a, t, b, rfl, ha, ht, hb⟩ := exists_three h
    obtain ⟨n, ls, hls⟩ := ht.items rfl isList
    exact ⟨_, .table hs (ha.isWord hl) hls .none (hb.isWord hr)⟩
  · obtain ⟨a, t, c, b, rfl, ha, ht, hc, hb⟩ := exists_four h
    obtain ⟨n, ls, hls⟩ := ht.items rfl isList
    exact ⟨_, .table hs (ha.isWord hl) hls (.comma hc.isWord) (hb.isWord hr)⟩

/-- A construct with a rule of its own. -/
lemma exists_spelled_special (hs : (s, rhs) ∈ specialRules) (h : List.Forall₂ (Part plain) rhs ts) :
    ∃ ls, Spelled plain s (.node (utf8 s) ts) ls := by
  simp only [specialRules, mem_cons, Prod.mk.injEq, not_mem_nil, or_false] at hs
  rcases hs with ⟨rfl, rfl⟩ | ⟨rfl, rfl⟩ | ⟨rfl, rfl⟩ | ⟨rfl, rfl⟩ | ⟨rfl, rfl⟩ | ⟨rfl, rfl⟩ | ⟨rfl, rfl⟩ |
    ⟨rfl, rfl⟩ | ⟨rfl, rfl⟩ | ⟨rfl, rfl⟩ | ⟨rfl, rfl⟩ | ⟨rfl, rfl⟩ | ⟨rfl, rfl⟩ | ⟨rfl, rfl⟩ | ⟨rfl, rfl⟩ |
    ⟨rfl, rfl⟩ | ⟨rfl, rfl⟩ | ⟨rfl, rfl⟩ | ⟨rfl, rfl⟩ | ⟨rfl, rfl⟩ | ⟨rfl, rfl⟩ | ⟨rfl, rfl⟩ | ⟨rfl, rfl⟩
  · obtain ⟨k, t, rfl, hk, ht⟩ := exists_two h
    obtain ⟨ls, hls⟩ := ht.spelled
    exact ⟨_, .not hk.isWord hls⟩
  · obtain ⟨k, t, rfl, hk, ht⟩ := exists_two h
    obtain ⟨ls, hls⟩ := ht.spelled
    exact ⟨_, .neg hk.isWord hls⟩
  · obtain ⟨k, t, rfl, hk, ht⟩ := exists_two h
    obtain ⟨ls, hls⟩ := ht.spelled
    exact ⟨_, .pos hk.isWord hls⟩
  · obtain ⟨a, t, b, rfl, ha, ht, hb⟩ := exists_three h
    obtain ⟨ls, hls⟩ := ht.spelled
    exact ⟨_, .paren ha.isWord hls hb.isWord⟩
  · obtain ⟨t, a, u, b, rfl, ht, ha, hu, hb⟩ := exists_four h
    obtain ⟨ks, hks⟩ := ht.spelled
    obtain ⟨ls, hls⟩ := hu.spelled
    exact ⟨_, .index hks ha.isWord hls hb.isWord⟩
  · obtain ⟨k, a, t, b, rfl, hk, ha, ht, hb⟩ := exists_four h
    obtain ⟨ls, hls⟩ := ht.spelled
    exact ⟨_, .length hk.isWord ha.isWord hls hb.isWord⟩
  · obtain ⟨f, a, b, rfl, hf, ha, hb⟩ := exists_three h
    obtain ⟨l, hl⟩ := hf.exists_isName
    exact ⟨_, .callNothing hl ha.isWord hb.isWord⟩
  · obtain ⟨f, a, t, b, rfl, hf, ha, ht, hb⟩ := exists_four h
    obtain ⟨l, hl⟩ := hf.exists_isName
    obtain ⟨ls, hls⟩ := ht.spelled
    exact ⟨_, .call hl ha.isWord hls hb.isWord⟩
  · exact exists_spelled_literal (show ("True", "true") ∈ literalWords by decide) h
  · exact exists_spelled_literal (show ("False", "false") ∈ literalWords by decide) h
  · exact exists_spelled_literal (show ("None", "nil") ∈ literalWords by decide) h
  · obtain ⟨a, b, rfl, ha, hb⟩ := exists_two h
    exact ⟨_, .empty (by decide) ha.isWord hb.isWord⟩
  · exact exists_spelled_table true (by decide) (.inl rfl) h
  · exact exists_spelled_table true (by decide) (.inr rfl) h
  · obtain ⟨a, b, rfl, ha, hb⟩ := exists_two h
    exact ⟨_, .empty (by decide) ha.isWord hb.isWord⟩
  · obtain ⟨a, t, b, rfl, ha, ht, hb⟩ := exists_three h
    obtain ⟨ls, hls⟩ := ht.spelled
    exact ⟨_, .dict ha.isWord hls .none hb.isWord⟩
  · obtain ⟨a, t, c, b, rfl, ha, ht, hc, hb⟩ := exists_four h
    obtain ⟨ls, hls⟩ := ht.spelled
    exact ⟨_, .dict ha.isWord hls (.comma hc.isWord) hb.isWord⟩
  · obtain ⟨k, a, b, rfl, hk, ha, hb⟩ := exists_three h
    exact ⟨_, .dictNothing hk.isWord ha.isWord hb.isWord⟩
  · obtain ⟨k, a, t, b, rfl, hk, ha, ht, hb⟩ := exists_four h
    obtain ⟨ls, hls⟩ := ht.spelled
    exact ⟨_, .dictCall hk.isWord ha.isWord hls hb.isWord⟩
  · obtain ⟨t, c, u, rfl, ht, hc, hu⟩ := exists_three h
    obtain ⟨ks, hks⟩ := ht.spelled
    obtain ⟨ls, hls⟩ := hu.spelled
    exact ⟨_, .pair hks hc.isWord hls⟩
  · obtain ⟨t, c, u, rfl, ht, hc, hu⟩ := exists_three h
    obtain ⟨tok, rfl, htok⟩ := ht.derives.exists_category (by decide)
    obtain ⟨ls, hls⟩ := hu.spelled
    exact ⟨_, .keyword htok hc.isWord hls⟩
  · exact exists_spelled_table false (by decide) (.inl rfl) h
  · exact exists_spelled_table false (by decide) (.inr rfl) h

/-- A tree of an expression has Lua tokens if its parts do. -/
lemma exists_spelled_node {p : String × List (List String)} (hp : p ∈ builtinTable)
    (hs : p.1 ∈ expressionSymbols) (hrhs : rhs ∈ p.2) (h : List.Forall₂ (Part plain) rhs ts) :
    ∃ ls, Spelled plain p.1 (.node (utf8 p.1) ts) ls := by
  have hsymbols : (∀ q ∈ singleRules, q.2 ∈ expressionSymbols) ∧
      (∀ q ∈ binaryRules, q.2.1 ∈ expressionSymbols ∧ q.2.2.2 ∈ expressionSymbols) ∧
      ∀ q ∈ commaRules, q.1 ∈ expressionSymbols ∧ q.2 ∈ expressionSymbols := by
    decide
  obtain ⟨hsingle, hbinary, hcomma⟩ := hsymbols
  obtain ⟨s, alternatives⟩ := p
  rcases mem_rules _ hp hs rhs hrhs with hrule | hrule | hrule | hrule
  · obtain ⟨⟨_, s'⟩, hq, heq⟩ := mem_map.1 hrule
    obtain ⟨rfl, rfl⟩ := Prod.mk.inj heq
    obtain ⟨t, rfl, ht⟩ := exists_one h
    obtain ⟨ls, hls⟩ := ht.spelled (hsingle _ hq)
    exact ⟨ls, .single hq hls⟩
  · obtain ⟨⟨_, l, o, r⟩, hq, heq⟩ := mem_map.1 hrule
    obtain ⟨rfl, rfl⟩ := Prod.mk.inj heq
    obtain ⟨t, u, v, rfl, ht, hu, hv⟩ := exists_three h
    obtain ⟨ks, hks⟩ := ht.spelled (hbinary _ hq).1
    obtain ⟨lua, hlua⟩ := exists_isOperator hq hu.derives
    obtain ⟨ls, hls⟩ := hv.spelled (hbinary _ hq).2
    exact ⟨_, .binary hq hks hlua hls⟩
  · obtain ⟨⟨_, s'⟩, hq, heq⟩ := mem_map.1 hrule
    obtain ⟨rfl, rfl⟩ := Prod.mk.inj heq
    obtain ⟨t, u, v, rfl, ht, hu, hv⟩ := exists_three h
    obtain ⟨ks, hks⟩ := ht.spelled (hcomma _ hq).1
    obtain ⟨ls, hls⟩ := hv.spelled (hcomma _ hq).2
    exact ⟨_, .comma hq hks hu.isWord hls⟩
  · exact exists_spelled_special hrule h

/-- The elements of a list or of a set. -/
lemma exists_spelled_items (hrhs : rhs ∈ [["<expression>"], ["<items>", ",", "<expression>"]])
    (h : List.Forall₂ (Part plain) rhs ts) (isList : Bool) :
    ∃ n ls, Spelled plain (.items isList n) (.node (utf8 "<items>") ts) ls := by
  simp only [mem_cons, not_mem_nil, or_false] at hrhs
  rcases hrhs with rfl | rfl
  · obtain ⟨t, rfl, ht⟩ := exists_one h
    obtain ⟨ls, hls⟩ := ht.spelled
    exact ⟨_, _, .firstItem hls⟩
  · obtain ⟨t, c, u, rfl, ht, hc, hu⟩ := exists_three h
    obtain ⟨n, ks, hks⟩ := ht.items rfl isList
    obtain ⟨ls, hls⟩ := hu.spelled
    exact ⟨_, _, .nextItem hks hc.isWord hls⟩

end Parts

/-- Every tree of an expression has Lua tokens. -/
theorem exists_spelled {plain : Prop} {s : String} {t : Tree} (h : Derives s t) (hfits : Fits plain t)
    (hs : s ∈ expressionSymbols) : ∃ ls, Spelled plain s t ls := by
  suffices hpart : Fits plain t → HasSpelling plain s t from (hpart hfits).spelled hs
  refine Derives.induct (motive := fun s t => Fits plain t → HasSpelling plain s t) ?_ ?_ h
  · intro s t hterminal ht hfits
    have hsymbols : (∀ s ∈ expressionSymbols, s ∈ builtinCategories ∨ s ∈ builtinTable.map Prod.fst) ∧
        "<items>" ∈ builtinTable.map Prod.fst := by
      decide
    refine ⟨fun hs => ?_, fun hs => absurd (hs ▸ hsymbols.2) hterminal⟩
    have hcategory := (hsymbols.1 _ hs).resolve_right hterminal
    obtain ⟨tok, rfl, htok⟩ := ht.exists_category hcategory
    obtain ⟨hlexed, hplain⟩ := hfits tok (by simp [leaves, leavesOf])
    obtain ⟨l, hl⟩ := exists_isWord hcategory htok hlexed hplain
    exact ⟨_, .category hcategory htok hl⟩
  · intro p rhs ts hp hrhs hts hfits
    have hparts : List.Forall₂ (Part plain) rhs ts :=
      forall₂_of_mem hts fun w u hu h => ⟨h.2 (hfits.child hu), h.1, hfits.child hu⟩
    refine ⟨fun hs => exists_spelled_node hp hs hrhs hparts, fun hs => ?_⟩
    have hitems : ∀ p ∈ builtinTable, p.1 = "<items>" →
        ∀ rhs ∈ p.2, rhs ∈ [["<expression>"], ["<items>", ",", "<expression>"]] := by
      decide
    rw [hs]
    exact exists_spelled_items (hitems p hp hs rhs hrhs) hparts

end Tree

end Lunify
