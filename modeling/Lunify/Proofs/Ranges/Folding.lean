import Lunify.Proofs.Core.Translation
import Lunify.Proofs.Operators.Reading

/-!
# Folding the end of a range

A range stops before its end and a numeric loop of Lua at its limit, so the limit is the integer before the
end, `Core.lastBefore`. It is written as a difference or a sum, unless the end is an integer: then it is
computed in 64 bits. Over exact integers the two denote the same (`Chunk.Denotes`), except after the largest
integer of 64 bits (`bound_denotes_iff`).
-/

namespace Lunify

open List

open Chunk (Lexeme mark Lexes IsReadAs)
open Core (integers lastBefore lastOp intLexemes AllLexed)

/-! ### Integers that expressions give -/

namespace Chunk

namespace Expr

variable {e x y : Expr} {m n : Int}

/-- Whether an expression gives an integer in every state, does nothing else, and gives nothing else. -/
def Gives (e : Expr) (n : Int) : Prop :=
  ∀ σ vs σ', Lua.Evaluates integers e σ vs σ' ↔ vs = [.number n] ∧ σ' = σ

lemma gives_number (l : Int) (s : Text) : (Expr.constant l (.number s)).Gives (Text.digitsValue s) := by
  intro σ vs σ'
  constructor
  · rintro ⟨⟩
    exact ⟨rfl, rfl⟩
  · rintro ⟨rfl, rfl⟩
    exact .constant

lemma Gives.neg (h : e.Gives n) (l : Int) : (Expr.unary l .neg e).Gives (-n) := by
  intro σ vs σ'
  constructor
  · intro heval
    cases heval with
    | unary he hop =>
      obtain ⟨rfl, rfl⟩ := (h _ _ _).1 he
      obtain rfl := Option.some.inj hop
      exact ⟨rfl, rfl⟩
  · rintro ⟨rfl, rfl⟩
    exact .unary ((h σ' _ σ').2 ⟨rfl, rfl⟩) rfl

lemma Gives.arith (hx : x.Gives m) (hy : y.Gives n) (l : Int) (op : Arithmetic) :
    (Expr.binary l (.arith op) x y).Gives (integers.arith op m n) := by
  intro σ vs σ'
  constructor
  · intro heval
    cases heval with
    | binary ha hb hop =>
      obtain ⟨rfl, rfl⟩ := (hx _ _ _).1 ha
      obtain ⟨rfl, rfl⟩ := (hy _ _ _).1 hb
      obtain rfl := Option.some.inj hop
      exact ⟨rfl, rfl⟩
    | choiceShort _ hop => rcases hop with ⟨hop, -⟩ | ⟨hop, -⟩ <;> cases hop
    | choiceLong _ hop => rcases hop with ⟨hop, -⟩ | ⟨hop, -⟩ <;> cases hop
  · rintro ⟨rfl, rfl⟩
    exact .binary ((hx σ' _ σ').2 ⟨rfl, rfl⟩) ((hy σ' _ σ').2 ⟨rfl, rfl⟩) rfl

/-! ### Expressions with given operators -/

/-- A number has no operator. -/
lemma eq_of_operatorTree_number {s : Text} (h : e.operatorTree = .leaf (.number s)) :
    ∃ l, e = .constant l (.number s) := by
  cases e with
  | constant l c => cases c <;> simp_all [operatorTree, Constant.lexeme, mark]
  | _ => simp [operatorTree, OperatorTree.table, mark] at h

/-- A minus sign before an operand. -/
lemma eq_of_operatorTree_neg {T : OperatorTree} (h : e.operatorTree = .node (utf8 "-") [T]) :
    ∃ l x, e = .unary l .neg x ∧ x.operatorTree = T := by
  have hne : ∀ w ∈ ["()", ":", "\x7b\x7d"], utf8 w ≠ utf8 "-" := by decide
  have hsign : ∀ w ∈ ["not", "#"], utf8 w ≠ utf8 "-" := by decide
  cases e with
  | unary l op x =>
    obtain ⟨hop, hx⟩ := OperatorTree.node.inj h
    cases op with
    | neg => exact ⟨l, x, rfl, singleton_injective hx⟩
    | not => exact absurd hop (hsign "not" (by decide))
    | length => exact absurd hop (hsign "#" (by decide))
  | call => exact absurd (OperatorTree.node.inj h).1 (hne "()" (by decide))
  | method => exact absurd (OperatorTree.node.inj h).1 (hne ":" (by decide))
  | table => exact absurd (OperatorTree.node.inj h).1 (hne "\x7b\x7d" (by decide))
  | _ => simp [operatorTree] at h

/-- The operators that lead from an end to the integer before it. -/
lemma eq_of_sign_eq {op : BinaryOp} {down : Bool} (h : op.sign = lastOp down) :
    op = .arith (if down then .add else .sub) := by
  cases op with
  | arith op => cases op <;> cases down <;> simp_all [BinaryOp.sign, lastOp]
  | _ => cases down <;> simp [BinaryOp.sign, lastOp] at h

/-- A sum or a difference. -/
lemma eq_of_operatorTree_lastOp {down : Bool} {T U : OperatorTree}
    (h : e.operatorTree = .node (utf8 (lastOp down)) [T, U]) :
    ∃ l x y, e = .binary l (.arith (if down then .add else .sub)) x y ∧ x.operatorTree = T ∧
      y.operatorTree = U := by
  have hne : ∀ w ∈ ["[]", "()", ":", "\x7b\x7d"], utf8 w ≠ utf8 (lastOp down) := by cases down <;> decide
  cases e with
  | binary l op x y =>
    obtain ⟨hop, hxy⟩ := OperatorTree.node.inj h
    obtain ⟨hx, hy⟩ := List.cons.inj hxy
    exact ⟨l, x, y, by rw [eq_of_sign_eq (Grammar.utf8_injective hop)], hx, singleton_injective hy⟩
  | index => exact absurd (OperatorTree.node.inj h).1 (hne "[]" (by decide))
  | call => exact absurd (OperatorTree.node.inj h).1 (hne "()" (by decide))
  | method => exact absurd (OperatorTree.node.inj h).1 (hne ":" (by decide))
  | table => exact absurd (OperatorTree.node.inj h).1 (hne "\x7b\x7d" (by decide))
  | _ => simp [operatorTree] at h

end Expr

/-! ### Integers that texts denote -/

/-- Whether a Lua text denotes an integer: it can be read as an expression, and whatever it is read as gives
the integer. -/
def Denotes (s : Text) (n : Int) : Prop :=
  (∃ e, IsReadAs s e) ∧ ∀ e, IsReadAs s e → e.Gives n

/-- A text denotes at most one integer. -/
lemma Denotes.unique {s : Text} {m n : Int} (hm : Denotes s m) (hn : Denotes s n) : m = n := by
  obtain ⟨e, he⟩ := hm.1
  have hvalue : Lua.Evaluates integers e .start [.number m] .start := (hm.2 e he _ _ _).2 ⟨rfl, rfl⟩
  have heq := singleton_injective ((hn.2 e he _ _ _).1 hvalue).1
  exact Value.number.inj heq

/-- A text with a meaning that can be read denotes what all expressions with this meaning give. -/
lemma denotes_of_means {s : Text} {ls : List Lexeme} {k : Nat} {T : OperatorTree} {Q : Expr → Prop} {n : Int}
    (hlexes : Lexes s ls) (hk : 0 < k) (hmeans : Reader.Means k T ls) (hexpr : Reader.IsExpr True ls Q)
    (hgives : ∀ e : Expr, e.operatorTree = T → e.Gives n) : Denotes s n := by
  refine ⟨?_, fun e he => hgives e (operatorTree_of_means hk hmeans hlexes he)⟩
  obtain ⟨us, fs, hsplit, hus, hfs⟩ := map_eq_append_iff.1 (map_lexeme_tokens hlexes)
  obtain ⟨f, rfl, hf⟩ := map_eq_singleton_iff.1 hfs
  have hend : Reader.EndsExpr True (Reader.next [f]) := by
    rw [show Reader.next [f] = .finish from hf]
    decide
  obtain ⟨_, hread, e, rfl, -⟩ := (hexpr.reads _ fun _ => le_rfl).exists_eq hus hend
  exact ⟨e, _, [f], hsplit ▸ hread, hf⟩

/-- The operators of an integer. -/
def intTree : Int → OperatorTree
  | .ofNat n => .leaf (.number (Text.ofNat n))
  | .negSucc n => .node (utf8 "-") [.leaf (.number (Text.ofNat (n + 1)))]

lemma means_number (s : Text) : Reader.Means 10 (.leaf (.number s)) [.number s] :=
  Reader.means_constant (.number s)

lemma exists_means_intTree (n : Int) : ∃ k, 0 < k ∧ Reader.Means k (intTree n) (intLexemes n) := by
  have hop : Reader.unaryOp? (utf8 "-") = some .neg := by decide
  cases n with
  | ofNat n => exact ⟨10, by decide, means_number _⟩
  | negSucc n => exact ⟨8, by decide, Reader.means_unary hop (by decide) (means_number _) (by decide)⟩

lemma gives_of_operatorTree_number {e : Expr} {s : Text} (h : e.operatorTree = .leaf (.number s)) :
    e.Gives (Text.digitsValue s) := by
  obtain ⟨l, rfl⟩ := Expr.eq_of_operatorTree_number h
  exact Expr.gives_number l s

lemma gives_of_operatorTree_int {e : Expr} {n : Int} (h : e.operatorTree = intTree n) : e.Gives n := by
  cases n with
  | ofNat n =>
    have hgives := gives_of_operatorTree_number h
    rwa [Text.digitsValue_ofNat] at hgives
  | negSucc n =>
    obtain ⟨l, x, rfl, hx⟩ := Expr.eq_of_operatorTree_neg h
    have hgives := (gives_of_operatorTree_number hx).neg l
    rwa [Text.digitsValue_ofNat] at hgives

/-- A text of an integer denotes it. -/
lemma denotes_ofInt (n : Int) : Denotes (Text.ofInt n) n := by
  obtain ⟨k, hk, hmeans⟩ := exists_means_intTree n
  exact denotes_of_means (Core.lexes_ofInt n) hk hmeans (Core.isExpr_intLexemes n) fun _ => gives_of_operatorTree_int

/-- The integer before an end, as Lua reads it. -/
lemma means_lastOp {k : Nat} {T : OperatorTree} {ls : List Lexeme} (h : Reader.Means k T ls) (hk : 6 ≤ k)
    (down : Bool) : Reader.Means 6 (.node (utf8 (lastOp down)) [T, .leaf (.number (utf8 "1"))])
      (ls ++ [mark (lastOp down), .number (utf8 "1")]) := by
  have hop : Reader.binaryOp? (utf8 (lastOp down)) = some (.arith (if down then .add else .sub), 6, 6) := by
    cases down <;> decide
  have hinfix : lastOp down ∈ Reader.infixes := by cases down <;> decide
  exact Reader.means_binary hop hinfix h (means_number _) hk (by decide) (by decide)

/-- The text of a number with the step to the integer before it. -/
lemma denotes_lastOp {s x : Text} (hs : Lexes s [.number x]) (down : Bool) :
    Denotes (s ++ utf8 (if down then " + 1" else " - 1")) (lastBefore down (Text.digitsValue x)) := by
  have hop : Reader.binaryOp? (utf8 (lastOp down)) = some (.arith (if down then .add else .sub), 6, 6) := by
    cases down <;> decide
  have hexpr : Reader.IsExpr True _ _ := (Reader.readsAt_binary hop (by decide) ((Reader.isLiteral_constant (.number x)).isOperand.readsAt 6)
    ((Reader.isLiteral_constant (.number (utf8 "1"))).isOperand.readsAt 7)).isExpr (by decide)
  refine denotes_of_means (Core.lexes_lastOp hs down) (by decide) (means_lastOp (means_number x) (by decide) down)
    hexpr fun e he => ?_
  obtain ⟨l, y, z, rfl, hy, hz⟩ := Expr.eq_of_operatorTree_lastOp he
  have hgives := (gives_of_operatorTree_number hy).arith (gives_of_operatorTree_number hz) l
    (if down then .add else .sub)
  have hone : Text.digitsValue (utf8 "1") = 1 := by decide
  cases down <;> simpa [integers, lastBefore, hone] using hgives

end Chunk

/-! ### Ends that are a single token -/

namespace Tree

open Grammar

variable {l : Text} {s : String} {t : Tree} {ts : List Tree} {ls : List Lexeme} {tok : Token}

/-- An expression that is a single token is no operation. -/
lemma Spelled.of_leaves_singleton (h : Spelled True (.symbol s) t ls) (hrole : role s = .expression)
    (hlexed : AllLexed t) (ht : t.IsDerivation builtin) (hleaves : t.leaves = [tok]) :
    t.strength = 10 ∧ ∃ l, ls = [l] ∧ t.operatorTree = .leaf l ∧
      (tok.kind = .number → Chunk.IsWord tok.content l) := by
  generalize hφ : Phrase.symbol s = φ at h
  induction h generalizing s with
  | @category s' tok' l hs htok hword =>
    have hconstruct : ∀ s ∈ builtinCategories,
        (Construct.symbols.lookup s).getD .operation ∈ [Construct.operation, .enclosed] := by decide
    obtain rfl : tok' = tok := by simpa [leaves, leavesOf] using hleaves
    refine ⟨rfl, l, rfl, ?_, fun _ => hword trivial⟩
    rw [operatorTree_node, map_singleton, Construct.combine_single (hconstruct s' hs), operatorTree,
      luaLexeme_category hs htok (hlexed _ (by simp [leaves, leavesOf])) (hword trivial)]
  | @literal w lua t hw hliteral =>
    have hnumber : ∀ p ∈ literalWords, utf8 p.1 ≠ numberSymbol := by decide
    have hmem : (w, lua) ∈ spelledWords := mem_cons_of_mem _ (mem_append_right _ hw)
    have hoperators : (Tree.node (utf8 "<atom>") [t]).operatorTree = .leaf (mark lua) := by
      rw [operatorTree_node, map_singleton, Construct.combine_single (by decide),
        operatorTree_word hmem hliteral]
    obtain ⟨tok', rfl, htok⟩ := hliteral
    obtain rfl : tok' = tok := by simpa [leaves, leavesOf] using hleaves
    refine ⟨rfl, _, rfl, hoperators, fun hkind => absurd ?_ (hnumber _ hw)⟩
    simpa [Token.symbol, hkind] using htok.symm
  | @single s s' t _ hs _ ih =>
    cases hφ
    have htable : ∀ q ∈ singleRules, q.1 ∈ builtinTable.map Prod.fst := by decide
    have hchild := isDerivation_child ht (htable _ hs) (mem_singleton_self t)
    have hleaves' : t.leaves = [tok] := by simpa [leaves, leavesOf] using hleaves
    have hlexed' : AllLexed t := Core.allLexed_node.1 hlexed t (mem_singleton_self t)
    rcases singleRules_spec _ hs with ⟨-, hrole', hc⟩ | ⟨hr, -⟩ | ⟨hr, -⟩ | hr
    · obtain ⟨hstrength, l, hl, htree, hword⟩ := ih hrole' hlexed' hchild hleaves' rfl
      refine ⟨hstrength, l, hl, ?_, hword⟩
      rw [operatorTree_node, map_singleton, Construct.combine_single hc, htree]
    all_goals exact absurd (hrole.symm.trans hr) (by decide)
  | firstItem | nextItem => cases hφ
  | _ => exact absurd (length_children_le ht) (by simp [hleaves])

/-- A number does not begin with a sign. -/
lemma not_isNumeral_of_sign {b : UInt8} {r : Text} (hb : b ∈ [byte '+', byte '-']) :
    ¬Text.IsNumeral (b :: r) := by
  have hplain : ∀ c ∈ [byte '+', byte '-'], Text.isDigit c = false ∧ c ≠ byte '.' := by decide +kernel
  intro h
  obtain ⟨c, s, hcons, hc⟩ := h.exists_cons
  obtain ⟨rfl, -⟩ := cons.inj hcons
  rcases hc with hc | hc
  · exact absurd ((hplain _ hb).1.symm.trans hc) Bool.false_ne_true
  · exact (hplain _ hb).2 hc.1

/-- A number that is a decimal integer is made of digits. -/
lemma integer?_spec {v : Int} (hkind : tok.kind = .number) (hlexed : tok.Lexed)
    (hv : Plan.integer? tok.content = some v) :
    tok.content ≠ [] ∧ (∀ b ∈ tok.content, Text.isDigit b = true) ∧ v = Text.digitsValue tok.content ∧
      v < wordLimit := by
  simp only [Token.Lexed, hkind] at hlexed
  obtain ⟨b, r, hcons, -⟩ := hlexed.exists_cons
  rw [hcons] at hlexed hv ⊢
  have hsign : b ≠ byte '+' ∧ b ≠ byte '-' := by
    constructor <;> rintro rfl <;> exact not_isNumeral_of_sign (by simp) hlexed
  simp only [Plan.integer?, hsign, decide_false, Bool.or_self, Bool.false_eq_true, if_false, head?_cons,
    Option.some.injEq, isEmpty_cons, Bool.false_or] at hv
  split at hv
  · cases hv
  · rename_i hdigits
    split at hv
    · rename_i hfits
      obtain rfl := Option.some.inj hv
      rw [fitsWord, Bool.and_eq_true, decide_eq_true_iff, decide_eq_true_iff] at hfits
      exact ⟨cons_ne_nil b r, by simpa using hdigits, rfl, hfits.2⟩
    · cases hv

end Tree

/-! ### Folding -/

/-- In 64 bits, only the integer after the largest one is another one. -/
lemma bmod_lastBefore_eq_iff {v : Int} (hv : 0 ≤ v) (hlimit : v < wordLimit) (down : Bool) :
    Int.bmod (lastBefore down v) wordSize = lastBefore down v ↔ ¬(down = true ∧ v = 2 ^ 63 - 1) := by
  have hmax : Int.bmod (2 ^ 63) wordSize ≠ 2 ^ 63 := by decide
  unfold wordLimit at hlimit
  constructor
  · rintro h ⟨rfl, rfl⟩
    exact hmax h
  · intro h
    refine Int.bmod_eq_of_le ?_ ?_ <;> cases down <;> simp only [lastBefore, wordSize] <;> simp at h ⊢ <;> omega

open Tree Grammar

/-- Where the end of a range is an integer, the limit of the loop is computed in 64 bits. It denotes the same
integer as the sum or the difference that stands for it otherwise, unless the end is the largest integer of
64 bits and the loop counts down. -/
theorem bound_denotes_iff {source : Text} {tokens : List Token} {e : Tree} {tok : Token} {v : Int}
    (hlex : lex source = .ok tokens) (he : e.IsDerivation builtin) (hlabel : e.label = expressionLabel)
    (hpart : e.leaves <:+: tokens) (hleaves : e.leaves = [tok]) (hkind : tok.kind = .number)
    (hv : Plan.integer? tok.content = some v) (down : Bool) :
    ∃ text, fragment e = .ok text ∧
      Chunk.Denotes (text ++ utf8 (if down then " + 1" else " - 1")) (lastBefore down v) ∧
      Chunk.Denotes (Plan.bound e text down) (Int.bmod (lastBefore down v) wordSize) ∧
      (Chunk.Denotes (Plan.bound e text down) (lastBefore down v) ↔ ¬(down = true ∧ v = 2 ^ 63 - 1)) := by
  have hlexed : AllLexed e := fun tok htok => lexed_of_mem_lex hlex tok (hpart.subset htok)
  have hplain : Fits True e := by
    intro tok' htok'
    obtain rfl : tok' = tok := by simpa [hleaves] using htok'
    exact ⟨hlexed _ htok', fun _ hstring => absurd (hstring.symm.trans hkind) (by decide)⟩
  obtain ⟨ls, _, text, hspelled, -, hfragment, hlexes, -⟩ := exists_fragment_spelled ⟨he, hlabel⟩ hplain
  obtain ⟨-, l, rfl, -, hword⟩ := hspelled.of_leaves_singleton (by decide) hlexed he hleaves
  obtain ⟨hne, hdigits, rfl, hlimit⟩ := integer?_spec hkind (hlexed tok (by simp [hleaves])) hv
  obtain rfl := isWord_unique (hword hkind) (Chunk.isWord_of_isDigit hne hdigits)
  have hdenotes := Chunk.denotes_ofInt (Int.bmod (lastBefore down (Text.digitsValue tok.content)) wordSize)
  have hbound : Plan.bound e text down =
      Text.ofInt (Int.bmod (lastBefore down (Text.digitsValue tok.content)) wordSize) := by
    simp only [Plan.bound, hleaves, hkind, if_true, hv]
    rfl
  rw [← hbound] at hdenotes
  refine ⟨text, hfragment, ?_, hdenotes, ?_⟩
  · have hscanned := Chunk.denotes_lastOp hlexes down
    rwa [Core.digitsValue_scannedDigits] at hscanned
  · rw [← bmod_lastBefore_eq_iff (Int.natCast_nonneg _) hlimit down]
    exact ⟨fun h => (hdenotes.unique h), fun h => h ▸ hdenotes⟩

/-- The largest integer of 64 bits, as the end of a range. -/
def largestEnd : Tree :=
  ["<expression>", "<disjunction>", "<conjunction>", "<inversion>", "<comparison>", "<sum>", "<term>", "<factor>",
    "<power>", "<primary>", "<atom>"].foldr (fun l t => .node (utf8 l) [t])
    (.node numberSymbol [.leaf numberSymbol ⟨.number, utf8 "9223372036854775807", ⟨0, 18⟩⟩])

lemma isDerivation_largestEnd : largestEnd.IsDerivation builtin :=
  largestEnd.isDerivation_of_follows (by decide)

/-- The tokens before and after that end in a loop that counts down. -/
lemma lex_largestEnd : ∃ before after, lex (utf8 "for i in range(0, 9223372036854775807, -1): pass\n") =
    .ok (before ++ largestEnd.leaves ++ after) :=
  ⟨[⟨.keyword, utf8 "for", ⟨0, 0⟩⟩, ⟨.identifier, utf8 "i", ⟨0, 4⟩⟩, ⟨.keyword, utf8 "in", ⟨0, 6⟩⟩,
      ⟨.keyword, utf8 "range", ⟨0, 9⟩⟩, ⟨.divider, utf8 "(", ⟨0, 14⟩⟩, ⟨.number, utf8 "0", ⟨0, 15⟩⟩,
      ⟨.divider, utf8 ",", ⟨0, 16⟩⟩],
    [⟨.divider, utf8 ",", ⟨0, 37⟩⟩, ⟨.operator, utf8 "-", ⟨0, 39⟩⟩, ⟨.number, utf8 "1", ⟨0, 40⟩⟩,
      ⟨.divider, utf8 ")", ⟨0, 41⟩⟩, ⟨.divider, utf8 ":", ⟨0, 42⟩⟩, ⟨.keyword, utf8 "pass", ⟨0, 44⟩⟩,
      ⟨.divider, newlineText, ⟨0, 48⟩⟩], by decide +kernel⟩

/-- A loop that counts up to the largest integer. -/
theorem bound_denotes_before_largest :
    ∃ tokens text, lex (utf8 "for i in range(0, 9223372036854775807, -1): pass\n") = .ok tokens ∧
      largestEnd.leaves <:+: tokens ∧ fragment largestEnd = .ok text ∧
      Chunk.Denotes (text ++ utf8 " - 1") 9223372036854775806 ∧
      Chunk.Denotes (Plan.bound largestEnd text false) 9223372036854775806 := by
  obtain ⟨before, after, hlex⟩ := lex_largestEnd
  have hv : Plan.integer? (utf8 "9223372036854775807") = some 9223372036854775807 := by decide +kernel
  obtain ⟨text, hfragment, hunfolded, -, hfolded⟩ :=
    bound_denotes_iff hlex isDerivation_largestEnd rfl ⟨before, after, rfl⟩ rfl rfl hv false
  exact ⟨_, text, hlex, ⟨before, after, rfl⟩, hfragment, hunfolded, hfolded.2 (by simp)⟩

/-- A loop that counts down to the integer after the largest one gets the smallest one as its limit. -/
theorem bound_of_largest :
    ∃ tokens, lex (utf8 "for i in range(0, 9223372036854775807, -1): pass\n") = .ok tokens ∧
      largestEnd.leaves <:+: tokens ∧ fragment largestEnd = .ok (utf8 "9223372036854775807") ∧
      Chunk.Denotes (utf8 "9223372036854775807 + 1") (2 ^ 63) ∧
      Plan.bound largestEnd (utf8 "9223372036854775807") true = Text.ofInt (-2 ^ 63) ∧
      ¬Chunk.Denotes (Text.ofInt (-2 ^ 63)) (2 ^ 63) := by
  obtain ⟨before, after, hlex⟩ := lex_largestEnd
  have hdigits : ∀ b ∈ utf8 "9223372036854775807", Text.isDigit b = true := by decide +kernel
  have hvalue : (Text.digitsValue (utf8 "9223372036854775807") : Int) = 2 ^ 63 - 1 := by decide +kernel
  have hsum := Chunk.denotes_lastOp (Chunk.isWord_of_isDigit (by decide) hdigits).lexes true
  rw [Core.digitsValue_scannedDigits, hvalue] at hsum
  refine ⟨_, hlex, ⟨before, after, rfl⟩, by decide +kernel, hsum, by decide +kernel, fun h => ?_⟩
  exact absurd ((Chunk.denotes_ofInt _).unique h) (by decide)

end Lunify
