import Lunify.Proofs.Spelled.Generate

/-!
# Core programs as they are rendered

The tree of a phrase stands for the Lua tokens of the phrase (`Core.Represents.spoken`). What that means for a
phrase of each kind is `Core.Spoken`. So the text of a program is made of the tokens of its statements
(`Core.exists_generate`).
-/

namespace Lunify

open List

namespace Core

open Grammar
open Chunk (Lexeme Lexes inParens mark)
open Tree (Spelled IsWritten IsSimple IsRange IsHeader Stated Derives)

variable {t u : Tree}

/-- Trees of the built-in grammar, with tokens that fit their kinds. -/
structure Parsed (t : Tree) : Prop where
  derivation : t.IsDerivation builtin
  lexed : AllLexed t

lemma Parsed.child {l : String} {ts : List Tree} (h : Parsed (node l ts))
    (hl : l ∈ builtinTable.map Prod.fst := by decide) (ht : t ∈ ts := by simp) : Parsed t :=
  ⟨Tree.isDerivation_child h.derivation hl ht, h.lexed.child ht⟩

/-! ### Names and literals -/

lemma Name.isWord (x : Name) : Chunk.IsWord x.text (.name x.text) := by
  obtain ⟨b, r, hcons, hb, hr⟩ := x.isName
  have hlexeme : Chunk.wordLexeme x.text = .name x.text := by
    simp [Chunk.wordLexeme, x.notReservedLua]
  rw [← hlexeme, hcons]
  exact .word hb hr

lemma IsIdentifier.isName {x : Name} (ht : IsIdentifier x t) : Tree.IsName t (.name x.text) := by
  obtain ⟨tok, rfl, hkind, hcontent⟩ := ht
  exact ⟨tok, rfl, by simp [Token.symbol, hkind], hcontent ▸ x.isWord⟩

lemma IsIdentifier.spelled {x : Name} (ht : IsIdentifier x t) : Spelled True "<Identifier>" t [.name x.text] := by
  obtain ⟨tok, rfl, htok, hword⟩ := ht.isName
  exact .category (by decide) htok fun _ => hword

lemma spelled_atom {s : String} {ls : List Lexeme} (hs : ("<atom>", s) ∈ Tree.singleRules) (h : Spelled True s t ls) :
    Spelled True "<primary>" (atom t) ls :=
  .single (by decide) (.single hs h)

lemma Literal.spelled {tok : Token} {d : Literal} (hkind : tok.kind = .number) (hcontent : tok.content = d.digits) :
    Spelled True "<Number>" (.node numberSymbol [.leaf numberSymbol tok]) (Expr.int d).lexemes := by
  refine .category (by decide) (show tok.symbol = numberSymbol by simp [Token.symbol, hkind]) fun _ => ?_
  rw [hcontent]
  exact Chunk.isWord_of_isDigit d.isDecimal.1 d.isDecimal.2.1

/-- A string stands for what is between its quotes. -/
lemma spelled_string {tok : Token} {q : UInt8} {s : Text} (hkind : tok.kind = .string)
    (hcontent : tok.content = q :: (s ++ [q])) (hs : ∀ c ∈ s, c ≠ byte '\\' ∧ c ≠ byte '\r')
    (hlexed : tok.Lexed) :
    Spelled True "<String>" (.node stringSymbol [.leaf stringSymbol tok]) (Expr.str s).lexemes := by
  have hquotation : tok.content.IsQuotation := by
    simpa only [Token.Lexed, hkind] using hlexed
  obtain ⟨q', r, heq, hq, hr⟩ := hquotation
  obtain ⟨rfl, happend⟩ := List.cons.inj (hcontent.symm.trans heq)
  obtain rfl : s = r := append_inj_left' happend rfl
  refine .category (by decide) (show tok.symbol = stringSymbol by simp [Token.symbol, hkind]) fun _ => ?_
  rw [hcontent]
  exact .string hq fun c hc => ⟨(hr c hc).1, (hr c hc).2, (hs c hc).2, (hs c hc).1⟩

/-! ### Expressions of one token -/

/-- The tokens of an expression, as far as the end of a loop depends on them. -/
def Expr.LeavesShape (leaves : List Token) : Expr → Prop
  | .int d => ∃ tok, leaves = [tok] ∧ tok.kind = .number ∧ tok.content = d.digits
  | e => if e.isToken then ∃ tok, leaves = [tok] ∧ tok.kind ≠ .number else 2 ≤ leaves.length

lemma Parsed.two_le_length_leaves {l : String} {ts : List Tree} (h : Parsed (node l (t :: u :: ts))) :
    2 ≤ (node l (t :: u :: ts)).leaves.length :=
  le_trans (by simp) (Tree.length_children_le h.derivation)

lemma levelLabels_spec : ∀ k < 9, levelLabels.getD k "<primary>" ∈ builtinTable.map Prod.fst ∧
    (levelLabels.getD k "<primary>", levelLabels.getD (k + 1) "<primary>") ∈ Tree.singleRules := by
  decide

/-- How many tokens an expression has. -/
lemma Represents.leavesShape {k : Nat} {e : Expr} (h : Represents t (.expr k e)) (hparsed : Parsed t) :
    e.LeavesShape t.leaves := by
  generalize hφ : Phrase.expr k e = φ at h
  induction h generalizing k with
  | int hkind hcontent =>
    cases hφ
    exact ⟨_, by simp [atom, node, Tree.leaves, Tree.leavesOf], hkind, hcontent⟩
  | @str tok q s hkind hcontent hs =>
    cases hφ
    exact ⟨tok, by simp [atom, node, Tree.leaves, Tree.leavesOf], by simp [hkind]⟩
  | @bool b t ht =>
    cases hφ
    obtain ⟨tok, rfl, hsymbol⟩ := ht
    refine ⟨tok, by simp [atom, node, Tree.leaves, Tree.leavesOf], ?_⟩
    exact (Token.content_of_symbol (by cases b <;> decide) hsymbol).2.2.1
  | name ht =>
    cases hφ
    obtain ⟨tok, rfl, hkind, -⟩ := ht
    exact ⟨tok, by simp [atom, node, Tree.identifier, Tree.leaves, Tree.leavesOf], by simp [hkind]⟩
  | @level k t e hk _ ih =>
    cases hφ
    simpa [Tree.leaves, Tree.leavesOf] using ih (hparsed.child (levelLabels_spec k hk).1 (mem_singleton_self t)) rfl
  | callExpr ht =>
    cases hφ
    have hcall := hparsed.child (by decide) (mem_singleton_self _)
    cases ht with
    | callNothing | call =>
      simpa [Expr.LeavesShape, Expr.isToken, node, Tree.leaves, Tree.leavesOf] using hcall.two_le_length_leaves
  | paren | inversion | neg | pos | disjunction | conjunction | compare | sum | term =>
    cases hφ
    exact hparsed.two_le_length_leaves
  | _ => cases hφ

/-- A negated literal is a minus and a number. -/
lemma Represents.leaves_neg_int {k : Nat} {d : Literal} (h : Represents t (.expr k (.neg (.int d))))
    (hparsed : Parsed t) :
    ∃ minus tok, t.leaves = [minus, tok] ∧ minus.content = utf8 "-" ∧ tok.kind = .number := by
  generalize hφ : Phrase.expr k (.neg (.int d)) = φ at h
  induction h generalizing k with
  | @level k t e hk _ ih =>
    cases hφ
    simpa [Tree.leaves, Tree.leavesOf] using ih (hparsed.child (levelLabels_spec k hk).1 (mem_singleton_self t)) rfl
  | neg ho hu =>
    cases hφ
    obtain ⟨tok, hleaves, hkind, -⟩ := hu.leavesShape hparsed.child
    obtain ⟨minus, rfl, hsymbol⟩ := ho
    refine ⟨minus, tok, ?_, (Token.content_of_symbol (by decide) hsymbol).1, hkind⟩
    simp [node, Tree.leaves, Tree.leavesOf, hleaves]
  | _ => cases hφ

/-- Rendering sees whether the step of a range is negated. -/
lemma Represents.isNegative_eq {k : Nat} {negated : Bool} {d : Literal}
    (h : Represents t (.expr k (if negated then .neg (.int d) else .int d))) (hparsed : Parsed t) :
    Plan.isNegative t = negated := by
  cases negated with
  | true =>
    obtain ⟨minus, tok, hleaves, hminus, hkind⟩ := h.leaves_neg_int hparsed
    simp [Plan.isNegative, hleaves, hminus, hkind]
  | false =>
    obtain ⟨tok, hleaves, -⟩ := h.leavesShape hparsed
    simp [Plan.isNegative, hleaves]

/-! ### Ends of ranges -/

/-- Rendering reads a literal as its value. -/
lemma Literal.integer?_digits (d : Literal) : Plan.integer? d.digits = some (d.value : Int) := by
  obtain ⟨hne, hdigits, -⟩ := d.isDecimal
  have hsmall := d.small
  obtain ⟨b, r, hcons⟩ := exists_cons_of_ne_nil hne
  have hb : Text.isDigit b = true := hdigits b (by rw [hcons]; exact mem_cons_self)
  have hsign : b ≠ byte '+' ∧ b ≠ byte '-' := by
    constructor <;> rintro rfl <;> exact absurd hb (by decide)
  have hall : d.digits.all Text.isDigit = true := all_eq_true.2 hdigits
  have hfits : fitsWord (Text.digitsValue d.digits) = true := by
    rw [fitsWord, Bool.and_eq_true, decide_eq_true_iff, decide_eq_true_iff, wordLimit]
    rw [limit] at hsmall
    omega
  rw [hcons] at hall hfits
  rw [Literal.value, hcons]
  simp [Plan.integer?, hsign, hall, hfits]

lemma Literal.bmod_lastBefore (d : Literal) (down : Bool) :
    Int.bmod (lastBefore down d.value) wordSize = lastBefore down d.value := by
  have hsmall := d.small
  rw [← Literal.value, limit] at hsmall
  refine Int.bmod_eq_of_le ?_ ?_ <;> cases down <;> simp only [lastBefore, wordSize] <;> omega

/-- The end of a loop stands one before the end of its range. -/
lemma Represents.endLexemes_eq {k : Nat} {e : Expr} (ht : Represents t (.expr k e)) (hparsed : Parsed t) (down : Bool) :
    Tree.endLexemes t e.lexemes down = e.endLexemes down := by
  have hleaves := ht.leavesShape hparsed
  cases e with
  | int d =>
    obtain ⟨tok, hleaves, hkind, hcontent⟩ := hleaves
    rw [Expr.endLexemes, ← d.bmod_lastBefore down]
    simp [Tree.endLexemes, hleaves, hkind, hcontent, d.integer?_digits, lastBefore]
  | str | bool | name =>
    obtain ⟨tok, hleaves, hkind⟩ := hleaves
    simp only [Tree.endLexemes, hleaves, if_neg hkind]
    rfl
  | paren | neg | pos | arith | compare | not | and | or | call =>
    simp only [Tree.endLexemes]
    split
    · rename_i tok heq
      simp [Expr.LeavesShape, Expr.isToken, heq] at hleaves
    · rfl

/-! ### Lists -/

/-- The tokens of a list of expressions with one more. -/
lemma lexemesOf_append_singleton {es : List Expr} (hes : es ≠ []) (e : Expr) :
    lexemesOf (es ++ [e]) = lexemesOf es ++ mark "," :: e.lexemes := by
  have hmore : ∀ es, moreLexemesOf (es ++ [e]) = moreLexemesOf es ++ mark "," :: e.lexemes := by
    intro es
    induction es with
    | nil => simp [moreLexemesOf]
    | cons e' es ih => simp [moreLexemesOf, ih]
  obtain ⟨e', es, rfl⟩ := exists_cons_of_ne_nil hes
  simp [lexemesOf, hmore]

/-- The tokens of a list of names with one more. -/
lemma nameLexemes_append_singleton {xs : List Name} (hxs : xs ≠ []) (x : Name) :
    nameLexemes (xs ++ [x]) = nameLexemes xs ++ [mark ",", .name x.text] := by
  induction xs with
  | nil => exact absurd rfl hxs
  | cons y xs ih =>
    cases xs with
    | nil => rfl
    | cons z xs =>
      simp only [cons_append, nameLexemes, List.cons.injEq, true_and]
      exact ih (cons_ne_nil z xs)

lemma blockLexemes_append (b c : List Stat) :
    blockLexemes (b ++ c) = blockLexemes b ++ blockLexemes c := by
  induction b with
  | nil => rfl
  | cons s b ih => simp [blockLexemes, ih]

lemma Represents.ne_nil {φ : Phrase} (h : Represents t φ) :
    φ ≠ .args [] ∧ φ ≠ .params [] := by
  cases h <;> simp

/-! ### Phrases -/

/-- What the tree of a phrase stands for. Lists of statements are trees of several symbols. -/
def Spoken (t : Tree) : Phrase → Prop
  | .expr k e => Spelled True (levelLabels.getD k "<primary>") t e.lexemes
  | .args es => Spelled True "<arguments>" t (lexemesOf es)
  | .call f args => Spelled True "<function_call>" t (Expr.call f args).lexemes
  | .params xs => Spelled True "<parameters>" t (nameLexemes xs)
  | .range r => IsRange True t r.lexemes
  | .simple b => IsSimple True t (blockLexemes b)
  | .stats b => ∃ s, Stated True s t (blockLexemes b)
  | .block b => Stated True "<block>" t (blockLexemes b)
  | .elseIf b => Stated True "<else>" t (mark "elseif" :: b.lexemes)
  | .otherwise b => Stated True "<else>" t (mark "else" :: blockLexemes b)
  | .layout => t.label = utf8 "<newlines>"

lemma spoken_simple {s : Stat} (h : IsWritten True t s.lexemes) :
    Spoken (node "<simple_statement>" [t]) (.simple [s]) := by
  simpa [Spoken, blockLexemes, node] using IsSimple.written h

lemma spoken_stat {l : String} {s : Stat} (h : Stated True l t s.lexemes) : Spoken t (.stats [s]) :=
  ⟨l, by simpa [blockLexemes] using h⟩

/-- What a list of statements consists of is what the grammar says. -/
lemma mem_statementRules_of_parsed {s s' : String} {ls : List Lexeme} (h : Parsed (node s [t]))
    (hs : s ∈ ["<program>", "<statements>", "<compound_statement>"]) (ht : Stated True s' t ls) :
    (s, s') ∈ Tree.statementRules := by
  have htable : ∀ s ∈ ["<program>", "<statements>", "<compound_statement>"], ∃ p ∈ builtinTable, p.1 = s ∧
      ∀ rhs ∈ p.2, rhs.length = 1 → ∀ w ∈ rhs, (s, w) ∈ Tree.statementRules := by decide
  obtain ⟨⟨s, alternatives⟩, hp, rfl, hrules⟩ := htable s hs
  obtain ⟨us, heq, rhs, hrhs, hus⟩ := Derives.children ⟨h.derivation, rfl⟩ hp
  obtain ⟨-, rfl⟩ := Tree.node.inj heq
  obtain ⟨w, _, hw, hnil, rfl⟩ := forall₂_cons_right_iff.1 hus
  obtain rfl := forall₂_nil_right_iff.1 hnil
  obtain rfl : w = s' := utf8_injective (hw.label.symm.trans ht.label)
  exact hrules _ hrhs rfl w (mem_singleton_self _)

/-- The tree of a phrase stands for the tokens of the phrase. -/
theorem Represents.spoken {φ : Phrase} (h : Represents t φ) (hparsed : Parsed t) : Spoken t φ := by
  induction h with
  | int hkind hcontent => exact spelled_atom (by decide) (Literal.spelled hkind hcontent)
  | str hkind hcontent hs =>
    refine spelled_atom (by decide) (spelled_string hkind hcontent hs (hparsed.lexed _ ?_))
    simp [atom, node, Tree.leaves, Tree.leavesOf]
  | @bool b t ht =>
    cases b with
    | true => exact .single (by decide) (.literal (by decide) ht)
    | false => exact .single (by decide) (.literal (by decide) ht)
  | name ht => exact spelled_atom (by decide) ht.spelled
  | paren hl ht hr ih => exact .paren hl (ih hparsed.child) hr
  | callExpr ht ih => exact .single (by decide) (ih hparsed.child)
  | @level k t e hk ht ih =>
    obtain ⟨hmem, hrule⟩ := levelLabels_spec k hk
    exact .single hrule (ih (hparsed.child hmem (mem_singleton_self t)))
  | disjunction ht ho hu iht ihu =>
    exact .binary (show ("<disjunction>", _) ∈ Tree.binaryRules by decide)
      (iht hparsed.child) (.word (by decide) ho) (ihu hparsed.child)
  | conjunction ht ho hu iht ihu =>
    exact .binary (show ("<conjunction>", _) ∈ Tree.binaryRules by decide)
      (iht hparsed.child) (.word (by decide) ho) (ihu hparsed.child)
  | inversion ho hu ih =>
    rw [Spoken, Expr.lexemes, ← hu.isComparison_eq]
    exact .not ho (ih hparsed.child)
  | @compare op t o u a b ht ho hu iht ihu =>
    have hop : ("<compare_op>", op.source, op.target) ∈ Tree.operatorRules := by cases op <;> decide
    exact .binary (show ("<comparison>", _) ∈ Tree.binaryRules by decide)
      (iht hparsed.child) (.among hop ho) (ihu hparsed.child)
  | @sum op t o u a b hop ht ho hu iht ihu =>
    have hop : ("<sum_op>", op.source, op.source) ∈ Tree.operatorRules := by rcases hop with rfl | rfl <;> decide
    exact .binary (show ("<sum>", _) ∈ Tree.binaryRules by decide)
      (iht hparsed.child) (.among hop ho) (ihu hparsed.child)
  | @term op t o u a b hop ht ho hu iht ihu =>
    have hop : ("<term_op>", op.source, op.source) ∈ Tree.operatorRules := by rcases hop with rfl | rfl <;> decide
    exact .binary (show ("<term>", _) ∈ Tree.binaryRules by decide)
      (iht hparsed.child) (.among hop ho) (ihu hparsed.child)
  | neg ho hu ih => exact .neg ho (ih hparsed.child)
  | pos ho hu ih => exact .pos ho (ih hparsed.child)
  | argument ht ih =>
    have hall := ih hparsed.child
    rw [Spoken, lexemesOf, moreLexemesOf, append_nil]
    exact .single (by decide) hall
  | arguments ht hc hu iht ihu =>
    rw [Spoken, lexemesOf_append_singleton (fun heq => ht.ne_nil.1 (by rw [heq]))]
    exact .comma (by decide) (iht hparsed.child) hc
      (ihu hparsed.child)
  | callNothing ht hl hr => exact .callNothing ht.isName hl hr
  | call ht hl ha hr ih => exact .call ht.isName hl (ih hparsed.child) hr
  | assign ht ho hu ih =>
    have hvalue := ih ((hparsed.child (by decide) (mem_singleton_self _)).child (by decide) (by simp))
    exact spoken_simple (.assign (show "<Identifier>" ∈ _ by decide) ht.spelled ho hvalue)
  | callStat ht ih => exact spoken_simple (.call (ih hparsed.child))
  | printNothing hp hl hr => exact spoken_simple (.print hp hl .none hr)
  | print hp hl ha hr ih =>
    have hargs := ih ((hparsed.child (by decide) (mem_singleton_self _)).child (by decide) (by simp))
    exact spoken_simple (.print hp hl (.some hargs) hr)
  | returnNothing hk => exact spoken_simple (.return hk .none)
  | @returnValue k t e hk ht ih =>
    have hvalue := ih ((hparsed.child (by decide) (mem_singleton_self _)).child (by decide) (by simp))
    have hlexemes : (Stat.return (some e)).lexemes = mark "return" :: e.lexemes := by
      simp [Stat.lexemes, lexemesOf, moreLexemesOf]
    exact spoken_simple (hlexemes ▸ .return hk (.some hvalue))
  | breakLoop hk => exact spoken_simple (.jump (by decide) hk)
  | pass hk => exact .pass hk
  | line ht hn ih => exact ⟨_, .line (by decide) (ih hparsed.child) hn⟩
  | empty hn => exact ⟨_, .blank hn⟩
  | compound ht ih =>
    have hcompound := hparsed.child (by decide) (mem_singleton_self _)
    obtain ⟨s, hs⟩ := ih hcompound.child
    exact ⟨_, .single (show ("<statement>", "<compound_statement>") ∈ _ by decide)
      (.single (mem_statementRules_of_parsed hcompound (by decide) hs) hs)⟩
  | first ht ih | program ht ih =>
    obtain ⟨s, hs⟩ := ih hparsed.child
    exact ⟨_, .single (mem_statementRules_of_parsed hparsed (by decide) hs) hs⟩
  | more ht hu iht ihu =>
    obtain ⟨s, hs⟩ := iht hparsed.child
    obtain ⟨s', hs'⟩ := ihu hparsed.child
    obtain ⟨⟨rhs, hrhs, hlabels⟩, -⟩ := Tree.children_eq hparsed.derivation "<statements>" [["<statement>"], ["<statements>", "<statement>"]]
      (by decide) rfl
    simp only [mem_cons, not_mem_nil, or_false] at hrhs
    rcases hrhs with rfl | rfl
    · simp at hlabels
    · simp only [map_cons, List.cons.injEq, hs.label, hs'.label] at hlabels
      obtain rfl := utf8_injective hlabels.1
      obtain rfl := utf8_injective hlabels.2.1
      rw [Spoken, blockLexemes_append]
      exact ⟨_, .more hs hs'⟩
  | newline | newlines => rfl
  | inline ht hn ih => exact .line (show "<block>" ∈ _ by decide) (ih hparsed.child) hn
  | indented hn hi ht hd ihn iht =>
    have hlayout := hparsed.child (by decide) (mem_cons_self ..)
    obtain ⟨s, hs⟩ := iht hparsed.child
    obtain ⟨⟨rhs, hrhs, hlabels⟩, -⟩ := Tree.children_eq hparsed.derivation "<block>"
      [["<simple_statement>", "newline"], ["<newlines>", "indent", "<statements>", "dedent"]] (by decide) rfl
    simp only [mem_cons, not_mem_nil, or_false] at hrhs
    rcases hrhs with rfl | rfl
    · simp at hlabels
    · simp only [map_cons, List.cons.injEq, hs.label] at hlabels
      obtain rfl := utf8_injective hlabels.2.2.1
      exact .block ⟨hlayout.derivation, ihn hlayout⟩ hi hs hd
  | ifOnly hk ht hc hu iht ihu =>
    have hheader : IsHeader True "<if>" _ _ := .condition (show ("<if>", "if", "if", "then") ∈ _ by decide) hk
      (iht hparsed.child) hc
    refine spoken_stat (?_ : Stated True "<if>" _ _)
    simpa [node, Stat.lexemes, Branch.lexemes] using
      Stated.construct (by decide) hheader (ihu hparsed.child)
  | ifElse hk ht hc hu hv iht ihu ihv | ifElif hk ht hc hu hv iht ihu ihv =>
    have hheader : IsHeader True "<if>" _ _ := .condition (show ("<if>", "if", "if", "then") ∈ _ by decide) hk
      (iht hparsed.child) hc
    refine spoken_stat (?_ : Stated True "<if>" _ _)
    simpa [node, Stat.lexemes, Branch.lexemes] using Stated.either hheader
      (ihu hparsed.child) (ihv hparsed.child)
  | elif hk ht hc hu iht ihu =>
    have hheader : IsHeader True "<else>" _ _ :=
      .condition (show ("<else>", "elif", "elseif", "then") ∈ _ by decide) hk
        (iht hparsed.child) hc
    simpa [Spoken, node, Branch.lexemes] using
      Stated.alternative hheader (ihu hparsed.child)
  | elifElse hk ht hc hu hv iht ihu ihv | elifElif hk ht hc hu hv iht ihu ihv =>
    have hheader : IsHeader True "<else>" _ _ :=
      .condition (show ("<else>", "elif", "elseif", "then") ∈ _ by decide) hk
        (iht hparsed.child) hc
    simpa [Spoken, node, Branch.lexemes] using Stated.alternatives hheader
      (ihu hparsed.child) (ihv hparsed.child)
  | otherwise hk hc hu ih =>
    simpa [Spoken, node] using Stated.alternative (.otherwise hk hc) (ih hparsed.child)
  | loop hk ht hc hu iht ihu =>
    have hheader : IsHeader True "<while>" _ _ :=
      .condition (show ("<while>", "while", "while", "do") ∈ _ by decide) hk
        (iht hparsed.child) hc
    refine spoken_stat (?_ : Stated True "<while>" _ _)
    simpa [node, Stat.lexemes] using
      Stated.construct (by decide) hheader (ihu hparsed.child)
  | upTo hk hl ht hr ih =>
    rw [Spoken, Range.lexemes, ← ht.endLexemes_eq hparsed.child]
    exact .upTo hk hl (ih hparsed.child) hr
  | between hk hl ht hc hu hr iht ihu =>
    rw [Spoken, Range.lexemes, ← hu.endLexemes_eq hparsed.child]
    exact .between hk hl (iht hparsed.child) hc (ihu hparsed.child) hr
  | @stepped k l t c u c' v r start stop negated step hk hl ht hc hu hc' hv hr iht ihu ihv =>
    have hall := IsRange.stepped hk hl (iht hparsed.child) hc
      (ihu hparsed.child) hc' (ihv hparsed.child) hr
    rw [hv.isNegative_eq hparsed.child, hu.endLexemes_eq hparsed.child] at hall
    cases negated with
    | true => simpa [Spoken, node, Range.lexemes, stepLexemes] using hall
    | false => simpa [Spoken, node, Range.lexemes, stepLexemes] using hall
  | count hk ht hi hu hc hv ihu ihv =>
    have hheader : IsHeader True "<for>" _ _ :=
      .count hk ht.isName hi (ihu hparsed.child) hc
    refine spoken_stat (?_ : Stated True "<for>" _ _)
    simpa [node, Stat.lexemes] using
      Stated.construct (by decide) hheader (ihv hparsed.child)
  | parameter ht => exact .single (by decide) ht.spelled
  | parameters ht hc hu ih =>
    rw [Spoken, nameLexemes_append_singleton (fun heq => ht.ne_nil.2 (by rw [heq]))]
    exact .comma (by decide) (ih hparsed.child) hc hu.spelled
  | defineNothing hk ht hl hr hc hu ih =>
    have hheader : IsHeader True "<function>" _ _ := .define hk ht.isName hl .none hr hc
    refine spoken_stat (?_ : Stated True "<function>" _ _)
    simpa [node, Stat.lexemes, nameLexemes] using
      Stated.construct (by decide) hheader (ih hparsed.child)
  | define hk ht hl hp hr hc hu ihp ihu =>
    have hheader : IsHeader True "<function>" _ _ :=
      .define hk ht.isName hl (.some (ihp hparsed.child)) hr hc
    refine spoken_stat (?_ : Stated True "<function>" _ _)
    simpa [node, Stat.lexemes] using
      Stated.construct (by decide) hheader (ihu hparsed.child)

/-- The text of a program is made of the tokens of its statements. -/
theorem exists_generate {source : Text} {tokens : List Token} {p : List Stat} (hlex : lex source = .ok tokens)
    (hparse : parse builtin tokens = .ok t) (h : Represents t (.stats p)) :
    ∃ lua, generate t = .ok lua ∧ Lexes lua (blockLexemes p) := by
  obtain ⟨hlabel, hderivation, hleaves⟩ := isDerivation_of_parse_eq_ok acceptSymbol_notMem_builtin hparse
  obtain ⟨s, hs⟩ := h.spoken ⟨hderivation, fun tok htok => lexed_of_mem_lex hlex tok (hleaves ▸ htok)⟩
  obtain rfl : s = "<program>" := utf8_injective (hs.label.symm.trans (hlabel.trans start_builtin))
  obtain ⟨out, hgenerate, hlexes, -⟩ := hs.exists_generate hlex hparse
  exact ⟨out, hgenerate, hlexes⟩

end Core

end Lunify
