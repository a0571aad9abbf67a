import Lunify.Proofs.Chunk.Statements
import Lunify.Proofs.Core.Rendering

/-!
# Reading core programs

The reader of Lua takes the tokens of a phrase of a core program for what the phrase stands for
(`Core.Represents.reading`). The levels of expressions in the grammar and the strengths of Lua operators go
together, but for `not`, which Lua binds more tightly: `Core.ExprReads` carries along that an expression without
comparisons is a chain of operands, so that it is read as something in any case.
-/

namespace Lunify

open List

namespace Core

open Chunk (Lexeme inParens mark)
open Chunk.Reader (IsExpr IsExprs IsOperand IsPrimary IsArgs ReadsAt Chain IsStat IsBlock IsBranches IsStep
  readsAt_unary readsAt_binary isPrimary_inParens isPrimary_name isPrimary_call isLiteral_constant)

variable {body yes : List Stat} {cond : Expr}

/-! ### Expressions -/

/-- How strongly the operators of a level of expressions bind in Lua, at least. -/
def strengthOf : Nat → Nat
  | 0 | 1 => 1
  | 2 => 2
  | 3 | 4 => 3
  | 5 => 6
  | 6 => 7
  | _ => 9

lemma strengthOf_le_succ : ∀ k, strengthOf k ≤ strengthOf (k + 1)
  | 0 | 1 | 2 | 3 | 4 | 5 | 6 => by decide
  | _ + 7 => Nat.le_refl 9

/-- What the reader makes of an expression at a level. -/
structure ExprReads (k : Nat) (e : Expr) : Prop where
  readsAt : ReadsAt True (strengthOf k) e.lexemes e.Matches
  /-- It is something after `not`. -/
  chain : 3 ≤ k → e.isComparison = false → Chain 6 e.lexemes
  /-- It is the operand of `not`, unless that reaches into it. -/
  tight : 3 ≤ k → e.isComparison = false → e.isArithmetic = false → ReadsAt True 9 e.lexemes e.Matches

variable {k : Nat} {e a b : Expr}

lemma ExprReads.isExpr (h : ExprReads k e) : IsExpr True e.lexemes e.Matches := by
  refine h.readsAt.isExpr ?_
  unfold strengthOf
  split <;> omega

lemma ExprReads.isOperand_inParens (h : ExprReads k e) :
    IsOperand True (inParens e.lexemes) fun e' => ∃ l u, e.Matches u ∧ e' = u.parenthesized l :=
  ((isPrimary_inParens h.isExpr).isSubscriptable ⟨_, rfl, rfl⟩).isOperand.mono fun _ ⟨_, hu, _⟩ => hu

lemma ExprReads.of_isOperand (h : IsOperand True e.lexemes e.Matches) : ExprReads k e where
  readsAt := h.readsAt _
  chain _ _ := .operand (h.mono fun _ _ => trivial)
  tight _ _ _ := h.readsAt 9

lemma ExprReads.level (h : ExprReads (k + 1) e) : ExprReads k e where
  readsAt := h.readsAt.mono (strengthOf_le_succ k) fun _ => id
  chain hk := h.chain (by omega)
  tight hk := h.tight (by omega)

lemma binaryOp?_comparison (op : Comparison) :
    Chunk.Reader.binaryOp? (utf8 op.target) = some (op.binary, 3, 3) := by
  cases op <;> decide

/-- Arithmetic on two operands. Sums and terms are two neighbouring levels and strengths. -/
lemma exprReads_arith {op : Arith} (hk : k = 5 ∨ k = 6)
    (hop : Chunk.Reader.binaryOp? (utf8 op.source) = some (.arith op.target, k + 1, k + 1))
    (ha : ExprReads k a) (ha' : a.isComparison = false) (hb : ExprReads (k + 1) b)
    (hb' : b.isComparison = false) : ExprReads k (.arith op a b) where
  readsAt := by
    have hstrength : strengthOf k = k + 1 ∧ k + 2 ≤ strengthOf (k + 1) := by
      rcases hk with rfl | rfl <;> decide
    have hleft := ha.readsAt
    rw [hstrength.1] at hleft ⊢
    refine (readsAt_binary hop (by unfold Chunk.Reader.unaryBinding; omega) hleft
      (hb.readsAt.mono hstrength.2 fun _ => id)).mono (Nat.le_refl _) ?_
    rintro e' ⟨l, u, v, hu, hv, rfl⟩
    exact ⟨l, u, v, hu, hv, rfl⟩
  chain _ _ := (ha.chain (by omega) ha').append hop (by omega) (hb.chain (by omega) hb')
  tight _ _ h := absurd h (by simp [Expr.isArithmetic])

/-- A comparison. -/
lemma exprReads_compare {op : Comparison} (ha : ExprReads 5 a) (hb : ExprReads 5 b) :
    ExprReads 4 (.compare op a b) where
  readsAt := by
    refine (readsAt_binary (binaryOp?_comparison op) (by decide) (ha.readsAt.mono (by decide) fun _ => id)
      (hb.readsAt.mono (by decide) fun _ => id)).mono (Nat.le_refl _) ?_
    rintro e' ⟨l, u, v, hu, hv, rfl⟩
    exact ⟨l, u, v, hu, hv, rfl⟩
  chain _ h := absurd h (by simp [Expr.isComparison])
  tight _ h := absurd h (by simp [Expr.isComparison])

/-- A negation. What Lua binds to `not` is the whole operand, or a part of it if the operand is arithmetic. -/
lemma exprReads_not (h : ExprReads 3 e) : ExprReads 3 (.not e) := by
  have hop : Chunk.Reader.unaryOp? (utf8 "not") = some .not := by decide
  have hchain : Chain 6 (Expr.not e).lexemes := by
    rw [Expr.lexemes]
    refine .unary hop ?_
    split
    · exact .operand (h.isOperand_inParens.mono fun _ _ => trivial)
    · exact h.chain (Nat.le_refl 3) (by simpa using ‹¬e.isComparison = true›)
  have htight : ∀ p, e.isArithmetic = false → ReadsAt True p (Expr.not e).lexemes (Expr.not e).Matches := by
    intro p harith
    rw [Expr.lexemes]
    split
    · refine (readsAt_unary p hop (h.isOperand_inParens.readsAt _)).mono (Nat.le_refl _) ?_
      rintro e' ⟨l, v, ⟨l', u, hu, rfl⟩, rfl⟩
      exact .inr ⟨l, u, _, hu, .inr ⟨l', rfl⟩, rfl⟩
    · have hcompare : e.isComparison = false := by simpa using ‹¬e.isComparison = true›
      refine (readsAt_unary p hop (h.tight (Nat.le_refl 3) hcompare harith)).mono (Nat.le_refl _) ?_
      rintro e' ⟨l, u, hu, rfl⟩
      exact .inr ⟨l, u, u, hu, .inl rfl, rfl⟩
  refine ⟨?_, fun _ _ => hchain, fun _ _ => htight 9⟩
  cases harith : e.isArithmetic with
  | true => exact hchain.readsAt.mono (by decide) fun _ _ => .inl harith
  | false => exact htight _ harith

/-- A negative number. -/
lemma exprReads_neg (h : ExprReads 7 e) (he : e.isComparison = false) : ExprReads 7 (.neg e) := by
  have hop : Chunk.Reader.unaryOp? (utf8 "-") = some .neg := by decide
  have hreads : ReadsAt True 9 (Expr.neg e).lexemes (Expr.neg e).Matches := by
    refine (readsAt_unary 9 hop h.readsAt).mono (Nat.le_refl _) ?_
    rintro e' ⟨l, u, hu, rfl⟩
    exact ⟨l, u, hu, rfl⟩
  exact ⟨hreads, fun _ _ => .unary hop (h.chain (by decide) he), fun _ _ _ => hreads⟩

lemma exprReads_pos (h : ExprReads 7 e) (he : e.isComparison = false) : ExprReads 7 (.pos e) :=
  ⟨h.readsAt, fun _ _ => h.chain (by decide) he, fun _ _ _ => h.readsAt⟩

lemma exprReads_or (ha : ExprReads 1 a) (hb : ExprReads 2 b) : ExprReads 1 (.or a b) where
  readsAt := by
    have hop : Chunk.Reader.binaryOp? (utf8 "or") = some (.or, 1, 1) := by decide
    refine (readsAt_binary hop (by decide) ha.readsAt hb.readsAt).mono (Nat.le_refl _) ?_
    rintro e' ⟨l, u, v, hu, hv, rfl⟩
    exact ⟨l, u, v, hu, hv, rfl⟩
  chain hk := absurd hk (by decide)
  tight hk := absurd hk (by decide)

/-- Both of two. -/
lemma exprReads_and (ha : ExprReads 2 a) (hb : ExprReads 3 b) : ExprReads 2 (.and a b) where
  readsAt := by
    have hop : Chunk.Reader.binaryOp? (utf8 "and") = some (.and, 2, 2) := by decide
    refine (readsAt_binary hop (by decide) ha.readsAt hb.readsAt).mono (Nat.le_refl _) ?_
    rintro e' ⟨l, u, v, hu, hv, rfl⟩
    exact ⟨l, u, v, hu, hv, rfl⟩
  chain hk := absurd hk (by decide)
  tight hk := absurd hk (by decide)

/-! ### Lists of expressions -/

/-- What is asked of a list of expressions. -/
def ExprsRead (es : List Expr) : Prop :=
  ∀ e ∈ es, IsExpr True e.lexemes e.Matches

/-- A list of expressions with commas between them. -/
lemma isExprs_lexemesOf {es : List Expr} (hne : es ≠ []) (h : ExprsRead es) :
    IsExprs True (lexemesOf es) (MatchesAll es) := by
  induction es with
  | nil => exact absurd rfl hne
  | cons e es ih =>
    obtain ⟨he, hes⟩ := forall_mem_cons.1 h
    cases es with
    | nil =>
      simp only [lexemesOf, moreLexemesOf, append_nil]
      refine (Chunk.Reader.isExprs_singleton he).mono ?_
      rintro us ⟨u, hu, rfl⟩
      exact ⟨u, [], hu, rfl, rfl⟩
    | cons e' es =>
      simp only [lexemesOf, moreLexemesOf]
      refine (Chunk.Reader.isExprs_cons he (ih (cons_ne_nil _ _) hes)).mono ?_
      rintro us ⟨u, vs, hu, hvs, rfl⟩
      exact ⟨u, vs, hu, hvs, rfl⟩

lemma isArgs_lexemesOf {es : List Expr} (h : ExprsRead es) :
    IsArgs True (inParens (lexemesOf es)) (MatchesAll es) := by
  cases es with
  | nil => exact Chunk.Reader.isArgs_nil
  | cons e es => exact Chunk.Reader.isArgs_exprs (isExprs_lexemesOf (cons_ne_nil _ _) h)

/-- What the reader makes of a call of a name. -/
def CallReads (x : Text) (args : List Expr) : Prop :=
  IsPrimary True (.name x :: inParens (lexemesOf args)) fun e' _ =>
    ∃ l l' us, MatchesAll args us ∧ e' = .call l false (.name l' x) us

lemma callReads (x : Text) {args : List Expr} (h : ExprsRead args) : CallReads x args := by
  refine (isPrimary_call x (isArgs_lexemesOf h)).mono ?_
  rintro e' - ⟨⟨l, _, us, ⟨l', rfl⟩, hus, rfl⟩, -⟩
  exact ⟨l, l', us, hus, rfl⟩

/-! ### Ranges -/

/-- An integer that is written as such. -/
lemma isExpr_intLexemes (n : Int) : IsExpr True (intLexemes n) (MatchesInt n) := by
  have hop : Chunk.Reader.unaryOp? (utf8 "-") = some .neg := by decide
  cases n with
  | ofNat n => exact ((isLiteral_constant (.number _)).isOperand.readsAt 1).isExpr Nat.one_pos
  | negSucc n =>
    refine ((readsAt_unary 1 hop ((isLiteral_constant (.number _)).isOperand.readsAt _)).mono
      (Nat.le_refl _) ?_).isExpr Nat.one_pos
    rintro e' ⟨l, u, ⟨l', rfl⟩, rfl⟩
    exact ⟨l, l', rfl⟩

/-- A single token is an operand. -/
lemma isOperand_of_isToken (he : e.isToken = true) : IsOperand True e.lexemes e.Matches := by
  cases e with
  | int d => exact (isLiteral_constant (.number _)).isOperand
  | str s => exact (isLiteral_constant (.string _)).isOperand
  | bool b => exact (isLiteral_constant (.bool b)).isOperand
  | name x =>
    exact ((isPrimary_name x.text).isSubscriptable ⟨_, rfl, rfl⟩).isOperand.mono fun _ ⟨_, hu, _⟩ => hu
  | _ => cases he

/-- The end of a loop over the range that ends before an expression. -/
lemma isExpr_endLexemes (down : Bool) (h : ExprReads k e) :
    IsExpr True (e.endLexemes down) (e.EndMatches down) := by
  have hop : Chunk.Reader.binaryOp? (utf8 (lastOp down)) =
      some (.arith (if down then .add else .sub), 6, 6) := by
    cases down <;> decide
  have hlast : IsOperand True (if e.isToken then e.lexemes else inParens e.lexemes) fun v =>
      ∃ u, e.Matches u ∧ InParens u v := by
    split
    · exact (isOperand_of_isToken ‹e.isToken = true›).mono fun u hu => ⟨u, hu, .inl rfl⟩
    · refine h.isOperand_inParens.mono ?_
      rintro v ⟨l, u, hu, rfl⟩
      exact ⟨u, hu, .inr ⟨l, rfl⟩⟩
  have hsum : IsExpr True ((if e.isToken then e.lexemes else inParens e.lexemes) ++
      [mark (lastOp down), .number (utf8 "1")]) fun e' => ∃ l l' u v, e.Matches u ∧ InParens u v ∧
        e' = .binary l (.arith (if down then .add else .sub)) v (.constant l' (.number (utf8 "1"))) := by
    refine ((readsAt_binary hop (by decide) (hlast.readsAt 6)
      ((isLiteral_constant (.number (utf8 "1"))).isOperand.readsAt 7)).mono (Nat.le_refl _) ?_).isExpr (by decide)
    rintro e' ⟨l, v, w, ⟨u, hu, huv⟩, ⟨l', rfl⟩, rfl⟩
    exact ⟨l, l', u, v, hu, huv, rfl⟩
  cases e with
  | int d => exact isExpr_intLexemes _
  | _ => exact hsum

/-- What the reader makes of the bounds of a loop. -/
def RangeReads (r : Range) : Prop :=
  ∃ as es cs Q R P, r.lexemes = as ++ mark "," :: (es ++ cs) ∧ IsExpr True as Q ∧ IsExpr True es R ∧ IsStep cs P ∧
    ∀ a b c, Q a → R b → P c → r.Matches a b c

lemma rangeReads_upTo (h : ExprReads k e) : RangeReads (.upTo e) := by
  refine ⟨[.number (utf8 "0")], e.endLexemes false, [], _, _, _, ?_,
    ((isLiteral_constant (.number _)).isOperand.readsAt 1).isExpr Nat.one_pos, isExpr_endLexemes false h,
    Chunk.Reader.isStep_none, fun _ _ _ ha hb hc => ⟨ha, hb, hc⟩⟩
  simp [Range.lexemes]

lemma rangeReads_between (ha : ExprReads k a) (hb : ExprReads k b) : RangeReads (.between a b) := by
  refine ⟨a.lexemes, b.endLexemes false, [], _, _, _, ?_, ha.isExpr, isExpr_endLexemes false hb,
    Chunk.Reader.isStep_none, fun _ _ _ ha hb hc => ⟨ha, hb, hc⟩⟩
  simp [Range.lexemes]

/-- A range with a step. -/
lemma rangeReads_stepped {negated : Bool} {step : Literal} (ha : ExprReads k a) (hb : ExprReads k b)
    (hc : ExprReads k (if negated then .neg (.int step) else .int step)) :
    RangeReads (.stepped a b negated step) := by
  refine ⟨a.lexemes, b.endLexemes negated, mark "," :: stepLexemes negated step, _, _, _, ?_, ha.isExpr,
    isExpr_endLexemes negated hb, Chunk.Reader.isStep_some (P := Expr.Matches _) ?_,
    fun _ _ _ ha hb hc => ⟨ha, hb, hc⟩⟩
  · simp [Range.lexemes]
  · cases negated <;> exact hc.isExpr

/-! ### Statements -/

/-- What the reader makes of a statement. Where it is the last one of its block, it is all of the rest. -/
def StatReads (s : Stat) : Prop :=
  if s.isLast then IsBlock s.lexemes fun b => ∃ t, s.Matches t ∧ b = [t] else IsStat s.lexemes s.Matches

/-- What the reader makes of statements that keep the rules of the fragment. -/
def StatsRead (b : List Stat) : Prop :=
  ∀ s ∈ b, ∀ site inside looped top, s.Allowed site inside looped top → StatReads s

variable {site : Site} {inside : List Name} {looped top : Bool}

/-- A list of statements in which nothing follows a `return` or a `break` is a block. -/
lemma StatsRead.isBlock {b : List Stat} (h : StatsRead b) (hallowed : AllowedIn site inside looped top b) :
    IsBlock (blockLexemes b) (BlockMatches b) := by
  induction b with
  | nil => exact Chunk.Reader.isBlock_nil
  | cons s b ih =>
    obtain ⟨hs, hb⟩ := forall_mem_cons.1 h
    obtain ⟨hsallowed, hlast, hallowed⟩ := hallowed
    have hreads := hs site inside looped top hsallowed
    rw [blockLexemes]
    unfold StatReads at hreads
    split at hreads
    · obtain rfl := hlast ‹s.isLast = true›
      rw [blockLexemes, append_nil]
      refine hreads.mono ?_
      rintro c ⟨t, ht, rfl⟩
      exact ⟨t, [], ht, rfl, rfl⟩
    · refine (hreads.isStats.append_isBlock (ih hb hallowed)).mono ?_
      rintro c ⟨_, c', ⟨t, ht, rfl⟩, hc', rfl⟩
      exact ⟨t, c', ht, hc', rfl⟩

lemma statsRead_of_isStat {s : Stat} (hs : s.isLast = false)
    (h : ∀ site inside looped top, s.Allowed site inside looped top → IsStat s.lexemes s.Matches) :
    StatsRead [s] := by
  intro s' hs' site inside looped top hallowed
  obtain rfl := mem_singleton.1 hs'
  rw [StatReads, if_neg (by simp [hs])]
  exact h site inside looped top hallowed

lemma statsRead_of_isBlock {s : Stat} (hs : s.isLast = true)
    (h : IsBlock s.lexemes fun b => ∃ t, s.Matches t ∧ b = [t]) : StatsRead [s] := by
  intro s' hs' site inside looped top _
  obtain rfl := mem_singleton.1 hs'
  rwa [StatReads, if_pos hs]

/-- A call of a name as a statement. -/
lemma isStat_of_callReads {x : Text} {args : List Expr} (h : ExprsRead args) :
    IsStat (.name x :: inParens (lexemesOf args)) fun s' => ∃ l l' l'' us, MatchesAll args us ∧
      s' = .call l (.call l' false (.name l'' x) us) := by
  have hstat := Chunk.Reader.isStat_call ⟨_, rfl, rfl⟩ (callReads x h) (by
    rintro _ - ⟨l, l', us, -, rfl⟩
    rfl)
  refine hstat.mono ?_
  rintro s' ⟨l, u, -, ⟨l', l'', us, hus, rfl⟩, rfl⟩
  exact ⟨l, l', l'', us, hus, rfl⟩

lemma isStat_assign (x : Name) (h : ExprReads 0 e) :
    IsStat (Stat.assign x e).lexemes (Stat.assign x e).Matches := by
  have hstat := Chunk.Reader.isStat_assign ⟨_, rfl, rfl⟩ (isPrimary_name x.text) (fun _ _ hQ => hQ.2)
    (Chunk.Reader.isExprs_singleton h.isExpr)
  refine hstat.mono ?_
  rintro s' ⟨l, u, -, vs, ⟨⟨l', rfl⟩, -⟩, ⟨v, hv, rfl⟩, rfl⟩
  exact ⟨l, l', v, hv, rfl⟩

lemma nameLexemes_eq_nameList (xs : List Name) :
    nameLexemes xs = Chunk.Reader.nameList (xs.map Name.text) := by
  induction xs with
  | nil => rfl
  | cons x xs ih =>
    cases xs with
    | nil => rfl
    | cons y ys =>
      rw [nameLexemes, ih]
      simp [Chunk.Reader.nameList, Chunk.Reader.commas]

/-- The definition of a function. -/
lemma statsRead_define {f : Name} {params : List Name} (h : StatsRead body) :
    StatsRead [.define f params body] := by
  refine statsRead_of_isStat rfl fun site inside looped top hallowed => ?_
  have hstat := @Chunk.Reader.isStat_define _ _ f.text (params.map Name.text)
    (h.isBlock hallowed.2.2.2)
  rw [Stat.lexemes, nameLexemes_eq_nameList]
  refine hstat.mono ?_
  rintro s' ⟨l, l', last, b, hb, rfl⟩
  exact ⟨l, l', last, b, hb, rfl⟩

lemma statsRead_loop (hcond : ExprReads 0 cond) (h : StatsRead body) : StatsRead [.loop cond body] := by
  refine statsRead_of_isStat rfl fun site inside looped top hallowed => ?_
  refine (Chunk.Reader.isStat_loop hcond.isExpr (h.isBlock hallowed.2)).mono ?_
  rintro s' ⟨l, u, b, hu, hb, rfl⟩
  exact ⟨l, u, b, hu, hb, rfl⟩

/-- A loop over a range. -/
lemma statsRead_count {x : Name} {range : Range} (hrange : RangeReads range) (h : StatsRead body) :
    StatsRead [.count x range body] := by
  refine statsRead_of_isStat rfl fun site inside looped top hallowed => ?_
  obtain ⟨as, es, cs, Q, R, P, hlexemes, ha, he, hc, hmatches⟩ := hrange
  have hstat := Chunk.Reader.isStat_count (x := x.text) ha he hc (h.isBlock hallowed.2.2)
  rw [Stat.lexemes, hlexemes]
  simp only [append_assoc, cons_append] at hstat ⊢
  refine hstat.mono ?_
  rintro s' ⟨l, u, v, w, b, hu, hv, hw, hb, rfl⟩
  exact ⟨l, u, v, w, b, hmatches u v w hu hv hw, hb, rfl⟩

/-- What the reader makes of a conditional that keeps the rules of the fragment. -/
def BranchReads (b : Branch) : Prop :=
  ∀ site inside looped, b.Allowed site inside looped → IsBranches (b.lexemes ++ [mark "end"]) b.Matches

lemma BranchReads.statsRead {b : Branch} (h : BranchReads b) : StatsRead [.branch b] :=
  statsRead_of_isStat rfl fun site inside looped _ hallowed =>
    Chunk.Reader.isStat_branch (h site inside looped hallowed)

/-- A conditional without alternatives. -/
lemma branchReads_only (hcond : ExprReads 0 cond) (h : StatsRead yes) : BranchReads (.only cond yes) := by
  intro site inside looped hallowed line
  have hbranches := Chunk.Reader.isBranches_only hcond.isExpr (h.isBlock hallowed.2) line
  simp only [Branch.lexemes, append_assoc, cons_append]
  refine hbranches.mono ?_
  rintro s' ⟨l, u, b, hu, hb, rfl⟩
  exact ⟨l, u, b, hu, hb, rfl⟩

/-- A conditional with one alternative. -/
lemma branchReads_either {no : List Stat} (hcond : ExprReads 0 cond) (h : StatsRead yes)
    (hno : StatsRead no) : BranchReads (.either cond yes no) := by
  intro site inside looped hallowed line
  have hbranches := Chunk.Reader.isBranches_else hcond.isExpr (h.isBlock hallowed.2.1)
    (hno.isBlock hallowed.2.2) line
  simp only [Branch.lexemes, append_assoc, cons_append]
  refine hbranches.mono ?_
  rintro s' ⟨l, u, b, c, hu, hb, hc, rfl⟩
  exact ⟨l, u, b, c, hu, hb, hc, rfl⟩

/-- A conditional with more conditions. -/
lemma branchReads_chain {next : Branch} (hcond : ExprReads 0 cond) (h : StatsRead yes)
    (hnext : BranchReads next) : BranchReads (.chain cond yes next) := by
  intro site inside looped hallowed line
  have hbranches := Chunk.Reader.isBranches_elseif hcond.isExpr (h.isBlock hallowed.2.1)
    (hnext site inside looped hallowed.2.2) line
  simp only [Branch.lexemes, append_assoc, cons_append]
  refine hbranches.mono ?_
  rintro s' ⟨l, u, b, c, hu, hb, hc, rfl⟩
  exact ⟨l, u, b, c, hu, hb, hc, rfl⟩

/-- A `return`. -/
lemma statsRead_return {value : Option Expr} (h : ExprsRead value.toList) :
    StatsRead [.return value] := by
  cases value with
  | none =>
    refine statsRead_of_isBlock rfl (Chunk.Reader.isBlock_return.mono ?_)
    rintro b ⟨l, rfl⟩
    exact ⟨_, ⟨l, [], rfl, rfl⟩, rfl⟩
  | some e =>
    have hes := isExprs_lexemesOf (cons_ne_nil _ _) h
    refine statsRead_of_isBlock rfl ((Chunk.Reader.isBlock_returnExprs hes).mono ?_)
    rintro b ⟨l, us, hus, rfl⟩
    exact ⟨_, ⟨l, us, hus, rfl⟩, rfl⟩

lemma statsRead_break : StatsRead [.break] := by
  refine statsRead_of_isBlock rfl (Chunk.Reader.isBlock_break.mono ?_)
  rintro b ⟨l, rfl⟩
  exact ⟨_, ⟨l, rfl⟩, rfl⟩

/-! ### Phrases -/

/-- What the reader makes of a phrase. -/
def Phrase.Reads : Phrase → Prop
  | .expr k e => ExprReads k e
  | .args es | .call _ es => ExprsRead es
  | .params _ | .layout => True
  | .range r => RangeReads r
  | .simple b | .stats b | .block b | .otherwise b => StatsRead b
  | .elseIf b => BranchReads b

/-- The reader takes the tokens of a phrase for the phrase. -/
theorem Represents.reads {t : Tree} {φ : Phrase} (h : Represents t φ) : φ.Reads := by
  induction h with
  | int | str | bool | name => exact .of_isOperand (isOperand_of_isToken rfl)
  | paren _ _ _ ih => exact .of_isOperand ih.isOperand_inParens
  | @callExpr t f args _ ih =>
    have hoperand := ((callReads f.text ih).isSubscriptable ⟨_, rfl, rfl⟩).isOperand
    exact .of_isOperand (hoperand.mono fun _ ⟨_, hu⟩ => hu)
  | level _ _ ih => exact ih.level
  | disjunction _ _ _ iht ihu => exact exprReads_or iht ihu
  | conjunction _ _ _ iht ihu => exact exprReads_and iht ihu
  | inversion _ _ ih => exact exprReads_not ih
  | compare _ _ _ iht ihu => exact exprReads_compare iht ihu
  | sum hop ht _ hu iht ihu =>
    refine exprReads_arith (.inl rfl) ?_ iht (ht.isComparison_eq_false (by decide)) ihu
      (hu.isComparison_eq_false (by decide))
    rcases hop with rfl | rfl <;> decide
  | term hop ht _ hu iht ihu =>
    refine exprReads_arith (.inr rfl) ?_ iht (ht.isComparison_eq_false (by decide)) ihu
      (hu.isComparison_eq_false (by decide))
    rcases hop with rfl | rfl <;> decide
  | neg _ hu ih => exact exprReads_neg ih (hu.isComparison_eq_false (by decide))
  | pos _ hu ih => exact exprReads_pos ih (hu.isComparison_eq_false (by decide))
  | argument _ ih => exact forall_mem_singleton.2 ih.isExpr
  | arguments _ _ _ iht ihu => exact forall_mem_append.2 ⟨iht, forall_mem_singleton.2 ihu.isExpr⟩
  | callNothing => exact forall_mem_nil _
  | call _ _ _ _ ih => exact ih
  | @assign x t o u e _ _ _ ih => exact statsRead_of_isStat rfl fun _ _ _ _ _ => isStat_assign x ih
  | callStat _ ih =>
    refine statsRead_of_isStat rfl fun _ _ _ _ _ => (isStat_of_callReads ih).mono ?_
    rintro s' ⟨l, l', l'', us, hus, rfl⟩
    exact ⟨l, _, ⟨l', l'', us, hus, rfl⟩, rfl⟩
  | printNothing => exact statsRead_of_isStat rfl fun _ _ _ _ _ => isStat_of_callReads (forall_mem_nil _)
  | print _ _ _ _ ih => exact statsRead_of_isStat rfl fun _ _ _ _ _ => isStat_of_callReads ih
  | returnNothing => exact statsRead_return (forall_mem_nil _)
  | returnValue _ _ ih => exact statsRead_return (forall_mem_singleton.2 ih.isExpr)
  | breakLoop => exact statsRead_break
  | pass | empty => exact forall_mem_nil _
  | line _ _ ih | compound _ ih | first _ ih | program _ ih | inline _ _ ih | indented _ _ _ _ _ ih
  | otherwise _ _ _ ih => exact ih
  | more _ _ iht ihu => exact forall_mem_append.2 ⟨iht, ihu⟩
  | ifOnly _ _ _ _ iht ihu => exact (branchReads_only iht ihu).statsRead
  | ifElse _ _ _ _ _ iht ihu ihv => exact (branchReads_either iht ihu ihv).statsRead
  | ifElif _ _ _ _ _ iht ihu ihv => exact (branchReads_chain iht ihu ihv).statsRead
  | elif _ _ _ _ iht ihu => exact branchReads_only iht ihu
  | elifElse _ _ _ _ _ iht ihu ihv => exact branchReads_either iht ihu ihv
  | elifElif _ _ _ _ _ iht ihu ihv => exact branchReads_chain iht ihu ihv
  | loop _ _ _ _ iht ihu => exact statsRead_loop iht ihu
  | upTo _ _ _ _ ih => exact rangeReads_upTo ih
  | between _ _ _ _ _ _ iht ihu => exact rangeReads_between iht ihu
  | stepped _ _ _ _ _ _ _ _ iht ihu ihv => exact rangeReads_stepped iht ihu ihv
  | count _ _ _ _ _ _ ihu ihv => exact statsRead_count ihu ihv
  | defineNothing _ _ _ _ _ _ ih | define _ _ _ _ _ _ _ _ ih => exact statsRead_define ih
  | newline | newlines | parameter | parameters => trivial

/-- The Lua text of a core program is read as a chunk that stands for it. -/
theorem exists_read {t : Tree} {p : List Stat} {lua : Text} (h : Represents t (.stats p))
    (hallowed : AllowedProgram p) (hlua : Chunk.Lexes lua (blockLexemes p)) :
    ∃ chunk, Chunk.read lua = .ok chunk ∧ BlockMatches p chunk :=
  Chunk.exists_read_of_isBlock hlua (StatsRead.isBlock h.reads hallowed)

end Core

end Lunify
