import Lunify.Proofs.Grammar.Unambiguous
import Lunify.Proofs.Ranges.Folding
import Lunify.Proofs.Tree.Parts

/-!
# Loops over ranges

A range holds the integers from its start on, in steps, before its end (`range`). The header of a numeric loop
is rendered from the arguments of a range, and Lua evaluates it once. From then on the loop runs its body for
the integers of the range in order (`Lua.Visits`, `executes_count_iff_visits`). Which of the two integers next
to the end is the last one is decided by the text of the step. A loop that counts down by a step other than a
literal goes up to two integers too far.
-/

namespace Lunify

open List

open Chunk (Lexeme mark Lexes Expr Stat)
open Core (integers lastBefore lastOp intLexemes AllLexed IsWord)

/-! ### Ranges -/

/-- How many integers lie from `a` on, in steps of `s`, before `b`. -/
def rangeLength (a b s : Int) : Nat :=
  (if 0 < s then (b - a + s - 1) / s else (a - b - s - 1) / (-s)).toNat

/-- The integers from `a` on, in steps of `s`, before `b`. -/
def range (a b s : Int) : List Int :=
  (List.range (rangeLength a b s)).map fun k : Nat => a + k * s

/-- Whether a range goes on at an integer. -/
def Reaches (a b s : Int) : Prop :=
  0 < s ∧ a < b ∨ s < 0 ∧ b < a

lemma rangeLength_of_reaches {a b s : Int} (h : Reaches a b s) :
    rangeLength a b s = rangeLength (a + s) b s + 1 := by
  rcases h with ⟨hs, hab⟩ | ⟨hs, hab⟩
  · have hdiv : (b - a + s - 1) / s = (b - (a + s) + s - 1) / s + 1 := by
      rw [← Int.add_mul_ediv_right _ 1 hs.ne']
      exact congrArg (· / s) (by omega)
    have hnonneg : 0 ≤ (b - (a + s) + s - 1) / s := Int.ediv_nonneg (by omega) hs.le
    rw [rangeLength, rangeLength, if_pos hs, if_pos hs, hdiv]
    omega
  · have hdiv : (a - b - s - 1) / (-s) = (a + s - b - s - 1) / (-s) + 1 := by
      rw [← Int.add_mul_ediv_right _ 1 (by omega : -s ≠ 0)]
      exact congrArg (· / -s) (by omega)
    have hnonneg : 0 ≤ (a + s - b - s - 1) / (-s) := Int.ediv_nonneg (by omega) (by omega)
    rw [rangeLength, rangeLength, if_neg hs.not_gt, if_neg hs.not_gt, hdiv]
    omega

lemma range_of_reaches {a b s : Int} (h : Reaches a b s) : range a b s = a :: range (a + s) b s := by
  rw [range, rangeLength_of_reaches h, range_succ_eq_map, map_cons, map_map, range]
  refine congrArg₂ cons (by simp) (map_congr_left fun k _ => ?_)
  simp only [Function.comp_apply, Nat.cast_succ, Int.add_mul]
  omega

lemma range_of_not_reaches {a b s : Int} (hs : s ≠ 0) (h : ¬Reaches a b s) : range a b s = [] := by
  have hlength : rangeLength a b s = 0 := by
    unfold Reaches at h
    unfold rangeLength
    split
    · refine Int.toNat_eq_zero.2 (Int.lt_add_one_iff.1 (Int.ediv_lt_of_lt_mul (by omega) (by omega)))
    · refine Int.toNat_eq_zero.2 (Int.lt_add_one_iff.1 (Int.ediv_lt_of_lt_mul (by omega) (by omega)))
  rw [range, hlength]
  rfl

/-! ### Loops -/

namespace Lua

/-- What a loop does that runs its body for the given integers in order. -/
inductive Visits (i : Text) (body : List Stat) : List Int → State Int → Outcome Int → State Int → Prop
  | done {σ : State Int} : Visits i body [] σ .normal σ
  | leave {a : Int} {as : List Int} {σ₀ σ₁ : State Int} {o o' : Outcome Int}
      (hbody : ExecutesAll integers body (σ₀.push i (.number a)) o σ₁) (ho : o.afterLoop = some o') :
      Visits i body (a :: as) σ₀ o' σ₁.pop
  | next {a : Int} {as : List Int} {σ₀ σ₁ σ₂ : State Int} {o : Outcome Int}
      (hbody : ExecutesAll integers body (σ₀.push i (.number a)) .normal σ₁)
      (hrest : Visits i body as σ₁.pop o σ₂) : Visits i body (a :: as) σ₀ o σ₂

/-- Whether an expression has an integer as its value. -/
def Yields (e : Expr) (σ : State Int) (n : Int) (σ' : State Int) : Prop :=
  ∃ vs, Evaluates integers e σ vs σ' ∧ first vs = .number n

lemma yields_iff_of_gives {e : Expr} {m n : Int} {σ σ' : State Int} (h : e.Gives n) :
    Yields e σ m σ' ↔ m = n ∧ σ' = σ := by
  constructor
  · rintro ⟨vs, heval, hvs⟩
    obtain ⟨rfl, rfl⟩ := (h _ _ _).1 heval
    exact ⟨(Chunk.Value.number.inj hvs).symm, rfl⟩
  · rintro ⟨rfl, rfl⟩
    exact ⟨_, (h _ _ _).2 ⟨rfl, rfl⟩, rfl⟩

variable {i : Text} {body : List Stat} {a b s limit : Int} {σ σ' : State Int} {o : Outcome Int}

/-- A loop over numbers visits a range, if it goes on where the range does. -/
lemma counts_iff_visits (hs : s ≠ 0) (hgoes : ∀ c, goesOn integers c limit s = true ↔ Reaches c b s) :
    Counts integers i limit s body a σ o σ' ↔ Visits i body (range a b s) σ o σ' := by
  generalize has : range a b s = as
  induction as generalizing a σ with
  | nil =>
    have hnot : ¬Reaches a b s := fun h => by
      rw [range_of_reaches h] at has
      cases has
    have hfalse : goesOn integers a limit s = false := by rwa [← Bool.not_eq_true, hgoes]
    constructor
    · intro h
      cases h with
      | finish => exact .done
      | leave ha => exact absurd ((hgoes a).1 ha) hnot
      | again ha => exact absurd ((hgoes a).1 ha) hnot
    · rintro ⟨⟩
      exact .finish hfalse
  | cons c as ih =>
    have hreaches : Reaches a b s := by
      by_contra hnot
      rw [range_of_not_reaches hs hnot] at has
      cases has
    rw [range_of_reaches hreaches] at has
    obtain ⟨rfl, hrest⟩ := cons.inj has
    have hon := (hgoes a).2 hreaches
    constructor
    · intro h
      cases h with
      | finish ha => exact absurd (ha.symm.trans hon) Bool.false_ne_true
      | leave _ hbody ho => exact .leave hbody ho
      | again _ hbody hloop => exact .next hbody ((ih hrest).1 hloop)
    · intro h
      cases h with
      | leave hbody ho => exact .leave hon hbody ho
      | next hbody hvisits => exact .again hon hbody ((ih hrest).2 hvisits)

/-- A loop with the integer before the end as its limit. If it counts down to the one before an end that it
counts up to, it goes too far. -/
lemma counts_lastBefore_iff {down : Bool} (hs : s ≠ 0) (hdown : down = true → s ≤ 0) :
    Counts integers i (lastBefore down b) s body a σ o σ' ↔
      Visits i body (range a (if s < 0 ∧ down = false then b - 2 else b) s) σ o σ' := by
  refine counts_iff_visits hs fun c => ?_
  have hlt : integers.lt (integers.ofInt 0) s = decide (0 < s) := rfl
  have hle : ∀ x y, integers.le x y = decide (x ≤ y) := fun _ _ => rfl
  rw [goesOn, hlt, hle, hle, Reaches]
  rcases lt_or_gt_of_ne hs with hneg | hpos
  · cases down <;> simp [hneg, hneg.not_gt, lastBefore] <;> omega
  · obtain rfl : down = false := by
      rw [← Bool.not_eq_true]
      exact fun h => absurd (hdown h) hpos.not_ge
    simp [hpos, hpos.not_gt, lastBefore]

/-- The step of a loop that is given none. -/
def unitStep : Expr :=
  .constant 0 (.number (utf8 "1"))

lemma yields_unitStep {n : Int} : Yields unitStep σ n σ' ↔ n = 1 ∧ σ' = σ := by
  have hone : Text.digitsValue (utf8 "1") = 1 := by decide
  simpa [hone, unitStep] using yields_iff_of_gives (Expr.gives_number 0 (utf8 "1"))

/-- Whether the start, the end and the step of a range have the given integers as their values. -/
def YieldsRange (x y z : Expr) (σ : State Int) (a b s : Int) (σ' : State Int) : Prop :=
  ∃ σ₁ σ₂, Yields x σ a σ₁ ∧ Yields y σ₁ b σ₂ ∧ Yields z σ₂ s σ'

/-- A numeric loop evaluates its start, its limit and its step, and then visits a range. -/
lemma executes_count_iff {x y e : Expr} {step : Option Expr} {line : Int} {down : Bool}
    (hlimit : ∀ σ n σ', Yields y σ n σ' ↔ ∃ b, Yields e σ b σ' ∧ n = lastBefore down b)
    (hdown : down = true → ∀ σ n σ', Yields (step.getD unitStep) σ n σ' → n ≤ 0)
    (hstep : ∀ a b s σ₁, YieldsRange x e (step.getD unitStep) σ a b s σ₁ → s ≠ 0) :
    Executes integers (.count line i x y step body) σ o σ' ↔
      ∃ a b s σ₁, YieldsRange x e (step.getD unitStep) σ a b s σ₁ ∧
        Visits i body (range a (if s < 0 ∧ down = false then b - 2 else b) s) σ₁ o σ' := by
  have hcounts : ∀ {a b s : Int} {σ₁ : State Int}, YieldsRange x e (step.getD unitStep) σ a b s σ₁ →
      (Counts integers i (lastBefore down b) s body a σ₁ o σ' ↔
        Visits i body (range a (if s < 0 ∧ down = false then b - 2 else b) s) σ₁ o σ') := by
    rintro a b s σ₁ hyields
    have hs := hstep a b s σ₁ hyields
    obtain ⟨_, _, -, -, hz⟩ := hyields
    exact counts_lastBefore_iff hs fun h => hdown h _ _ _ hz
  constructor
  · intro h
    cases h with
    | @count _ _ _ _ _ _ σ₁ σ₂ _ _ _ a _ _ hx hy ha hb hloop =>
      obtain ⟨b, he, rfl⟩ := (hlimit _ _ _).1 ⟨_, hy, hb⟩
      have hyields : YieldsRange x e unitStep σ a b 1 σ₂ := ⟨σ₁, σ₂, ⟨_, hx, ha⟩, he, yields_unitStep.2 ⟨rfl, rfl⟩⟩
      exact ⟨a, b, 1, σ₂, hyields, (hcounts hyields).1 hloop⟩
    | @countBy _ _ _ _ _ _ _ σ₁ σ₂ σ₃ _ _ _ _ a _ s _ hx hy hz ha hb hc hloop =>
      obtain ⟨b, he, rfl⟩ := (hlimit _ _ _).1 ⟨_, hy, hb⟩
      have hyields : YieldsRange x e _ σ a b s σ₃ := ⟨σ₁, σ₂, ⟨_, hx, ha⟩, he, ⟨_, hz, hc⟩⟩
      exact ⟨a, b, s, σ₃, hyields, (hcounts hyields).1 hloop⟩
  · rintro ⟨a, b, s, σ₁, hyields, hvisits⟩
    have hloop := (hcounts hyields).2 hvisits
    obtain ⟨_, _, ⟨_, hx, ha⟩, he, hz⟩ := hyields
    obtain ⟨_, hy, hb⟩ := (hlimit _ _ _).2 ⟨b, he, rfl⟩
    cases step with
    | none =>
      obtain ⟨rfl, rfl⟩ := yields_unitStep.1 hz
      exact .count hx hy ha hb hloop
    | some z =>
      obtain ⟨_, hz, hc⟩ := hz
      exact .countBy hx hy hz ha hb hc hloop

end Lua

/-! ### Headers -/

/-- Whether a Lua text as a whole is read as the given expressions. -/
def Chunk.AreReadAs (s : Text) (xs : List Expr) : Prop :=
  ∃ fuel rest, Reader.exprs fuel (tokens s) = .ok (xs, rest) ∧ Reader.next rest = .finish

namespace Tree

open Grammar
open Chunk.Reader

variable {s : String} {r t u v : Tree} {ls : List Lexeme} {xs : List Expr}

/-- The arguments of a range. -/
def arguments (r : Tree) : List Tree :=
  r.children.filter (Tree.is expressionLabel)

/-- The operators of the start, the end and the step that the arguments of a range are. -/
def rangeTrees : List Tree → List OperatorTree
  | [b] => [.leaf (.number (utf8 "0")), b.operatorTree, .leaf (.number (utf8 "1"))]
  | [a, b] => [a.operatorTree, b.operatorTree, .leaf (.number (utf8 "1"))]
  | args => args.map operatorTree

/-- Whether the step among the arguments of a range is a number after a minus sign. -/
def stepsDown : List Tree → Bool
  | [_, _, c] => Plan.isNegative c
  | _ => false

/-- A number after a minus sign, as an expression. -/
lemma operatorTree_of_isNegative (ht : t.IsDerivation builtin) (hlabel : t.label = expressionLabel)
    (hlexed : AllLexed t) (hneg : Plan.isNegative t = true) :
    ∃ x, t.operatorTree = .node (utf8 "-") [.leaf (.number x)] := by
  unfold Plan.isNegative at hneg
  split at hneg
  · rename_i minus n hleaves
    obtain ⟨hcontent, hkind⟩ : minus.content = utf8 "-" ∧ n.kind = .number := by simpa using hneg
    have hnumeral := hlexed n (by simp [hleaves])
    have hminus := hlexed minus (by simp [hleaves])
    simp only [Token.Lexed, hkind] at hnumeral
    have hoperator : minus.kind = .operator := by
      have hsign : utf8 "-" ∉ reservedWords ∧ utf8 "-" ∈ operatorTexts ∧ utf8 "-" ∉ dividerTexts := by decide
      unfold Token.Lexed at hminus
      rw [hcontent] at hminus
      split at hminus
      · exact absurd hminus hsign.1
      · assumption
      · exact absurd hsign.2.1 hminus.2.2
      · exact absurd hminus (not_isNumeral_of_sign (by decide))
      · exact absurd hminus hsign.2.2
      · obtain ⟨q, r, hcons, hq, -⟩ := hminus
        obtain ⟨rfl, -⟩ := cons.inj hcons
        exact absurd hq (by decide)
      · exact hminus.elim
    let within : List String → Tree → Tree := fun labels t => labels.foldr (fun l t => .node (utf8 l) [t]) t
    let e := within ["<expression>", "<disjunction>", "<conjunction>", "<inversion>", "<comparison>", "<sum>",
      "<term>"] (.node (utf8 "<factor>") [.leaf (utf8 "-") minus, within ["<factor>", "<power>", "<primary>",
        "<atom>"] (.node numberSymbol [.leaf numberSymbol n])])
    have hlexeme : n.luaLexeme = .number (Chunk.scannedNumber n.content) :=
      luaLexeme_category (s := "<Number>") (by decide) (by simp [Token.symbol, hkind, numberSymbol])
        (hlexed n (by simp [hleaves])) (.number hnumeral)
    obtain ⟨kind, content, pos⟩ := minus
    obtain ⟨kind', content', pos'⟩ := n
    cases hoperator
    cases hcontent
    cases hkind
    have he : e.IsDerivation builtin := e.isDerivation_of_follows rfl
    obtain ⟨r, hr, hlhs, -⟩ := exists_mem_builtin (show ("<expression>", [["<disjunction>"]]) ∈ builtinTable by decide) (mem_singleton_self _)
    obtain rfl : t = e := unique_builtin hr ht he (hlabel.trans hlhs.symm) hlhs.symm hleaves
    refine ⟨Chunk.scannedNumber content', ?_⟩
    simp only [e, within, foldr_cons, foldr_nil, operatorTree, operatorTrees, hlexeme]
    rfl
  · cases hneg
/-- The limit of a loop is the integer before the end of its range. -/
def IsLimit (down : Bool) (e y : Expr) : Prop :=
  ∀ σ n σ', Lua.Yields y σ n σ' ↔ ∃ b, Lua.Yields e σ b σ' ∧ n = lastBefore down b

lemma isLimit_of_gives {down : Bool} {e y : Expr} {n : Int} (he : e.Gives n) (hy : y.Gives (lastBefore down n)) :
    IsLimit down e y := by
  simp [IsLimit, Lua.yields_iff_of_gives he, Lua.yields_iff_of_gives hy, and_comm]

/-- An expression with the step to the integer before its value. -/
lemma exists_isLimit_of_lastOp {down : Bool} {y : Expr} {T : OperatorTree}
    (h : y.operatorTree = .node (utf8 (lastOp down)) [T, .leaf (.number (utf8 "1"))]) :
    ∃ e : Expr, e.operatorTree = T ∧ IsLimit down e y := by
  obtain ⟨l, e, z, rfl, he, hz⟩ := Expr.eq_of_operatorTree_lastOp h
  have hone : Text.digitsValue (utf8 "1") = 1 := by decide
  have hgives : z.Gives 1 := by simpa [hone] using Chunk.gives_of_operatorTree_number hz
  refine ⟨e, he, fun σ n σ' => ⟨?_, ?_⟩⟩
  · rintro ⟨vs, heval, hvs⟩
    cases heval with
    | @binary _ _ _ _ _ _ _ us ws v hx hy hop =>
      obtain ⟨rfl, rfl⟩ := (hgives _ _ _).1 hy
      cases hfirst : Lua.first us with
      | number b =>
        refine ⟨b, ⟨us, hx, hfirst⟩, ?_⟩
        rw [hfirst] at hop
        obtain rfl := Option.some.inj hop
        obtain rfl := Chunk.Value.number.inj hvs
        cases down <;> rfl
      | _ => simp [hfirst, Lua.binary?, Chunk.Value.asNumber, integers] at hop
    | choiceShort _ hop => cases down <;> simp at hop
    | choiceLong _ hop => cases down <;> simp at hop
  · rintro ⟨b, ⟨us, hx, hfirst⟩, rfl⟩
    refine ⟨_, .binary hx ((hgives σ' _ _).2 ⟨rfl, rfl⟩) (by rw [hfirst]; rfl), ?_⟩
    cases down <;> rfl

/-- The end of a loop means the integer before the end of the range. -/
lemma Spelled.exists_isLimit (h : Spelled True "<expression>" u ls) (htame : IsTame u) (hu : u.IsDerivation builtin)
    (hmax : ∀ tok ∈ u.leaves, Plan.integer? tok.content ≠ some (2 ^ 63 - 1)) (down : Bool) :
    ∃ k T, 0 < k ∧ Means k T (endLexemes u ls down) ∧
      ∀ y : Expr, y.operatorTree = T → ∃ e : Expr, e.operatorTree = u.operatorTree ∧ IsLimit down e y := by
  have hmeans : Means u.strength u.operatorTree ls := h.hasMeaning htame
  have hother : ∀ {k : Nat} {ks : List Lexeme}, Means k u.operatorTree ks → 6 ≤ k → ∃ k' T, 0 < k' ∧
      Means k' T (ks ++ [mark (lastOp down), .number (utf8 "1")]) ∧
      ∀ y : Expr, y.operatorTree = T → ∃ e : Expr, e.operatorTree = u.operatorTree ∧ IsLimit down e y :=
    fun hks hk => ⟨6, _, by decide, Chunk.means_lastOp hks hk down, fun _ => exists_isLimit_of_lastOp⟩
  have hparens := hother (means_inParens hmeans u.strength_pos) (by decide)
  unfold endLexemes
  match hleaves : u.leaves with
  | [] => exact hparens
  | _ :: _ :: _ => exact hparens
  | [tok] =>
    have hlexed : AllLexed u := htame.plain.allLexed
    obtain ⟨hstrength, l, rfl, htree, hword⟩ := h.of_leaves_singleton (by decide) hlexed hu hleaves
    have hplain := hother hmeans (by simp [hstrength])
    by_cases hkind : tok.kind = .number
    · simp only [hkind, if_true]
      cases hv : Plan.integer? tok.content with
      | none => exact hplain
      | some v =>
        obtain ⟨hne, hdigits, rfl, hlimit⟩ := integer?_spec hkind (hlexed tok (by simp [hleaves])) hv
        obtain rfl := isWord_unique (hword hkind) (Chunk.isWord_of_isDigit hne hdigits)
        have hfits := (bmod_lastBefore_eq_iff (Int.natCast_nonneg _) hlimit down).2
          fun hlast => hmax tok (by simp [hleaves]) (by rw [hv, hlast.2])
        obtain ⟨k, hk, hint⟩ := Chunk.exists_means_intTree (lastBefore down (Text.digitsValue tok.content))
        rw [← hfits] at hint
        refine ⟨k, _, hk, hint, fun y hy => ⟨.constant 0 (.number _), htree.symm, ?_⟩⟩
        rw [hfits] at hy
        have hgives := Expr.gives_number 0 (Chunk.scannedDigits tok.content)
        rw [Core.digitsValue_scannedDigits] at hgives
        exact isLimit_of_gives hgives (Chunk.gives_of_operatorTree_int hy)
    · simp only [hkind, if_false]
      exact hplain

/-! ### Reading headers -/

/-- Expressions that are read from a text with commas have the operators that its parts mean. -/
lemma forall₂_of_areReadAs {out : Text} {Ts : List OperatorTree} {lss : List (List Lexeme)}
    (h : Forall₂ (fun T ls => ∃ n, 0 < n ∧ Means n T ls) Ts lss) (hne : lss ≠ [])
    (hlexes : Lexes out (commas lss)) (hread : Chunk.AreReadAs out xs) :
    Forall₂ (fun T x => Expr.operatorTree x = T) Ts xs := by
  obtain ⟨fuel, rest, hread, hfinish⟩ := hread
  have hexprs := isExprs_commas (h.imp fun _ _ ⟨_, hn, hmeans⟩ => hmeans.isExpr hn) hne
  exact of_reads hexprs.reads ⟨⟨⟨rfl, .inr (.inl rfl)⟩, rfl⟩, Lexeme.noConfusion⟩ hlexes hread hfinish

/-- The expressions of a header. -/
lemma exists_limit_of_areReadAs {header : Text} {T : OperatorTree} {Us : List OperatorTree} {ks : List Lexeme}
    {mss : List (List Lexeme)} {down : Bool} (hks : ∃ n, 0 < n ∧ Means n T ks)
    (hu : Spelled True "<expression>" u ls) (htame : IsTame u) (hderivation : u.IsDerivation builtin)
    (hmax : ∀ tok ∈ u.leaves, Plan.integer? tok.content ≠ some (2 ^ 63 - 1))
    (hmss : Forall₂ (fun T ls => ∃ n, 0 < n ∧ Means n T ls) Us mss)
    (hlexes : Lexes header (commas (ks :: endLexemes u ls down :: mss)))
    (hread : Chunk.AreReadAs header xs) :
    ∃ x y zs e, xs = x :: y :: zs ∧ Expr.operatorTree x = T ∧ Expr.operatorTree e = u.operatorTree ∧
      IsLimit down e y ∧ Forall₂ (fun T x => Expr.operatorTree x = T) Us zs := by
  obtain ⟨k, U, hk, hmeans, hlimit⟩ := hu.exists_isLimit htame hderivation hmax down
  have hall := forall₂_of_areReadAs (.cons hks (.cons ⟨k, hk, hmeans⟩ hmss)) (cons_ne_nil _ _) hlexes hread
  obtain ⟨x, _, hx, hrest, rfl⟩ := forall₂_cons_left_iff.1 hall
  obtain ⟨y, zs, hy, hzs, rfl⟩ := forall₂_cons_left_iff.1 hrest
  obtain ⟨e, he, hlimit⟩ := hlimit y hy
  exact ⟨x, y, zs, e, rfl, hx, he, hlimit, hzs⟩

/-- A number after a minus sign is not positive. -/
lemma nonpos_of_isNegative {z : Expr} {σ σ' : Lua.State Int} {n : Int} (hv : v.IsDerivation builtin)
    (hlabel : v.label = expressionLabel) (hlexed : AllLexed v) (hneg : Plan.isNegative v = true)
    (hz : z.operatorTree = v.operatorTree) (hn : Lua.Yields z σ n σ') : n ≤ 0 := by
  obtain ⟨x, hx⟩ := operatorTree_of_isNegative hv hlabel hlexed hneg
  obtain ⟨l, y, rfl, hy⟩ := Expr.eq_of_operatorTree_neg (hz.trans hx)
  obtain ⟨rfl, -⟩ := (Lua.yields_iff_of_gives ((Chunk.gives_of_operatorTree_number hy).neg l)).1 hn
  omega

/-- What the header of a loop over a range is read as. -/
lemma IsRange.exists_header {header : Text} (h : IsRange True r ls) (htame : IsTame r) (hr : r.IsDerivation builtin)
    (hmax : ∀ tok ∈ r.leaves, Plan.integer? tok.content ≠ some (2 ^ 63 - 1)) (hlexes : Lexes header ls)
    (hread : Chunk.AreReadAs header xs) :
    ∃ (start limit finish : Expr) (step : Option Expr), xs = start :: limit :: step.toList ∧
      [start.operatorTree, finish.operatorTree, (step.getD Lua.unitStep).operatorTree] = rangeTrees r.arguments ∧
      IsLimit (stepsDown r.arguments) finish limit ∧ (stepsDown r.arguments = true →
        ∀ σ n σ', Lua.Yields (step.getD Lua.unitStep) σ n σ' → n ≤ 0) := by
  have hmeans : ∀ {t : Tree} {ls : List Lexeme}, Spelled True "<expression>" t ls → IsTame t →
      ∃ n, 0 < n ∧ Means n t.operatorTree ls := fun ht htame => ⟨_, strength_pos _, ht.hasMeaning htame⟩
  obtain ⟨ts, rfl⟩ : ∃ ts, r = .node (utf8 "<range>") ts := by cases h <;> exact ⟨_, rfl⟩
  have hchild : ∀ t ∈ ts, IsTame t ∧ t.IsDerivation builtin ∧
      ∀ tok ∈ t.leaves, Plan.integer? tok.content ≠ some (2 ^ 63 - 1) := fun t ht =>
    ⟨htame.child ht, isDerivation_child hr (by decide) ht, fun tok htok => hmax tok (mem_leaves_of_mem ht htok)⟩
  cases h with
  | @upTo k a t b ls hk ha ht hb =>
    obtain ⟨htame, hderivation, hmax⟩ := hchild t (by simp)
    have hargs : arguments (.node (utf8 "<range>") [k, a, t, b]) = [t] := by
      simp [arguments, children, hk.is_expressionLabel, ha.is_expressionLabel, hb.is_expressionLabel,
        show t.is expressionLabel = true from decide_eq_true ht.label]
    obtain ⟨x, y, zs, e, rfl, hx, he, hlimit, hzs⟩ := exists_limit_of_areReadAs
      ⟨10, by decide, Chunk.means_number (utf8 "0")⟩ ht htame hderivation hmax .nil
      (by simpa [commas] using hlexes) hread
    obtain rfl := forall₂_nil_left_iff.1 hzs
    rw [hargs]
    exact ⟨x, y, e, none, rfl, by rw [hx, he]; rfl, hlimit, fun h => absurd h Bool.false_ne_true⟩
  | @between k a t c u b ks ls hk ha ht hc hu hb =>
    obtain ⟨htame, hderivation, hmax⟩ := hchild u (by simp)
    have hargs : arguments (.node (utf8 "<range>") [k, a, t, c, u, b]) = [t, u] := by
      simp [arguments, children, hk.is_expressionLabel, ha.is_expressionLabel, hb.is_expressionLabel,
        hc.is_expressionLabel, show t.is expressionLabel = true from decide_eq_true ht.label,
        show u.is expressionLabel = true from decide_eq_true hu.label]
    obtain ⟨x, y, zs, e, rfl, hx, he, hlimit, hzs⟩ := exists_limit_of_areReadAs
      (hmeans ht (hchild t (by simp)).1) hu htame hderivation hmax .nil
      (by simpa [commas] using hlexes) hread
    obtain rfl := forall₂_nil_left_iff.1 hzs
    rw [hargs]
    exact ⟨x, y, e, none, rfl, by rw [hx, he]; rfl, hlimit, fun h => absurd h Bool.false_ne_true⟩
  | @stepped k a t c u d v b ks ls ms hk ha ht hc hu hd hv hb =>
    obtain ⟨htame, hderivation, hmax⟩ := hchild u (by simp)
    obtain ⟨htame', hderivation', -⟩ := hchild v (by simp)
    have hargs : arguments (.node (utf8 "<range>") [k, a, t, c, u, d, v, b]) = [t, u, v] := by
      simp [arguments, children, hk.is_expressionLabel, ha.is_expressionLabel, hb.is_expressionLabel,
        hc.is_expressionLabel, hd.is_expressionLabel, show t.is expressionLabel = true from decide_eq_true ht.label,
        show u.is expressionLabel = true from decide_eq_true hu.label,
        show v.is expressionLabel = true from decide_eq_true hv.label]
    obtain ⟨x, y, zs, e, rfl, hx, he, hlimit, hzs⟩ := exists_limit_of_areReadAs
      (hmeans ht (hchild t (by simp)).1) hu htame hderivation hmax (.cons (hmeans hv htame') .nil)
      (by simpa [commas] using hlexes) hread
    obtain ⟨z, _, hz, hnil, rfl⟩ := forall₂_cons_left_iff.1 hzs
    obtain rfl := forall₂_nil_left_iff.1 hnil
    rw [hargs]
    exact ⟨x, y, e, some z, rfl, by rw [hx, he, Option.getD_some, hz]; rfl, hlimit,
      fun hneg σ n σ' => nonpos_of_isNegative hderivation' hv.label htame'.plain.allLexed hneg hz⟩

end Tree

open Tree

end Lunify
