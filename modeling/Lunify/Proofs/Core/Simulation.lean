import Lunify.Proofs.Core.Related

/-!
# Lua runs as the core program does

Every step of a core program is followed by the Lua program that it is read as. The proof is by induction
on the fuel of the core program, with one statement for each of its functions (`Core.EvalSim`,
`Core.ExecSim` and so on), and each is proved from those with one unit of fuel less. The result for a
whole program is `Core.lua_prints`.
-/

namespace Lunify

open List

namespace Core

open Chunk (Numerals)

variable {ν : Type}

variable {α β : Type} {σ σ' : Lua.State ν} {s s' : State} {e : Expr} {u : Chunk.Expr}

lemma bind_eq_some {x : Option α} {f : α → Option β} {b : β} :
    (x >>= f) = some b ↔ ∃ a, x = some a ∧ f a = some b :=
  Option.bind_eq_some_iff

lemma pure_eq_some {a c : α} {b d : β} :
    (pure (a, b) : Option (α × β)) = some (c, d) ↔ a = c ∧ b = d := by
  simp

/-- What a Lua expression may give for a value: the value, or nothing instead of `None`. -/
def Gives (IsInt : ν → Int → Prop) (v : Value) (vs : List (Chunk.Value ν)) : Prop :=
  (∃ w, vs = [w] ∧ Same IsInt v w) ∨ (v = .none ∧ vs = [])

section Values

variable {N : Numerals ν} {IsInt : ν → Int → Prop} {v : Value} {vs : List (Chunk.Value ν)}

variable {b : Bool}

lemma gives_singleton {w : Chunk.Value ν} (h : Same IsInt v w) : Gives IsInt v [w] :=
  .inl ⟨w, rfl, h⟩

lemma Gives.same (h : Gives IsInt v vs) : Same IsInt v (Lua.first vs) := by
  rcases h with ⟨w, rfl, hw⟩ | ⟨rfl, rfl⟩
  · exact hw
  · exact .none

lemma Gives.first (h : Gives IsInt v vs) : Gives IsInt v [Lua.first vs] :=
  gives_singleton h.same

lemma Gives.int {n : Int} (h : Gives IsInt v vs) (hn : v.int? = some n) :
    ∃ x, Lua.first vs = .number x ∧ IsInt x n ∧ Fits n := by
  generalize Lua.first vs = w, h.same = hw
  cases hw with
  | int hx hfits =>
    obtain rfl := Option.some.inj hn
    exact ⟨_, rfl, hx, hfits⟩
  | _ => simp [Value.int?] at hn

lemma Gives.truth (h : Gives IsInt v vs) (hb : v.truth? = some b) : Lua.first vs = .bool b := by
  generalize Lua.first vs = w, h.same = hw
  cases hw with
  | bool c =>
    obtain rfl := Option.some.inj hb
    rfl
  | _ => simp [Value.truth?] at hb

lemma Gives.bool (h : Gives IsInt v vs) (hb : v.truth? = some b) :
    Gives IsInt (.bool b) [Lua.first vs] :=
  gives_singleton (h.truth hb ▸ .bool b)

lemma Gives.isTrue (h : Gives IsInt v vs) (hb : v.truth? = some b) : (Lua.first vs).isTrue = b := by
  rw [h.truth hb]
  cases b <;> rfl

/-- Parentheses leave one value. -/
lemma evaluates_parenthesized {e : Chunk.Expr} (l : Int) (h : Lua.Evaluates N e σ vs σ')
    (hgives : Gives IsInt v vs) :
    ∃ ws, Lua.Evaluates N (e.parenthesized l) σ ws σ' ∧ Gives IsInt v ws := by
  cases h with
  | constant => exact ⟨_, .constant, hgives⟩
  | name => exact ⟨_, .name, hgives⟩
  | @call l' single _ _ _ _ _ _ _ _ rs hf hargs hcall =>
    cases single with
    | true => exact ⟨_, .call hf hargs hcall, hgives⟩
    | false => exact ⟨_, .call hf hargs hcall, hgives.first⟩
  | binary ha hb hop => exact ⟨_, .binary ha hb hop, hgives⟩
  | unary he hop => exact ⟨_, .unary he hop, hgives⟩
  | choiceShort ha hop => exact ⟨_, .choiceShort ha hop, hgives⟩
  | choiceLong ha hop hb => exact ⟨_, .choiceLong ha hop hb, hgives⟩

lemma evaluates_inParens {e e' : Chunk.Expr} (hparens : InParens e e') (h : Lua.Evaluates N e σ vs σ')
    (hgives : Gives IsInt v vs) :
    ∃ ws, Lua.Evaluates N e' σ ws σ' ∧ Gives IsInt v ws := by
  rcases hparens with rfl | ⟨l, rfl⟩
  · exact ⟨vs, h, hgives⟩
  · exact evaluates_parenthesized l h hgives

end Values

lemma Value.int?_eq_some {v : Value} {n : Int} (h : v.int? = some n) : v = .int n := by
  cases v <;> simp_all [Value.int?]

/-- An operator gives an integer. -/
lemma Arith.result?_eq_some {op : Arith} {m n : Int} {v : Value} (h : op.result? m n = some v) :
    ∃ k, v = .int k := by
  have hofInt : ∀ {k : Int}, Value.ofInt? k = some v → ∃ k, v = .int k := by
    intro k hk
    unfold Value.ofInt? at hk
    split at hk
    · exact ⟨k, (Option.some.inj hk).symm⟩
    · exact absurd hk (by simp)
  cases op with
  | mod =>
    by_cases hn : n = 0
    · simp [Arith.result?, hn] at h
    · rw [Arith.result?, if_neg hn] at h
      exact hofInt h
  | _ => exact hofInt h

/-- Arithmetic gives no truth value, so that it cannot be negated. -/
lemma truth?_eval_arithmetic {n : Nat} {e : Expr} {s s' : State} {v : Value}
    (he : e.isArithmetic = true) (h : eval n e s = some (v, s')) : v.truth? = none := by
  cases n with
  | zero => simp [eval] at h
  | succ n =>
    cases e with
    | arith op a b =>
      simp only [eval, bind_eq_some, Prod.exists, pure_eq_some] at h
      obtain ⟨-, -, -, -, -, -, m₁, -, m₂, -, r, hr, rfl, -⟩ := h
      obtain ⟨k, rfl⟩ := Arith.result?_eq_some hr
      rfl
    | not e =>
      simp only [eval, bind_eq_some, Prod.exists, pure_eq_some] at h
      obtain ⟨w, t, hw, b, hb, -, -⟩ := h
      rw [truth?_eval_arithmetic (e := e) he hw] at hb
      cases hb
    | _ => simp [Expr.isArithmetic] at he

lemma Site.reads_append {t : Site} {inside xs ys : List Name} :
    t.Reads inside (xs ++ ys) ↔ t.Reads inside xs ∧ t.Reads inside ys :=
  forall_mem_append

/-- What stands at the same place in related lists. -/
lemma exists_getElem?_of_forall₂ {R : α → β → Prop} {l : List α} {l' : List β} (h : List.Forall₂ R l l')
    {i : Nat} {a : α} (ha : l[i]? = some a) :
    ∃ b, l'[i]? = some b ∧ R a b := by
  induction h generalizing i with
  | nil => simp at ha
  | @cons x y l l' hxy _ ih =>
    cases i with
    | zero =>
      obtain rfl : x = a := by simpa using ha
      exact ⟨y, rfl, hxy⟩
    | succ i => exact ih (by simpa using ha)

mutual

/-- Loop variables are bound. -/
lemma Stat.loopVariables_subset : ∀ (t : Stat), ∀ x ∈ t.loopVariables, x ∈ t.bound
  | .branch b, x, hx => Branch.loopVariables_subset b x hx
  | .loop _ body, x, hx => loopVariablesOf_subset body x hx
  | .count y _ body, x, hx => by
    rcases mem_cons.1 hx with rfl | hx
    · exact mem_cons_self
    · exact mem_cons_of_mem y (loopVariablesOf_subset body x hx)
  | .assign _ _, x, hx | .call _ _, x, hx | .print _, x, hx | .return _, x, hx | .break, x, hx
  | .define _ _ _, x, hx => by simp [Stat.loopVariables] at hx

/-- Loop variables of a conditional are bound. -/
lemma Branch.loopVariables_subset : ∀ (b : Branch), ∀ x ∈ b.loopVariables, x ∈ b.bound
  | .only _ yes, x, hx => loopVariablesOf_subset yes x hx
  | .either _ yes no, x, hx => by
    rcases mem_append.1 hx with hx | hx
    · exact mem_append_left _ (loopVariablesOf_subset yes x hx)
    · exact mem_append_right _ (loopVariablesOf_subset no x hx)
  | .chain _ yes next, x, hx => by
    rcases mem_append.1 hx with hx | hx
    · exact mem_append_left _ (loopVariablesOf_subset yes x hx)
    · exact mem_append_right _ (Branch.loopVariables_subset next x hx)

lemma loopVariablesOf_subset : ∀ (b : List Stat), ∀ x ∈ loopVariablesOf b, x ∈ boundOf b
  | [], x, hx => hx
  | t :: b, x, hx => by
    rcases mem_append.1 hx with hx | hx
    · exact mem_append_left _ (Stat.loopVariables_subset t x hx)
    · exact mem_append_right _ (loopVariablesOf_subset b x hx)

end

lemma Literal.fits (d : Literal) : Fits d.value := by
  have hsmall : (d.value : Int) < limit := Int.ofNat_lt.2 d.small
  have hlimit : (0 : Int) < limit := by decide
  exact ⟨by omega, hsmall⟩

lemma eval_int {n : Nat} {d : Literal} {v : Value} (h : eval n (.int d) s = some (v, s')) :
    v = .int d.value ∧ s' = s := by
  cases n with
  | zero => simp [eval] at h
  | succ n =>
    simp only [eval, Option.some.injEq, Prod.mk.injEq] at h
    exact ⟨h.1.symm, h.2.symm⟩

lemma endMatches_of_ne {down : Bool} (he : ∀ d, e ≠ .int d) (h : e.EndMatches down u) :
    ∃ l l' v w, e.Matches v ∧ InParens v w ∧
      u = .binary l (.arith (if down then .add else .sub)) w (.constant l' (.number (utf8 "1"))) := by
  cases e with
  | int d => exact absurd rfl (he d)
  | _ => exact h

/-! ### Statements of the simulation -/

section Statements

variable (N : Numerals ν) (IsInt : ν → Int → Prop)

/-- An expression gives the same value. -/
def EvalSim (n : Nat) : Prop :=
  ∀ {e u c s σ v s'}, e.Matches u → c.site.Reads c.inside e.names → Related IsInt c s σ →
    eval n e s = some (v, s') →
    ∃ vs σ', Lua.Evaluates N u σ vs σ' ∧ Gives IsInt v vs ∧ Related IsInt c s' σ'

/-- A call gives the same value. -/
def CallSim (n : Nat) : Prop :=
  ∀ {f args u c s σ v s'}, (Expr.call f args).Matches u →
    c.site.Reads c.inside (f :: namesOf args) → Related IsInt c s σ →
    call n f args s = some (v, s') →
    ∃ vs σ', Lua.Evaluates N u σ vs σ' ∧ Gives IsInt v vs ∧ Related IsInt c s' σ'

/-- A list of expressions gives the same values. -/
def EvalAllSim (n : Nat) : Prop :=
  ∀ {es us c s σ vs s'}, MatchesAll es us → c.site.Reads c.inside (namesOf es) →
    Related IsInt c s σ → evalAll n es s = some (vs, s') →
    ∃ ws σ', Lua.EvaluatesAll N us σ ws σ' ∧ SameAll IsInt vs ws ∧ Related IsInt c s' σ'

/-- A function gives the same value for the same arguments. -/
def ApplySim (n : Nat) : Prop :=
  ∀ {f g vs ws c s σ v s'}, Same IsInt f g → SameAll IsInt vs ws → Related IsInt c s σ →
    apply n f vs s = some (v, s') →
    ∃ rs σ', Lua.Calls N g ws σ rs σ' ∧ Gives IsInt v rs ∧ Related IsInt c s' σ'

/-- How a statement may end in Lua. -/
def SameOutcome : Outcome → Lua.Outcome ν → Prop
  | .normal, .normal => True
  | .broke, .broke => True
  | .returned v, .returned vs => Gives IsInt v vs
  | _, _ => False

/-- Whether functions can be defined: only at program level, outside of all loops. -/
def Context.Top (c : Context) (top : Bool) : Prop :=
  top = true → c.inside = [] ∧ c.site.params? = none

/-- What is asked of a part of a program: the rules of the fragment hold, and its loop variables are
the site's own. -/
structure Runs (c : Context) (looped top : Bool) (b : List Stat) : Prop where
  allowed : AllowedIn c.site c.inside looped top b
  loops : ∀ x ∈ loopVariablesOf b, x ∈ c.site.own
  top : c.Top top

/-- A list of statements does the same. -/
def ExecAllSim (n : Nat) : Prop :=
  ∀ {b b' c looped top s σ o s'}, BlockMatches b b' → Runs c looped top b → Related IsInt c s σ →
    execAll n b s = some (o, s') →
    ∃ o' σ', Lua.ExecutesAll N b' σ o' σ' ∧ SameOutcome IsInt o o' ∧ Related IsInt c s' σ'

/-- A statement does the same. -/
def ExecSim (n : Nat) : Prop :=
  ∀ {t t' c looped top s σ o s'}, t.Matches t' → t.Allowed c.site c.inside looped top →
    (∀ x ∈ t.loopVariables, x ∈ c.site.own) → c.Top top → Related IsInt c s σ →
    exec n t s = some (o, s') →
    ∃ o' σ', Lua.Executes N t' σ o' σ' ∧ SameOutcome IsInt o o' ∧ Related IsInt c s' σ'

/-- A conditional does the same. -/
def BranchSim (n : Nat) : Prop :=
  ∀ {b t' c looped s σ o s'}, b.Matches t' → b.Allowed c.site c.inside looped →
    (∀ x ∈ b.loopVariables, x ∈ c.site.own) → Related IsInt c s σ →
    execBranch n b s = some (o, s') →
    ∃ o' σ', Lua.Executes N t' σ o' σ' ∧ SameOutcome IsInt o o' ∧ Related IsInt c s' σ'

/-- A loop over a condition does the same. -/
def LoopSim (n : Nat) : Prop :=
  ∀ {cond body u b' c s σ o s'} (l : Int), cond.Matches u → BlockMatches body b' →
    c.site.Reads c.inside cond.names → Runs c true false body → Related IsInt c s σ →
    execLoop n cond body s = some (o, s') →
    ∃ o' σ', Lua.Executes N (.loop l u b') σ o' σ' ∧ SameOutcome IsInt o o' ∧ Related IsInt c s' σ'

/-- The bounds of a loop are the same: a loop of Lua from them on is the loop. -/
def BoundsSim (n : Nat) : Prop :=
  ∀ {range a b d? c s σ start stop step s'}, range.Matches a b d? →
    c.site.Reads c.inside range.names → Related IsInt c s σ →
    bounds n range s = some (start, stop, step, s') →
    ∃ x limit' d down σ', IsInt x start ∧ Fits start ∧ IsInt limit' (lastBefore down stop) ∧
      Fits stop ∧ IsInt d step ∧ step ≠ 0 ∧ down = decide (step < 0) ∧ Related IsInt c s' σ' ∧
      ∀ {l y body o σ''}, Lua.Counts N y limit' d body x σ' o σ'' →
        Lua.Executes N (.count l y a b d? body) σ o σ''

/-- A loop over the rest of a range does the same. The number of Lua is the integer, unless both are past
the end. -/
def CountSim (n : Nat) : Prop :=
  ∀ {x i stop step body b' c s σ o s' a limit' d down}, BlockMatches body b' →
    Runs (c.within x) true false body → x ∉ c.inside → x ∈ c.site.own →
    (IsInt a i ∨ (¬goesOn i stop step ∧ Lua.goesOn N a limit' d = false)) →
    (0 < step → -limit < i) → (step < 0 → i < limit) → Fits stop → step ≠ 0 →
    down = decide (step < 0) → IsInt limit' (lastBefore down stop) → IsInt d step →
    Related IsInt c s σ → execCount n x i stop step body s = some (o, s') →
    ∃ o' σ', Lua.Counts N x.text limit' d b' a σ o' σ' ∧ SameOutcome IsInt o o' ∧
      Related IsInt c s' σ'

end Statements

/-! ### Expressions -/

section Steps

variable {N : Numerals ν} {IsInt : ν → Int → Prop} (hN : Exact N IsInt) {n : Nat}

variable {o : Outcome} {c : Context}

include hN

/-- The step for expressions. -/
lemma evalSim_succ (heval : EvalSim N IsInt n) (hcall : CallSim N IsInt n) :
    EvalSim N IsInt (n + 1) := by
  intro e u c s σ v s' hmatch hreads hrel h
  cases e with
  | int d =>
    obtain ⟨l, rfl⟩ := hmatch
    obtain ⟨rfl, rfl⟩ := pure_eq_some.1 h
    exact ⟨_, σ, .constant, gives_singleton (.int (hN.literalValue d) d.fits), hrel⟩
  | str t =>
    obtain ⟨l, rfl⟩ := hmatch
    obtain ⟨rfl, rfl⟩ := pure_eq_some.1 h
    exact ⟨_, σ, .constant, gives_singleton (.str t), hrel⟩
  | bool b =>
    obtain ⟨l, rfl⟩ := hmatch
    obtain ⟨rfl, rfl⟩ := pure_eq_some.1 h
    exact ⟨_, σ, .constant, gives_singleton (.bool b), hrel⟩
  | name x =>
    obtain ⟨l, rfl⟩ := hmatch
    simp only [eval, Option.map_eq_some_iff, Prod.mk.injEq] at h
    obtain ⟨w, hw, rfl, rfl⟩ := h
    exact ⟨_, σ, .name, gives_singleton (hrel.lookup hreads hw), hrel⟩
  | paren e =>
    obtain ⟨l, w, hw, rfl⟩ := hmatch
    rw [eval] at h
    obtain ⟨vs, σ', hvs, hgives, hrel'⟩ := heval hw hreads hrel h
    obtain ⟨ws, hws, hgives'⟩ := evaluates_parenthesized l hvs hgives
    exact ⟨ws, σ', hws, hgives', hrel'⟩
  | neg e =>
    obtain ⟨l, w, hw, rfl⟩ := hmatch
    simp only [eval, bind_eq_some, Prod.exists, pure_eq_some] at h
    obtain ⟨v₁, s₁, h₁, m, hm, rfl, rfl⟩ := h
    obtain ⟨vs, σ', hvs, hgives, hrel'⟩ := heval hw hreads hrel h₁
    obtain ⟨x, hx, hint, hlow, hhigh⟩ := hgives.int hm
    refine ⟨[.number (N.neg x)], σ', .unary hvs ?_, gives_singleton (.int (hN.neg hint) ?_), hrel'⟩
    · rw [hx]
      rfl
    · exact ⟨by omega, by omega⟩
  | pos e =>
    simp only [eval, bind_eq_some, Prod.exists, pure_eq_some] at h
    obtain ⟨v₁, s₁, h₁, m, hm, rfl, rfl⟩ := h
    have hmatch' : e.Matches u := hmatch
    obtain ⟨vs, σ', hvs, hgives, hrel'⟩ := heval hmatch' hreads hrel h₁
    obtain rfl := Value.int?_eq_some hm
    exact ⟨vs, σ', hvs, hgives, hrel'⟩
  | arith op a b =>
    obtain ⟨l, x, y, hx, hy, rfl⟩ := hmatch
    obtain ⟨hra, hrb⟩ := Site.reads_append.1 hreads
    simp only [eval, bind_eq_some, Prod.exists, pure_eq_some] at h
    obtain ⟨v₁, s₁, h₁, v₂, s₂, h₂, m₁, hm₁, m₂, hm₂, r, hr, rfl, rfl⟩ := h
    obtain ⟨vs, σ₁, hvs, hgives₁, hrel₁⟩ := heval hx hra hrel h₁
    obtain ⟨ws, σ₂, hws, hgives₂, hrel₂⟩ := heval hy hrb hrel₁ h₂
    obtain ⟨p, hp, hint₁, -⟩ := hgives₁.int hm₁
    obtain ⟨q, hq, hint₂, -⟩ := hgives₂.int hm₂
    refine ⟨_, σ₂, .binary hvs hws ?_, gives_singleton (hN.arith hint₁ hint₂ hr), hrel₂⟩
    rw [hp, hq]
    rfl
  | compare op a b =>
    obtain ⟨l, x, y, hx, hy, rfl⟩ := hmatch
    obtain ⟨hra, hrb⟩ := Site.reads_append.1 hreads
    simp only [eval, bind_eq_some, Prod.exists, pure_eq_some] at h
    obtain ⟨v₁, s₁, h₁, v₂, s₂, h₂, r, hr, rfl, rfl⟩ := h
    obtain ⟨vs, σ₁, hvs, hgives₁, hrel₁⟩ := heval hx hra hrel h₁
    obtain ⟨ws, σ₂, hws, hgives₂, hrel₂⟩ := heval hy hrb hrel₁ h₂
    exact ⟨_, σ₂, .binary hvs hws (hN.compare hgives₁.same hgives₂.same hr),
      gives_singleton (.bool r), hrel₂⟩
  | not e =>
    simp only [eval, bind_eq_some, Prod.exists, pure_eq_some] at h
    obtain ⟨v₁, s₁, h₁, b, hb, rfl, rfl⟩ := h
    rcases hmatch with harith | ⟨l, w, w', hw, hparens, rfl⟩
    · exact absurd hb (by rw [truth?_eval_arithmetic harith h₁]; simp)
    · obtain ⟨vs, σ', hvs, hgives, hrel'⟩ := heval hw hreads hrel h₁
      obtain ⟨ws, hws, hgives'⟩ := evaluates_inParens hparens hvs hgives
      refine ⟨_, σ', .unary hws ?_, gives_singleton (.bool !b), hrel'⟩
      rw [hgives'.truth hb]
      cases b <;> rfl
  | and a b =>
    obtain ⟨l, x, y, hx, hy, rfl⟩ := hmatch
    obtain ⟨hra, hrb⟩ := Site.reads_append.1 hreads
    simp only [eval, bind_eq_some, Prod.exists] at h
    obtain ⟨v₁, s₁, h₁, b₁, hb₁, h⟩ := h
    obtain ⟨vs, σ₁, hvs, hgives₁, hrel₁⟩ := heval hx hra hrel h₁
    cases b₁ with
    | false =>
      obtain ⟨rfl, rfl⟩ := pure_eq_some.1 h
      exact ⟨_, σ₁, .choiceShort hvs (.inl ⟨rfl, hgives₁.isTrue hb₁⟩), hgives₁.bool hb₁, hrel₁⟩
    | true =>
      simp only [if_true, bind_eq_some, Prod.exists, pure_eq_some] at h
      obtain ⟨v₂, s₂, h₂, b₂, hb₂, rfl, rfl⟩ := h
      obtain ⟨ws, σ₂, hws, hgives₂, hrel₂⟩ := heval hy hrb hrel₁ h₂
      exact ⟨_, σ₂, .choiceLong hvs (.inl ⟨rfl, hgives₁.isTrue hb₁⟩) hws, hgives₂.bool hb₂, hrel₂⟩
  | or a b =>
    obtain ⟨l, x, y, hx, hy, rfl⟩ := hmatch
    obtain ⟨hra, hrb⟩ := Site.reads_append.1 hreads
    simp only [eval, bind_eq_some, Prod.exists] at h
    obtain ⟨v₁, s₁, h₁, b₁, hb₁, h⟩ := h
    obtain ⟨vs, σ₁, hvs, hgives₁, hrel₁⟩ := heval hx hra hrel h₁
    cases b₁ with
    | true =>
      obtain ⟨rfl, rfl⟩ := pure_eq_some.1 h
      exact ⟨_, σ₁, .choiceShort hvs (.inr ⟨rfl, hgives₁.isTrue hb₁⟩), hgives₁.bool hb₁, hrel₁⟩
    | false =>
      simp only [Bool.false_eq_true, if_false, bind_eq_some, Prod.exists, pure_eq_some] at h
      obtain ⟨v₂, s₂, h₂, b₂, hb₂, rfl, rfl⟩ := h
      obtain ⟨ws, σ₂, hws, hgives₂, hrel₂⟩ := heval hy hrb hrel₁ h₂
      exact ⟨_, σ₂, .choiceLong hvs (.inr ⟨rfl, hgives₁.isTrue hb₁⟩) hws, hgives₂.bool hb₂, hrel₂⟩
  | call f args =>
    rw [eval] at h
    exact hcall hmatch hreads hrel h

omit hN

/-- The step for calls. -/
lemma callSim_succ (hargs : EvalAllSim N IsInt n) (happly : ApplySim N IsInt n) :
    CallSim N IsInt (n + 1) := by
  intro f args u c s σ v s' hmatch hreads hrel h
  obtain ⟨l, l', us, hus, rfl⟩ := hmatch
  obtain ⟨hrf, hrargs⟩ : c.site.Reads c.inside [f] ∧ c.site.Reads c.inside (namesOf args) :=
    Site.reads_append.1 hreads
  simp only [call, bind_eq_some, Prod.exists] at h
  obtain ⟨w, hw, vs, s₁, h₁, h⟩ := h
  obtain ⟨ws, σ₁, hws, hsame, hrel₁⟩ := hargs hus hrargs hrel h₁
  obtain ⟨rs, σ₂, hrs, hgives, hrel₂⟩ := happly (hrel.lookup hrf hw) hsame hrel₁ h
  exact ⟨rs, σ₂, .call .name hws hrs, hgives, hrel₂⟩

/-- The step for lists of expressions. -/
lemma evalAllSim_succ (heval : EvalSim N IsInt n) (hargs : EvalAllSim N IsInt n) :
    EvalAllSim N IsInt (n + 1) := by
  intro es us c s σ vs s' hmatch hreads hrel h
  cases es with
  | nil =>
    obtain rfl : us = [] := hmatch
    obtain ⟨rfl, rfl⟩ := pure_eq_some.1 h
    exact ⟨[], σ, .nil, .nil, hrel⟩
  | cons e es =>
    obtain ⟨u, us', hu, hus, rfl⟩ := hmatch
    obtain ⟨hre, hres⟩ := Site.reads_append.1 hreads
    simp only [evalAll, bind_eq_some, Prod.exists, pure_eq_some] at h
    obtain ⟨v, s₁, h₁, vs', s₂, h₂, rfl, rfl⟩ := h
    obtain ⟨ws, σ₁, hws, hgives, hrel₁⟩ := heval hu hre hrel h₁
    obtain ⟨ws', σ₂, hws', hsame, hrel₂⟩ := hargs hus hres hrel₁ h₂
    cases es with
    | nil =>
      -- The last expression gives all its values, which may be none.
      obtain rfl : us' = [] := hus
      cases hws'
      cases n with
      | zero => simp [evalAll] at h₂
      | succ n =>
        simp only [evalAll, Option.some.injEq, Prod.mk.injEq] at h₂
        obtain ⟨rfl, rfl⟩ := h₂
        rcases hgives with ⟨w, rfl, hw⟩ | ⟨rfl, rfl⟩
        · exact ⟨[w], σ₁, .last hws, .cons hw .nil, hrel₂⟩
        · exact ⟨[], σ₁, .last hws, .missing, hrel₂⟩
    | cons e' es =>
      obtain ⟨u', us', hu', hus', rfl⟩ := hus
      exact ⟨_, σ₂, .cons hws hws', .cons hgives.same hsame, hrel₂⟩

/-- The step for functions. -/
lemma applySim_succ (hexec : ExecAllSim N IsInt n) : ApplySim N IsInt (n + 1) := by
  intro f g vs ws c s σ v s' hsame hargs hrel h
  cases hsame with
  | function ref =>
    simp only [apply, bind_eq_some] at h
    obtain ⟨fn, hfn, h⟩ := h
    obtain ⟨g, hg, hfg⟩ := exists_getElem?_of_forall₂ hrel.functions hfn
    split at h
    · rename_i hlength
      simp only [bind_eq_some, Prod.exists] at h
      obtain ⟨o, s₁, h₁, h⟩ := h
      have hruns : Runs (c.call s fn) false false fn.body := by
        refine ⟨hfg.allowed, fun x hx => ?_, nofun⟩
        exact mem_append_right _ (loopVariablesOf_subset fn.body x hx)
      obtain ⟨o', σ₁, hbody, houtcome, hrel₁⟩ := hexec hfg.body hruns (hrel.enter hfg hargs) h₁
      cases o with
      | normal =>
        obtain ⟨rfl, rfl⟩ := pure_eq_some.1 h
        cases o' with
        | normal => exact ⟨[], _, .ended hg hbody, .inr ⟨rfl, rfl⟩, hrel.leave hrel₁⟩
        | _ => exact houtcome.elim
      | broke => simp at h
      | returned r =>
        obtain ⟨rfl, rfl⟩ := pure_eq_some.1 h
        cases o' with
        | returned rs => exact ⟨rs, _, .returned hg hbody, houtcome, hrel.leave hrel₁⟩
        | _ => exact houtcome.elim
    · simp at h
  | _ => simp [apply] at h

/-! ### Statements -/

/-- The step for lists of statements. -/
lemma execAllSim_succ (hexec : ExecSim N IsInt n) (hexecAll : ExecAllSim N IsInt n) :
    ExecAllSim N IsInt (n + 1) := by
  intro b b' c looped top s σ o s' hmatch hruns hrel h
  cases b with
  | nil =>
    obtain rfl : b' = [] := hmatch
    obtain ⟨rfl, rfl⟩ := pure_eq_some.1 h
    exact ⟨.normal, σ, .nil, trivial, hrel⟩
  | cons t b =>
    obtain ⟨t', c', ht, hb, rfl⟩ := hmatch
    obtain ⟨⟨hallowed, -, hrest⟩, hloops, htop⟩ := hruns
    have hloops' := forall_mem_append.1 hloops
    simp only [execAll, bind_eq_some, Prod.exists] at h
    obtain ⟨o₁, s₁, h₁, h⟩ := h
    obtain ⟨o', σ₁, ht', houtcome, hrel₁⟩ := hexec ht hallowed hloops'.1 htop hrel h₁
    cases o₁ with
    | normal =>
      cases o' with
      | normal =>
        obtain ⟨o', σ₂, hb', houtcome', hrel₂⟩ := hexecAll hb ⟨hrest, hloops'.2, htop⟩ hrel₁ h
        exact ⟨o', σ₂, .cons ht' hb', houtcome', hrel₂⟩
      | _ => exact houtcome.elim
    | _ =>
      obtain ⟨rfl, rfl⟩ := pure_eq_some.1 h
      refine ⟨o', σ₁, .leave ht' ?_, houtcome, hrel₁⟩
      rintro rfl
      exact houtcome

/-- How a loop ends whose body breaks off. -/
lemma exists_afterLoop {o' : Lua.Outcome ν} (h : SameOutcome IsInt o o') (ho : o ≠ .normal) :
    ∃ r, o'.afterLoop = some r ∧ SameOutcome IsInt (if o = .broke then .normal else o) r := by
  cases o with
  | normal => exact absurd rfl ho
  | broke =>
    cases o' with
    | broke => exact ⟨.normal, rfl, trivial⟩
    | _ => exact h.elim
  | returned v =>
    cases o' with
    | returned vs => exact ⟨.returned vs, rfl, h⟩
    | _ => exact h.elim

/-- The step for loops over a condition. -/
lemma loopSim_succ (heval : EvalSim N IsInt n) (hexec : ExecAllSim N IsInt n)
    (hloop : LoopSim N IsInt n) : LoopSim N IsInt (n + 1) := by
  intro cond body u b' c s σ o s' l hu hb hreads hruns hrel h
  simp only [execLoop, bind_eq_some, Prod.exists] at h
  obtain ⟨v, s₁, h₁, b, hb₁, h⟩ := h
  obtain ⟨vs, σ₁, hvs, hgives, hrel₁⟩ := heval hu hreads hrel h₁
  cases b with
  | false =>
    obtain ⟨rfl, rfl⟩ := pure_eq_some.1 h
    exact ⟨.normal, σ₁, .loopEnd hvs (hgives.isTrue hb₁), trivial, hrel₁⟩
  | true =>
    have htrue := hgives.isTrue hb₁
    simp only [if_true, bind_eq_some, Prod.exists] at h
    obtain ⟨o₁, s₂, h₂, h⟩ := h
    obtain ⟨o', σ₂, hbody, houtcome, hrel₂⟩ := hexec hb hruns hrel₁ h₂
    cases o₁ with
    | normal =>
      obtain ⟨r, σ₃, hr, hsame, hrel₃⟩ := hloop l hu hb hreads hruns hrel₂ h
      cases o' with
      | normal => exact ⟨r, σ₃, .loopAgain hvs htrue hbody hr, hsame, hrel₃⟩
      | _ => exact houtcome.elim
    | _ =>
      obtain ⟨rfl, rfl⟩ := pure_eq_some.1 h
      obtain ⟨r, hr, hsame⟩ := exists_afterLoop houtcome nofun
      exact ⟨r, σ₂, .loopLeave hvs htrue hbody hr, hsame, hrel₂⟩

lemma executesAll_singleton {t : Chunk.Stat} {o : Lua.Outcome ν} (h : Lua.Executes N t σ o σ') :
    Lua.ExecutesAll N [t] σ o σ' := by
  cases o with
  | normal => exact .cons h .nil
  | broke => exact .leave h (by simp)
  | returned vs => exact .leave h (by simp)

/-- A condition and the body that it leads to do the same, if what is run otherwise does. -/
lemma condition_sim (heval : EvalSim N IsInt n) (hexec : ExecAllSim N IsInt n) {cond : Expr} {yes : List Stat}
    {b' no : List Chunk.Stat} {looped : Bool}
    (rest : State → Option (Outcome × State)) (l : Int) (hu : cond.Matches u)
    (hyes : BlockMatches yes b') (hreads : c.site.Reads c.inside cond.names) (hruns : Runs c looped false yes)
    (hrel : Related IsInt c s σ)
    (h : (eval n cond s >>= fun p => p.1.truth? >>= fun b => if b then execAll n yes p.2 else rest p.2) =
      some (o, s'))
    (hno : ∀ {s₁ σ₁}, Related IsInt c s₁ σ₁ → rest s₁ = some (o, s') →
      ∃ o' σ', Lua.ExecutesAll N no σ₁ o' σ' ∧ SameOutcome IsInt o o' ∧ Related IsInt c s' σ') :
    ∃ o' σ', Lua.Executes N (.branch l u b' no) σ o' σ' ∧ SameOutcome IsInt o o' ∧ Related IsInt c s' σ' := by
  simp only [bind_eq_some, Prod.exists] at h
  obtain ⟨v, s₁, h₁, b, hb, h⟩ := h
  obtain ⟨vs, σ₁, hvs, hgives, hrel₁⟩ := heval hu hreads hrel h₁
  have htrue := hgives.isTrue hb
  cases b with
  | true =>
    obtain ⟨o', σ₂, hbody, houtcome, hrel₂⟩ := hexec hyes hruns hrel₁ h
    exact ⟨o', σ₂, .branch hvs (by rwa [if_pos htrue]), houtcome, hrel₂⟩
  | false =>
    obtain ⟨o', σ₂, hbody, houtcome, hrel₂⟩ := hno hrel₁ h
    refine ⟨o', σ₂, .branch hvs ?_, houtcome, hrel₂⟩
    rwa [htrue, if_neg Bool.false_ne_true]

/-- The step for conditionals. -/
lemma branchSim_succ (heval : EvalSim N IsInt n) (hexec : ExecAllSim N IsInt n)
    (hbranch : BranchSim N IsInt n) : BranchSim N IsInt (n + 1) := by
  intro b t' c looped s σ o s' hmatch hallowed hloops hrel h
  cases b with
  | only cond yes =>
    obtain ⟨l, u, b', hu, hyes, rfl⟩ := hmatch
    obtain ⟨hreads, hyes'⟩ := hallowed
    refine condition_sim heval hexec (fun s => pure (.normal, s)) l hu hyes hreads ⟨hyes', hloops, nofun⟩ hrel h
      fun {s₁ σ₁} hrel₁ h => ?_
    obtain ⟨rfl, rfl⟩ := pure_eq_some.1 h
    exact ⟨.normal, σ₁, .nil, trivial, hrel₁⟩
  | either cond yes no =>
    obtain ⟨l, u, b', c', hu, hyes, hno, rfl⟩ := hmatch
    obtain ⟨hreads, hyes', hno'⟩ := hallowed
    obtain ⟨hloops, hloops'⟩ := forall_mem_append.1 hloops
    exact condition_sim heval hexec (execAll n no) l hu hyes hreads ⟨hyes', hloops, nofun⟩ hrel h
      fun hrel₁ h => hexec hno ⟨hno', hloops', nofun⟩ hrel₁ h
  | chain cond yes next =>
    obtain ⟨l, u, b', t, hu, hyes, hnext, rfl⟩ := hmatch
    obtain ⟨hreads, hyes', hnext'⟩ := hallowed
    obtain ⟨hloops, hloops'⟩ := forall_mem_append.1 hloops
    refine condition_sim heval hexec (execBranch n next) l hu hyes hreads ⟨hyes', hloops, nofun⟩ hrel h
      fun hrel₁ h => ?_
    obtain ⟨o', σ₂, hbody, houtcome, hrel₂⟩ := hbranch hnext hnext' hloops' hrel₁ h
    exact ⟨o', σ₂, executesAll_singleton hbody, houtcome, hrel₂⟩

include hN

/-- The step for loops over a range. -/
lemma countSim_succ (hexec : ExecAllSim N IsInt n) (hcount : CountSim N IsInt n) :
    CountSim N IsInt (n + 1) := by
  intro x i stop step body b' c s σ o s' a limit' d down hb hruns hx hown ha hlow hhigh hstop hstep
    hdown hlimit hd hrel h
  simp only [execCount] at h
  by_cases hgo : goesOn i stop step
  · rw [if_pos hgo] at h
    have hint : IsInt a i := ha.resolve_right fun hpast => hpast.1 hgo
    have hgoLua : Lua.goesOn N a limit' d = true := by
      rw [hN.goesOn_eq hint hlimit hd hstep hdown, decide_eq_true hgo]
    have hfits : Fits i := by
      unfold goesOn at hgo
      unfold Fits at hstop ⊢
      omega
    simp only [bind_eq_some, Prod.exists] at h
    obtain ⟨o₁, s₁, h₁, h⟩ := h
    obtain ⟨o', σ₁, hbody, houtcome, hrel₁⟩ :=
      hexec hb hruns (hrel.push hx hown (.int hint hfits)) h₁
    have hrel₂ := Related.pop hx hrel₁ hrel.params_subset
    cases o₁ with
    | normal =>
      have hnext := hN.next hint hlimit hd hstep hdown hstop
      obtain ⟨r, σ₃, hr, hsame, hrel₃⟩ := hcount hb hruns hx hown hnext
        (fun hpos => by have := hlow hpos; omega) (fun hneg => by have := hhigh hneg; omega) hstop
        hstep hdown hlimit hd hrel₂ h
      cases o' with
      | normal => exact ⟨r, σ₃, .again hgoLua hbody hr, hsame, hrel₃⟩
      | _ => exact houtcome.elim
    | _ =>
      obtain ⟨rfl, rfl⟩ := pure_eq_some.1 h
      obtain ⟨r, hr, hsame⟩ := exists_afterLoop houtcome nofun
      exact ⟨r, _, .leave hgoLua hbody hr, hsame, hrel₂⟩
  · rw [if_neg hgo] at h
    obtain ⟨rfl, rfl⟩ := pure_eq_some.1 h
    have hgoLua : Lua.goesOn N a limit' d = false := by
      rcases ha with hint | ⟨-, hpast⟩
      · rw [hN.goesOn_eq hint hlimit hd hstep hdown, decide_eq_false hgo]
      · exact hpast
    exact ⟨.normal, σ, .finish hgoLua, trivial, hrel⟩

/-- An integer as it is written for the end of a loop. -/
lemma evaluates_int {m : Int} (hu : MatchesInt m u) (hm : Within m) (σ : Lua.State ν) :
    ∃ x, Lua.Evaluates N u σ [.number x] σ ∧ IsInt x m := by
  unfold Within at hm
  cases m with
  | ofNat k =>
    obtain ⟨l, rfl⟩ := hu
    exact ⟨_, .constant, hN.ofNat (by simpa using hm.2)⟩
  | negSucc k =>
    obtain ⟨l, l', rfl⟩ := hu
    refine ⟨_, .unary .constant rfl, ?_⟩
    exact hN.neg (hN.ofNat (n := k + 1) (by omega))

/-- The end of a loop is the integer before the end of the range. -/
lemma evaluates_end (heval : EvalSim N IsInt n) {down : Bool} {v : Value} {k : Int} (hu : e.EndMatches down u)
    (hreads : c.site.Reads c.inside e.names) (hrel : Related IsInt c s σ) (h : eval n e s = some (v, s'))
    (hk : v.int? = some k) :
    ∃ x σ', Lua.Evaluates N u σ [.number x] σ' ∧ IsInt x (lastBefore down k) ∧ Fits k ∧
      Related IsInt c s' σ' := by
  have hwithin : ∀ {k : Int}, Fits k → Within (lastBefore down k) := by
    intro k hk
    unfold Fits at hk
    unfold Within lastBefore
    split <;> omega
  by_cases hint : ∃ d, e = .int d
  · obtain ⟨d, rfl⟩ := hint
    obtain ⟨rfl, rfl⟩ := eval_int h
    obtain rfl : (d.value : Int) = k := Option.some.inj hk
    obtain ⟨x, hx, hxk⟩ := evaluates_int hN hu (hwithin d.fits) σ
    exact ⟨x, σ, hx, hxk, d.fits, hrel⟩
  · obtain ⟨l, l', w, w', hw, hparens, rfl⟩ := endMatches_of_ne (fun d hd => hint ⟨d, hd⟩) hu
    obtain ⟨vs, σ', hvs, hgives, hrel'⟩ := heval hw hreads hrel h
    obtain ⟨ws, hws, hgives'⟩ := evaluates_inParens hparens hvs hgives
    obtain ⟨x, hx, hxk, hfits⟩ := hgives'.int hk
    have hone : IsInt (N.literal (utf8 "1")) 1 := by
      have hofNat := hN.ofNat (n := 1) (by decide)
      exact hofNat
    cases down with
    | false =>
      refine ⟨_, σ', .binary hws .constant ?_, hN.sub hxk hone (hwithin hfits), hfits, hrel'⟩
      rw [hx]
      rfl
    | true =>
      refine ⟨_, σ', .binary hws .constant ?_, hN.add hxk hone (hwithin hfits), hfits, hrel'⟩
      rw [hx]
      rfl

/-- The step for the bounds of a loop. -/
lemma boundsSim_succ (heval : EvalSim N IsInt n) : BoundsSim N IsInt (n + 1) := by
  intro range a b d? c s σ start stop step s' hmatch hreads hrel h
  cases range with
  | upTo e =>
    obtain ⟨⟨l, rfl⟩, hb, rfl⟩ := hmatch
    simp only [bounds, bind_eq_some, Prod.exists, pure_eq_some, Prod.mk.injEq] at h
    obtain ⟨v, s₁, h₁, k, hk, rfl, rfl, rfl, rfl⟩ := h
    obtain ⟨x, σ₁, hx, hxk, hfits, hrel₁⟩ := evaluates_end hN heval hb hreads hrel h₁ hk
    refine ⟨_, x, _, false, σ₁, hN.ofNat (n := 0) (by decide), by decide, hxk, hfits, hN.one,
      by decide, by decide, hrel₁, fun hcounts => ?_⟩
    exact .count .constant hx rfl rfl hcounts
  | between e e' =>
    obtain ⟨ha, hb, rfl⟩ := hmatch
    obtain ⟨hra, hrb⟩ := Site.reads_append.1 hreads
    simp only [bounds, bind_eq_some, Prod.exists, pure_eq_some, Prod.mk.injEq] at h
    obtain ⟨v, s₁, h₁, w, s₂, h₂, j, hj, k, hk, rfl, rfl, rfl, rfl⟩ := h
    obtain ⟨vs, σ₁, hvs, hgives, hrel₁⟩ := heval ha hra hrel h₁
    obtain ⟨y, hy, hyj, hfitsj⟩ := hgives.int hj
    obtain ⟨x, σ₂, hx, hxk, hfits, hrel₂⟩ := evaluates_end hN heval hb hrb hrel₁ h₂ hk
    refine ⟨y, x, _, false, σ₂, hyj, hfitsj, hxk, hfits, hN.one, by decide, by decide, hrel₂,
      fun hcounts => ?_⟩
    exact .count hvs hx hy rfl hcounts
  | stepped e e' negated d =>
    obtain ⟨ha, hb, u, hu, rfl⟩ := hmatch
    obtain ⟨hra, hrb⟩ := Site.reads_append.1 hreads
    simp only [bounds, bind_eq_some, Prod.exists] at h
    obtain ⟨v, s₁, h₁, w, s₂, h₂, h⟩ := h
    split at h
    · simp at h
    · rename_i hzero
      simp only [bind_eq_some, pure_eq_some, Prod.mk.injEq] at h
      obtain ⟨j, hj, k, hk, rfl, rfl, rfl, rfl⟩ := h
      obtain ⟨vs, σ₁, hvs, hgives, hrel₁⟩ := heval ha hra hrel h₁
      obtain ⟨y, hy, hyj, hfitsj⟩ := hgives.int hj
      obtain ⟨x, σ₂, hx, hxk, hfits, hrel₂⟩ := evaluates_end hN heval hb hrb hrel₁ h₂ hk
      have hliteral := hN.literalValue d
      cases negated with
      | false =>
        obtain ⟨l, rfl⟩ := hu
        refine ⟨y, x, _, false, σ₂, hyj, hfitsj, hxk, hfits, hliteral, ?_, ?_, hrel₂,
          fun hcounts => .countBy hvs hx .constant hy rfl rfl hcounts⟩
        · simpa using hzero
        · simp
      | true =>
        obtain ⟨l, w', ⟨l', rfl⟩, rfl⟩ := hu
        refine ⟨y, x, _, true, σ₂, hyj, hfitsj, hxk, hfits, hN.neg hliteral, ?_, ?_, hrel₂,
          fun hcounts => .countBy hvs hx (.unary .constant rfl) hy rfl rfl hcounts⟩
        · simpa using hzero
        · have hpos : (0 : Int) < d.value := by omega
          simp only [if_true]
          exact (decide_eq_true (by omega)).symm

/-- The step for printing. -/
lemma print_sim (heval : EvalSim N IsInt n) {arg : Option Expr} {us : List Chunk.Expr}
    (hus : MatchesAll arg.toList us) (hreads : ∀ e ∈ arg, c.site.Reads c.inside e.names)
    (hrel : Related IsInt c s σ) (h : exec (n + 1) (.print arg) s = some (o, s')) :
    o = .normal ∧ ∃ vs σ', Lua.EvaluatesAll N us σ vs σ' ∧ Related IsInt c s' (σ'.print N vs) := by
  cases arg with
  | none =>
    obtain rfl : us = [] := hus
    obtain ⟨rfl, rfl⟩ := pure_eq_some.1 h
    exact ⟨rfl, [], σ, .nil, hrel.printLine rfl⟩
  | some e =>
    obtain ⟨u, us', hu, hus', rfl⟩ := hus
    obtain rfl : us' = [] := hus'
    simp only [exec, bind_eq_some, Prod.exists, pure_eq_some] at h
    obtain ⟨v, s₁, h₁, line, hline, rfl, rfl⟩ := h
    obtain ⟨vs, σ₁, hvs, hgives, hrel₁⟩ := heval hu (hreads e rfl) hrel h₁
    refine ⟨rfl, vs, σ₁, .last hvs, hrel₁.printLine ?_⟩
    rcases hgives with ⟨w, rfl, hw⟩ | ⟨rfl, -⟩
    · rw [map_singleton, hN.shown hw hline]
      simp [Text.join]
    · simp [Value.shown?] at hline

/-- The step for statements. -/
lemma execSim_succ (heval : EvalSim N IsInt n) (hcall : CallSim N IsInt n)
    (hbranch : BranchSim N IsInt n) (hloop : LoopSim N IsInt n) (hbounds : BoundsSim N IsInt n)
    (hcount : CountSim N IsInt n) : ExecSim N IsInt (n + 1) := by
  intro t t' c looped top s σ o s' hmatch hallowed hloops htop hrel h
  cases t with
  | assign x e =>
    obtain ⟨l, l', u, hu, rfl⟩ := hmatch
    obtain ⟨hassigns, hreads⟩ := hallowed
    simp only [exec, bind_eq_some, Prod.exists, pure_eq_some] at h
    obtain ⟨v, s₁, h₁, rfl, rfl⟩ := h
    obtain ⟨vs, σ₁, hvs, hgives, hrel₁⟩ := heval hu hreads hrel h₁
    exact ⟨.normal, _, .assign hvs, trivial, hrel₁.bind hassigns hgives.same⟩
  | call f args =>
    obtain ⟨l, u, hu, rfl⟩ := hmatch
    simp only [exec, bind_eq_some, Prod.exists, pure_eq_some] at h
    obtain ⟨v, s₁, h₁, rfl, rfl⟩ := h
    obtain ⟨vs, σ₁, hvs, -, hrel₁⟩ := hcall hu hallowed hrel h₁
    exact ⟨.normal, σ₁, .call hvs, trivial, hrel₁⟩
  | print arg =>
    obtain ⟨l, l', l'', us, hus, rfl⟩ := hmatch
    obtain ⟨rfl, vs, σ₁, hvs, hrel₁⟩ := print_sim hN heval hus hallowed hrel h
    have hprint : Lua.Calls N (Lua.first [σ.lookup (utf8 "print")]) vs σ₁ [] (σ₁.print N vs) := by
      rw [hrel.lookup_print]
      exact .print
    exact ⟨.normal, _, .call (.call .name hvs hprint), trivial, hrel₁⟩
  | «return» value =>
    obtain ⟨l, us, hus, rfl⟩ := hmatch
    cases value with
    | none =>
      obtain rfl : us = [] := hus
      obtain ⟨rfl, rfl⟩ := pure_eq_some.1 h
      exact ⟨.returned [], σ, .return .nil, .inr ⟨rfl, rfl⟩, hrel⟩
    | some e =>
      obtain ⟨u, us', hu, hus', rfl⟩ := hus
      obtain rfl : us' = [] := hus'
      simp only [exec, bind_eq_some, Prod.exists, pure_eq_some] at h
      obtain ⟨v, s₁, h₁, rfl, rfl⟩ := h
      obtain ⟨vs, σ₁, hvs, hgives, hrel₁⟩ := heval hu (hallowed e rfl) hrel h₁
      exact ⟨.returned vs, σ₁, .return (.last hvs), hgives, hrel₁⟩
  | «break» =>
    obtain ⟨l, rfl⟩ := hmatch
    obtain ⟨rfl, rfl⟩ := pure_eq_some.1 h
    exact ⟨.broke, σ, .break, trivial, hrel⟩
  | branch b =>
    rw [exec] at h
    exact hbranch hmatch hallowed hloops hrel h
  | loop cond body =>
    obtain ⟨l, u, b', hu, hb, rfl⟩ := hmatch
    obtain ⟨hreads, hbody⟩ := hallowed
    rw [exec] at h
    exact hloop l hu hb hreads ⟨hbody, hloops, nofun⟩ hrel h
  | count x range body =>
    obtain ⟨l, a, b, d?, b', hrange, hb, rfl⟩ := hmatch
    obtain ⟨hx, hreads, hbody⟩ := hallowed
    obtain ⟨hown, hbodyLoops⟩ := forall_mem_cons.1 hloops
    simp only [exec, bind_eq_some, Prod.exists] at h
    obtain ⟨start, stop, step, s₁, h₁, h⟩ := h
    obtain ⟨y, limit', d, down, σ₁, hy, hfitsy, hlimit, hfits, hd, hstep, hdown, hrel₁, hlua⟩ :=
      hbounds hrange hreads hrel h₁
    have hruns : Runs (c.within x) true false body :=
      ⟨hbody, hbodyLoops, nofun⟩
    obtain ⟨o', σ₂, hcounts, houtcome, hrel₂⟩ := hcount hb hruns hx hown (.inl hy)
      (fun _ => hfitsy.1) (fun _ => hfitsy.2) hfits hstep hdown hlimit hd hrel₁ h
    exact ⟨o', σ₂, hlua hcounts, houtcome, hrel₂⟩
  | define f params body =>
    obtain ⟨l, l', last, b', hb, rfl⟩ := hmatch
    obtain ⟨htop', hf, hnodup, hbody⟩ := hallowed
    obtain ⟨hinside, hsite⟩ := htop htop'
    obtain ⟨rfl, rfl⟩ := pure_eq_some.1 h
    have hlocals : σ.locals = [] := by
      have hnames := hrel.names
      rw [hinside] at hnames
      exact map_eq_nil_iff.1 hnames
    have hfg : SameFunction c.site.loops ⟨params, body⟩ ⟨params.map Name.text, b'⟩ :=
      ⟨rfl, hb, hnodup, hbody⟩
    refine ⟨.normal, _, .define hlocals, trivial, (hrel.define hfg).bind_global hsite hf ?_⟩
    rw [hrel.functions.length_eq]
    exact .function _

/-- All parts of the simulation, for any fuel. -/
lemma sim (n : Nat) : (EvalSim N IsInt n ∧ CallSim N IsInt n ∧ EvalAllSim N IsInt n ∧
    ApplySim N IsInt n) ∧ ExecSim N IsInt n ∧ BranchSim N IsInt n ∧ BoundsSim N IsInt n ∧
    LoopSim N IsInt n ∧ CountSim N IsInt n ∧ ExecAllSim N IsInt n := by
  induction n with
  | zero =>
    simp [EvalSim, CallSim, EvalAllSim, ApplySim, ExecSim, BranchSim, BoundsSim, LoopSim, CountSim, ExecAllSim,
      eval, call, evalAll, apply, exec, execBranch, bounds, execLoop, execCount, execAll]
  | succ n ih =>
    obtain ⟨⟨heval, hcall, hargs, happly⟩, hexec, hbranch, hbounds, hloop, hcount, hexecAll⟩ := ih
    exact ⟨⟨evalSim_succ hN heval hcall, callSim_succ hargs happly, evalAllSim_succ heval hargs,
        applySim_succ hexecAll⟩,
      execSim_succ hN heval hcall hbranch hloop hbounds hcount,
      branchSim_succ heval hexecAll hbranch, boundsSim_succ hN heval,
      loopSim_succ heval hexecAll hloop, countSim_succ hN hexecAll hcount,
      execAllSim_succ hexec hexecAll⟩

/-- A program of Lua that a program of the fragment is read as prints what the program prints. -/
theorem lua_prints {p : List Stat} {chunk : List Chunk.Stat} {out : List Text}
    (hmatch : BlockMatches p chunk) (hallowed : AllowedProgram p) (hout : Prints p out) :
    Lua.Prints N chunk out := by
  obtain ⟨n, s, h, rfl⟩ := hout
  have hrel : Related IsInt ⟨.program (loopVariablesOf p), [], fun _ => none⟩ .start .start := by
    refine ⟨.nil, rfl, by simp [Lua.State.start, Chunk.initialGlobal], ?_, rfl, ?_, ?_, fun _ => ⟨rfl, rfl⟩, ?_⟩
    · intro x v _ hv
      exact absurd hv (by simp [State.start])
    · simp
    · simp
    · intro params hsite
      exact absurd hsite (by simp [Site.program])
  have hruns : Runs ⟨.program (loopVariablesOf p), [], fun _ => none⟩ false true p :=
    ⟨hallowed, fun x hx => hx, fun _ => ⟨rfl, rfl⟩⟩
  obtain ⟨o, σ, hexec, houtcome, hrel'⟩ := (sim hN n).2.2.2.2.2.2 hmatch hruns hrel h
  cases o with
  | normal => exact ⟨σ, hexec, hrel'.printed⟩
  | _ => exact houtcome.elim

end Steps

end Core

end Lunify
