import Mathlib.Logic.Relation
import Lunify.Proofs.Tree.Derivation

/-!
# Grammars that a deterministic machine reads

A `Grammar.Machine` reads tokens from left to right. It keeps the trees it has built on a stack, and
its state and the next token tell it whether to push that token or to put the last trees together by
a rule. `Machine.Valid` is a condition on single rules: wherever a symbol may begin, walking along
each of its rules meets states that read on inside the rule and apply the rule at its end.

A valid machine builds every derivation from the start symbol out of its leaves
(`Machine.Valid.runs`). As it never has a choice, two derivations with the same leaves are the same
(`Machine.Valid.derivation_unique`).
-/

namespace Lunify

open List

namespace Grammar

/-- The terminals with which the texts of a symbol can begin. -/
inductive First (g : Grammar) : Symbol → Symbol → Prop
  | terminal {a : Symbol} (ha : g.isTerminal a = true) : First g a a
  | rule {r : Rule} {a : Symbol} (hr : r ∈ g.rules) (h : First g r.first a) : First g r.lhs a

/-- A machine over numbered states, which begins in state zero. -/
structure Machine where
  /-- The state after a symbol was read in a state. -/
  goto : Nat → Symbol → Nat
  /-- The rule to apply in a state before the given symbol of the input, or before its end. Where
  there is none, the next token is pushed. -/
  reduces : Nat → Option Symbol → Option Rule
  /-- What may come after a symbol that begins in a state. -/
  ahead : Nat → Symbol → Option Symbol → Prop

/-- What may come before the symbols `β` are read, if `follow` may come after them. -/
def Ahead (g : Grammar) (follow : Option Symbol → Prop) : List Symbol → Option Symbol → Prop
  | [], a => follow a
  | s :: _, a => ∃ b, a = some b ∧ g.First s b

namespace Machine

variable {g : Grammar} {m : Machine}

variable {ts : List Tree} {t : Tree}

/-- Whether the machine reads the rest of a rule in a state and then applies the rule. -/
def Walks (g : Grammar) (m : Machine) (r : Rule) (follow : Option Symbol → Prop) :
    Nat → List Symbol → Prop
  | q, [] => ∀ a, follow a → m.reduces q a = some r
  | q, s :: β =>
    (if g.isTerminal s then m.reduces q (some s) = none
      else ∀ a, g.Ahead follow β a → m.ahead q s a) ∧ Walks g m r follow (m.goto q s) β

/-- Whether the machine reads every rule of a symbol wherever the symbol may begin, and stops after
the start symbol. -/
structure Valid (g : Grammar) (m : Machine) : Prop where
  walks {q : Nat} {s : Symbol} {a : Option Symbol} (h : m.ahead q s a) {r : Rule} (hr : r ∈ g.rules)
    (hs : r.lhs = s) : m.Walks g r (m.ahead q s) q r.rhs
  start : m.ahead 0 g.start none
  stop : m.reduces (m.goto 0 g.start) none = none

/-! ### Running a machine -/

/-- The trees built so far, the last one first, each with the state after it; and the tokens that
are left. -/
abbrev Config := List (Nat × Tree) × List Token

/-- The state of a machine with the given stack. -/
def top (stack : List (Nat × Tree)) : Nat :=
  (stack.head?.map Prod.fst).getD 0

/-- Pushes a tree. -/
def push (m : Machine) (stack : List (Nat × Tree)) (t : Tree) : List (Nat × Tree) :=
  (m.goto (top stack) t.label, t) :: stack

/-- Pushes trees from left to right. -/
def pushAll (m : Machine) (stack : List (Nat × Tree)) (ts : List Tree) : List (Nat × Tree) :=
  ts.foldl m.push stack

/-- One step of the machine. It stops where no rule applies and no token is left. -/
def step (m : Machine) : Config → Option Config
  | (stack, input) =>
    match m.reduces (top stack) (input.head?.map Token.symbol) with
    | some r =>
      let node := Tree.node r.lhs ((stack.take r.rhs.length).reverse.map Prod.snd)
      some (m.push (stack.drop r.rhs.length) node, input)
    | none =>
      match input with
      | [] => none
      | tok :: rest => some (m.push stack (.ofTerminal tok.symbol tok), rest)

/-- Any number of steps. -/
def Steps (m : Machine) : Config → Config → Prop :=
  Relation.ReflTransGen fun c d => m.step c = some d

/-- The trees that were pushed are the last ones on the stack. -/
lemma exists_pushAll (m : Machine) (stack : List (Nat × Tree)) (ts : List Tree) :
    ∃ frames, m.pushAll stack ts = frames ++ stack ∧ frames.reverse.map Prod.snd = ts := by
  induction ts generalizing stack with
  | nil => exact ⟨[], rfl, rfl⟩
  | cons t ts ih =>
    obtain ⟨frames, hpush, htrees⟩ := ih (m.push stack t)
    refine ⟨frames ++ [(m.goto (top stack) t.label, t)], ?_, ?_⟩
    · rw [pushAll, foldl_cons, ← pushAll, hpush, push, append_assoc, singleton_append]
    · rw [reverse_append, reverse_singleton, singleton_append, map_cons, htrees]

/-- A rule is applied to the trees of its right-hand side. -/
lemma step_reduce {r : Rule} {stack : List (Nat × Tree)} {input : List Token}
    (hlength : ts.length = r.rhs.length)
    (h : m.reduces (top (m.pushAll stack ts)) (input.head?.map Token.symbol) = some r) :
    m.step (m.pushAll stack ts, input) = some (m.push stack (.node r.lhs ts), input) := by
  obtain ⟨frames, hpush, htrees⟩ := m.exists_pushAll stack ts
  have hframes : frames.length = r.rhs.length := by
    rw [← hlength, ← htrees, length_map, length_reverse]
  unfold step
  simp only [h]
  rw [hpush, take_left' hframes, drop_left' hframes, htrees]

/-! ### Derivations are built -/

/-- The first leaf of a derivation. -/
lemma exists_first_leaf (ht : t.IsDerivation g) :
    ∃ tok rest, t.leaves = tok :: rest ∧ g.First t.label tok.symbol := by
  induction ht with
  | @leaf s tok hs _ htoken =>
    subst htoken
    exact ⟨tok, [], by simp [Tree.leaves], .terminal hs⟩
  | @category s tok hs _ htoken =>
    subst htoken
    exact ⟨tok, [], by simp [Tree.leaves, Tree.leavesOf], .terminal hs⟩
  | @rule r ts hr hlabels _ ih =>
    cases ts with
    | nil => exact absurd hlabels.symm r.rhs_ne_nil
    | cons t ts =>
      obtain ⟨tok, rest, hleaves, hfirst⟩ := ih t mem_cons_self
      have hlabel : r.first = t.label := by
        simp only [Rule.first, ← hlabels, map_cons, head_cons]
      refine ⟨tok, rest ++ Tree.leavesOf ts, ?_, .rule hr (hlabel ▸ hfirst)⟩
      rw [Tree.leaves, Tree.leavesOf, hleaves, cons_append]

/-- What comes before a list of derivations with something after them. -/
lemma ahead_of_derivations {follow : Option Symbol → Prop} {rest : List Token}
    (hts : ∀ t ∈ ts, t.IsDerivation g) (hfollow : follow (rest.head?.map Token.symbol)) :
    g.Ahead follow (ts.map Tree.label) ((Tree.leavesOf ts ++ rest).head?.map Token.symbol) := by
  cases ts with
  | nil => exact hfollow
  | cons t ts =>
    obtain ⟨tok, leaves, hleaves, hfirst⟩ := exists_first_leaf (hts t mem_cons_self)
    refine ⟨tok.symbol, ?_, hfirst⟩
    rw [Tree.leavesOf, hleaves]
    rfl

/-- Whether the machine builds a tree wherever that may begin. -/
def Builds (g : Grammar) (m : Machine) (t : Tree) : Prop :=
  ∀ (stack : List (Nat × Tree)) (rest : List Token),
    (if g.isTerminal t.label then m.reduces (top stack) (some t.label) = none
      else m.ahead (top stack) t.label (rest.head?.map Token.symbol)) →
    m.Steps (stack, t.leaves ++ rest) (m.push stack t, rest)

lemma builds_ofTerminal {s : Symbol} {tok : Token} (hs : g.isTerminal s = true)
    (htoken : tok.symbol = s) : m.Builds g (.ofTerminal s tok) := by
  intro stack rest h
  rw [Tree.label_ofTerminal, if_pos hs] at h
  subst htoken
  refine Relation.ReflTransGen.single ?_
  simp only [Tree.leaves_ofTerminal, singleton_append, step, head?_cons, Option.map_some, h]

/-- Trees along a rule are pushed one after the other, and then the rule is applied. -/
lemma steps_forest {r : Rule} {follow : Option Symbol → Prop} {rest : List Token}
    (hfollow : follow (rest.head?.map Token.symbol)) (hts : ∀ t ∈ ts, t.IsDerivation g)
    (hbuilds : ∀ t ∈ ts, m.Builds g t) (stack : List (Nat × Tree))
    (hwalks : m.Walks g r follow (top stack) (ts.map Tree.label)) :
    m.Steps (stack, Tree.leavesOf ts ++ rest) (m.pushAll stack ts, rest) ∧
      m.reduces (top (m.pushAll stack ts)) (rest.head?.map Token.symbol) = some r := by
  induction ts generalizing stack with
  | nil => exact ⟨.refl, hwalks _ hfollow⟩
  | cons t ts ih =>
    rw [forall_mem_cons] at hts hbuilds
    obtain ⟨hnext, hwalks⟩ := hwalks
    have htree : m.Steps (stack, t.leaves ++ (Tree.leavesOf ts ++ rest))
        (m.push stack t, Tree.leavesOf ts ++ rest) := by
      refine hbuilds.1 stack _ ?_
      split
      · rename_i hterminal
        rwa [if_pos hterminal] at hnext
      · rename_i hrules
        rw [if_neg hrules] at hnext
        exact hnext _ (ahead_of_derivations hts.2 hfollow)
    obtain ⟨hsteps, hreduces⟩ := ih hts.2 hbuilds.2 (m.push stack t) hwalks
    rw [Tree.leavesOf, append_assoc]
    exact ⟨htree.trans hsteps, hreduces⟩

namespace Valid

/-- A valid machine builds every derivation. -/
theorem builds (hm : m.Valid g) (ht : t.IsDerivation g) : m.Builds g t := by
  induction ht with
  | @leaf s tok hs hcategory htoken =>
    have htree : Tree.leaf s tok = .ofTerminal s tok := by simp [Tree.ofTerminal, hcategory]
    exact htree ▸ builds_ofTerminal hs htoken
  | @category s tok hs hcategory htoken =>
    have htree : Tree.node s [.leaf s tok] = .ofTerminal s tok := by simp [Tree.ofTerminal, hcategory]
    exact htree ▸ builds_ofTerminal hs htoken
  | @rule r ts hr hlabels hts ih =>
    intro stack rest hahead
    have hrules : ¬g.isTerminal r.lhs = true := by simp [isTerminal_lhs hr]
    rw [Tree.label, if_neg hrules] at hahead
    have hwalks := hm.walks hahead hr rfl
    rw [← hlabels] at hwalks
    obtain ⟨hsteps, hreduces⟩ := steps_forest hahead hts ih stack hwalks
    have hlength : ts.length = r.rhs.length := by rw [← hlabels, length_map]
    rw [Tree.leaves]
    exact hsteps.tail (step_reduce hlength hreduces)

/-- The machine comes to a stop with a derivation from the start symbol, if it is given its leaves. -/
theorem runs (hm : m.Valid g) (ht : t.IsDerivation g) (hlabel : t.label = g.start) :
    m.Steps ([], t.leaves) (m.push [] t, []) ∧ m.step (m.push [] t, []) = none := by
  constructor
  · have hsteps := hm.builds ht [] []
    rw [hlabel, isTerminal_start, append_nil] at hsteps
    exact hsteps hm.start
  · have htop : top (m.push [] t) = m.goto 0 g.start := by rw [← hlabel]; rfl
    have hstop := hm.stop
    rw [← htop] at hstop
    unfold step
    simp only [head?_nil, Option.map_none, hstop]

/-- Two derivations from the start symbol with the same leaves are the same. -/
theorem derivation_unique (hm : m.Valid g) {u : Tree} (ht : t.IsDerivation g) (hu : u.IsDerivation g)
    (htlabel : t.label = g.start) (hulabel : u.label = g.start) (hleaves : t.leaves = u.leaves) : t = u := by
  obtain ⟨htsteps, htstop⟩ := hm.runs ht htlabel
  obtain ⟨husteps, hustop⟩ := hm.runs hu hulabel
  rw [hleaves] at htsteps
  have hfunction : Relator.RightUnique fun c d => m.step c = some d :=
    fun _ _ _ hd he => Option.some.inj (hd.symm.trans he)
  have hend : ∀ {c d : Config}, m.step c = none → m.Steps c d → c = d := by
    intro c d hc hcd
    cases Relation.ReflTransGen.cases_head hcd with
    | inl h => exact h
    | inr h =>
      obtain ⟨e, he, -⟩ := h
      exact absurd (hc.symm.trans he) (by simp)
  have hsame : m.push [] t = m.push [] u := by
    rcases Relation.ReflTransGen.total_of_right_unique hfunction htsteps husteps with h | h
    · exact congrArg Prod.fst (hend htstop h)
    · exact (congrArg Prod.fst (hend hustop h)).symm
  exact congrArg Prod.snd (List.cons.inj hsame).1

end Valid

end Machine

end Grammar

end Lunify
