import Lunify.Proofs.Chart.WorkList
import Lunify.Proofs.Grammar.Language

/-!
# What the states of a chart stand for

`Chart.Justified` says once what can put a state into a chart: a rule is predicted, a terminal is
read, or a symbol is completed by a state with another key. It knows neither the order in which this happens nor which of two
equal states came first, and every property of single states follows from it by induction: the dot
stays inside the rule, a complete state spans some input, and the symbols left of the dot derive what
lies between origin and finish.
-/

namespace Lunify

open List

variable {α : Type}

namespace Grammar

variable {r : Rule}

/-- The rules of a grammar with their numbers, and the extra rule with number zero before them. -/
def allNumbered (g : Grammar) : List (Nat × Rule) :=
  (0, g.acceptRule) :: g.numbered

/-- The number of a rule of the grammar is its place in the list of rules, counted from one. -/
lemma mem_numbered_iff (g : Grammar) (n : Nat) (r : Rule) :
    (n, r) ∈ g.numbered ↔ 1 ≤ n ∧ g.rules[n - 1]? = some r := by
  simp only [numbered, mem_map, Prod.mk.injEq, Prod.exists]
  constructor
  · rintro ⟨r', n', hmem, rfl, rfl⟩
    exact mem_zipIdx_iff_le_and_getElem?_sub.1 hmem
  · intro h
    exact ⟨r, n, mem_zipIdx_iff_le_and_getElem?_sub.2 h, rfl, rfl⟩

lemma mem_rules_of_mem_numbered {g : Grammar} {n : Nat} (h : (n, r) ∈ g.numbered) : r ∈ g.rules :=
  mem_of_getElem? ((g.mem_numbered_iff n r).1 h).2

lemma exists_mem_numbered {g : Grammar} (hr : r ∈ g.rules) : ∃ n, (n, r) ∈ g.numbered := by
  obtain ⟨i, hi⟩ := mem_iff_getElem?.1 hr
  exact ⟨i + 1, (g.mem_numbered_iff (i + 1) r).2 ⟨Nat.le_add_left 1 i, hi⟩⟩

lemma eq_acceptRule_of_mem {g : Grammar} (h : (0, r) ∈ g.allNumbered) : r = g.acceptRule := by
  rcases mem_cons.1 h with h | h
  · exact (Prod.mk.inj h).2
  · have hpos := ((g.mem_numbered_iff 0 r).1 h).1
    omega

/-- The number determines the rule. -/
lemma rule_eq_of_mem_allNumbered {g : Grammar} {n : Nat} {r' : Rule} (h : (n, r) ∈ g.allNumbered)
    (h' : (n, r') ∈ g.allNumbered) : r = r' := by
  rcases Nat.eq_zero_or_pos n with rfl | hn
  · rw [eq_acceptRule_of_mem h, eq_acceptRule_of_mem h']
  · have hne : ∀ r'', (n, r'') ∈ g.allNumbered → g.rules[n - 1]? = some r'' := by
      intro r'' hr''
      rcases mem_cons.1 hr'' with hr'' | hr''
      · have := (Prod.mk.inj hr'').1
        omega
      · exact ((g.mem_numbered_iff n r'').1 hr'').2
    exact Option.some.inj ((hne r h).symm.trans (hne r' h'))

end Grammar

/-! ### Parts of the input -/

/-- The part of a list from one position to another. -/
def between {α : Type} (l : List α) (i j : Nat) : List α :=
  (l.take j).drop i

@[simp] lemma between_self (l : List α) (i : Nat) : between l i i = [] := by
  rw [between, drop_eq_nil_iff]
  exact length_take_le i l

lemma between_zero_length (l : List α) : between l 0 l.length = l := by
  rw [between, drop_zero, take_length]

/-- Parts that meet form one part. -/
lemma between_append (l : List α) {i j k : Nat} (hij : i ≤ j) (hjk : j ≤ k) :
    between l i j ++ between l j k = between l i k := by
  unfold between
  have htake : l.take j = (l.take k).take j := by
    rw [take_take, Nat.min_eq_left hjk]
  rw [htake, drop_take, drop_take, drop_take]
  apply ext_getElem?
  intro m
  simp only [getElem?_append, length_take, length_drop, getElem?_take,
    getElem?_drop]
  grind

lemma between_succ {l : List α} {i : Nat} {a : α} (h : l[i]? = some a) : between l i (i + 1) = [a] := by
  unfold between
  rw [drop_take, Nat.add_sub_cancel_left, take_one, head?_drop, h]
  rfl

namespace Chart

/-- The states that the three operations of a chart produce. -/
inductive Justified (g : Grammar) (input : List Symbol) : State → Prop
  | predicted {n : Nat} {r : Rule} (i : Nat) (hr : (n, r) ∈ g.allNumbered) :
      Justified g input ⟨n, r, 0, i, i, []⟩
  | scanned {s : State} {a : Symbol} (hs : Justified g input s) (hnext : s.next? = some a)
      (ha : g.isTerminal a) (hread : input[s.finish]? = some a) : Justified g input s.scanned
  | advanced {s t : State} (hs : Justified g input s) (ht : Justified g input t)
      (hcomplete : t.next? = none) (hnext : s.next? = some t.rule.lhs)
      (hmeet : t.origin = s.finish) (hnew : (s.advanced t).key ≠ t.key) :
      Justified g input (s.advanced t)

namespace Justified

variable {g : Grammar} {input : List Symbol} {s : State}

lemma rule_mem (h : Justified g input s) : (s.number, s.rule) ∈ g.allNumbered := by
  induction h with
  | predicted i hr => exact hr
  | scanned _ _ _ _ ih => exact ih
  | advanced _ _ _ _ _ _ ih _ => exact ih

lemma dot_lt_of_next? {a : Symbol} (h : s.next? = some a) : s.dot < s.rule.rhs.length :=
  (List.getElem?_eq_some_iff.1 h).1

lemma dot_le (h : Justified g input s) : s.dot ≤ s.rule.rhs.length := by
  induction h with
  | predicted i hr => exact Nat.zero_le _
  | scanned _ hnext _ _ _ => exact dot_lt_of_next? hnext
  | advanced _ _ _ hnext _ _ _ _ => exact dot_lt_of_next? hnext

lemma isComplete_iff (h : Justified g input s) : s.isComplete = true ↔ s.next? = none := by
  have hle := h.dot_le
  simp only [State.isComplete, State.next?, decide_eq_true_eq, getElem?_eq_none_iff]
  omega

lemma dot_eq_of_complete (h : Justified g input s) (hnone : s.next? = none) :
    s.dot = s.rule.rhs.length :=
  of_decide_eq_true ((h.isComplete_iff).2 hnone)

/-- Every symbol left of the dot spans at least one symbol of the input. -/
lemma origin_add_dot_le (h : Justified g input s) : s.origin + s.dot ≤ s.finish := by
  induction h with
  | predicted i hr => exact Nat.le_refl _
  | @scanned s a _ _ _ _ ih =>
    simp only [State.scanned]
    omega
  | @advanced s t _ ht hcomplete _ hmeet _ ihs iht =>
    have hdot := ht.dot_eq_of_complete hcomplete
    have hpos := length_pos_iff.2 t.rule.rhs_ne_nil
    simp only [State.advanced]
    omega

lemma origin_lt_of_complete (h : Justified g input s) (hnone : s.next? = none) :
    s.origin < s.finish := by
  have hle := h.origin_add_dot_le
  have hdot := h.dot_eq_of_complete hnone
  have hpos := length_pos_iff.2 s.rule.rhs_ne_nil
  omega

lemma take_dot_succ {a : Symbol} (h : s.next? = some a) :
    s.rule.rhs.take (s.dot + 1) = s.rule.rhs.take s.dot ++ [a] := by
  rw [take_add_one, show s.rule.rhs[s.dot]? = some a from h]
  rfl

lemma finish_eq_of_dot_eq_zero (h : Justified g input s) (hdot : s.dot = 0) :
    s.finish = s.origin := by
  cases h with
  | predicted i hr => rfl
  | scanned => exact absurd hdot (Nat.succ_ne_zero _)
  | advanced => exact absurd hdot (Nat.succ_ne_zero _)

/-- Where the left-hand side of the extra rule occurs in no rule, only rules of the grammar advance
other states: the extra rule could advance only itself, over its own span. -/
lemma rule_mem_of_advanced (hγ : ∀ r ∈ g.rules, acceptSymbol ∉ r.rhs) {s t : State}
    (hs : Justified g input s) (ht : Justified g input t) (hcomplete : t.next? = none)
    (hnext : s.next? = some t.rule.lhs) (hmeet : t.origin = s.finish)
    (hnew : (s.advanced t).key ≠ t.key) : t.rule ∈ g.rules := by
  rcases mem_cons.1 ht.rule_mem with h | h
  · obtain ⟨htnumber, htrule⟩ := Prod.mk.inj h
    have hmem : acceptSymbol ∈ s.rule.rhs := by
      rw [htrule] at hnext
      exact mem_of_getElem? hnext
    rcases mem_cons.1 hs.rule_mem with h' | h'
    · obtain ⟨hsnumber, hsrule⟩ := Prod.mk.inj h'
      have hsdot : s.dot = 0 := by
        have hlt := dot_lt_of_next? hnext
        rw [hsrule] at hlt
        exact Nat.lt_one_iff.1 hlt
      have htdot : t.dot = 1 := by
        rw [ht.dot_eq_of_complete hcomplete, htrule]
        rfl
      refine absurd ?_ hnew
      simp only [State.key, State.advanced, Prod.mk.injEq]
      exact ⟨hsnumber.trans htnumber.symm, by omega,
        (hs.finish_eq_of_dot_eq_zero hsdot).symm.trans hmeet.symm⟩
    · exact absurd hmem (hγ s.rule (Grammar.mem_rules_of_mem_numbered h'))
  · exact Grammar.mem_rules_of_mem_numbered h

/-- A completed state advances a state at a symbol with rules, also where the left-hand side of the
extra rule occurs in a rule, as long as it has rules of its own there. -/
lemma isTerminal_lhs_of_advanced
    (hγ : ∀ r ∈ g.rules, acceptSymbol ∈ r.rhs → g.isTerminal acceptSymbol = false) {s t : State}
    (hs : Justified g input s) (ht : Justified g input t) (hnext : s.next? = some t.rule.lhs) :
    g.isTerminal t.rule.lhs = false := by
  rcases mem_cons.1 ht.rule_mem with h | h
  · obtain ⟨-, htrule⟩ := Prod.mk.inj h
    rw [htrule] at hnext ⊢
    have hmem : acceptSymbol ∈ s.rule.rhs := mem_of_getElem? hnext
    rcases mem_cons.1 hs.rule_mem with h' | h'
    · -- The extra rule waits for its own left-hand side, which is then the start symbol.
      rw [(Prod.mk.inj h').2] at hmem
      have hstart : acceptSymbol = g.start := mem_singleton.1 hmem
      change g.isTerminal acceptSymbol = false
      rw [hstart]
      exact g.isTerminal_start
    · exact hγ s.rule (Grammar.mem_rules_of_mem_numbered h') hmem
  · exact Grammar.isTerminal_lhs (Grammar.mem_rules_of_mem_numbered h)

/-- The symbols left of the dot derive the input between origin and finish. -/
theorem yields (hγ : ∀ r ∈ g.rules, acceptSymbol ∉ r.rhs) (h : Justified g input s) :
    g.Yields (s.rule.rhs.take s.dot) (between input s.origin s.finish) := by
  induction h with
  | predicted i hr =>
    rw [between_self, take_zero]
    exact .nil
  | @scanned s a hs hnext ha hread ih =>
    have hle : s.origin ≤ s.finish := le_trans (Nat.le_add_right _ _) hs.origin_add_dot_le
    change g.Yields (s.rule.rhs.take (s.dot + 1)) (between input s.origin (s.finish + 1))
    rw [take_dot_succ hnext, ← between_append input hle (Nat.le_succ _), between_succ hread]
    exact ih.append (.terminal ha .nil)
  | @advanced s t hs ht hcomplete hnext hmeet hnew ihs iht =>
    have hle : s.origin ≤ s.finish := le_trans (Nat.le_add_right _ _) hs.origin_add_dot_le
    have hlt : t.origin < t.finish := ht.origin_lt_of_complete hcomplete
    have hmem := rule_mem_of_advanced hγ hs ht hcomplete hnext hmeet hnew
    rw [ht.dot_eq_of_complete hcomplete, take_length] at iht
    have hlhs := Grammar.Yields.rule hmem iht .nil
    rw [append_nil] at hlhs
    change g.Yields (s.rule.rhs.take (s.dot + 1)) (between input s.origin t.finish)
    rw [take_dot_succ hnext, ← between_append input hle (hmeet ▸ hlt.le), ← hmeet]
    exact (hmeet ▸ ihs).append hlhs

end Justified

end Chart

end Lunify
