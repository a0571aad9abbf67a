import Mathlib
import Lunify.Proofs.Chart.TagFilter
import Lunify.Proofs.Grammar.Prefixes
import Lunify.Proofs.Tree.Derivation

/-!
# The token that no derivation can read

A chart holds states up to the last position whose tokens are viable, that is, begin a sentential form of
the grammar. So the token there is the first one that no derivation can read, and the terminals that the
states there wait for are all that could stand in its place (`unexpected_of_parse_eq_error`).

Every state is part of a sentential form (`Chart.Viable`): this goes from a state to the rules that it
predicts, and neither reading nor completing changes it. In the other direction a path to a terminal
(`Grammar.Offers`) is followed through the chart. It may end in a rule of a tag, which a chart leaves out
unless it fits the input; for this half the chart with all rules is used, which expects the same terminals.
-/

namespace Lunify

open List

namespace Chart

variable {g : Grammar} {input : List Symbol}

variable {s : State} {i : Nat} {a : Symbol}

/-! ### States are viable -/

/-- Whether the start symbol derives a form in which the rule of a state comes right after the input before
its origin. -/
def Viable (g : Grammar) (input : List Symbol) (s : State) : Prop :=
  ∃ rest, g.toContextFree.Derives [Symbol.nonterminal g.start]
    ((input.take s.origin).map Symbol.terminal ++ (s.rule.rhs.map g.letter ++ rest))

/-- The form in which the symbols left of the dot are expanded to what they span. -/
lemma Viable.derives (hviable : Viable g input s) (hγ : ∀ r ∈ g.rules, acceptSymbol ∉ r.rhs)
    (hs : Justified g input s) :
    ∃ rest, g.toContextFree.Derives [Symbol.nonterminal g.start]
      ((input.take s.finish).map Symbol.terminal ++ ((s.rule.rhs.drop s.dot).map g.letter ++ rest)) := by
  obtain ⟨rest, hderives⟩ := hviable
  have hle : s.origin ≤ s.finish := le_trans (Nat.le_add_right _ _) hs.origin_add_dot_le
  have hspan : input.take s.finish = input.take s.origin ++ between input s.origin s.finish := by
    have happend := between_append input (Nat.zero_le s.origin) hle
    simpa only [between, drop_zero] using happend.symm
  have hyields := (hs.yields hγ).derives.append_right ((s.rule.rhs.drop s.dot).map g.letter ++ rest)
  rw [← append_assoc, ← map_append, take_append_drop] at hyields
  refine ⟨rest, hderives.trans ?_⟩
  rw [hspan, map_append, append_assoc]
  exact hyields.append_left _

/-- A state predicts rules that are viable where it stands. -/
lemma Viable.predicted (hviable : Viable g input s) (hγ : ∀ r ∈ g.rules, acceptSymbol ∉ r.rhs)
    (hs : Justified g input s) {n : Nat} {r : Rule} (hr : r ∈ g.rules) (hnext : s.next? = some r.lhs) :
    Viable g input ⟨n, r, 0, s.finish, s.finish, []⟩ := by
  obtain ⟨rest, hderives⟩ := hviable.derives hγ hs
  obtain ⟨hlt, hget⟩ := List.getElem?_eq_some_iff.1 hnext
  have hletter : g.letter r.lhs = Symbol.nonterminal r.lhs :=
    (g.letter_eq_nonterminal_iff r.lhs r.lhs).2 ⟨Grammar.isTerminal_lhs hr, rfl⟩
  have hstep : g.toContextFree.Produces [Symbol.nonterminal r.lhs] (r.rhs.map g.letter) :=
    ⟨g.letterRule r, Grammar.Yields.letterRule_mem hr, ContextFreeRule.Rewrites.input_output⟩
  rw [drop_eq_getElem_cons hlt, hget, map_cons, hletter] at hderives
  refine ⟨(s.rule.rhs.drop (s.dot + 1)).map g.letter ++ rest, hderives.trans ?_⟩
  refine ContextFreeGrammar.Derives.append_left ?_ _
  exact (hstep.single.append_right ((s.rule.rhs.drop (s.dot + 1)).map g.letter ++ rest))

/-- Every state of a chart is viable. -/
theorem viable_of_mem {rulesOf : Predictor} (hfits : Predictor.Fits g rulesOf)
    (hγ : ∀ r ∈ g.rules, acceptSymbol ∉ r.rhs) (hi : i ≤ input.length)
    (hs : s ∈ (build g rulesOf input).getD i []) : Viable g input s := by
  induction i using Nat.strong_induction_on generalizing s with
  | _ i ih =>
    have hchart : ∀ j < i, ∀ s ∈ (build g rulesOf input).getD j [], Viable g input s :=
      fun j hj s hs => ih j hj (le_trans hj.le hi) hs
    have hjust : ∀ j < i, ∀ s ∈ (build g rulesOf input).getD j [], Justified g input s ∧ s.finish = j :=
      fun j hj s hs => justified_of_mem hfits (le_trans hj.le hi) hs
    rw [getD_build g rulesOf input hi] at hs
    refine (forall_mem_work
      (P := fun s => (Justified g input s ∧ s.finish = i) ∧ Viable g input s) ?_ ?_ s hs).2
    · rintro s ⟨hs, hviable⟩ t ht hnew
      refine ⟨justified_successors hfits hjust hs ht hnew, ?_⟩
      unfold successors at ht
      cases hnext : s.next? with
      | none =>
        -- A state that is completed keeps its rule and its origin.
        rw [hnext] at ht
        obtain ⟨u, hu, rfl⟩ := mem_map.1 ht
        have hu' := (mem_filter.1 hu).1
        rw [getD_extract] at hu'
        split at hu'
        · rename_i hlt
          exact hchart s.origin hlt u hu'
        · cases hu'
      | some a =>
        rw [hnext] at ht
        obtain ⟨⟨n, r⟩, hmem, rfl⟩ := mem_map.1 ht
        obtain ⟨hnumbered, rfl⟩ := hfits.mem hmem
        have hr := Grammar.mem_rules_of_mem_numbered hnumbered
        have hpredicted := hviable.predicted hγ hs.1 (n := n) hr hnext
        rwa [hs.2] at hpredicted
    · intro s hs
      refine ⟨justified_seeds hjust hs, ?_⟩
      cases i with
      | zero =>
        obtain rfl := mem_singleton.1 hs
        refine ⟨[], ?_⟩
        rw [← g.letter_start]
        exact .refl _
      | succ i =>
        obtain ⟨a, -, -, u, hu, -, rfl⟩ := mem_seeds_succ.1 hs
        exact hchart i (Nat.lt_succ_self i) u hu

/-! ### What is viable has states -/

/-- With all rules, the rules of the symbol after the dot are in the entry. -/
lemma exists_predicted (hi : i ≤ input.length) (hs : s ∈ plainEntry g input i) {r : Rule} (hr : r ∈ g.rules)
    (hnext : s.next? = some r.lhs) :
    ∃ t ∈ plainEntry g input i, t.rule = r ∧ t.dot = 0 := by
  obtain ⟨n, hn⟩ := Grammar.exists_mem_numbered hr
  have hkey : (n, 0, i) ∈ (plainEntry g input i).map State.key := by
    refine closed_build (fits_predictAll g) hi s hs ⟨n, r, 0, i, i, []⟩ ?_
    unfold successors
    rw [hnext]
    refine mem_map.2 ⟨(n, r), ?_, rfl⟩
    rw [predictAll_eq]
    exact mem_filter.2 ⟨hn, decide_eq_true rfl⟩
  obtain ⟨t, ht, -, hrule, hdot, -⟩ :=
    exists_of_key_mem (fits_predictAll g) hi hkey (mem_cons_of_mem _ hn)
  exact ⟨t, ht, hrule, hdot⟩

/-- A path to a terminal goes through the chart: if the symbols after the dot offer a terminal after a part of
the input that begins at the position of the state, a state behind that part waits for it. -/
theorem exists_waiting_of_offers {α w : List Symbol} (h : g.Offers α w a) {rest : List Symbol}
    (hinput : input.drop i = w ++ rest) (hi : i ≤ input.length) (hs : s ∈ plainEntry g input i)
    {β : List Symbol} (hα : s.rule.rhs.drop s.dot = α ++ β) :
    ∃ t ∈ plainEntry g input (i + w.length), t.next? = some a := by
  have hhead : ∀ {s : State} {b : Symbol} {α : List Symbol}, s.rule.rhs.drop s.dot = b :: α →
      s.next? = some b := by
    intro s b α hdrop
    rw [State.next?, ← head?_drop, hdrop]
    rfl
  induction h generalizing i rest s β with
  | here _ => exact ⟨s, hs, hhead hα⟩
  | inside hr _ ih =>
    obtain ⟨t, ht, rfl, hdot⟩ := exists_predicted hi hs hr (hhead hα)
    refine ih hinput hi ht (β := []) ?_
    rw [hdot, drop_zero, append_nil]
  | @after b _ α' u v hb _ ih =>
    have hinput' : input.drop i = u ++ (v ++ rest) := by rw [hinput, append_assoc]
    obtain ⟨t, ht, -, hrule, hdot, -⟩ :=
      exists_of_yields (fits_predictAll g) hb hinput' hi hs (β := α' ++ β) hα
    have hiu : i + u.length ≤ input.length := by
      have hlength := congrArg length hinput'
      simp only [length_drop, length_append] at hlength
      omega
    have hinput'' : input.drop (i + u.length) = v ++ rest := by
      rw [← drop_drop, hinput', drop_left]
    have hα' : t.rule.rhs.drop t.dot = α' ++ β := by
      rw [hrule, hdot, ← drop_drop, hα]
      rfl
    rw [length_append, ← Nat.add_assoc]
    exact ih hinput'' hiu ht hα'

/-- The terminals that can follow the input before a position are those that a state there waits for. -/
theorem exists_waiting_iff (hγ : ∀ r ∈ g.rules, acceptSymbol ∉ r.rhs) (hi : i ≤ input.length) (a : Symbol) :
    (∃ s ∈ plainEntry g input i, s.next? = some a ∧ g.isTerminal a = true) ↔
      g.Begins (input.take i ++ [a]) := by
  constructor
  · rintro ⟨s, hs, hnext, ha⟩
    obtain ⟨hjust, hfinish⟩ := justified_of_mem (fits_predictAll g) hi hs
    obtain ⟨rest, hderives⟩ := (viable_of_mem (fits_predictAll g) hγ hi hs).derives hγ hjust
    obtain ⟨hlt, hget⟩ := List.getElem?_eq_some_iff.1 hnext
    have hletter : g.letter a = Symbol.terminal a := (g.letter_eq_terminal_iff a a).2 ⟨ha, rfl⟩
    rw [drop_eq_getElem_cons hlt, hget, map_cons, hletter, hfinish] at hderives
    refine ⟨(s.rule.rhs.drop (s.dot + 1)).map g.letter ++ rest, ?_⟩
    rw [map_append, append_assoc]
    exact hderives
  · intro hbegins
    have hoffers := hbegins.offers
    have hinput : input.drop 0 = input.take i ++ input.drop i := by
      rw [drop_zero, take_append_drop]
    obtain ⟨t, ht, hnext⟩ := exists_waiting_of_offers hoffers hinput (Nat.zero_le _)
      (initial_mem g _ input) (β := []) (append_nil _).symm
    rw [Nat.zero_add, length_take, Nat.min_eq_left hi] at ht
    exact ⟨t, ht, hnext, hoffers.isTerminal⟩

/-- An entry holds a state exactly when the input before it is viable. -/
theorem exists_mem_iff (hγ : ∀ r ∈ g.rules, acceptSymbol ∉ r.rhs) (hi : i ≤ input.length) :
    (∃ s, s ∈ plainEntry g input i) ↔ g.Begins (input.take i) := by
  constructor
  · rintro ⟨s, hs⟩
    obtain ⟨hjust, hfinish⟩ := justified_of_mem (fits_predictAll g) hi hs
    obtain ⟨rest, hderives⟩ := (viable_of_mem (fits_predictAll g) hγ hi hs).derives hγ hjust
    rw [hfinish] at hderives
    exact ⟨_, hderives⟩
  · intro hbegins
    cases i with
    | zero => exact ⟨initial g, initial_mem g _ input⟩
    | succ i =>
      have hread : input[i]? = some input[i] := getElem?_eq_getElem hi
      rw [take_add_one, hread] at hbegins
      obtain ⟨s, hs, hnext, ha⟩ := (exists_waiting_iff hγ (Nat.le_of_succ_le hi) _).2 hbegins
      obtain ⟨t, ht, -⟩ := mem_map.1 (key_mem_of_scan hread ha hs hnext)
      exact ⟨t, ht⟩

/-! ### The error -/

/-- What a state expects: the terminal that it waits for, or one that begins a rule of the tag that it waits
for. -/
lemma mem_expected_iff {e : Entry} : a ∈ expected g e ↔
    ∃ s ∈ e, ∃ b, s.next? = some b ∧ (g.isTerminal b = true ∧ a = b ∨
      g.isTag b = true ∧ ∃ r ∈ g.rules, r.lhs = b ∧ r.first = a) := by
  rw [expected, Text.sorted, (mergeSort_perm _ _).mem_iff, mem_distinct, mem_flatMap]
  refine exists_congr fun s => and_congr_right fun _ => ?_
  cases s.next? with
  | none => simp
  | some b =>
    simp only [Option.some.injEq, exists_eq_left']
    have htag : g.isTag b = true → g.isTerminal b = false := by
      intro htag
      simp only [Grammar.isTag, Bool.and_eq_true, Bool.not_eq_true'] at htag
      exact htag.1
    by_cases hb : g.isTerminal b = true
    · have hnot : g.isTag b ≠ true := fun h => by rw [htag h] at hb; cases hb
      simp [hb, hnot]
    · by_cases hb' : g.isTag b = true
      · simp [hb, hb', Grammar.rulesFor, and_assoc]
      · simp [hb, hb']

/-- The terminals that an entry with all rules expects are those that its states wait for. -/
lemma mem_expected_plainEntry (hi : i ≤ input.length) :
    a ∈ expected g (plainEntry g input i) ↔
      ∃ s ∈ plainEntry g input i, s.next? = some a ∧ g.isTerminal a = true := by
  rw [mem_expected_iff]
  constructor
  · rintro ⟨s, hs, b, hnext, ⟨hb, rfl⟩ | ⟨htag, r, hr, rfl, rfl⟩⟩
    · exact ⟨s, hs, hnext, hb⟩
    · obtain ⟨t, ht, rfl, hdot⟩ := exists_predicted hi hs hr hnext
      exact ⟨t, ht, next?_of_dot_eq_zero hdot, isTerminal_first_of_isTag hr htag⟩
  · rintro ⟨s, hs, hnext, ha⟩
    exact ⟨s, hs, a, hnext, .inl ⟨ha, rfl⟩⟩

/-- The terminals that are expected are in ascending order, without repetitions. -/
lemma pairwise_expected (e : Entry) : (expected g e).Pairwise (· < ·) := by
  unfold expected
  generalize e.flatMap _ = l
  have hnodup : (Text.sorted (Text.distinct l)).Nodup :=
    (mergeSort_perm _ _).nodup_iff.2 (nodup_distinct l)
  refine ((pairwise_sorted (Text.distinct l)).and hnodup).imp fun {s t} h => ?_
  rw [le_eq_true_iff] at h
  by_contra hnot
  exact h.2 (List.le_antisymm h.1 (List.not_lt.1 hnot))

/-- The last position that holds a state holds one, and no later position does. -/
lemma furthest_build (g : Grammar) (rulesOf : Predictor) (input : List Symbol) :
    (∃ s, s ∈ (build g rulesOf input).getD (build g rulesOf input).furthest []) ∧
      ∀ i ≤ input.length, (∃ s, s ∈ (build g rulesOf input).getD i []) →
        i ≤ (build g rulesOf input).furthest := by
  generalize hchart : build g rulesOf input = chart
  have hsize : chart.size = input.length + 1 := hchart ▸ size_build g rulesOf input
  have hinitial : initial g ∈ chart.getD 0 [] := hchart ▸ initial_mem g rulesOf input
  have hholds : ∀ {i}, (!(chart.getD i []).isEmpty) = true ↔ ∃ s, s ∈ chart.getD i [] := by
    intro i
    rw [Bool.not_eq_true', isEmpty_eq_false_iff_exists_mem]
  unfold furthest
  rw [hsize]
  cases hfind : (range (input.length + 1)).reverse.find? fun i => !(chart.getD i []).isEmpty with
  | none =>
    rw [find?_eq_none] at hfind
    exact absurd (hholds.2 ⟨_, hinitial⟩) (hfind 0 (by simp))
  | some k =>
    have hk := find?_some hfind
    refine ⟨hholds.1 hk, fun i hi hs => ?_⟩
    obtain ⟨-, j, hj, hjk, hlater⟩ := find?_eq_some_iff_getElem.1 hfind
    simp only [getElem_reverse, getElem_range, length_range, length_reverse] at hj hjk hlater
    by_contra hlt
    rw [Option.getD_some] at hlt
    have hnone := hlater (input.length - i) (by omega)
    rw [show input.length + 1 - 1 - (input.length - i) = i by omega, hholds.2 hs] at hnone
    cases hnone

/-- The terminals that a chart expects where it ends, with the last position that is viable. -/
theorem expected_ofSymbols_furthest (hγ : ∀ r ∈ g.rules, acceptSymbol ∉ r.rhs) (input : List Symbol) :
    let k := (ofSymbols g input).furthest
    k ≤ input.length ∧ (∀ j ≤ input.length, g.Begins (input.take j) ↔ j ≤ k) ∧
      ∀ a, a ∈ expected g ((ofSymbols g input).getD k []) ↔ g.Begins (input.take k ++ [a]) := by
  intro k
  have hreserves : ReservesAccept g := fun r hr _ hfirst =>
    hγ r hr (hfirst ▸ head_mem r.rhs_ne_nil)
  have hk : k = (build g (predictAll g.expansions) input).furthest := furthest_ofSymbols hreserves
  have hle : k ≤ input.length := furthest_build_le _
  obtain ⟨hholds, hlast⟩ := furthest_build g (predictAll g.expansions) input
  rw [← hk] at hholds hlast
  refine ⟨hle, fun j hj => ⟨fun h => hlast j hj ((exists_mem_iff hγ hj).2 h), fun h => ?_⟩, fun a => ?_⟩
  · have hbegins := (exists_mem_iff hγ hle).1 hholds
    rw [← take_append_drop j (input.take k), take_take, Nat.min_eq_left h] at hbegins
    exact hbegins.of_append
  · rw [expected_ofSymbols hreserves hle, mem_expected_plainEntry hle, exists_waiting_iff hγ hle]

end Chart

/-- Tokens that end with a line break and have no tree are rejected at the first token that no derivation can
read, after the longest viable beginning of the input. The terminals that are expected there are those that
could follow this beginning, in ascending order. -/
theorem unexpected_of_parse_eq_error (g : Grammar) (hγ : ∀ r ∈ g.rules, acceptSymbol ∉ r.rhs)
    (tokens : List Token) (hnewline : endsWithNewline tokens = true) (e : ParseError)
    (herror : parse g tokens = .error e) :
    ∃ k ≤ tokens.length, ∃ expected,
      (∀ j ≤ tokens.length, g.Begins ((tokens.map Token.symbol).take j) ↔ j ≤ k) ∧
      e = .unexpected tokens[k]? expected ∧ expected.Pairwise (· < ·) ∧
      ∀ t, t ∈ expected ↔ g.Begins ((tokens.map Token.symbol).take k ++ [t]) := by
  have hnone : (recognize g tokens).accepting? = none := by
    cases haccept : (recognize g tokens).accepting? with
    | none => rfl
    | some s =>
      obtain ⟨tree, htree, -⟩ := exists_parse_eq_ok hγ hnewline haccept
      rw [htree] at herror
      cases herror
  obtain ⟨hle, hlast, hexpected⟩ := Chart.expected_ofSymbols_furthest hγ (tokens.map Token.symbol)
  rw [List.length_map] at hle hlast
  refine ⟨_, hle, _, hlast, ?_, Chart.pairwise_expected _, hexpected⟩
  simp only [parse, hnewline, if_true, hnone, Except.error.injEq] at herror
  exact herror.symm

/-- The rules of the tag `T` do not fit the line break, and are named in the error all the same. -/
theorem unexpected_of_parse_eq_error_tag :
    let a := utf8 "a"
    let tokens : List Token := [⟨.keyword, a, ⟨0, 0⟩⟩, ⟨.divider, newlineText, ⟨0, 1⟩⟩]
    ∃ g, Grammar.load (utf8 "S -> a T newline | a S\nT -> c | b") = .ok g ∧
      (∀ r ∈ g.rules, acceptSymbol ∉ r.rhs) ∧ endsWithNewline tokens = true ∧
      parse g tokens = .error (.unexpected tokens[1]? [a, utf8 "b", utf8 "c"]) ∧
      g.Begins [a] ∧ ¬ g.Begins [a, newlineText] ∧ ∀ t, t ∈ [a, utf8 "b", utf8 "c"] ↔ g.Begins [a, t] := by
  intro a tokens
  let g : Grammar := ⟨[⟨utf8 "S", [a, utf8 "T", newlineText], by decide⟩, ⟨utf8 "S", [a, utf8 "S"], by decide⟩,
    ⟨utf8 "T", [utf8 "c"], by decide⟩, ⟨utf8 "T", [utf8 "b"], by decide⟩], by decide⟩
  have hγ : ∀ r ∈ g.rules, acceptSymbol ∉ r.rhs := by decide +kernel
  have hnewline : endsWithNewline tokens = true := by decide +kernel
  have hparse : parse g tokens = .error (.unexpected tokens[1]? [a, utf8 "b", utf8 "c"]) := by
    have hnone : (recognize g tokens).accepting? = none := by
      rw [← Option.isNone_iff_eq_none]
      decide +kernel
    have hfurthest : (recognize g tokens).furthest = 1 := by decide +kernel
    have hexpected : Chart.expected g ((recognize g tokens).getD 1 []) = [a, utf8 "b", utf8 "c"] := by cbv
    simp only [parse, hnewline, if_true, hnone, syntaxError, hfurthest, hexpected]
  obtain ⟨k, hk, expected, hlast, herror, -, hexpected⟩ :=
    unexpected_of_parse_eq_error g hγ tokens hnewline _ hparse
  obtain ⟨htoken, rfl⟩ := ParseError.unexpected.inj herror
  obtain rfl : k = 1 := by
    have hk' : k ≤ 2 := hk
    obtain rfl | rfl | rfl : k = 0 ∨ k = 1 ∨ k = 2 := by omega
    · exact absurd htoken (by decide +kernel)
    · rfl
    · exact absurd htoken (by decide +kernel)
  refine ⟨g, by decide +kernel, hγ, hnewline, hparse, ?_, ?_, hexpected⟩
  · exact (hlast 1 (by decide)).2 (Nat.le_refl 1)
  · intro hbegins
    have hle := (hlast 2 (by decide)).1 hbegins
    omega

end Lunify
