import Lunify.Grammar.Text
import Lunify.Proofs.Chart.Recognition

/-!
# Leaving out rules of tags

A chart predicts a rule of a tag only when the rule begins with the next symbol of the input. Here this
is compared with the predictor that leaves out nothing (`Chart.predictAll`): at every position the two
entries hold the same states in the same order, apart from the states that nothing ever came of
(`Chart.isDead`). So the same inputs are accepted, with the same accepting state, and parsing gives the
same tree or the same error.

A state that nothing comes of waits for a terminal that is not the next symbol. The one thing that could
advance it is the extra rule `γ -> start`, if `γ` were that terminal. Hence no rule of a tag may begin
with `γ`, and with such a rule the two predictors do differ.
-/

namespace Lunify

open List

namespace Chart

variable {s : State} {ahead : Option Symbol} {i : Nat}

/-! ### Work lists without some of their states -/

section WorkList

variable {step step' : State → List State} {keep : State → Bool} {P : State → Prop}

/-- Putting states into a queue and leaving some out can be done in either order, if states with one key
are left out together. -/
lemma enqueue_filter (hkeep : ∀ s t, P s → P t → s.key = t.key → keep s = keep t)
    {seen queue new : List State} (hP : ∀ s ∈ seen ++ queue, P s) (hnew : ∀ s ∈ new, P s) :
    enqueue (seen.filter keep) (queue.filter keep) (new.filter keep) =
      (enqueue seen queue new).filter keep := by
  induction new generalizing queue with
  | nil => rfl
  | cons s new ih =>
    obtain ⟨hs, hnew⟩ := forall_mem_cons.1 hnew
    have hkey : keep s = true → (s.key ∈ (seen.filter keep ++ queue.filter keep).map State.key ↔
        s.key ∈ (seen ++ queue).map State.key) := by
      intro hks
      rw [← filter_append]
      constructor
      · intro h
        exact (filter_sublist.map State.key).subset h
      · intro h
        obtain ⟨t, ht, hts⟩ := mem_map.1 h
        have hkt : keep t = true := (hkeep t s (hP t ht) hs hts).trans hks
        exact mem_map.2 ⟨t, mem_filter.2 ⟨ht, hkt⟩, hts⟩
    have hP' : ∀ t ∈ seen ++ (queue ++ [s]), P t := by
      intro t ht
      rw [← append_assoc] at ht
      rcases mem_append.1 ht with h | h
      · exact hP t h
      · exact mem_singleton.1 h ▸ hs
    rw [enqueue]
    by_cases hks : keep s = true
    · rw [filter_cons_of_pos hks, enqueue]
      simp only [seen_iff, hkey hks]
      split
      · exact ih hP hnew
      · rw [← ih hP' hnew, filter_append, filter_singleton, hks]
        rfl
    · rw [filter_cons_of_neg hks]
      split
      · exact ih hP hnew
      · rw [← ih hP' hnew, filter_append, filter_singleton, Bool.eq_false_iff.2 hks]
        simp

/-- A work list that leaves out states from which there are no steps holds all the other states, in the
same order. -/
theorem work_filter (hkeep : ∀ s t, P s → P t → s.key = t.key → keep s = keep t)
    (hstep : ∀ s, P s → ∀ t ∈ step s, P t)
    (hlive : ∀ s, P s → keep s = true → step' s = (step s).filter keep)
    (hdead : ∀ s, P s → keep s = false → step s = []) {fuel fuel' : Nat} (hfuel : fuel ≤ fuel')
    {seen queue : List State} (hP : ∀ s ∈ seen ++ queue, P s) (hends : Ends step fuel seen queue) :
    work step' fuel' (seen.filter keep) (queue.filter keep) =
      (work step fuel seen queue).filter keep := by
  induction fuel generalizing fuel' seen queue with
  | zero =>
    cases queue with
    | nil => rw [filter_nil, work_nil, work_nil, filter_reverse]
    | cons s queue => exact hends.elim
  | succ fuel ih =>
    cases queue with
    | nil => rw [filter_nil, work_nil, work_nil, filter_reverse]
    | cons s queue =>
      have hs : P s := hP s (mem_append_right _ mem_cons_self)
      have hmoved : ∀ t ∈ (s :: seen) ++ queue, P t := fun t ht =>
        hP t (perm_middle.mem_iff.2 ht)
      have hnext : ∀ t ∈ (s :: seen) ++ enqueue (s :: seen) queue (step s), P t :=
        forall_mem_move (fun s hs t ht _ => hstep s hs t ht) hP
      rw [work]
      by_cases hks : keep s = true
      · obtain ⟨fuel', rfl⟩ : ∃ f, fuel' = f + 1 := ⟨fuel' - 1, by omega⟩
        rw [filter_cons_of_pos hks, work, hlive s hs hks,
          ← ih (Nat.le_of_succ_le_succ hfuel) hnext hends, ← enqueue_filter hkeep hmoved (hstep s hs),
          filter_cons_of_pos hks]
      · -- The state is taken from the longer queue only, and nothing is put into it.
        have hnone : enqueue (s :: seen) queue (step s) = queue := by
          rw [hdead s hs (Bool.eq_false_iff.2 hks), enqueue]
        rw [filter_cons_of_neg hks, ← ih (Nat.le_of_succ_le hfuel) hnext hends, hnone,
          filter_cons_of_neg hks]

end WorkList

/-! ### The two predictors -/

/-- Predicts all rules of a symbol. -/
def predictAll (table : List (Symbol × Expansion)) : Predictor := fun s _ =>
  (table.lookup s).elim [] Expansion.rules

/-- Whether a state stands at the beginning of a rule of a tag that does not begin with the given symbol of
the input. At the end of the input no rule does. -/
def isDead (g : Grammar) (ahead : Option Symbol) (s : State) : Bool :=
  s.number ≠ 0 && s.dot = 0 && g.isTag s.rule.lhs && some s.rule.first ≠ ahead

/-- What is found for a symbol in the table of expansions. -/
lemma lookup_expansions (g : Grammar) (s : Symbol) :
    g.expansions.lookup s = if g.isTerminal s = true then none
      else some ⟨g.isTag s, g.numbered.filter fun (_, r) => r.lhs = s⟩ := by
  unfold Grammar.expansions
  rw [lookup_tabulated (fun s => (⟨g.isTag s, g.numbered.filter fun (_, r) => r.lhs = s⟩ : Expansion))]
  simp only [mem_symbols_iff]
  by_cases hs : g.isTerminal s = true
  · simp [hs]
  · simp [hs]

/-- All rules of a symbol are those that have it on the left. -/
lemma predictAll_eq (g : Grammar) (s : Symbol) (ahead : Option Symbol) :
    predictAll g.expansions s ahead = g.numbered.filter fun (_, r) => r.lhs = s := by
  rw [predictAll, lookup_expansions]
  split
  · rename_i hs
    symm
    rw [Option.elim_none, filter_eq_nil_iff]
    rintro ⟨n, r⟩ hmem hlhs
    have hterminal := Grammar.isTerminal_lhs (Grammar.mem_rules_of_mem_numbered hmem)
    rw [of_decide_eq_true hlhs, hs] at hterminal
    cases hterminal
  · rfl

/-- The predictor that leaves out nothing is one that charts can rely on. -/
theorem fits_predictAll (g : Grammar) : Predictor.Fits g (predictAll g.expansions) where
  mem := fun {s ahead n r} h => by
    rw [predictAll_eq] at h
    obtain ⟨hmem, hlhs⟩ := mem_filter.1 h
    exact ⟨hmem, of_decide_eq_true hlhs⟩
  complete := fun {ahead n r} hmem _ => by
    rw [predictAll_eq]
    exact mem_filter.2 ⟨hmem, decide_eq_true rfl⟩

variable {g : Grammar} {input : List Symbol}

lemma number_ne_zero {n : Nat} {r : Rule} (h : (n, r) ∈ g.numbered) : n ≠ 0 := by
  have hpos := ((g.mem_numbered_iff n r).1 h).1
  omega

/-- The states at the beginning of the predicted rules are those at the beginning of all rules, less the
dead ones. -/
lemma predict_eq_filter (s : Symbol) (ahead : Option Symbol) (i : Nat) :
    (predict g.expansions s ahead).map (fun (n, r) => (⟨n, r, 0, i, i, []⟩ : State)) =
      ((predictAll g.expansions s ahead).map fun (n, r) => (⟨n, r, 0, i, i, []⟩ : State)).filter
        fun t => !isDead g ahead t := by
  rw [filter_map]
  congr 1
  unfold predict predictAll
  rw [lookup_expansions]
  by_cases hs : g.isTerminal s = true
  · rw [if_pos hs]
    rfl
  · have hdead : ∀ p ∈ g.numbered.filter (fun (_, r) => r.lhs = s),
        ((fun t => !isDead g ahead t) ∘ fun (n, r) => (⟨n, r, 0, i, i, []⟩ : State)) p =
          (!g.isTag s || decide (some p.2.first = ahead)) := by
      rintro ⟨n, r⟩ hp
      obtain ⟨hmem, hlhs⟩ := mem_filter.1 hp
      have hn := number_ne_zero hmem
      simp [isDead, hn, of_decide_eq_true hlhs]
    rw [if_neg hs]
    simp only [Option.elim_some]
    rw [filter_congr hdead]
    by_cases htag : g.isTag s = true
    · simp [htag]
    · simp [htag]

lemma isTerminal_first_of_isTag {r : Rule} (hr : r ∈ g.rules) (htag : g.isTag r.lhs = true) :
    g.isTerminal r.first = true := by
  simp only [Grammar.isTag, Bool.and_eq_true, all_eq_true] at htag
  have hall := htag.2 r hr
  simp only [Bool.or_eq_true, decide_eq_true_eq, ne_eq, not_true_eq_false, false_or,
    all_eq_true] at hall
  exact hall _ (head_mem _)

/-- The symbol after the dot of a state at the beginning of its rule is the first one of the rule. -/
lemma next?_of_dot_eq_zero (h : s.dot = 0) : s.next? = some s.rule.first := by
  rw [State.next?, h, Rule.first, ← head?_eq_getElem?, head?_eq_some_head]

/-- What a dead state is: it waits for a terminal that begins a rule of a tag and is not the next symbol
of the input. -/
lemma isDead_spec (hs : (s.number, s.rule) ∈ g.allNumbered) (hdead : isDead g ahead s = true) :
    s.rule ∈ g.rules ∧ g.isTag s.rule.lhs = true ∧
      s.next? = some s.rule.first ∧ g.isTerminal s.rule.first = true ∧ some s.rule.first ≠ ahead := by
  simp only [isDead, Bool.and_eq_true, decide_eq_true_eq, ne_eq] at hdead
  obtain ⟨⟨⟨hnumber, hdot⟩, htag⟩, hahead⟩ := hdead
  have hrule : s.rule ∈ g.rules := by
    rcases mem_cons.1 hs with h | h
    · exact absurd (Prod.mk.inj h).1 hnumber
    · exact Grammar.mem_rules_of_mem_numbered h
  exact ⟨hrule, htag, next?_of_dot_eq_zero hdot, isTerminal_first_of_isTag hrule htag, hahead⟩

lemma isDead_of_dot_ne_zero (h : s.dot ≠ 0) : isDead g ahead s = false := by
  simp [isDead, h]

lemma isDead_of_mem_seeds {chart : Chart} (hs : s ∈ seeds g input chart i) : isDead g ahead s = false := by
  cases i with
  | zero =>
    obtain rfl := mem_singleton.1 hs
    rfl
  | succ i =>
    obtain ⟨a, -, -, u, -, -, rfl⟩ := mem_seeds_succ.1 hs
    exact isDead_of_dot_ne_zero (Nat.succ_ne_zero u.dot)

/-! ### Entries -/

/-- Leaving out the dead states of an entry leaves those that wait for a symbol which no dead state waits
for. -/
lemma waiting_filter {e : Entry} {a : Symbol} (h : ∀ s ∈ e, isDead g ahead s = true → s.next? ≠ some a) :
    waiting (e.filter fun s => !isDead g ahead s) a = waiting e a := by
  unfold waiting
  rw [filter_filter]
  refine filter_congr ?_
  intro s hs
  by_cases hdead : isDead g ahead s = true
  · simp [hdead, h s hs hdead]
  · simp [hdead]

/-- Whether the left-hand side of the extra rule begins no rule of a tag. -/
def ReservesAccept (g : Grammar) : Prop :=
  ∀ r ∈ g.rules, g.isTag r.lhs = true → r.first ≠ acceptSymbol

/-- No dead state waits for the left-hand side of a rule. -/
lemma next?_ne_lhs (hγ : ReservesAccept g) {t : State} (hs : (s.number, s.rule) ∈ g.allNumbered)
    (ht : (t.number, t.rule) ∈ g.allNumbered) (hdead : isDead g ahead t = true) : t.next? ≠ some s.rule.lhs := by
  obtain ⟨hrule, htag, hnext, hterminal, -⟩ := isDead_spec ht hdead
  rw [hnext, ne_eq, Option.some.injEq]
  intro heq
  rcases mem_cons.1 hs with h | h
  · rw [(Prod.mk.inj h).2] at heq
    exact hγ t.rule hrule htag heq
  · rw [heq, Grammar.isTerminal_lhs (Grammar.mem_rules_of_mem_numbered h)] at hterminal
    cases hterminal

/-- The entry at a position when no rule is left out. -/
def plainEntry (g : Grammar) (input : List Symbol) (i : Nat) : Entry :=
  (build g (predictAll g.expansions) input).getD i []

lemma rule_mem_plainEntry (hi : i ≤ input.length) (hs : s ∈ plainEntry g input i) :
    (s.number, s.rule) ∈ g.allNumbered :=
  (justified_of_mem (fits_predictAll g) hi hs).1.rule_mem

/-- What a state adds to an entry, when the entries before are known to differ in dead states only. -/
lemma successors_eq_filter (hγ : ReservesAccept g) (hi : i ≤ input.length)
    (hbefore : ∀ j < i, (ofSymbols g input).getD j [] =
      (plainEntry g input j).filter fun s => !isDead g input[j]? s)
    (hs : (s.number, s.rule) ∈ g.allNumbered) :
    successors (predict g.expansions) ((ofSymbols g input).extract 0 i) i input[i]? s =
      (successors (predictAll g.expansions)
        ((build g (predictAll g.expansions) input).extract 0 i) i input[i]? s).filter
          fun t => !isDead g input[i]? t := by
  unfold successors
  cases s.next? with
  | none =>
    have hmoved : ∀ t ∈ (waiting (((build g (predictAll g.expansions) input).extract 0 i).getD
        s.origin []) s.rule.lhs).map (·.advanced s), (!isDead g input[i]? t) = true := by
      intro t ht
      obtain ⟨u, -, rfl⟩ := mem_map.1 ht
      rw [isDead_of_dot_ne_zero (Nat.succ_ne_zero u.dot)]
      rfl
    simp only
    rw [filter_eq_self.2 hmoved, getD_extract, getD_extract]
    split
    · rename_i hlt
      rw [hbefore s.origin hlt, waiting_filter]
      · rfl
      · intro t ht hdead
        exact next?_ne_lhs hγ hs (rule_mem_plainEntry (by omega) ht) hdead
    · rfl
  | some next => exact predict_eq_filter next input[i]? i

/-- The entries of a chart are those with all rules, in the same order, less the dead states. -/
theorem getD_ofSymbols (hγ : ReservesAccept g) (hi : i ≤ input.length) :
    (ofSymbols g input).getD i [] =
      (plainEntry g input i).filter fun s => !isDead g input[i]? s := by
  induction i using Nat.strong_induction_on with
  | _ i ih =>
    have hbefore : ∀ j < i, (ofSymbols g input).getD j [] =
        (plainEntry g input j).filter fun s => !isDead g input[j]? s :=
      fun j hj => ih j hj (le_trans hj.le hi)
    have hseeds : seeds g input (ofSymbols g input) i =
        (seeds g input (build g (predictAll g.expansions) input) i).filter
          fun s => !isDead g input[i]? s := by
      rw [filter_eq_self.2 fun s hs => by rw [isDead_of_mem_seeds hs]; rfl]
      cases i with
      | zero => rfl
      | succ i =>
        simp only [seeds]
        cases hread : input[i]? with
        | none => rfl
        | some a =>
          simp only [Option.elim_some]
          rw [hbefore i (Nat.lt_succ_self i)]
          change scan g _ a = scan g (plainEntry g input i) a
          unfold scan
          rw [waiting_filter]
          -- No dead state reads a symbol.
          intro s hs hdead
          obtain ⟨-, -, hnext, -, hahead⟩ :=
            isDead_spec (rule_mem_plainEntry (Nat.le_of_succ_le hi) hs) hdead
          rw [hnext, ← hread]
          exact hahead
    unfold plainEntry ofSymbols
    rw [getD_build _ _ _ hi, getD_build _ _ _ hi]
    refine Eq.trans (congrArg _ hseeds) ?_
    refine work_filter (P := fun s => (s.number, s.rule) ∈ g.allNumbered) ?_ ?_ ?_ ?_
      (Nat.le_refl _) ?_ (ends_build (fits_predictAll g) hi)
    · intro s t hs ht hkey
      simp only [State.key, Prod.mk.injEq] at hkey
      obtain ⟨hnumber, hdot, -⟩ := hkey
      rw [← hnumber] at ht
      rw [isDead, isDead, hnumber, hdot, Grammar.rule_eq_of_mem_allNumbered hs ht]
    · intro s hs t ht
      unfold successors at ht
      split at ht
      · obtain ⟨u, hu, rfl⟩ := mem_map.1 ht
        have hu' := (mem_filter.1 hu).1
        rw [getD_extract] at hu'
        split at hu'
        · have horigin : s.origin ≤ input.length := by omega
          exact (justified_of_mem (fits_predictAll g) horigin hu').1.rule_mem
        · cases hu'
      · obtain ⟨⟨n, r⟩, hmem, rfl⟩ := mem_map.1 ht
        exact mem_cons_of_mem _ ((fits_predictAll g).mem hmem).1
    · intro s hs _
      exact successors_eq_filter hγ hi hbefore hs
    · intro s hs hdead
      obtain ⟨-, -, hnext, hterminal, -⟩ := isDead_spec hs (by simpa using hdead)
      unfold successors
      rw [hnext]
      simp only [predictAll, lookup_expansions, hterminal, if_true, Option.elim_none, map_nil]
    · intro s hs
      exact (justified_seeds (fun j hj s hs => justified_of_mem (fits_predictAll g)
        (le_trans hj.le hi) hs) hs).1.rule_mem

/-! ### Accepted inputs -/

/-- The accepting states are the same. -/
theorem accepting?_ofSymbols (hγ : ReservesAccept g) :
    (ofSymbols g input).accepting? = (build g (predictAll g.expansions) input).accepting? := by
  unfold accepting? ofSymbols
  rw [back_build, back_build]
  change ((ofSymbols g input).getD input.length []).find? _ = (plainEntry g input input.length).find? _
  rw [getD_ofSymbols hγ (Nat.le_refl _), find?_filter]
  congr 1
  funext s
  by_cases hnumber : s.number = 0
  · simp [isDead, hnumber]
  · simp [hnumber]

/-! ### Syntax errors -/

/-- Removing repetitions leaves none. -/
lemma nodup_distinct (l : List Text) : (Text.distinct l).Nodup := by
  have hfold : ∀ (l acc : List Text), acc.Nodup →
      (l.foldl (fun seen t => if seen.contains t then seen else seen ++ [t]) acc).Nodup := by
    intro l
    induction l with
    | nil => exact fun acc h => h
    | cons t l ih =>
      intro acc h
      rw [foldl_cons]
      refine ih _ ?_
      split
      · exact h
      · rename_i ht
        rw [contains_iff_mem] at ht
        rw [← concat_eq_append]
        exact h.concat ht
  exact hfold l [] nodup_nil

lemma le_eq_true_iff (s t : Text) : Text.le s t = true ↔ s ≤ t := by
  rw [Text.le, Bool.not_eq_true', lex_eq_false_iff_ge]

lemma pairwise_sorted (l : List Text) : (Text.sorted l).Pairwise fun s t => Text.le s t = true := by
  refine pairwise_mergeSort ?_ ?_ l
  · intro s t u hst htu
    rw [le_eq_true_iff] at hst htu ⊢
    exact List.le_trans hst htu
  · intro s t
    rw [Bool.or_eq_true, le_eq_true_iff, le_eq_true_iff]
    exact List.le_total s t

/-- Two lists with the same elements are the same when they are sorted without repetitions. -/
lemma sorted_distinct_congr {l l' : List Text} (h : ∀ t, t ∈ l ↔ t ∈ l') :
    Text.sorted (Text.distinct l) = Text.sorted (Text.distinct l') := by
  have hperm : (Text.sorted (Text.distinct l)).Perm (Text.sorted (Text.distinct l')) := by
    refine (mergeSort_perm _ _).trans (List.Perm.trans ?_ (mergeSort_perm _ _).symm)
    refine (perm_ext_iff_of_nodup (nodup_distinct l) (nodup_distinct l')).2 ?_
    intro t
    rw [mem_distinct, mem_distinct, h]
  refine hperm.eq_of_pairwise ?_ (pairwise_sorted _) (pairwise_sorted _)
  intro s t _ _ hst hts
  rw [le_eq_true_iff] at hst hts
  exact List.le_antisymm hst hts

/-- A dead state is there because another state waits for its symbol. -/
lemma exists_waiting_of_isDead (hi : i ≤ input.length) (hs : s ∈ plainEntry g input i)
    (hdead : isDead g ahead s = true) :
    ∃ u ∈ plainEntry g input i, u.next? = some s.rule.lhs := by
  unfold plainEntry at hs ⊢
  rw [getD_build _ _ _ hi] at hs ⊢
  rcases exists_of_mem_work hs with h | ⟨u, hu, h⟩
  · rw [isDead_of_mem_seeds (mem_append.1 h |>.resolve_left not_mem_nil)] at hdead
    cases hdead
  · refine ⟨u, hu, ?_⟩
    unfold successors at h
    cases hnext : u.next? with
    | none =>
      rw [hnext] at h
      obtain ⟨v, -, rfl⟩ := mem_map.1 h
      rw [isDead_of_dot_ne_zero (Nat.succ_ne_zero v.dot)] at hdead
      cases hdead
    | some a =>
      rw [hnext] at h
      obtain ⟨⟨n, r⟩, hmem, rfl⟩ := mem_map.1 h
      rw [((fits_predictAll g).mem hmem).2]

/-- The terminals with which an input can go on are the same. -/
lemma expected_ofSymbols (hγ : ReservesAccept g) (hi : i ≤ input.length) :
    expected g ((ofSymbols g input).getD i []) = expected g (plainEntry g input i) := by
  unfold expected
  refine sorted_distinct_congr fun a => ?_
  rw [getD_ofSymbols hγ hi, mem_flatMap, mem_flatMap]
  constructor
  · rintro ⟨s, hs, ha⟩
    exact ⟨s, (mem_filter.1 hs).1, ha⟩
  · rintro ⟨s, hs, ha⟩
    by_cases hdead : isDead g input[i]? s = true
    · -- What a dead state waits for is offered by the tag that it belongs to.
      obtain ⟨hrule, htag, hnext, hterminal, -⟩ := isDead_spec (rule_mem_plainEntry hi hs) hdead
      obtain ⟨u, hu, hunext⟩ := exists_waiting_of_isDead hi hs hdead
      have hlhs := Grammar.isTerminal_lhs hrule
      have hulive : isDead g input[i]? u = false := by
        rw [Bool.eq_false_iff]
        intro hudead
        obtain ⟨-, -, hfirst, hufirst, -⟩ := isDead_spec (rule_mem_plainEntry hi hu) hudead
        rw [Option.some.inj (hfirst.symm.trans hunext), hlhs] at hufirst
        cases hufirst
      refine ⟨u, mem_filter.2 ⟨hu, by rw [hulive]; rfl⟩, ?_⟩
      simp only [hnext, hterminal, if_true, mem_singleton] at ha
      simp only [hunext, hlhs, htag, Bool.false_eq_true, if_false, if_true]
      rw [ha]
      exact mem_map_of_mem (mem_filter.2 ⟨hrule, decide_eq_true rfl⟩)
    · exact ⟨s, mem_filter.2 ⟨hs, by simpa using hdead⟩, ha⟩

/-- An entry is empty exactly when the other one is. -/
lemma isEmpty_ofSymbols (hγ : ReservesAccept g) (hi : i ≤ input.length) :
    ((ofSymbols g input).getD i []).isEmpty = (plainEntry g input i).isEmpty := by
  rw [getD_ofSymbols hγ hi]
  cases hseeds : seeds g input (build g (predictAll g.expansions) input) i with
  | nil =>
    have hempty : plainEntry g input i = [] := by
      unfold plainEntry
      rw [getD_build _ _ _ hi, hseeds, entry, work_nil]
      rfl
    rw [hempty]
    rfl
  | cons s rest =>
    have hs : s ∈ seeds g input (build g (predictAll g.expansions) input) i :=
      hseeds ▸ mem_cons_self
    have hmem : s ∈ plainEntry g input i := by
      unfold plainEntry
      rw [getD_build _ _ _ hi]
      exact mem_work hs
    have hlive : s ∈ (plainEntry g input i).filter fun s => !isDead g input[i]? s :=
      mem_filter.2 ⟨hmem, by rw [isDead_of_mem_seeds hs]; rfl⟩
    rw [isEmpty_eq_false_iff_exists_mem.2 ⟨s, hlive⟩,
      isEmpty_eq_false_iff_exists_mem.2 ⟨s, hmem⟩]

/-- The last position that holds a state is the same. -/
lemma furthest_ofSymbols (hγ : ReservesAccept g) :
    (ofSymbols g input).furthest = (build g (predictAll g.expansions) input).furthest := by
  unfold furthest
  rw [show (ofSymbols g input).size = input.length + 1 from size_build g _ input, size_build]
  rw [← head?_filter, ← head?_filter]
  refine congrArg (fun l => (head? l).getD 0) (filter_congr fun i hi => ?_)
  have hi' : i ≤ input.length := by
    rw [mem_reverse, mem_range] at hi
    omega
  rw [isEmpty_ofSymbols hγ hi']
  rfl

/-- The last position that holds a state is a position of the input. -/
lemma furthest_build_le (rulesOf : Predictor) : (build g rulesOf input).furthest ≤ input.length := by
  unfold furthest
  rw [size_build]
  cases hfind : (range (input.length + 1)).reverse.find?
      fun i => !((build g rulesOf input).getD i []).isEmpty with
  | none => exact Nat.zero_le _
  | some i =>
    have hi := mem_of_find?_eq_some hfind
    rw [mem_reverse, mem_range] at hi
    exact Nat.le_of_lt_succ hi

end Chart

/-! ### Parsing -/

/-- The tree of a token list, found with a given predictor. -/
def parseWith (g : Grammar) (rulesOf : Chart.Predictor) (tokens : List Token) :
    Except ParseError Tree :=
  if endsWithNewline tokens then
    let chart := Chart.build g rulesOf (tokens.map Token.symbol)
    match chart.accepting? with
    | none => .error (syntaxError g chart tokens)
    | some accepting =>
      match accepting.back with
      | [] => .error (.internal (.noDerivation g.start accepting))
      | root :: _ => (Tree.ofState g root tokens).mapError .internal
  else .error .noNewline

open Chart

/-- Leaving out rules of tags changes nothing but dead states. At every position the entry is the one with
all rules, in the same order, less the states at the beginning of a rule of a tag that does not begin with
the symbol of the input there. The same inputs are accepted, and parsing gives the same result. -/
theorem recognize_filters_dead (g : Grammar)
    (hγ : ∀ r ∈ g.rules, g.isTag r.lhs = true → r.first ≠ acceptSymbol) (tokens : List Token) :
    let input := tokens.map Token.symbol
    let plain := build g (predictAll g.expansions) input
    (∀ i ≤ input.length, (recognize g tokens).getD i [] =
      (plain.getD i []).filter fun s => !isDead g input[i]? s) ∧
    (recognize g tokens).accepting? = plain.accepting? ∧
    parse g tokens = parseWith g (predictAll g.expansions) tokens := by
  intro input plain
  have haccept : (recognize g tokens).accepting? = plain.accepting? := accepting?_ofSymbols hγ
  have herror : syntaxError g (recognize g tokens) tokens = syntaxError g plain tokens := by
    have hfurthest : (recognize g tokens).furthest = plain.furthest := furthest_ofSymbols hγ
    unfold syntaxError
    rw [hfurthest]
    exact congrArg _ (expected_ofSymbols hγ (furthest_build_le _))
  refine ⟨fun i hi => getD_ofSymbols hγ hi, haccept, ?_⟩
  unfold parse parseWith
  simp only [haccept, herror]
  rfl

/-- The states at the beginning of the two rules of `T` are predicted, and without effect, when all rules
are; the input is ambiguous. -/
theorem recognize_filters_dead_ambiguous :
    let s := utf8 "S"
    let t := utf8 "T"
    let a := utf8 "a"
    let g : Grammar := ⟨[⟨s, [s, s], by decide⟩, ⟨s, [a], by decide⟩, ⟨s, [newlineText], by decide⟩,
      ⟨s, [t], by decide⟩, ⟨t, [utf8 "b", a], by decide⟩, ⟨t, [utf8 "c"], by decide⟩], by decide⟩
    let tokens : List Token := [⟨.keyword, a, ⟨0, 0⟩⟩, ⟨.keyword, a, ⟨0, 2⟩⟩, ⟨.divider, newlineText, ⟨0, 3⟩⟩]
    (∀ r ∈ g.rules, g.isTag r.lhs = true → r.first ≠ acceptSymbol) ∧
      ((recognize g tokens).getD 0 []).length = 5 ∧
      ((build g (predictAll g.expansions) (tokens.map Token.symbol)).getD 0 []).length = 7 ∧
      parse g tokens = parseWith g (predictAll g.expansions) tokens := by
  intro s t a g tokens
  have hγ : ∀ r ∈ g.rules, g.isTag r.lhs = true → r.first ≠ acceptSymbol := by decide
  refine ⟨hγ, ?_, by decide, (recognize_filters_dead g hγ tokens).2.2⟩
  rw [(recognize_filters_dead g hγ tokens).1 0 (Nat.zero_le _)]
  decide

/-- With a rule of a tag that begins with `γ`, leaving out rules of tags does change more: the complete
extra rule advances a state that is left out, so that an input is accepted which is not accepted
otherwise. -/
theorem filter_changes_acceptance :
    ∃ g : Grammar, Grammar.load (utf8 "S -> a | T newline\nT -> γ") = .ok g ∧
      let tokens : List Token := [⟨.keyword, utf8 "a", ⟨0, 0⟩⟩, ⟨.divider, newlineText, ⟨0, 1⟩⟩]
      let plain := build g (predictAll g.expansions) (tokens.map Token.symbol)
      (recognize g tokens).accepting?.isSome = false ∧ plain.accepting?.isSome = true ∧
        ((recognize g tokens).getD 1 []).length = 2 ∧
        ((plain.getD 1 []).filter fun s => !isDead g (some newlineText) s).length = 4 := by
  refine ⟨⟨[⟨utf8 "S", [utf8 "a"], by decide⟩, ⟨utf8 "S", [utf8 "T", newlineText], by decide⟩,
    ⟨utf8 "T", [utf8 "γ"], by decide⟩], by decide⟩, by decide +kernel, ?_⟩
  decide

end Lunify
