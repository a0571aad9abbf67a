import Lunify.Proofs.Chart.Entries
import Lunify.Parse

/-!
# Recognition is exact

A chart accepts an input exactly when the input is a word of the grammar's language. One half is
`Chart.Justified.yields`. The other half follows a derivation through the chart: whatever the symbols
after the dot of a state derive from its position on, the state is found again behind them
(`Chart.exists_of_yields`).

The reserved left-hand side `γ` of the extra rule must not occur in a right-hand side. Otherwise a
complete extra rule would be taken for a symbol of the grammar.
-/

namespace Lunify

open List

namespace Chart

variable {g : Grammar} {rulesOf : Predictor} {input : List Symbol}

/-- A state of an entry with a given key, when there is one. -/
lemma exists_of_key_mem (hfits : Predictor.Fits g rulesOf) {i : Nat} (hi : i ≤ input.length)
    {n d o : Nat} (h : (n, d, o) ∈ ((build g rulesOf input).getD i []).map State.key) {r : Rule}
    (hr : (n, r) ∈ g.allNumbered) :
    ∃ s ∈ (build g rulesOf input).getD i [], s.number = n ∧ s.rule = r ∧ s.dot = d ∧
      s.origin = o := by
  obtain ⟨s, hs, hkey⟩ := mem_map.1 h
  simp only [State.key, Prod.mk.injEq] at hkey
  obtain ⟨rfl, rfl, rfl⟩ := hkey
  have hrule := (justified_of_mem hfits hi hs).1.rule_mem
  exact ⟨s, hs, rfl, Grammar.rule_eq_of_mem_allNumbered hrule hr, rfl, rfl⟩

/-- The first symbol of a right-hand side that consists of terminals begins every word that it
derives. -/
lemma first_of_isTag {r : Rule} (hr : r ∈ g.rules) (htag : g.isTag r.lhs = true) {u v : List Symbol}
    (hu : g.Yields r.rhs u) : some r.first = (u ++ v)[0]? := by
  have hall : ∀ s ∈ r.rhs, g.isTerminal s = true := by
    simp only [Grammar.isTag, Bool.and_eq_true, all_eq_true] at htag
    have h := htag.2 r hr
    simpa using h
  rw [hu.eq_of_terminals hall]
  obtain ⟨lhs, rhs, hne⟩ := r
  cases rhs with
  | nil => exact absurd rfl hne
  | cons a rest => rfl

/-- Completeness along a forest: if the symbols after the dot derive a part of the input that begins
at the position of the state, the entry behind that part holds the state with its dot behind the
symbols. -/
theorem exists_of_yields (hfits : Predictor.Fits g rulesOf) {α w : List Symbol}
    (h : g.Yields α w) {i : Nat} {rest : List Symbol} (hinput : input.drop i = w ++ rest)
    (hi : i ≤ input.length) {s : State} (hs : s ∈ (build g rulesOf input).getD i [])
    {β : List Symbol} (hα : s.rule.rhs.drop s.dot = α ++ β) :
    ∃ t ∈ (build g rulesOf input).getD (i + w.length) [], t.number = s.number ∧ t.rule = s.rule ∧
      t.dot = s.dot + α.length ∧ t.origin = s.origin := by
  induction h generalizing i rest s β with
  | nil => exact ⟨s, hs, rfl, rfl, rfl, rfl⟩
  | @terminal a α' w' ha _ ih =>
    have hread : input[i]? = some a := by
      rw [← head?_drop, hinput]
      rfl
    have hnext : s.next? = some a := by
      rw [State.next?, ← head?_drop, hα]
      rfl
    have hi' : i + 1 ≤ input.length := (List.getElem?_eq_some_iff.1 hread).1
    have hrule := (justified_of_mem hfits hi hs).1.rule_mem
    obtain ⟨t, ht, hnumber, hsame, hdot, horigin⟩ :=
      exists_of_key_mem hfits hi' (key_mem_of_scan hread ha hs hnext) hrule
    have hinput' : input.drop (i + 1) = w' ++ rest := by
      rw [← drop_drop, hinput]
      rfl
    have hα'' : t.rule.rhs.drop t.dot = α' ++ β := by
      rw [hsame, hdot, ← drop_drop, hα]
      rfl
    obtain ⟨u, hu, hu₁, hu₂, hu₃, hu₄⟩ := ih hinput' hi' ht hα''
    refine ⟨u, ?_, hu₁.trans hnumber, hu₂.trans hsame, ?_, hu₄.trans horigin⟩
    · rw [length_cons, Nat.add_comm w'.length 1, ← Nat.add_assoc]
      exact hu
    · rw [hu₃, hdot, length_cons]
      omega
  | @rule r α' u v hr hu _ ihu ihv =>
    obtain ⟨n, hn⟩ := Grammar.exists_mem_numbered hr
    have hnext : s.next? = some r.lhs := by
      rw [State.next?, ← head?_drop, hα]
      rfl
    have htag : g.isTag r.lhs = true → some r.first = input[i]? := by
      intro htag
      rw [first_of_isTag hr htag hu (v := v ++ rest), ← append_assoc, ← hinput,
        getElem?_drop, Nat.add_zero]
    -- The rule is predicted at the position of the state, and completed behind `u`.
    obtain ⟨p, hp, hp₁, hp₂, hp₃, hp₄⟩ := exists_of_key_mem hfits hi
      (key_mem_of_predict hfits hi hs hn hnext htag) (mem_cons_of_mem _ hn)
    have hinput' : input.drop i = u ++ (v ++ rest) := by
      rw [hinput, append_assoc]
    have hp' : p.rule.rhs.drop p.dot = r.rhs ++ [] := by
      rw [hp₂, hp₃, drop_zero, append_nil]
    obtain ⟨q, hq, -, hq₂, hq₃, hq₄⟩ := ihu hinput' hi hp hp'
    have hiu : i + u.length ≤ input.length := by
      have hlength := congrArg List.length hinput'
      simp only [length_drop, length_append] at hlength
      omega
    have hcomplete : q.next? = none := by
      rw [State.next?, hq₂, hp₂, hq₃, hp₃, Nat.zero_add]
      exact getElem?_eq_none (Nat.le_refl _)
    -- The completed rule advances the state.
    have horigin : q.origin = i := hq₄.trans hp₄
    have hlhs : s.next? = some q.rule.lhs := by
      rw [hq₂, hp₂]
      exact hnext
    have hs' : s ∈ (build g rulesOf input).getD q.origin [] := by
      rw [horigin]
      exact hs
    have hrule := (justified_of_mem hfits hi hs).1.rule_mem
    obtain ⟨t, ht, ht₁, ht₂, ht₃, ht₄⟩ := exists_of_key_mem hfits hiu
      (key_mem_of_complete hfits hiu hq hcomplete hs' hlhs) hrule
    have hinput'' : input.drop (i + u.length) = v ++ rest := by
      rw [← drop_drop, hinput', drop_left]
    have hα'' : t.rule.rhs.drop t.dot = α' ++ β := by
      rw [ht₂, ht₃, ← drop_drop, hα]
      rfl
    obtain ⟨x, hx, hx₁, hx₂, hx₃, hx₄⟩ := ihv hinput'' hiu ht hα''
    refine ⟨x, ?_, hx₁.trans ht₁, hx₂.trans ht₂, ?_, hx₄.trans ht₄⟩
    · rw [length_append, ← Nat.add_assoc]
      exact hx
    · rw [hx₃, ht₃, length_cons]
      omega

lemma back_build (g : Grammar) (rulesOf : Predictor) (input : List Symbol) :
    (build g rulesOf input).back?.getD [] = (build g rulesOf input).getD input.length [] := by
  have hsize := size_build g rulesOf input
  rw [Array.back?_eq_getElem?, hsize, Nat.add_sub_cancel, Array.getD_eq_getD_getElem?]

/-- An accepting state is a justified complete state of the extra rule over the whole input. -/
lemma accepting?_eq_some (hfits : Predictor.Fits g rulesOf) {s : State}
    (h : (build g rulesOf input).accepting? = some s) :
    s ∈ (build g rulesOf input).getD input.length [] ∧ s.rule = g.acceptRule ∧ s.number = 0 ∧
      s.next? = none ∧ s.origin = 0 := by
  unfold accepting? at h
  rw [back_build] at h
  have hmem := mem_of_find?_eq_some h
  have hjust := (justified_of_mem hfits (Nat.le_refl _) hmem).1
  have hprop := find?_some h
  simp only [Bool.and_eq_true, decide_eq_true_eq] at hprop
  obtain ⟨⟨hnumber, hcomplete⟩, horigin⟩ := hprop
  have hrule := hjust.rule_mem
  rw [hnumber] at hrule
  exact ⟨hmem, Grammar.eq_acceptRule_of_mem hrule, hnumber, hjust.isComplete_iff.1 hcomplete, horigin⟩

/-- A chart accepts exactly the words of the language, whichever rules of tags its predictor leaves
out. -/
theorem accepting?_build_isSome_iff (hfits : Predictor.Fits g rulesOf)
    (hγ : ∀ r ∈ g.rules, acceptSymbol ∉ r.rhs) (input : List Symbol) :
    (build g rulesOf input).accepting?.isSome = true ↔ input ∈ g.language := by
  rw [Grammar.mem_language_iff_yields]
  constructor
  · intro h
    obtain ⟨s, hs⟩ := Option.isSome_iff_exists.1 h
    obtain ⟨hmem, hrule, -, hcomplete, horigin⟩ := accepting?_eq_some hfits hs
    obtain ⟨hjust, hfinish⟩ := justified_of_mem hfits (Nat.le_refl _) hmem
    have hyields := hjust.yields hγ
    rw [hjust.dot_eq_of_complete hcomplete, take_length, hrule, horigin, hfinish,
      between_zero_length] at hyields
    exact hyields
  · intro h
    have hinput : input.drop 0 = input ++ [] := by
      rw [drop_zero, append_nil]
    obtain ⟨t, ht, hnumber, hrule, hdot, horigin⟩ := exists_of_yields hfits h hinput
      (Nat.zero_le _) (initial_mem g rulesOf input) (β := []) (append_nil _).symm
    rw [Nat.zero_add] at ht
    unfold accepting?
    rw [back_build, find?_isSome]
    refine ⟨t, ht, ?_⟩
    have hcomplete : t.isComplete = true := by
      rw [State.isComplete, hrule, hdot]
      rfl
    rw [hnumber, hcomplete, horigin]
    rfl

/-- Recognition is exact: the chart of a token list accepts it exactly when the start symbol derives
the symbols of the tokens. Left recursion, cycles among rules and ambiguity need no exception. -/
theorem accepting?_recognize_isSome_iff (g : Grammar)
    (hγ : ∀ r ∈ g.rules, acceptSymbol ∉ r.rhs) (tokens : List Token) :
    (recognize g tokens).accepting?.isSome = true ↔ tokens.map Token.symbol ∈ g.language :=
  accepting?_build_isSome_iff (fits_predict g) hγ (tokens.map Token.symbol)

/-- A left recursive, cyclic and ambiguous grammar, with a tag: it derives `a a c`, and it does not
derive `a b`. -/
theorem accepting?_recognize_cyclic :
    let s := utf8 "S"
    let t := utf8 "T"
    let a := utf8 "a"
    let b := utf8 "b"
    let c := utf8 "c"
    let g : Grammar := ⟨[⟨s, [s, s], by decide⟩, ⟨s, [s], by decide⟩, ⟨s, [a], by decide⟩,
      ⟨s, [t], by decide⟩, ⟨t, [b, c], by decide⟩, ⟨t, [c], by decide⟩], by decide⟩
    (∀ r ∈ g.rules, acceptSymbol ∉ r.rhs) ∧ [a, a, c] ∈ g.language ∧ [a, b] ∉ g.language := by
  intro s t a b c g
  have hγ : ∀ r ∈ g.rules, acceptSymbol ∉ r.rhs := by decide
  let token : Text → Token := fun content => ⟨.keyword, content, ⟨0, 0⟩⟩
  refine ⟨hγ, ?_, ?_⟩
  · exact (accepting?_recognize_isSome_iff g hγ [token a, token a, token c]).1 (by decide)
  · intro hmem
    have haccept := (accepting?_recognize_isSome_iff g hγ [token a, token b]).2 hmem
    exact absurd haccept (by decide)

end Chart

end Lunify
