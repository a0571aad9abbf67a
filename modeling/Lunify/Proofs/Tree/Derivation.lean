import Lunify.Grammar.Text
import Lunify.Proofs.Chart.Recognition

/-!
# The tree of a word is a derivation

`Tree.IsDerivation` says what a parse tree has to be: every node stands for one rule, a terminal is a
leaf, and a terminal that names a category of tokens has a node of its own around the leaf. Parsing
a word of the language never fails and gives such a tree, whose leaves are the tokens
(`parse_eq_ok_of_mem_language`).

Unfolding a state looks only at its rule, its completed states and the tokens, never at the spans.
That these fit together is `Tree.exists_forest`: the completed states of a justified state are those
of the symbols with rules left of its dot, in order, and their spans follow one another.
-/

namespace Lunify

open List

variable {t : Tree} {tokens : List Token} {s : State}

namespace Tree

variable {a : Symbol} {rest : List Token}

/-- The trees that derivations form. -/
inductive IsDerivation (g : Grammar) : Tree → Prop
  | leaf {s : Symbol} {tok : Token} (hs : g.isTerminal s) (hcategory : Grammar.isCategory s = false)
      (htoken : tok.symbol = s) : IsDerivation g (.leaf s tok)
  | category {s : Symbol} {tok : Token} (hs : g.isTerminal s) (hcategory : Grammar.isCategory s = true)
      (htoken : tok.symbol = s) : IsDerivation g (.node s [.leaf s tok])
  | rule {r : Rule} {ts : List Tree} (hr : r ∈ g.rules) (hlabels : ts.map label = r.rhs)
      (hts : ∀ t ∈ ts, IsDerivation g t) : IsDerivation g (.node r.lhs ts)

/-- The label of a derivation derives the symbols of its leaves. -/
lemma IsDerivation.yields {g : Grammar} (h : t.IsDerivation g) :
    g.Yields [t.label] (t.leaves.map Token.symbol) := by
  induction h with
  | @leaf s tok hs hcategory htoken =>
    simp only [label, leaves, map_cons, map_nil, htoken]
    exact .terminal hs .nil
  | @category s tok hs hcategory htoken =>
    simp only [label, leaves, leavesOf, append_nil, map_cons, map_nil, htoken]
    exact .terminal hs .nil
  | @rule r ts hr hlabels hts ih =>
    have hforest : ∀ us : List Tree, (∀ u ∈ us, g.Yields [u.label] (u.leaves.map Token.symbol)) →
        g.Yields (us.map label) ((leavesOf us).map Token.symbol) := by
      intro us hus
      induction us with
      | nil => exact .nil
      | cons u us ihus =>
        rw [leavesOf, map_append]
        exact (hus u mem_cons_self).append (ihus fun v hv => hus v (mem_cons_of_mem u hv))
    have hyields := Grammar.Yields.rule hr (hlabels ▸ hforest ts ih) .nil
    rwa [append_nil] at hyields

/-! ### Trees of terminals -/

@[simp] lemma label_ofTerminal (s : Symbol) (tok : Token) : (ofTerminal s tok).label = s := by
  unfold ofTerminal
  split <;> rfl

@[simp] lemma leaves_ofTerminal (s : Symbol) (tok : Token) : (ofTerminal s tok).leaves = [tok] := by
  unfold ofTerminal
  split <;> simp [leaves, leavesOf]

lemma isDerivation_ofTerminal {g : Grammar} {s : Symbol} {tok : Token} (hs : g.isTerminal s)
    (htoken : tok.symbol = s) : IsDerivation g (ofTerminal s tok) := by
  unfold ofTerminal
  split
  · rename_i hcategory
    exact .category hs hcategory htoken
  · rename_i hcategory
    exact .leaf hs (Bool.eq_false_iff.2 hcategory) htoken

lemma leavesOf_eq_flatMap (ts : List Tree) : leavesOf ts = ts.flatMap leaves := by
  induction ts with
  | nil => rfl
  | cons t ts ih => rw [leavesOf, ih, flatMap_cons]

lemma leavesOf_append (ts us : List Tree) : leavesOf (ts ++ us) = leavesOf ts ++ leavesOf us := by
  simp only [leavesOf_eq_flatMap, flatMap_append]

lemma mem_leaves_node {l : Text} {ts : List Tree} {tok : Token} :
    tok ∈ (Tree.node l ts).leaves ↔ ∃ t ∈ ts, tok ∈ t.leaves := by
  rw [leaves, leavesOf_eq_flatMap, mem_flatMap]

/-! ### Success of unfolding -/

lemma bind_eq_ok_iff {ε β γ : Type} {x : Except ε β} {f : β → Except ε γ} {c : γ} :
    (x >>= f) = .ok c ↔ ∃ b, x = .ok b ∧ f b = .ok c := by
  cases x with
  | error e => simp [bind, Except.bind]
  | ok b => simp [bind, Except.bind]

variable {g : Grammar}

lemma terminals_cons (ha : g.isTerminal a = true) (tok : Token) {α : List Symbol} {trees : List Tree}
    {symbols : List Symbol} (h : terminals g α tokens = .ok (trees, symbols, rest)) :
    terminals g (a :: α) (tok :: tokens) = .ok (ofTerminal a tok :: trees, symbols, rest) := by
  rw [terminals, if_pos ha, h]
  rfl

lemma terminals_nonterminal (ha : g.isTerminal a = false) (α : List Symbol) (tokens : List Token) :
    terminals g (a :: α) tokens = .ok ([], a :: α, tokens) := by
  cases tokens <;> simp [terminals, ha]

/-- Without completed states, unfolding succeeds when the right-hand side has only terminals. -/
lemma unfoldSymbols_nil_eq_ok_iff {α : List Symbol} {ts : List Tree} :
    unfoldSymbols g s [] α tokens = .ok (ts, rest) ↔ terminals g α tokens = .ok (ts, [], rest) := by
  rw [unfoldSymbols, bind_eq_ok_iff]
  constructor
  · rintro ⟨⟨trees, symbols, remaining⟩, hterminals, h⟩
    cases symbols with
    | nil =>
      obtain ⟨rfl, rfl⟩ := Prod.mk.inj (Except.ok.inj h)
      exact hterminals
    | cons b symbols => exact absurd h (by simp [throw, throwThe, MonadExceptOf.throw])
  · intro h
    exact ⟨(ts, [], rest), h, rfl⟩

/-- Unfolding with a completed state succeeds when that state has the next symbol with rules on its
left-hand side, and it and the others unfold one after the other. -/
lemma unfoldSymbols_cons_eq_ok_iff {c : State} {back : List State} {α : List Symbol} {ts : List Tree} :
    unfoldSymbols g s (c :: back) α tokens = .ok (ts, rest) ↔
      ∃ trees symbols remaining tree middle later,
        terminals g α tokens = .ok (trees, c.rule.lhs :: symbols, remaining) ∧
        unfold g c remaining = .ok (tree, middle) ∧
        unfoldSymbols g s back symbols middle = .ok (later, rest) ∧ ts = trees ++ tree :: later := by
  rw [unfoldSymbols, bind_eq_ok_iff]
  constructor
  · rintro ⟨⟨trees, symbols, remaining⟩, hterminals, h⟩
    cases symbols with
    | nil => exact absurd h (by simp [throw, throwThe, MonadExceptOf.throw])
    | cons b symbols =>
      by_cases hb : c.rule.lhs = b
      · subst hb
        simp only [ne_eq, not_true_eq_false, if_false] at h
        obtain ⟨⟨tree, middle⟩, hunfold, h⟩ := bind_eq_ok_iff.1 h
        obtain ⟨⟨later, rest'⟩, hlater, h⟩ := bind_eq_ok_iff.1 h
        obtain ⟨rfl, rfl⟩ := Prod.mk.inj (Except.ok.inj h)
        exact ⟨trees, symbols, remaining, tree, middle, later, hterminals, hunfold, hlater, rfl⟩
      · simp only [ne_eq, hb, not_false_eq_true, if_true] at h
        exact absurd h (by simp [bind, Except.bind, throw, throwThe, MonadExceptOf.throw])
  · rintro ⟨trees, symbols, remaining, tree, middle, later, hterminals, hunfold, hlater, rfl⟩
    refine ⟨_, hterminals, ?_⟩
    simp only [ne_eq, not_true_eq_false, if_false]
    exact bind_eq_ok_iff.2 ⟨_, hunfold, bind_eq_ok_iff.2 ⟨_, hlater, rfl⟩⟩

/-- A terminal at the start of a right-hand side takes the first token. -/
lemma unfoldSymbols_terminal {back : List State} (ha : g.isTerminal a = true) (tok : Token) {α : List Symbol}
    {ts : List Tree} (h : unfoldSymbols g s back α tokens = .ok (ts, rest)) :
    unfoldSymbols g s back (a :: α) (tok :: tokens) = .ok (ofTerminal a tok :: ts, rest) := by
  cases back with
  | nil =>
    rw [unfoldSymbols_nil_eq_ok_iff] at h ⊢
    exact terminals_cons ha tok h
  | cons c back =>
    rw [unfoldSymbols_cons_eq_ok_iff] at h ⊢
    obtain ⟨trees, symbols, remaining, tree, middle, later, hterminals, hunfold, hlater, rfl⟩ := h
    exact ⟨_, symbols, remaining, tree, middle, later, terminals_cons ha tok hterminals, hunfold,
      hlater, rfl⟩

/-- A complete state unfolds to a node over the trees of its right-hand side. -/
lemma unfold_eq_ok {ts : List Tree} (h : unfoldSymbols g s s.back s.rule.rhs tokens = .ok (ts, rest)) :
    unfold g s tokens = .ok (.node s.rule.lhs ts, rest) := by
  obtain ⟨number, rule, dot, origin, finish, back⟩ := s
  rw [unfold]
  exact bind_eq_ok_iff.2 ⟨_, h, rfl⟩

/-! ### Unfolding from left to right -/

/-- A list of completed states covers symbols and tokens with trees: each terminal takes one token,
and each symbol with rules the next completed state, which unfolds to its tree over its tokens. -/
inductive Covers (g : Grammar) : List State → List Symbol → List Token → List Tree → Prop
  | nil : Covers g [] [] [] []
  | terminal {back : List State} {α : List Symbol} {u : List Token} {ts : List Tree} {a : Symbol}
      {tok : Token} (ha : g.isTerminal a = true) (h : Covers g back α u ts) :
      Covers g back (a :: α) (tok :: u) (ofTerminal a tok :: ts)
  | completed {back : List State} {α : List Symbol} {u v : List Token} {t : Tree} {ts : List Tree}
      {c : State} (hc : g.isTerminal c.rule.lhs = false)
      (hunfold : ∀ rest, unfold g c (u ++ rest) = .ok (t, rest)) (h : Covers g back α v ts) :
      Covers g (c :: back) (c.rule.lhs :: α) (u ++ v) (t :: ts)

namespace Covers

variable {back back' : List State} {α α' : List Symbol} {u u' : List Token} {ts ts' : List Tree}

lemma append (h : Covers g back α u ts) (h' : Covers g back' α' u' ts') :
    Covers g (back ++ back') (α ++ α') (u ++ u') (ts ++ ts') := by
  induction h with
  | nil => exact h'
  | terminal ha _ ih => exact .terminal ha ih
  | completed hc hunfold _ ih =>
    rw [append_assoc]
    exact .completed hc hunfold ih

/-- Unfolding follows a cover. -/
lemma unfoldSymbols_eq (h : Covers g back α u ts) (s : State) (rest : List Token) :
    unfoldSymbols g s back α (u ++ rest) = .ok (ts, rest) := by
  induction h with
  | nil => rfl
  | @terminal back α u ts a tok ha _ ih => exact unfoldSymbols_terminal ha tok ih
  | @completed back α u v t ts c hc hunfold _ ih =>
    rw [unfoldSymbols_cons_eq_ok_iff, append_assoc]
    exact ⟨[], α, u ++ (v ++ rest), t, v ++ rest, ts, terminals_nonterminal hc α _, hunfold _, ih, rfl⟩

end Covers

/-- The completed states of a justified state cover the symbols left of its dot with trees over the
tokens between origin and finish. They are derivations where the left-hand side of the extra rule
occurs in no rule; that it has rules if it occurs is enough for the cover. -/
theorem exists_forest (hγ : ∀ r ∈ g.rules, acceptSymbol ∈ r.rhs → g.isTerminal acceptSymbol = false)
    (h : Chart.Justified g (tokens.map Token.symbol) s) :
    ∃ ts, Covers g s.back (s.rule.rhs.take s.dot) (between tokens s.origin s.finish) ts ∧
      ts.map label = s.rule.rhs.take s.dot ∧
      ((∀ r ∈ g.rules, acceptSymbol ∉ r.rhs) → ∀ t ∈ ts, IsDerivation g t) ∧
      leavesOf ts = between tokens s.origin s.finish := by
  induction h with
  | predicted i hr =>
    refine ⟨[], ?_, rfl, fun _ t ht => absurd ht not_mem_nil, ?_⟩
    · rw [between_self, take_zero]
      exact .nil
    · rw [between_self]
      rfl
  | @scanned s a hs hnext ha hread ih =>
    obtain ⟨ts, hcovers, hlabels, hts, hleaves⟩ := ih
    have hle : s.origin ≤ s.finish := le_trans (Nat.le_add_right _ _) hs.origin_add_dot_le
    rw [getElem?_map, Option.map_eq_some_iff] at hread
    obtain ⟨tok, htok, hsymbol⟩ := hread
    have hspan : between tokens s.origin (s.finish + 1) =
        between tokens s.origin s.finish ++ [tok] := by
      rw [← between_append tokens hle (Nat.le_succ _), between_succ htok]
    refine ⟨ts ++ [ofTerminal a tok], ?_, ?_, ?_, ?_⟩
    · simp only [State.scanned]
      rw [Chart.Justified.take_dot_succ hnext, hspan]
      have hone : Covers g [] [a] [tok] [ofTerminal a tok] := .terminal ha .nil
      simpa only [append_nil] using hcovers.append hone
    · simp only [State.scanned]
      rw [Chart.Justified.take_dot_succ hnext, map_append, hlabels, map_singleton,
        label_ofTerminal]
    · intro hγ t ht
      rcases mem_append.1 ht with ht | ht
      · exact hts hγ t ht
      · rw [mem_singleton.1 ht]
        exact isDerivation_ofTerminal ha hsymbol
    · simp only [State.scanned]
      rw [leavesOf_append, hleaves, hspan]
      simp [leavesOf]
  | @advanced s c hs hc hcomplete hnext hmeet hnew ihs ihc =>
    obtain ⟨ts, hcovers, hlabels, hts, hleaves⟩ := ihs
    obtain ⟨us, hcovers', hlabels', hus, hleaves'⟩ := ihc
    have hle : s.origin ≤ s.finish := le_trans (Nat.le_add_right _ _) hs.origin_add_dot_le
    have hlt : c.origin < c.finish := hc.origin_lt_of_complete hcomplete
    have hlhs := Chart.Justified.isTerminal_lhs_of_advanced hγ hs hc hnext
    rw [hc.dot_eq_of_complete hcomplete, take_length] at hcovers' hlabels'
    have hspan : between tokens s.origin c.finish =
        between tokens s.origin s.finish ++ between tokens c.origin c.finish := by
      rw [hmeet, between_append tokens hle (hmeet ▸ hlt.le)]
    have hunfold : ∀ rest, unfold g c (between tokens c.origin c.finish ++ rest) =
        .ok (.node c.rule.lhs us, rest) :=
      fun rest => unfold_eq_ok (hcovers'.unfoldSymbols_eq c rest)
    refine ⟨ts ++ [.node c.rule.lhs us], ?_, ?_, ?_, ?_⟩
    · simp only [State.advanced]
      rw [Chart.Justified.take_dot_succ hnext, hspan]
      have hone : Covers g [c] [c.rule.lhs] (between tokens c.origin c.finish)
          [.node c.rule.lhs us] := by
        have := Covers.completed hlhs hunfold .nil
        rwa [append_nil] at this
      exact hcovers.append hone
    · simp only [State.advanced]
      rw [Chart.Justified.take_dot_succ hnext, map_append, hlabels]
      rfl
    · intro hγ t ht
      rcases mem_append.1 ht with ht | ht
      · exact hts hγ t ht
      · rw [mem_singleton.1 ht]
        have hmem := Chart.Justified.rule_mem_of_advanced hγ hs hc hcomplete hnext hmeet hnew
        exact .rule hmem hlabels' (hus hγ)
    · simp only [State.advanced]
      rw [leavesOf_append, hleaves, hspan, ← hleaves']
      simp [leavesOf, leaves]

/-- A cover of a single symbol with rules is one completed state. -/
lemma Covers.eq_singleton {back : List State} (ha : g.isTerminal a = false) {u : List Token} {ts : List Tree}
    (h : Covers g back [a] u ts) :
    ∃ c t, back = [c] ∧ ts = [t] ∧ ∀ rest, unfold g c (u ++ rest) = .ok (t, rest) := by
  cases h with
  | terminal ha' _ => exact absurd (ha.symm.trans ha') Bool.false_ne_true
  | @completed _ _ u v t _ c _ hunfold hrest =>
    cases hrest
    rw [append_nil]
    exact ⟨c, t, rfl, rfl, hunfold⟩

lemma ofState_eq_ok {c : State} (h : unfold g c tokens = .ok (t, [])) : ofState g c tokens = .ok t := by
  unfold ofState
  exact bind_eq_ok_iff.2 ⟨(t, []), h, rfl⟩

end Tree

/-- An accepting state unfolds: it has one completed state, for the start symbol, whose tree has the
tokens as its leaves. -/
lemma exists_ofState_eq_ok {g : Grammar}
    (hγ : ∀ r ∈ g.rules, acceptSymbol ∈ r.rhs → g.isTerminal acceptSymbol = false)
    (hs : (recognize g tokens).accepting? = some s) :
    ∃ root tree, s.back = [root] ∧ Tree.ofState g root tokens = .ok tree ∧ tree.label = g.start ∧
      tree.leaves = tokens ∧ ((∀ r ∈ g.rules, acceptSymbol ∉ r.rhs) → tree.IsDerivation g) := by
  obtain ⟨hmem, hrule, -, hcomplete, horigin⟩ :=
    Chart.accepting?_eq_some (Chart.fits_predict g) hs
  obtain ⟨hjust, hfinish⟩ := Chart.justified_of_mem (Chart.fits_predict g) (Nat.le_refl _) hmem
  obtain ⟨ts, hcovers, hlabels, hts, hleaves⟩ := Tree.exists_forest hγ hjust
  -- The accepting state covers all the tokens with one tree for the start symbol.
  have hspan : between tokens s.origin s.finish = tokens := by
    rw [horigin, hfinish, length_map, between_zero_length]
  have hsymbols : s.rule.rhs.take s.dot = [g.start] := by
    rw [hjust.dot_eq_of_complete hcomplete, take_length, hrule]
    rfl
  rw [hspan, hsymbols] at hcovers
  rw [hsymbols] at hlabels
  rw [hspan] at hleaves
  obtain ⟨root, t, hback, rfl, hunfold⟩ := hcovers.eq_singleton g.isTerminal_start
  refine ⟨root, t, hback, ?_, ?_, ?_, fun hγ => hts hγ t mem_cons_self⟩
  · have hstate := hunfold []
    rw [append_nil] at hstate
    exact Tree.ofState_eq_ok hstate
  · exact singleton_injective hlabels
  · simpa [Tree.leavesOf] using hleaves

/-- An accepted token list that ends with a line break has a tree, which is a derivation from the
start symbol with the tokens as its leaves. -/
lemma exists_parse_eq_ok {g : Grammar} (hγ : ∀ r ∈ g.rules, acceptSymbol ∉ r.rhs)
    (hnewline : endsWithNewline tokens = true) (hs : (recognize g tokens).accepting? = some s) :
    ∃ tree, parse g tokens = .ok tree ∧ tree.label = g.start ∧ tree.IsDerivation g ∧
      tree.leaves = tokens := by
  obtain ⟨root, tree, hback, htree, hlabel, hleaves, hderivation⟩ :=
    exists_ofState_eq_ok (fun r hr hmem => absurd hmem (hγ r hr)) hs
  refine ⟨tree, ?_, hlabel, hderivation hγ, hleaves⟩
  simp only [parse, hnewline, if_true, hs, hback, htree]
  rfl

/-- The leaves of a derivation from the start symbol have a tree, which need not be the same one. -/
lemma exists_parse_of_isDerivation {g : Grammar} (hγ : ∀ r ∈ g.rules, acceptSymbol ∉ r.rhs)
    (ht : t.IsDerivation g) (hlabel : t.label = g.start) (hnewline : endsWithNewline t.leaves = true) :
    ∃ tree, parse g t.leaves = .ok tree := by
  have hword : t.leaves.map Token.symbol ∈ g.language := by
    rw [Grammar.mem_language_iff_yields, ← hlabel]
    exact ht.yields
  obtain ⟨s, hs⟩ := Option.isSome_iff_exists.1
    ((Chart.accepting?_build_isSome_iff (Chart.fits_predict g) hγ _).2 hword)
  obtain ⟨tree, htree, -⟩ := exists_parse_eq_ok hγ hnewline hs
  exact ⟨tree, htree⟩

/-- Every tree that parsing gives is a derivation from the start symbol of the tokens. -/
lemma isDerivation_of_parse_eq_ok {g : Grammar} (hγ : ∀ r ∈ g.rules, acceptSymbol ∉ r.rhs) {tree : Tree}
    (h : parse g tokens = .ok tree) :
    tree.label = g.start ∧ tree.IsDerivation g ∧ tree.leaves = tokens := by
  have hparse := h
  unfold parse at h
  split at h
  · rename_i hnewline
    simp only at h
    split at h
    · exact absurd h (by simp)
    · rename_i s hs
      obtain ⟨tree', hparse', hspec⟩ := exists_parse_eq_ok hγ hnewline hs
      obtain rfl : tree = tree' := Except.ok.inj (hparse.symm.trans hparse')
      exact hspec
  · exact absurd h (by simp)

/-- The tree of a word is a derivation of it: parsing a token list that ends with a line break and
whose symbols the start symbol derives gives a tree with the start symbol at its root, in which every
node stands for a rule and every leaf for a terminal, and whose leaves are the tokens. -/
theorem parse_eq_ok_of_mem_language (g : Grammar) (hγ : ∀ r ∈ g.rules, acceptSymbol ∉ r.rhs)
    (tokens : List Token) (hnewline : endsWithNewline tokens = true)
    (hword : tokens.map Token.symbol ∈ g.language) :
    ∃ tree, parse g tokens = .ok tree ∧ tree.label = g.start ∧ tree.IsDerivation g ∧
      tree.leaves = tokens := by
  have haccept := (Chart.accepting?_build_isSome_iff (Chart.fits_predict g) hγ
    (tokens.map Token.symbol)).2 hword
  obtain ⟨s, hs⟩ := Option.isSome_iff_exists.1 haccept
  exact exists_parse_eq_ok hγ hnewline hs

/-- The cyclic rule `S -> S` stands before the rule that reads something: the tree of one line break
is still finite, and its only leaf is the line break. -/
theorem parse_cyclic_newline :
    let s := utf8 "S"
    let g : Grammar := ⟨[⟨s, [s], by decide⟩, ⟨s, [newlineText], by decide⟩], by decide⟩
    let tokens : List Token := [⟨.divider, newlineText, ⟨0, 0⟩⟩]
    (∀ r ∈ g.rules, acceptSymbol ∉ r.rhs) ∧ endsWithNewline tokens = true ∧
      tokens.map Token.symbol ∈ g.language ∧
      ∃ tree, parse g tokens = .ok tree ∧ tree.label = g.start ∧ tree.IsDerivation g ∧
        tree.leaves = tokens := by
  intro s g tokens
  have hγ : ∀ r ∈ g.rules, acceptSymbol ∉ r.rhs := by decide
  have hnewline : endsWithNewline tokens = true := by decide
  have hword : tokens.map Token.symbol ∈ g.language := by
    refine (Chart.accepting?_build_isSome_iff (Chart.fits_predict g) hγ _).1 ?_
    decide
  exact ⟨hγ, hnewline, hword, parse_eq_ok_of_mem_language g hγ tokens hnewline hword⟩

/-! ### Reconstruction never fails -/

/-- Where the left-hand side of the extra rule has rules of its own if any rule refers to it, a chart
with an accepting state always has a tree: that state has exactly one completed state, and unfolding
it succeeds with all the tokens as leaves. So parsing has no internal errors. -/
theorem parse_ne_internal (g : Grammar)
    (hγ : ∀ r ∈ g.rules, acceptSymbol ∈ r.rhs → g.isTerminal acceptSymbol = false)
    (tokens : List Token) :
    (∀ e, parse g tokens ≠ .error (.internal e)) ∧
      ∀ s, (recognize g tokens).accepting? = some s → ∃ root tree, s.back = [root] ∧
        Tree.ofState g root tokens = .ok tree ∧ tree.label = g.start ∧ tree.leaves = tokens := by
  refine ⟨fun e h => ?_, fun s hs => ?_⟩
  · unfold parse at h
    split at h
    · simp only at h
      split at h
      · exact absurd (Except.error.inj h) ParseError.noConfusion
      · rename_i s hs
        obtain ⟨root, tree, hback, htree, -⟩ := exists_ofState_eq_ok hγ hs
        simp only [hback, htree] at h
        cases h
    · exact absurd (Except.error.inj h) ParseError.noConfusion
  · obtain ⟨root, tree, hback, htree, hlabel, hleaves, -⟩ := exists_ofState_eq_ok hγ hs
    exact ⟨root, tree, hback, htree, hlabel, hleaves⟩

/-- A rule file that gives rules to the left-hand side of the extra rule and refers to it. -/
theorem parse_ne_internal_reserved :
    let s := utf8 "S"
    let g : Grammar := ⟨[⟨s, [acceptSymbol, newlineText], by decide⟩, ⟨acceptSymbol, [s], by decide⟩,
      ⟨s, [newlineText], by decide⟩], by decide⟩
    let tokens : List Token := [⟨.divider, newlineText, ⟨0, 0⟩⟩, ⟨.divider, newlineText, ⟨1, 0⟩⟩]
    (∀ r ∈ g.rules, acceptSymbol ∈ r.rhs → g.isTerminal acceptSymbol = false) ∧
      (recognize g tokens).accepting?.isSome ∧ ∀ e, parse g tokens ≠ .error (.internal e) := by
  intro s g tokens
  have hγ : ∀ r ∈ g.rules, acceptSymbol ∈ r.rhs → g.isTerminal acceptSymbol = false := by decide
  exact ⟨hγ, by decide, (parse_ne_internal g hγ tokens).1⟩

/-- Without that condition the extra rule, once complete, stands in for a terminal: the rules
`S -> a | γ U` and `U -> newline` accept `a newline` through it and leave `U` without a state. -/
theorem parse_internal_of_terminal_acceptSymbol :
    ∃ g e, Grammar.load (utf8 "S -> a | γ U\nU -> newline") = .ok g ∧
      parse g [⟨.keyword, utf8 "a", ⟨0, 0⟩⟩, ⟨.divider, newlineText, ⟨0, 1⟩⟩] =
        .error (.internal e) ∧
      e.message = utf8 "parser: internal error: no derivation of U in S -> γ U • [0, 2]" := by
  have heval : ((Grammar.load (utf8 "S -> a | γ U\nU -> newline")).toOption.any fun g =>
      match parse g [⟨.keyword, utf8 "a", ⟨0, 0⟩⟩, ⟨.divider, newlineText, ⟨0, 1⟩⟩] with
      | .error (.internal e) =>
        e.message == utf8 "parser: internal error: no derivation of U in S -> γ U • [0, 2]"
      | _ => false) = true := by decide +kernel
  cases hg : Grammar.load (utf8 "S -> a | γ U\nU -> newline") with
  | error e =>
    rw [hg] at heval
    cases heval
  | ok g =>
    rw [hg] at heval
    simp only [Except.toOption, Option.any_some] at heval
    split at heval
    · rename_i e he
      exact ⟨g, e, rfl, he, eq_of_beq heval⟩
    · cases heval

end Lunify
