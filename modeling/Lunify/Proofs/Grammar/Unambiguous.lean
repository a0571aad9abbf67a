import Lunify.Proofs.Grammar.BuiltinMachine
import Lunify.Token.Lexer

/-!
# The built-in grammar is unambiguous

As a machine reads the built-in grammar, a program has one derivation. The same holds for every
symbol, since each one occurs inside programs (`Grammar.unique_builtin`), and for the beginning of
every rule.

For charts this means that the key of a state determines it: two states that the operations of a chart
produce, with the same rule, dot and span, also have the same completed states. Whichever of them
is found first, nothing is lost by dropping the other one.
-/

namespace Lunify

open List

variable {r : Rule} {n : Nat}

lemma Rule.eq_of_sides {r' : Rule} (hlhs : r.lhs = r'.lhs) (hrhs : r.rhs = r'.rhs) : r = r' := by
  obtain ⟨lhs, rhs, hne⟩ := r
  obtain ⟨lhs', rhs', hne'⟩ := r'
  obtain rfl : lhs = lhs' := hlhs
  obtain rfl : rhs = rhs' := hrhs
  rfl

/-! ### Trees without the texts of their tokens -/

/-- A token of which only its symbol is left. -/
def Token.bare (tok : Token) : Token :=
  ⟨.divider, tok.symbol, ⟨0, 0⟩⟩

@[simp] lemma Token.symbol_bare (tok : Token) : tok.bare.symbol = tok.symbol := rfl

namespace Tree

mutual

/-- The derivation that a tree stands for, whatever its tokens hold besides their symbols. -/
def bare : Tree → Tree
  | .leaf l tok => .leaf l tok.bare
  | .node l ts => .node l (bareAll ts)

/-- The derivations of some trees. -/
def bareAll : List Tree → List Tree
  | [] => []
  | t :: ts => bare t :: bareAll ts

end

@[simp] lemma label_bare (t : Tree) : t.bare.label = t.label := by
  cases t <;> rfl

lemma bareAll_eq_map (ts : List Tree) : bareAll ts = ts.map bare := by
  induction ts with
  | nil => rfl
  | cons t ts ih => rw [bareAll, ih, map_cons]

mutual

lemma leaves_bare : ∀ t : Tree, t.bare.leaves = t.leaves.map Token.bare
  | .leaf l tok => rfl
  | .node l ts => by rw [bare, leaves, leaves, leavesOf_bareAll ts]

lemma leavesOf_bareAll : ∀ ts : List Tree, leavesOf (bareAll ts) = (leavesOf ts).map Token.bare
  | [] => rfl
  | t :: ts => by rw [bareAll, leavesOf, leavesOf, map_append, leaves_bare t, leavesOf_bareAll ts]

end

/-- A derivation stays one. -/
lemma IsDerivation.bare {g : Grammar} {t : Tree} (ht : t.IsDerivation g) : t.bare.IsDerivation g := by
  induction ht with
  | leaf hs hcategory htoken => exact .leaf hs hcategory htoken
  | category hs hcategory htoken => exact .category hs hcategory htoken
  | @rule r ts hr hlabels hts ih =>
    rw [Tree.bare, bareAll_eq_map]
    refine .rule hr ?_ ?_
    · rw [map_map, ← hlabels]
      exact map_congr_left fun t _ => label_bare t
    · intro u hu
      obtain ⟨t, ht, rfl⟩ := mem_map.1 hu
      exact ih t ht

end Tree

namespace Grammar

open Tree

variable {g : Grammar}

/-! ### From programs to their parts -/

/-- A symbol with at most one derivation for any tokens. -/
def Unique (g : Grammar) (s : Symbol) : Prop :=
  ∀ ⦃t u : Tree⦄, t.IsDerivation g → u.IsDerivation g → t.label = s → u.label = s →
    t.leaves = u.leaves → t = u

/-- A symbol with a derivation for some tokens. -/
def Productive (g : Grammar) (s : Symbol) : Prop :=
  ∃ t : Tree, t.IsDerivation g ∧ t.label = s

lemma productive_terminal {s : Symbol} (hs : g.isTerminal s = true) : g.Productive s := by
  have htree : IsDerivation g (ofTerminal s ⟨.divider, s, ⟨0, 0⟩⟩) := isDerivation_ofTerminal hs rfl
  exact ⟨_, htree, label_ofTerminal _ _⟩

/-- Trees for symbols that derive something. -/
lemma exists_forest_of_productive {α : List Symbol} (h : ∀ s ∈ α, g.Productive s) :
    ∃ ts : List Tree, ts.map label = α ∧ ∀ t ∈ ts, t.IsDerivation g := by
  induction α with
  | nil => exact ⟨[], rfl, by simp⟩
  | cons s α ih =>
    rw [forall_mem_cons] at h
    obtain ⟨t, ht, hlabel⟩ := h.1
    obtain ⟨ts, hlabels, hts⟩ := ih h.2
    exact ⟨t :: ts, by rw [map_cons, hlabel, hlabels], forall_mem_cons.2 ⟨ht, hts⟩⟩

/-- The left-hand side of a rule derives something if its right-hand side does. -/
lemma productive_lhs (hr : r ∈ g.rules) (h : ∀ s ∈ r.rhs, g.Productive s) : g.Productive r.lhs := by
  obtain ⟨ts, hlabels, hts⟩ := exists_forest_of_productive h
  exact ⟨.node r.lhs ts, .rule hr hlabels hts, rfl⟩

/-- Trees along the beginning of a rule are determined by their leaves, if its left-hand side has at
most one derivation: trees for the rest of the rule make them part of one. -/
lemma Unique.forest (hr : r ∈ g.rules) (hunique : g.Unique r.lhs) {α β : List Symbol} (hrhs : r.rhs = α ++ β)
    (hβ : ∀ s ∈ β, g.Productive s) {ts us : List Tree} (hts : ∀ t ∈ ts, t.IsDerivation g)
    (hus : ∀ u ∈ us, u.IsDerivation g) (htslabels : ts.map label = α) (huslabels : us.map label = α)
    (hleaves : leavesOf ts = leavesOf us) : ts = us := by
  obtain ⟨vs, hvslabels, hvs⟩ := exists_forest_of_productive hβ
  have hrule : ∀ ws : List Tree, (∀ w ∈ ws, w.IsDerivation g) → ws.map label = α →
      IsDerivation g (.node r.lhs (ws ++ vs)) := by
    intro ws hws hlabels
    refine .rule hr ?_ (forall_mem_append.2 ⟨hws, hvs⟩)
    rw [map_append, hlabels, hvslabels, hrhs]
  have hsame : leaves (.node r.lhs (ts ++ vs)) = leaves (.node r.lhs (us ++ vs)) := by
    rw [leaves, leaves, leavesOf_append, leavesOf_append, hleaves]
  have hnode := hunique (hrule ts hts htslabels) (hrule us hus huslabels) rfl rfl hsame
  exact append_cancel_right (Tree.node.inj hnode).2

/-- The symbols of a rule have at most one derivation, if its left-hand side does. -/
lemma Unique.of_mem (hr : r ∈ g.rules) (hunique : g.Unique r.lhs) (hproductive : ∀ s ∈ r.rhs, g.Productive s)
    {s : Symbol} (hs : s ∈ r.rhs) : g.Unique s := by
  intro t u ht hu htlabel hulabel hleaves
  obtain ⟨α, β, hrhs⟩ := append_of_mem hs
  rw [← singleton_append, ← append_assoc] at hrhs
  have hbefore : ∀ s ∈ α, g.Productive s := fun s hs => hproductive s (by simp [hrhs, hs])
  have hafter : ∀ s ∈ β, g.Productive s := fun s hs => hproductive s (by simp [hrhs, hs])
  obtain ⟨vs, hvslabels, hvs⟩ := exists_forest_of_productive hbefore
  have hforest : vs ++ [t] = vs ++ [u] := by
    refine hunique.forest hr hrhs hafter ?_ ?_ ?_ ?_ ?_
    · exact forall_mem_append.2 ⟨hvs, by simpa using ht⟩
    · exact forall_mem_append.2 ⟨hvs, by simpa using hu⟩
    · rw [map_append, hvslabels, map_singleton, htlabel]
    · rw [map_append, hvslabels, map_singleton, hulabel]
    · simp only [leavesOf_append, leavesOf, hleaves]
  exact singleton_injective (append_cancel_left hforest)

/-! ### The symbols of the built-in grammar -/

namespace BuiltinMachine

/-- The symbols with rules, each with a rule that has only terminals and earlier symbols. -/
def productiveOrder : List Nat :=
  [2, 3, 5, 6, 8, 9, 10, 11, 12, 15, 24, 26, 28, 31, 34, 35, 37, 1, 4, 30, 0, 29, 27, 25, 23, 22,
    21, 20, 19, 32, 33, 36, 39, 41, 42, 7, 13, 14, 16, 17, 18, 38, 40]

/-- The symbols with rules after the first one, each of which occurs in a rule of an earlier one. -/
def reachedOrder : List Nat :=
  [1, 2, 3, 4, 7, 8, 9, 10, 11, 12, 13, 14, 15, 16, 17, 18, 19, 20, 21, 22, 23, 24, 25, 26, 27, 28,
    29, 30, 31, 32, 33, 34, 35, 36, 37, 38, 39, 40, 41, 42, 5, 6]

/-- Whether a rule of a symbol has only terminals and known symbols. -/
def derivesFrom (known : List Nat) (n : Nat) (rule : Nat × List Nat) : Bool :=
  rule.1 == n && rule.2.all fun m => decide (heads ≤ m) || known.contains m

/-- Whether a symbol occurs in a rule of a known one. -/
def occursIn (known : List Nat) (n : Nat) (rule : Nat × List Nat) : Bool :=
  known.contains rule.1 && rule.2.contains n

/-- Whether each number of a list has a rule for which the given test holds, with the numbers before
it as those that are known. -/
def ordered (test : List Nat → Nat → Nat × List Nat → Bool) (known : List Nat) : List Nat → Bool
  | [] => true
  | n :: rest => rules.any (test known n) && ordered test (n :: known) rest

/-- What the rules of a list hand on holds of all its numbers. -/
lemma forall_of_ordered {test : List Nat → Nat → Nat × List Nat → Bool} {P : Nat → Prop}
    (hstep : ∀ known n, ∀ rule ∈ rules, test known n rule = true → (∀ m ∈ known, P m) → P n)
    {order : List Nat} (known : List Nat) (h : ordered test known order = true) (hknown : ∀ m ∈ known, P m) :
    ∀ n ∈ order, P n := by
  induction order generalizing known with
  | nil => simp
  | cons n rest ih =>
    rw [ordered, Bool.and_eq_true, any_eq_true] at h
    obtain ⟨⟨rule, hrule, htest⟩, hrest⟩ := h
    have hn : P n := hstep known n rule hrule htest hknown
    exact forall_mem_cons.2 ⟨hn, ih (n :: known) hrest (forall_mem_cons.2 ⟨hn, hknown⟩)⟩

/-- The rules of the tables are rules of the grammar. -/
lemma exists_rule {rule : Nat × List Nat} (h : rule ∈ rules) :
    ∃ r ∈ builtin.rules, (code r.lhs, r.rhs.map code) = rule := by
  rwa [← rules_code, mem_map] at h

/-- A symbol with rules has a number of its own. -/
lemma eq_of_code_eq {s s' : Symbol} (hs : builtin.isTerminal s = false) (h : code s = code s') : s = s' := by
  have hlength : heads ≤ (symbolNames.map utf8).length := by decide
  exact (idxOf_inj (idxOf_lt_length_iff.1 (((isTerminal_iff s).1 hs).trans_le hlength))).1 h

end BuiltinMachine

open BuiltinMachine

/-- Every symbol derives something. -/
lemma productive_builtin (s : Symbol) : builtin.Productive s := by
  have hheads : ∀ n ∈ productiveOrder, ∀ s, builtin.isTerminal s = false → code s = n → builtin.Productive s := by
    have hordered : ordered derivesFrom [] productiveOrder = true := by decide
    refine forall_of_ordered ?_ [] hordered (by simp)
    intro known n rule hrule htest hknown s hs hcode
    rw [derivesFrom, Bool.and_eq_true, beq_iff_eq, all_eq_true] at htest
    obtain ⟨r, hr, rfl⟩ := exists_rule hrule
    obtain rfl := eq_of_code_eq hs (hcode.trans htest.1.symm)
    refine productive_lhs hr fun u hu => ?_
    cases hterminal : builtin.isTerminal u with
    | true => exact productive_terminal hterminal
    | false =>
      have hcases := htest.2 (code u) (mem_map_of_mem hu)
      rw [Bool.or_eq_true, decide_eq_true_eq, contains_iff_mem] at hcases
      exact hknown _ (hcases.resolve_left ((isTerminal_iff u).1 hterminal).not_ge) u hterminal rfl
  cases hterminal : builtin.isTerminal s with
  | true => exact productive_terminal hterminal
  | false =>
    have hall : ∀ n < heads, n ∈ productiveOrder := by decide
    exact hheads _ (hall _ ((isTerminal_iff s).1 hterminal)) s hterminal rfl

lemma unique_start : builtin.Unique builtin.start := fun _ _ ht hu htlabel hulabel hleaves =>
  valid_builtinMachine.derivation_unique ht hu htlabel hulabel hleaves

/-- Every symbol with rules has at most one derivation. -/
theorem unique_builtin (hr : r ∈ builtin.rules) : builtin.Unique r.lhs := by
  have hfirst : ∀ s, builtin.isTerminal s = false → code s = 0 → builtin.Unique s := by
    intro s hs hcode
    rw [eq_of_code_eq hs (hcode.trans code_start.symm)]
    exact unique_start
  have hreached : ∀ n ∈ reachedOrder, ∀ s, builtin.isTerminal s = false → code s = n → builtin.Unique s := by
    have hordered : ordered occursIn [0] reachedOrder = true := by decide
    refine forall_of_ordered ?_ [0] hordered (by simpa using hfirst)
    intro known n rule hrule htest hknown s hs hcode
    rw [occursIn, Bool.and_eq_true, contains_iff_mem, contains_iff_mem] at htest
    obtain ⟨r, hr, rfl⟩ := exists_rule hrule
    obtain ⟨u, hu, heq⟩ := mem_map.1 htest.2
    obtain rfl := eq_of_code_eq hs (hcode.trans heq.symm)
    have hlhs := hknown _ htest.1 r.lhs ((isTerminal_eq_false_iff _ _).2 ⟨r, hr, rfl⟩) rfl
    exact hlhs.of_mem hr (fun s _ => productive_builtin s) hu
  have hlhs : builtin.isTerminal r.lhs = false := (isTerminal_eq_false_iff _ _).2 ⟨r, hr, rfl⟩
  have hall : ∀ n < heads, n = 0 ∨ n ∈ reachedOrder := by decide
  rcases hall _ ((isTerminal_iff _).1 hlhs) with hzero | hmem
  · exact hfirst _ hlhs hzero
  · exact hreached _ hmem _ hlhs rfl

end Grammar

namespace Chart

open Grammar

variable {g : Grammar} {input : List Symbol} {tokens : List Token}

variable {s s' : State}

/-! ### The states of a chart -/

/-- What a state spans, if it spans something, ends inside the input. -/
lemma Justified.finish_le (h : Justified g input s) (hlt : s.origin < s.finish) :
    s.finish ≤ input.length := by
  induction h with
  | predicted i hr => exact absurd hlt (Nat.lt_irrefl i)
  | scanned hs hnext ha hread ih => exact (List.getElem?_eq_some_iff.1 hread).1
  | advanced hs ht hcomplete hnext hmeet hnew ihs iht =>
    exact iht (ht.origin_lt_of_complete hcomplete)

/-- Parts of a list with the same beginning and the same elements end at the same place. -/
lemma eq_of_between_eq {α : Type} {l : List α} {i j k : Nat} (hij : i ≤ j) (hik : i ≤ k)
    (hj : j ≤ l.length) (hk : k ≤ l.length) (h : between l i j = between l i k) : j = k := by
  have hlength := congrArg List.length h
  unfold between at hlength
  rw [length_drop, length_drop, length_take, length_take] at hlength
  omega

lemma acceptRule_notMem_builtin : builtin.acceptRule ∉ builtin.rules := by
  intro hmem
  obtain ⟨p, hp, -, -, hlhs, -⟩ := exists_of_mem_builtin hmem
  have htable : ∀ p ∈ builtinTable, "γ" ≠ p.1 := by decide
  exact htable p hp (utf8_injective hlhs)

/-- A rule of the built-in grammar has only one number. -/
lemma number_eq_of_mem_builtin {m : Nat} (hr : r ∈ builtin.rules) (hm : (m, r) ∈ builtin.allNumbered)
    (hn : (n, r) ∈ builtin.allNumbered) : m = n := by
  have hnodup : builtin.rules.Nodup := by
    refine List.Nodup.of_map (fun r => (BuiltinMachine.code r.lhs, r.rhs.map BuiltinMachine.code)) ?_
    rw [BuiltinMachine.rules_code]
    decide
  have hplace : ∀ k, (k, r) ∈ builtin.allNumbered → 1 ≤ k ∧ builtin.rules[k - 1]? = some r := by
    intro k hk
    rcases mem_cons.1 hk with heq | hmem
    · exact absurd ((Prod.mk.inj heq).2 ▸ hr) acceptRule_notMem_builtin
    · exact (builtin.mem_numbered_iff k r).1 hmem
  obtain ⟨hm1, hm⟩ := hplace m hm
  obtain ⟨hn1, hn⟩ := hplace n hn
  have hindex : m - 1 = n - 1 :=
    (getElem?_inj (List.getElem?_eq_some_iff.1 hm).1 hnodup).1 (hm.trans hn.symm)
  omega

/-- The trees left of the dot are determined by their leaves. -/
lemma forest_unique {d : Nat} (hr : (n, r) ∈ builtin.allNumbered) {ts us : List Tree}
    (hts : ∀ t ∈ ts, t.IsDerivation builtin) (hus : ∀ u ∈ us, u.IsDerivation builtin)
    (htslabels : ts.map Tree.label = r.rhs.take d) (huslabels : us.map Tree.label = r.rhs.take d)
    (hleaves : Tree.leavesOf ts = Tree.leavesOf us) : ts = us := by
  rcases mem_cons.1 hr with heq | hmem
  · obtain ⟨-, rfl⟩ := Prod.mk.inj heq
    cases d with
    | zero =>
      rw [take_zero, map_eq_nil_iff] at htslabels huslabels
      rw [htslabels, huslabels]
    | succ d =>
      have htake : builtin.acceptRule.rhs.take (d + 1) = [builtin.start] := by simp [acceptRule]
      rw [htake, map_eq_singleton_iff] at htslabels huslabels
      obtain ⟨t, rfl, htlabel⟩ := htslabels
      obtain ⟨u, rfl, hulabel⟩ := huslabels
      rw [forall_mem_singleton] at hts hus
      have hsame : t.leaves = u.leaves := by simpa [Tree.leavesOf] using hleaves
      rw [unique_start hts hus htlabel hulabel hsame]
  · have hrule := mem_rules_of_mem_numbered hmem
    refine (unique_builtin hrule).forest hrule (take_append_drop d r.rhs).symm ?_ hts hus
      htslabels huslabels hleaves
    exact fun s _ => productive_builtin s

/-- The key of a state determines its rule and the symbol after its dot. -/
lemma Justified.rule_eq_of_key (h : Justified g input s) (h' : Justified g input s') (hkey : s.key = s'.key) :
    s.rule = s'.rule ∧ s.next? = s'.next? := by
  obtain ⟨hnumber, hdot, -⟩ : s.number = s'.number ∧ s.dot = s'.dot ∧ s.origin = s'.origin := by
    simpa [State.key] using hkey
  have hrule : s.rule = s'.rule := rule_eq_of_mem_allNumbered h.rule_mem (hnumber ▸ h'.rule_mem)
  exact ⟨hrule, by rw [State.next?, State.next?, hrule, hdot]⟩

/-- Two states that were advanced over completed ones to the same key and the same end were advanced
from the same key and end, over completed states with the same key. The forests that they stand for
are the same, and hence so are the place where the last tree begins and its rule. -/
lemma Justified.keys_eq_of_advanced {t t' : State} (hs : Justified builtin (tokens.map Token.symbol) s)
    (hs' : Justified builtin (tokens.map Token.symbol) s')
    (ht : Justified builtin (tokens.map Token.symbol) t)
    (ht' : Justified builtin (tokens.map Token.symbol) t') (hcomplete : t.next? = none)
    (hcomplete' : t'.next? = none) (hmem : t.rule ∈ builtin.rules) (hmem' : t'.rule ∈ builtin.rules)
    (hnext : s.next? = some t.rule.lhs) (hnext' : s'.next? = some t'.rule.lhs) (hmeet : t.origin = s.finish)
    (hmeet' : t'.origin = s'.finish) (hkey : s.key = s'.key) (hfinish : t.finish = t'.finish) :
    s.finish = s'.finish ∧ t.key = t'.key := by
  have hγ := acceptSymbol_notMem_builtin
  have hguard : ∀ r ∈ builtin.rules, acceptSymbol ∈ r.rhs → builtin.isTerminal acceptSymbol = false :=
    fun r hr h => absurd h (hγ r hr)
  obtain ⟨hrule, hnexts⟩ := hs.rule_eq_of_key hs' hkey
  obtain ⟨-, hdot, horigin⟩ : s.number = s'.number ∧ s.dot = s'.dot ∧ s.origin = s'.origin := by
    simpa [State.key] using hkey
  have hlhs : t.rule.lhs = t'.rule.lhs := Option.some.inj (hnext.symm.trans (hnexts.trans hnext'))
  have hspan := ht.origin_lt_of_complete hcomplete
  have hspan' := ht'.origin_lt_of_complete hcomplete'
  have hbegin := hs.origin_add_dot_le
  have hbegin' := hs'.origin_add_dot_le
  have hlength : t.finish ≤ tokens.length := by simpa using ht.finish_le hspan
  obtain ⟨ts, -, htslabels, hts, htsleaves⟩ := Tree.exists_forest hguard hs
  obtain ⟨us, -, huslabels, hus, husleaves⟩ := Tree.exists_forest hguard hs'
  obtain ⟨vs, -, hvslabels, hvs, hvsleaves⟩ := Tree.exists_forest hguard ht
  obtain ⟨ws, -, hwslabels, hws, hwsleaves⟩ := Tree.exists_forest hguard ht'
  rw [ht.dot_eq_of_complete hcomplete, take_length] at hvslabels
  rw [ht'.dot_eq_of_complete hcomplete', take_length] at hwslabels
  have hforest : ts ++ [.node t.rule.lhs vs] = us ++ [.node t.rule.lhs ws] := by
    refine forest_unique (d := s.dot + 1) hs.rule_mem ?_ ?_ ?_ ?_ ?_
    · exact forall_mem_append.2 ⟨hts hγ, by simpa using Tree.IsDerivation.rule hmem hvslabels (hvs hγ)⟩
    · rw [hlhs]
      exact forall_mem_append.2 ⟨hus hγ, by simpa using Tree.IsDerivation.rule hmem' hwslabels (hws hγ)⟩
    · rw [take_dot_succ hnext, map_append, htslabels]
      rfl
    · rw [take_dot_succ hnext, map_append, huslabels, hrule, hdot]
      rfl
    · simp only [Tree.leavesOf_append, Tree.leavesOf, Tree.leaves, append_nil]
      rw [htsleaves, hvsleaves, husleaves, hwsleaves, hmeet, hmeet', horigin, hfinish,
        between_append tokens (by omega) (by omega), between_append tokens (by omega) (by omega)]
  obtain ⟨hinit, hlast⟩ := append_inj' hforest rfl
  have hsplit : s.finish = s'.finish := by
    refine eq_of_between_eq (l := tokens) (i := s.origin) (by omega) (by omega) (by omega) (by omega) ?_
    rw [← htsleaves, hinit, husleaves, horigin]
  have htrees : vs = ws := (Tree.node.inj (singleton_injective hlast)).2
  have hrhs : t.rule.rhs = t'.rule.rhs := by rw [← hvslabels, htrees, hwslabels]
  have hrules : t.rule = t'.rule := Rule.eq_of_sides hlhs hrhs
  refine ⟨hsplit, ?_⟩
  have hnumber : t.number = t'.number :=
    number_eq_of_mem_builtin hmem ht.rule_mem (hrules ▸ ht'.rule_mem)
  simp only [State.key, Prod.mk.injEq]
  refine ⟨hnumber, ?_, ?_⟩
  · rw [ht.dot_eq_of_complete hcomplete, ht'.dot_eq_of_complete hcomplete', hrhs]
  · rw [hmeet, hmeet', hsplit]

/-- The key and the end of a state of the built-in grammar determine the state with all its completed
states. -/
theorem Justified.eq_of_key (h : Justified builtin (tokens.map Token.symbol) s)
    (h' : Justified builtin (tokens.map Token.symbol) s') (hkey : s.key = s'.key)
    (hfinish : s.finish = s'.finish) : s = s' := by
  have hγ := acceptSymbol_notMem_builtin
  induction h generalizing s' with
  | @predicted n r i hr =>
    have hdot : s'.dot = 0 := (congrArg (fun k => k.2.1) hkey).symm
    cases h' with
    | predicted i' hr' =>
      obtain ⟨rfl, rfl⟩ : n = _ ∧ i = _ := by simpa [State.key] using hkey
      rw [rule_eq_of_mem_allNumbered hr hr']
    | scanned => exact absurd hdot (Nat.succ_ne_zero _)
    | advanced => exact absurd hdot (Nat.succ_ne_zero _)
  | @scanned s a hs hnext ha hread ih =>
    cases h' with
    | predicted i' hr' => exact absurd (congrArg (fun k => k.2.1) hkey) (Nat.succ_ne_zero _)
    | @scanned s' a' hs' hnext' ha' hread' =>
      have hbefore : s.key = s'.key := by simpa [State.key, State.scanned] using hkey
      rw [ih hs' hbefore (Nat.succ.inj hfinish)]
    | @advanced s' t' hs' ht' hcomplete' hnext' hmeet' hnew' =>
      have hbefore : s.key = s'.key := by
        simpa [State.key, State.scanned, State.advanced] using hkey
      have hsymbol : some a = some t'.rule.lhs :=
        hnext.symm.trans ((hs.rule_eq_of_key hs' hbefore).2.trans hnext')
      have hmem' := rule_mem_of_advanced hγ hs' ht' hcomplete' hnext' hmeet' hnew'
      rw [Option.some.inj hsymbol, isTerminal_lhs hmem'] at ha
      exact absurd ha Bool.false_ne_true
  | @advanced s t hs ht hcomplete hnext hmeet hnew ihs iht =>
    have hmem := rule_mem_of_advanced hγ hs ht hcomplete hnext hmeet hnew
    cases h' with
    | predicted i' hr' => exact absurd (congrArg (fun k => k.2.1) hkey) (Nat.succ_ne_zero _)
    | @scanned s' a' hs' hnext' ha' hread' =>
      have hbefore : s.key = s'.key := by
        simpa [State.key, State.scanned, State.advanced] using hkey
      have hsymbol : some a' = some t.rule.lhs :=
        hnext'.symm.trans ((hs.rule_eq_of_key hs' hbefore).2.symm.trans hnext)
      rw [Option.some.inj hsymbol, isTerminal_lhs hmem] at ha'
      exact absurd ha' Bool.false_ne_true
    | @advanced s' t' hs' ht' hcomplete' hnext' hmeet' hnew' =>
      have hbefore : s.key = s'.key := by simpa [State.key, State.advanced] using hkey
      have hmem' := rule_mem_of_advanced hγ hs' ht' hcomplete' hnext' hmeet' hnew'
      obtain ⟨hsplit, hlast⟩ := keys_eq_of_advanced hs hs' ht ht' hcomplete hcomplete' hmem hmem'
        hnext hnext' hmeet hmeet' hbefore hfinish
      rw [ihs hs' hbefore hsplit, iht ht' hlast hfinish]

/-- The states that are put into the entry at a position unless one with their key is there. -/
def Offered (g : Grammar) (input : List Symbol) (i : Nat) (s : State) : Prop :=
  s ∈ seeds g input (ofSymbols g input) i ∨
    ∃ t ∈ (ofSymbols g input).getD i [],
      s ∈ successors (predict g.expansions) ((ofSymbols g input).extract 0 i) i input[i]? t

/-- No rule of the built-in grammar, nor the extra one, leads from a symbol to itself. -/
lemma rhs_ne_lhs (hr : (n, r) ∈ builtin.allNumbered) : r.rhs ≠ [r.lhs] := by
  rcases mem_cons.1 hr with heq | hmem
  · obtain ⟨-, rfl⟩ := Prod.mk.inj heq
    intro hrhs
    have hstart : builtin.start = acceptSymbol := singleton_injective hrhs
    rw [start_builtin] at hstart
    exact absurd (utf8_injective hstart) (by decide)
  · obtain ⟨p, hp, rhs, hrhs, hl, hr⟩ := exists_of_mem_builtin (mem_rules_of_mem_numbered hmem)
    have htable : ∀ p ∈ builtinTable, ∀ rhs ∈ p.2, rhs ≠ [p.1] := by decide
    intro hself
    rw [hl, hr] at hself
    have hsingle : rhs.map utf8 = [p.1].map utf8 := hself
    exact htable p hp rhs hrhs (map_injective_iff.2 utf8_injective hsingle)

/-- What is offered to an entry of the built-in grammar is justified. -/
lemma justified_of_offered {i : Nat} (hi : i ≤ input.length) (h : Offered builtin input i s) :
    Justified builtin input s ∧ s.finish = i := by
  have hfits := fits_predict builtin
  have hchart : ∀ j < i, ∀ s ∈ (ofSymbols builtin input).getD j [],
      Justified builtin input s ∧ s.finish = j :=
    fun j hj s hs => justified_of_mem hfits (hj.le.trans hi) hs
  rcases h with hseed | ⟨t, ht, hs⟩
  · exact justified_seeds hchart hseed
  · obtain ⟨hjust, hfinish⟩ := justified_of_mem hfits hi ht
    cases hnext : t.next? with
    | some a =>
      simp only [successors, hnext] at hs
      obtain ⟨⟨n, r⟩, hmem, rfl⟩ := mem_map.1 hs
      exact ⟨.predicted i (mem_cons_of_mem _ (hfits.mem hmem).1), rfl⟩
    | none =>
      refine justified_successors hfits hchart ⟨hjust, hfinish⟩ hs ?_
      simp only [successors, hnext] at hs
      obtain ⟨w, hw, rfl⟩ := mem_map.1 hs
      obtain ⟨hw, hwnext⟩ := mem_filter.1 hw
      rw [getD_extract] at hw
      split at hw
      · rename_i hlt
        obtain ⟨hwjust, hwfinish⟩ := hchart t.origin hlt w hw
        intro hkey
        obtain ⟨hnumber, hdot, horigin⟩ :
            w.number = t.number ∧ w.dot + 1 = t.dot ∧ w.origin = t.origin := by
          simpa [State.key, State.advanced] using hkey
        have hrule : w.rule = t.rule :=
          rule_eq_of_mem_allNumbered hwjust.rule_mem (hnumber ▸ hjust.rule_mem)
        have hbegin := hwjust.origin_add_dot_le
        have hzero : w.dot = 0 := by omega
        have hlength : t.rule.rhs.length = 1 := by
          rw [← hjust.dot_eq_of_complete hnext, ← hdot, hzero]
        obtain ⟨a, ha⟩ := length_eq_one_iff.1 hlength
        have hfirst : w.next? = some t.rule.lhs := of_decide_eq_true hwnext
        rw [State.next?, hrule, hzero, ha] at hfirst
        exact rhs_ne_lhs hjust.rule_mem (by rw [ha, Option.some.inj hfirst])
      · exact absurd hw not_mem_nil

end Chart

open Grammar

/-- A derivation of a program is the tree of its tokens. -/
lemma parse_leaves {tree : Tree} (h : tree.IsDerivation builtin) (hlabel : tree.label = builtin.start)
    (hnewline : endsWithNewline tree.leaves = true) : parse builtin tree.leaves = .ok tree := by
  obtain ⟨u, hparse⟩ := exists_parse_of_isDerivation acceptSymbol_notMem_builtin h hlabel hnewline
  obtain ⟨hlabel', hu, hleaves⟩ := isDerivation_of_parse_eq_ok acceptSymbol_notMem_builtin hparse
  rw [hparse, unique_start h hu hlabel hlabel' hleaves.symm]

lemma parse_of_follows {tree : Tree} (h : tree.follows = true ∧ tree.label = utf8 "<program>" ∧
    endsWithNewline tree.leaves = true) : parse builtin tree.leaves = .ok tree :=
  parse_leaves (tree.isDerivation_of_follows h.1) (h.2.1.trans start_builtin.symm) h.2.2

/-- The tree that the tables build from a source. -/
def Tree.ofSource (source : Text) : Tree :=
  BuiltinMachine.build 1000 [] ((lex source).toOption.getD [])

/-- A source is parsed to the tree that is built from it, if that follows the rules. -/
lemma lex_parse_ofSource (source : Text) (h : lex source = .ok (Tree.ofSource source).leaves ∧
    (Tree.ofSource source).follows = true ∧ (Tree.ofSource source).label = utf8 "<program>" ∧
    endsWithNewline (Tree.ofSource source).leaves = true) :
    lex source = .ok (Tree.ofSource source).leaves ∧
      parse builtin (Tree.ofSource source).leaves = .ok (.ofSource source) :=
  ⟨h.1, parse_of_follows h.2⟩

/-- The built-in grammar is unambiguous. Derivations of a program with the same symbols at their
leaves are the same but for what their tokens hold. So the tree that parsing gives is the only one
with its leaves, and a state that is left out of an entry because one with its key is there is that
very state. -/
theorem builtin_unambiguous :
    (∀ t u : Tree, t.IsDerivation builtin → u.IsDerivation builtin → t.label = builtin.start →
      u.label = builtin.start → t.leaves.map Token.symbol = u.leaves.map Token.symbol →
      t.bare = u.bare) ∧
    (∀ (tokens : List Token) (t : Tree), parse builtin tokens = .ok t →
      ∀ u : Tree, u.IsDerivation builtin → u.label = builtin.start → u.leaves = tokens → u = t) ∧
    (∀ (tokens : List Token) (i : Nat) (s s' : State), i ≤ tokens.length →
      Chart.Offered builtin (tokens.map Token.symbol) i s →
      s' ∈ (recognize builtin tokens).getD i [] → s.same s' = true → s = s') := by
  refine ⟨?_, ?_, ?_⟩
  · intro t u ht hu htlabel hulabel hsymbols
    refine Grammar.unique_start ht.bare hu.bare ?_ ?_ ?_
    · rw [Tree.label_bare, htlabel]
    · rw [Tree.label_bare, hulabel]
    · have hbare : Token.bare = (fun s => ⟨.divider, s, ⟨0, 0⟩⟩) ∘ Token.symbol := rfl
      rw [Tree.leaves_bare, Tree.leaves_bare, hbare, ← List.map_map, ← List.map_map, hsymbols]
  · intro tokens t hparse u hu hulabel hleaves
    obtain ⟨htlabel, ht, htleaves⟩ :=
      isDerivation_of_parse_eq_ok Grammar.acceptSymbol_notMem_builtin hparse
    exact Grammar.unique_start hu ht hulabel htlabel (hleaves.trans htleaves.symm)
  · intro tokens i s s' hi hs hs' hsame
    have hlength : i ≤ (tokens.map Token.symbol).length := by rwa [List.length_map]
    obtain ⟨hjust, hfinish⟩ := Chart.justified_of_offered hlength hs
    obtain ⟨hjust', hfinish'⟩ := Chart.justified_of_mem (Chart.fits_predict _) hlength hs'
    exact hjust.eq_of_key hjust' ((State.same_iff s s').1 hsame) (hfinish.trans hfinish'.symm)

/-- A line with one statement has a tree, and no other one. -/
theorem parse_pass_unique :
    let tokens : List Token := [⟨.keyword, utf8 "pass", ⟨0, 0⟩⟩, ⟨.divider, newlineText, ⟨0, 4⟩⟩]
    ∃ t, parse builtin tokens = .ok t ∧ ∀ u : Tree, u.IsDerivation builtin →
      u.label = builtin.start → u.leaves = tokens → u = t := by
  intro tokens
  have hlex : lex (utf8 "pass\n") = .ok tokens := by decide +kernel
  obtain ⟨hlex', hparse⟩ := lex_parse_ofSource (utf8 "pass\n") (by decide +kernel)
  rw [← Except.ok.inj (hlex.symm.trans hlex')] at hparse
  exact ⟨_, hparse, builtin_unambiguous.2.1 _ _ hparse⟩

end Lunify
