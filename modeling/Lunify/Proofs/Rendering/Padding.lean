import Lunify.Proofs.Spelled.Lines

/-!
# Blank lines at the end of a program

Statements may follow statements (`Tree.withStatements`), and a blank line is a statement of its own
(`Tree.blankLine`). Blank lines at the end of a program stand inside of the blocks that are still open there.
With such lines before the last blocks are closed, a program is still a program, and it is rendered by the same
steps (`Tree.Stated.exists_replaces`).
-/

namespace Lunify

open List

namespace Tree

open Grammar Core Plan
open Chunk (Lexeme)

variable {plain : Prop} {s w : String} {t t' u u' : Tree} {ts us us' header : List Tree} {ks ls : List Lexeme}

variable {tok : Token} {n : Nat} {before : List Token}

/-! ### Statements -/

/-- The statement of a blank line. -/
def blankLine (tok : Token) : Tree :=
  .node (utf8 "<statement>") [.leaf newlineText tok]

/-- Statements with others after them. -/
def withStatements (s : Tree) (sts : List Tree) : Tree :=
  sts.foldl (fun s st => .node (utf8 "<statements>") [s, st]) s

lemma derives_blankLine (htok : tok.isDivider newlineText = true) :
    Derives "<statement>" (blankLine tok) :=
  derives_of_line (by decide) (.cons (derives_divider (by decide) htok) .nil)

/-- Layout is rendered by no steps. -/
lemma plan_layout {l : Text} (htok : tok.isSynthetic = true) : plan id (.leaf l tok) = [] := by
  rw [plan, leafSteps, if_pos htok]

lemma plan_blankLine (htok : tok.isDivider newlineText = true) : plan id (blankLine tok) = [] := by
  rw [blankLine, plan_node, flatMap_singleton,
    plan_layout (Lexer.isSynthetic_of_isDivider (by simp) htok)]

/-- Statements with others after them are statements. -/
lemma derives_withStatements {sts : List Tree} (ht : Derives "<statements>" t)
    (hsts : ∀ st ∈ sts, Derives "<statement>" st) : Derives "<statements>" (withStatements t sts) := by
  induction sts generalizing t with
  | nil => exact ht
  | cons st sts ih =>
    rw [forall_mem_cons] at hsts
    exact ih (derives_of_line (by decide) (.cons ht (.cons hsts.1 .nil))) hsts.2

lemma leaves_withStatements (t : Tree) (sts : List Tree) :
    (withStatements t sts).leaves = t.leaves ++ leavesOf sts := by
  induction sts generalizing t with
  | nil => simp [withStatements, leavesOf]
  | cons st sts ih =>
    rw [withStatements, foldl_cons, ← withStatements, ih]
    simp [leaves, leavesOf]

lemma plan_withStatements (t : Tree) (sts : List Tree) :
    plan id (withStatements t sts) = plan id t ++ sts.flatMap (plan id) := by
  induction sts generalizing t with
  | nil => simp [withStatements]
  | cons st sts ih =>
    rw [withStatements, foldl_cons, ← withStatements, ih, plan_node]
    simp

/-- Statements are a list of them. -/
lemma Stated.exists_statements (h : Stated plain s t ls) (hs : s = "<statements>") (ht : Laid t) :
    ∃ sts, (∀ st ∈ sts, Derives "<statement>" st) ∧ t.leaves = leavesOf sts ∧
      plan id t = sts.flatMap (plan id) := by
  have hrules : ∀ q ∈ statementRules, q.1 = "<statements>" → q.2 = "<statement>" := by decide
  have hclosed : ∀ s ∈ closedSymbols, s ≠ "<statements>" := by decide
  induction h with
  | line hs' => simp [hs] at hs'
  | @single s s' t ls hrule h _ =>
    obtain rfl := hs
    obtain rfl := hrules _ hrule rfl
    have hlaid := ht.child (by decide) (mem_singleton_self t)
    exact ⟨[t], by simpa using ⟨hlaid.derivation, h.label⟩, rfl, plan_node⟩
  | @more t u ks ls _ hu iht _ =>
    obtain ⟨sts, hsts, hleaves, hplan⟩ := iht rfl ht.child
    have hu' : Derives "<statement>" u := ⟨ht.child.derivation, hu.label⟩
    refine ⟨sts ++ [u], ?_, ?_, ?_⟩
    · simpa [or_imp, forall_and] using ⟨hsts, hu'⟩
    · simp [leaves, leavesOf, leavesOf_append, hleaves]
    · rw [plan_node]
      simp [hplan]
  | construct hs' => exact absurd hs (hclosed _ hs')
  | blank | block | either | alternative | alternatives => simp at hs

/-- A statement that begins with the end of a line is a blank line. -/
lemma eq_blankLine (ht : Derives "<statement>" t) (hfirst : tok ∈ t.leaves.head?)
    (htok : tok.isDivider newlineText = true) : t = blankLine tok := by
  have hline : ("<statement>", [["<simple_statement>", "newline"], ["<compound_statement>"],
      ["newline"]]) ∈ builtinTable := by decide
  obtain ⟨ts, rfl, rhs, hrhs, hts⟩ := ht.children hline
  -- Only statements, blocks and blank lines can begin with the end of a line.
  have hlines : ∀ p ∈ builtinTable, p.1 ∉ ["<program>", "<statements>", "<statement>", "<block>", "<newlines>"] →
      ∀ rhs ∈ p.2, ∀ s ∈ rhs.head?, s ∉ ["<program>", "<statements>", "<statement>", "<block>", "<newlines>"] ∧
        s ≠ "newline" := by decide
  have hother : ∀ s ∈ ["<simple_statement>", "<compound_statement>"], ∀ u us, Derives s u →
      tok ∉ (Tree.node (utf8 "<statement>") (u :: us)).leaves.head? := by
    intro s hs u us hu hhead
    rw [leaves, leavesOf, head?_append_of_ne_nil _ (leaves_ne_nil hu.derivation)] at hhead
    have hspec : ∀ s ∈ ["<simple_statement>", "<compound_statement>"],
        s ∉ ["<program>", "<statements>", "<statement>", "<block>", "<newlines>"] ∧ s ≠ "newline" := by decide
    exact absurd (htok.symm.trans (head_ne_divider hlines hu.derivation hu.label (hspec s hs) tok hhead)) (by simp)
  simp only [mem_cons, not_mem_nil, or_false] at hrhs
  rcases hrhs with rfl | rfl | rfl
  · obtain ⟨u, n, rfl, hu, -⟩ := exists_two hts
    exact absurd hfirst (hother _ (by simp) _ _ hu)
  · obtain ⟨u, rfl, hu⟩ := exists_one hts
    exact absurd hfirst (hother _ (by simp) _ _ hu)
  · obtain ⟨n, rfl, hn⟩ := exists_one hts
    obtain ⟨tok', rfl, -⟩ := hn.isWord
    obtain rfl : tok' = tok := by simpa [leaves, leavesOf] using hfirst
    rfl

/-- Statements that begin with blank lines, and those after these. -/
lemma exists_statements_of_newlines {sts : List Tree} (hsts : ∀ st ∈ sts, Derives "<statement>" st)
    {blank rest : List Token} (hblank : ∀ tok ∈ blank, tok.isDivider newlineText = true)
    (hleaves : leavesOf sts = blank ++ rest) :
    ∃ later, (∀ st ∈ later, Derives "<statement>" st) ∧ leavesOf later = rest ∧
      sts.flatMap (plan id) = later.flatMap (plan id) := by
  induction blank generalizing sts with
  | nil => exact ⟨sts, hsts, hleaves, rfl⟩
  | cons tok blank ih =>
    rw [forall_mem_cons] at hblank
    cases sts with
    | nil => cases hleaves
    | cons st sts =>
      rw [forall_mem_cons] at hsts
      have hfirst := congrArg List.head? hleaves
      rw [leavesOf, head?_append_of_ne_nil _ (leaves_ne_nil hsts.1.derivation)] at hfirst
      obtain rfl := eq_blankLine hsts.1 hfirst hblank.1
      have htail : leavesOf sts = blank ++ rest := by simpa [leavesOf, blankLine, leaves] using hleaves
      obtain ⟨later, hlater, hrest, hplan⟩ := ih hsts.2 hblank.2 htail
      refine ⟨later, hlater, hrest, ?_⟩
      rw [flatMap_cons, plan_blankLine hblank.1, nil_append, hplan]

/-! ### Blank lines in the last blocks -/

/-- The tokens that close some blocks at a place. -/
def dedents (pos : Position) (n : Nat) : List Token :=
  List.replicate n ⟨.divider, dedentText, pos⟩

lemma isDivider_of_mem_dedents {pos : Position} (h : tok ∈ dedents pos n) :
    tok.isDivider dedentText = true := by
  rw [eq_of_mem_replicate h]
  simp [Token.isDivider]

/-- Closings at the end of tokens are at the end of their last part, unless that begins with one of them. -/
lemma exists_before_dedents {first tail : List Token} {pos : Position}
    (h : first ++ tail = before ++ dedents pos n) (hne : tail ≠ [])
    (htail : ∀ tok ∈ tail.head?, tok.isDivider dedentText = false) :
    ∃ middle, before = first ++ middle ∧ tail = middle ++ dedents pos n := by
  rcases append_eq_append_iff.1 h with ⟨middle, hbefore, hmiddle⟩ | ⟨middle, -, hmiddle⟩
  · exact ⟨middle, hbefore, hmiddle⟩
  · obtain ⟨tok, rest, rfl⟩ := exists_cons_of_ne_nil hne
    have hclosing : tok.isDivider dedentText = true :=
      isDivider_of_mem_dedents (by rw [hmiddle]; simp)
    rw [htail tok rfl] at hclosing
    cases hclosing

/-- Whether a tree can stand in the place of another one at the end of a construct: it is derived from the same
symbol, and the construct is rendered by the same steps. -/
structure Replaces (s : String) (t t' : Tree) : Prop where
  derives : Derives s t'
  plan_eq : plan id t' = plan id t
  closing_eq : s = "<block>" → ∀ kw, closing id (some kw) t' = closing id (some kw) t
  last : s = "<else>" → ∃ us us' b b', t = .node (utf8 "<else>") us ∧ t' = .node (utf8 "<else>") us' ∧
    lastBody us = some b ∧ lastBody us' = some b' ∧ ∀ kw, closing id (some kw) b' = closing id (some kw) b

/-- A node is derived from its symbol with other children that have the same labels. -/
lemma Laid.derives_of_labels (h : Laid (.node (utf8 s) ts)) (hs : s ∈ builtinTable.map Prod.fst)
    (hlabels : us.map label = ts.map label) (hus : ∀ u ∈ us, u.IsDerivation builtin) :
    Derives s (.node (utf8 s) us) := by
  obtain ⟨p, hp, rfl⟩ := mem_map.1 hs
  obtain ⟨⟨rhs, hrhs, hrule⟩, -⟩ := children_eq h.derivation p.1 p.2 hp rfl
  have hline : hasLine (utf8 p.1) (rhs.map utf8) = true := by
    simp only [hasLine, any_eq_true, Bool.and_eq_true, decide_eq_true_eq]
    exact ⟨p, hp, rfl, rhs, hrhs, rfl⟩
  obtain ⟨r, hr, hlhs, hrhs'⟩ := exists_of_hasLine hline
  refine ⟨?_, rfl⟩
  rw [← hlhs]
  exact .rule hr (by rw [hlabels, hrule, hrhs']) hus

section Blank

variable {blank : List Token} {pos pos' : Position}

/-- Whether blank lines can be put before the last blocks of a tree are closed, at another place. -/
def Paddable (blank : List Token) (pos pos' : Position) (s : String) (t : Tree) : Prop :=
  ∀ before n, t.leaves = before ++ dedents pos (n + 1) →
    ∃ t', Replaces s t t' ∧ t'.leaves = before ++ blank ++ dedents pos' (n + 1)

/-- What ends with the end of a line does not close a block. -/
lemma paddable_of_newline (us : List Tree) (hu : IsWord "newline" u) :
    Paddable blank pos pos' s (.node (utf8 s) (us ++ [u])) := by
  intro before n hleaves
  obtain ⟨tok, rfl, hsymbol⟩ := hu
  have hlast := congrArg List.getLast? hleaves
  rw [leaves, leavesOf_append, leavesOf, leavesOf, leaves, append_nil, dedents, replicate_succ',
    ← append_assoc, getLast?_concat, getLast?_concat] at hlast
  obtain rfl := Option.some.inj hlast
  exact absurd (utf8_injective hsymbol) (by decide)

/-- The last part of a tree is padded in the place of the tree. -/
lemma Paddable.exists_last (h : Paddable blank pos pos' w u) (hw : w ∉ ["indent", "dedent"])
    (hlabel : u.label = utf8 w) (hs : s ∈ builtinTable.map Prod.fst)
    (hlaid : Laid (.node (utf8 s) (us ++ [u])))
    (hleaves : leaves (.node (utf8 s) (us ++ [u])) = before ++ dedents pos (n + 1)) :
    ∃ u', Replaces w u u' ∧ Derives s (.node (utf8 s) (us ++ [u'])) ∧
      leaves (.node (utf8 s) (us ++ [u'])) = before ++ blank ++ dedents pos' (n + 1) := by
  have hu := (hlaid.child hs (show u ∈ us ++ [u] by simp)).derivation
  rw [leaves, leavesOf_append, leavesOf, leavesOf, append_nil] at hleaves
  obtain ⟨middle, rfl, hmiddle⟩ := exists_before_dedents hleaves (leaves_ne_nil hu)
    (head_ne_depth (by simp) hu hlabel hw)
  obtain ⟨u', hu', hleaves'⟩ := h middle n hmiddle
  refine ⟨u', hu', hlaid.derives_of_labels hs (by simp [hlabel, hu'.derives.label]) fun v hv => ?_, ?_⟩
  · rcases mem_append.1 hv with hv | hv
    · exact (hlaid.child hs (mem_append_left _ hv)).derivation
    · rw [mem_singleton.1 hv]
      exact hu'.derives.derivation
  · simp [leaves, leavesOf_append, leavesOf, hleaves']

/-- A sequence is padded in its last part. -/
lemma Paddable.sequence (us : List Tree) (h : Paddable blank pos pos' w u) (hw : w ∉ ["indent", "dedent"])
    (hlabel : u.label = utf8 w) (hs : s ∈ builtinTable.map Prod.fst) (hform : Form.ofLabel (utf8 s) = .sequence)
    (hne : s ∉ ["<block>", "<else>"]) (hlaid : Laid (.node (utf8 s) (us ++ [u]))) :
    Paddable blank pos pos' s (.node (utf8 s) (us ++ [u])) := by
  intro before n hleaves
  obtain ⟨u', hu', hderives, hleaves'⟩ := h.exists_last hw hlabel hs hlaid hleaves
  simp only [mem_cons, not_mem_nil, or_false, not_or] at hne
  refine ⟨_, ⟨hderives, ?_, fun heq => absurd heq hne.1, fun heq => absurd heq hne.2⟩, hleaves'⟩
  rw [plan_node (by simp [hform]), plan_node (by simp [hform])]
  simp [hu'.plan_eq]

/-- Statements can be followed by blank lines. -/
lemma exists_replaces_statements (hblank : ∀ tok ∈ blank, tok.isDivider newlineText = true)
    (ht : Derives "<statements>" t) : ∃ t', Replaces "<statements>" t t' ∧ t'.leaves = t.leaves ++ blank := by
  have hlines : (∀ st ∈ blank.map blankLine, Derives "<statement>" st ∧ plan id st = []) := by
    intro st hst
    obtain ⟨tok, htok, rfl⟩ := mem_map.1 hst
    exact ⟨derives_blankLine (hblank tok htok), plan_blankLine (hblank tok htok)⟩
  have hleaves : leavesOf (blank.map blankLine) = blank := by
    clear hblank hlines
    induction blank with
    | nil => rfl
    | cons tok blank ih =>
      rw [map_cons, leavesOf, ih]
      simp [blankLine, leaves, leavesOf]
  refine ⟨withStatements t (blank.map blankLine), ⟨derives_withStatements ht fun st hst => (hlines st hst).1,
    ?_, by simp, by simp⟩, by rw [leaves_withStatements, hleaves]⟩
  rw [plan_withStatements, flatMap_eq_nil_iff.2 fun st hst => (hlines st hst).2, append_nil]

/-- A body with the same tokens up to layout is closed in the same way. -/
lemma closing_eq_of_read {ts' : List Tree} (hhead : ts'.head? = ts.head?)
    (hfirst : first? (.node blockLabel ts') = first? (.node blockLabel ts))
    (hread : (leavesOf ts').filter (fun tok => !tok.isSynthetic) = (leavesOf ts).filter fun tok => !tok.isSynthetic)
    (opener : Option Token) : closing id opener (.node blockLabel ts') = closing id opener (.node blockLabel ts) := by
  have hfind : ∀ toks : List Token, toks.reverse.find? (fun tok => !tok.isSynthetic) =
      (toks.filter fun tok => !tok.isSynthetic).getLast? := by
    intro toks
    rw [← head?_reverse, ← filter_reverse, head?_filter]
  have hlast : lastToken (.node blockLabel ts') = lastToken (.node blockLabel ts) := by
    rw [lastToken, lastToken, hfind, hfind, leaves, leaves, hread, hfirst]
  simp only [closing, isInline, Tree.children, hhead, hlast]
  rfl

/-- A block on lines of its own is padded in its statements. -/
lemma paddable_block {n i d : Tree} (hblank : ∀ tok ∈ blank, tok.isDivider newlineText = true)
    (ht : t.label = utf8 "<statements>") (hd : IsWord "dedent" d)
    (hlaid : Laid (.node (utf8 "<block>") [n, i, t, d])) (h : Paddable blank pos pos' "<statements>" t) :
    Paddable blank pos pos' "<block>" (.node (utf8 "<block>") [n, i, t, d]) := by
  intro before k hleaves
  obtain ⟨tok, rfl, -⟩ := hd
  have hchild : ∀ u ∈ [n, i, t, .leaf (utf8 "dedent") tok], Laid u := fun u hu => hlaid.child (by decide) hu
  have hstatements : Derives "<statements>" t := ⟨(hchild t (by simp)).derivation, ht⟩
  have hsplit : (n.leaves ++ i.leaves) ++ t.leaves ++ [tok] =
      before ++ dedents pos k ++ [⟨.divider, dedentText, pos⟩] := by
    rw [append_assoc before, dedents, ← replicate_succ', ← dedents, ← hleaves]
    simp [leaves, leavesOf]
  obtain ⟨hinner, htok⟩ := append_inj' hsplit rfl
  obtain rfl := (List.cons.inj htok).1
  obtain ⟨middle, rfl, hmiddle⟩ := exists_before_dedents hinner (leaves_ne_nil hstatements.derivation)
    (head_ne_depth (by simp) hstatements.derivation ht (by decide))
  obtain ⟨t', ht', hleaves'⟩ : ∃ t', Replaces "<statements>" t t' ∧
      t'.leaves = middle ++ blank ++ dedents pos' k := by
    cases k with
    | zero =>
      obtain ⟨t', ht', hleaves'⟩ := exists_replaces_statements hblank hstatements
      exact ⟨t', ht', by simp [hleaves', hmiddle, dedents]⟩
    | succ k => exact h middle k hmiddle
  have hclose : ∀ pos, (⟨.divider, dedentText, pos⟩ : Token).isSynthetic = true := fun pos =>
    Lexer.isSynthetic_of_isDivider (w := dedentText) (by simp) (by simp [Token.isDivider])
  have hread : t'.leaves.filter (fun tok => !tok.isSynthetic) = t.leaves.filter fun tok => !tok.isSynthetic := by
    have hnone : ∀ toks : List Token, (∀ tok ∈ toks, tok.isSynthetic = true) →
        toks.filter (fun tok => !tok.isSynthetic) = [] := by
      intro toks htoks
      simpa using htoks
    rw [hleaves', hmiddle, filter_append, filter_append, filter_append,
      hnone blank fun tok htok => Lexer.isSynthetic_of_isDivider (by simp) (hblank tok htok),
      hnone (dedents pos k) fun tok htok => by rw [eq_of_mem_replicate htok]; exact hclose pos,
      hnone (dedents pos' k) fun tok htok => by rw [eq_of_mem_replicate htok]; exact hclose pos',
      append_nil]
  refine ⟨.node (utf8 "<block>") [n, i, t', .leaf dedentText ⟨.divider, dedentText, pos'⟩],
    ⟨?_, ?_, fun _ kw => ?_, by simp⟩, ?_⟩
  · refine hlaid.derives_of_labels (by decide) ?_ ?_
    · change [n.label, i.label, t'.label, _] = [n.label, i.label, t.label, _]
      rw [ht, ht'.derives.label]
      rfl
    have hdedent : Derives "dedent" (.leaf (utf8 "dedent") ⟨.divider, dedentText, pos'⟩) :=
      derives_divider (by decide) (by simp [Token.isDivider, dedentText])
    simpa using ⟨(hchild n (by simp)).derivation, (hchild i (by simp)).derivation, ht'.derives.derivation,
      hdedent.derivation⟩
  · rw [plan_node, plan_node]
    simp [ht'.plan_eq, plan_layout (hclose _)]
  · refine closing_eq_of_read ?_ ?_ ?_ _
    · rfl
    · simp [first?]
    · simp [leaves, leavesOf, hread, hclose]
  · simp [leavesOf, leaves, hleaves', dedents, replicate_succ']

/-- A construct is rendered by the same steps with bodies that are closed in the same way. -/
lemma IsHeader.replaces (h : IsHeader plain s header ks) (hheader : ∀ t ∈ header, Laid t) {b b' : Tree}
    (hus : ∀ u ∈ us ++ us', ∃ l vs, u = .node l vs) (hlast : lastBody (header ++ us) = some b)
    (hlast' : lastBody (header ++ us') = some b') (hfor : s = "<for>" → us = [b] ∧ us' = [b'])
    (hplan : us'.flatMap (plan id) = us.flatMap (plan id))
    (hclosing : ∀ kw, closing id (some kw) b' = closing id (some kw) b)
    (hderives : Derives s (.node (utf8 s) (header ++ us'))) :
    Replaces s (.node (utf8 s) (header ++ us)) (.node (utf8 s) (header ++ us')) := by
  obtain ⟨kw, rest, steps, -, -, hplanned⟩ := h.hasHeader hheader
  rw [forall_mem_append] at hus
  refine ⟨hderives, ?_, fun heq => ?_, fun heq => ?_⟩
  · rw [hplanned us b hus.1 hlast fun heq => (hfor heq).1, hplanned us' b' hus.2 hlast' fun heq => (hfor heq).2,
      hplan, hclosing]
  · have hne : ∀ q ∈ conditionWords, q.1 ≠ "<block>" := by decide
    cases h with
    | condition hs => exact absurd heq (hne _ hs)
    | _ => simp at heq
  · exact ⟨_, _, b, b', by rw [heq], by rw [heq], hlast, hlast', hclosing⟩

/-- A construct with one body is padded in it. -/
lemma IsHeader.paddable_one (h : IsHeader plain s header ks) (hs : s ∈ builtinTable.map Prod.fst)
    (hu : Stated plain "<block>" u ls) (hlaid : Laid (.node (utf8 s) (header ++ [u])))
    (hpad : Paddable blank pos pos' "<block>" u) :
    Paddable blank pos pos' s (.node (utf8 s) (header ++ [u])) := by
  intro before n hleaves
  obtain ⟨u', hu', hderives, hleaves'⟩ := hpad.exists_last (by decide) hu.label hs hlaid hleaves
  have hnode' := hu'.derives.exists_node (by decide)
  refine ⟨_, h.replaces (fun t ht => hlaid.child hs (mem_append_left _ ht)) ?_
    (lastBody_block h.isHeaderPart hu.exists_node hu.label)
    (lastBody_block h.isHeaderPart ⟨_, hnode'⟩ hu'.derives.label) (fun _ => ⟨rfl, rfl⟩)
    (by simp [hu'.plan_eq]) (hu'.closing_eq rfl) hderives, hleaves'⟩
  simpa using ⟨hu.exists_node, _, hnode'⟩

/-- A construct with an alternative is padded in that. -/
lemma IsHeader.paddable_two {v : Tree} {ms : List Lexeme} (h : IsHeader plain s header ks)
    (hs : s ∈ builtinTable.map Prod.fst) (hfor : s ≠ "<for>") (hu : Stated plain "<block>" u ls)
    (hv : Stated plain "<else>" v ms) (hlaid : Laid (.node (utf8 s) (header ++ [u, v])))
    (hpad : Paddable blank pos pos' "<else>" v) :
    Paddable blank pos pos' s (.node (utf8 s) (header ++ [u, v])) := by
  intro before n hleaves
  rw [show header ++ [u, v] = (header ++ [u]) ++ [v] by simp] at hleaves hlaid
  obtain ⟨v', hv', hderives, hleaves'⟩ := hpad.exists_last (by decide) hv.label hs hlaid hleaves
  obtain ⟨ws, ws', b, b', rfl, rfl, hlast, hlast', hclosing⟩ := hv'.last rfl
  rw [append_assoc, singleton_append] at hderives hleaves'
  refine ⟨_, h.replaces (fun t ht => hlaid.child hs (by simp [ht])) ?_
    (lastBody_alternative h.isHeaderPart hu.exists_node hu.label hlast)
    (lastBody_alternative h.isHeaderPart hu.exists_node hu.label hlast') (fun heq => absurd heq hfor)
    (by simp [hv'.plan_eq]) hclosing hderives, hleaves'⟩
  simpa using hu.exists_node

/-- Blank lines can be put before the last blocks of a program are closed. -/
theorem Stated.paddable (hblank : ∀ tok ∈ blank, tok.isDivider newlineText = true) (h : Stated plain s t ls)
    (hlaid : Laid t) : Paddable blank pos pos' s t := by
  induction h with
  | @line s t n ls _ _ hn => exact paddable_of_newline [t] hn
  | blank hn => exact paddable_of_newline [] hn
  | @single s s' t ls hs ht ih =>
    have hspec : ∀ q ∈ statementRules, q.1 ∈ builtinTable.map Prod.fst ∧ Form.ofLabel (utf8 q.1) = .sequence ∧
        q.1 ∉ ["<block>", "<else>"] ∧ q.2 ∉ ["indent", "dedent"] := by decide
    obtain ⟨hrules, hform, hne, hs'⟩ := hspec _ hs
    exact Paddable.sequence [] (ih (hlaid.child hrules (by simp))) hs' ht.label hrules hform hne hlaid
  | @more t u ks ls _ hu _ ihu =>
    exact Paddable.sequence [t] (ihu hlaid.child) (by decide) hu.label (by decide)
      (by decide) (by decide) hlaid
  | block _ _ ht hd ih => exact paddable_block hblank ht.label hd hlaid (ih hlaid.child)
  | @construct s header u ks ls hs hheader hu ih =>
    have hrules : ∀ s ∈ closedSymbols, s ∈ builtinTable.map Prod.fst := by decide
    exact hheader.paddable_one (hrules s hs) hu hlaid (ih (hlaid.child (hrules s hs) (by simp)))
  | either hheader hu hv _ ihv =>
    exact hheader.paddable_two (by decide) (by decide) hu hv hlaid (ihv hlaid.child)
  | alternative hheader hu ih =>
    exact hheader.paddable_one (by decide) hu hlaid (ih hlaid.child)
  | alternatives hheader hu hv _ ihv =>
    exact hheader.paddable_two (by decide) (by decide) hu hv hlaid (ihv hlaid.child)

/-- Statements at the end of a program, with blank lines before the last blocks are closed. -/
lemma Stated.exists_replaces (hblank : ∀ tok ∈ blank, tok.isDivider newlineText = true)
    (h : Stated plain "<statements>" t ls) (hlaid : Laid t) (hleaves : t.leaves = before ++ dedents pos n) :
    ∃ t', Replaces "<statements>" t t' ∧ t'.leaves = before ++ blank ++ dedents pos' n := by
  cases n with
  | zero =>
    obtain ⟨t', ht', hleaves'⟩ := exists_replaces_statements hblank ⟨hlaid.derivation, h.label⟩
    exact ⟨t', ht', by simp [hleaves', hleaves, dedents]⟩
  | succ n => exact h.paddable hblank hlaid before n hleaves

end Blank

end Tree

end Lunify
