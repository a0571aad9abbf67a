import Lunify.Proofs.Grammar.Unambiguous
import Lunify.Proofs.Spelled.Lines

/-!
# Rendering keeps the places of the source

Every program that lexes and parses is rendered, and each of its steps is aligned
(`generate_aligned`): the cursor never has to move back, a token goes to the line and the column that belong
to its place in the source, and a closing keyword goes below its body and under its opener. The bounds of
numeric loops are rendered on their own, with places that count from their first token, and are aligned in
the same way.
-/

namespace Lunify

open Tree Grammar

variable {tree : Tree} {tokens : List Token} {source : Text}

/-- Whether all steps of a run from the start are aligned, and their text is part of the output. What the
lines hold before the first step is given. -/
def AlignedRun (entries : List Posting) (steps : List Step) (out : Text) : Prop :=
  ∀ before st after, steps = before ++ st :: after → ∃ c c', Cursor.start.run before = .ok c ∧
    c.step st = .ok c' ∧ Aligned (entries ++ ledger Cursor.start before) (closings before) c st c' ∧
    c'.text <+: out

/-- A run that ends has all its texts in the output. -/
lemma Goes.alignedRun {entries : List Posting} {steps : List Step} {done rest : List Token} {c : Cursor}
    {out : Text} (h : Goes entries 0 Cursor.start steps done rest) (hrun : Cursor.start.run steps = .ok c)
    (hout : c.text <+: out) : AlignedRun entries steps out := by
  intro before st after heq
  obtain ⟨c₁, c₂, hrun₁, hstep, haligned⟩ := h.aligned before st after heq
  refine ⟨c₁, c₂, hrun₁, hstep, by simpa using haligned, ?_⟩
  have hrest : c₂.run after = .ok c := by
    have hsplit : Cursor.start.run steps = (Cursor.start.run before >>= fun c => c.step st >>= fun c =>
        c.run after) := by
      rw [heq, Cursor.run, List.foldlM_append]
      rfl
    rw [hsplit, hrun₁] at hrun
    change (c₁.step st >>= fun c => c.run after) = _ at hrun
    rw [hstep] at hrun
    exact hrun
  exact (Cursor.text_prefix_of_run hrest).trans hout

/-- The tokens of a part of a program follow each other. -/
lemma laid_of_isInfix (hlex : lex source = .ok tokens) (h : tree.IsDerivation builtin) (hpart : tree.leaves <:+: tokens) :
    tree.Laid :=
  ⟨h, fun tok htok => lexed_of_mem_lex hlex tok (hpart.subset htok), List.IsChain.infix (isChain_of_lex hlex).1 hpart⟩

lemma laid_of_parse (hlex : lex source = .ok tokens) (hparse : parse builtin tokens = .ok tree) : tree.Laid := by
  obtain ⟨-, hderivation, rfl⟩ := isDerivation_of_parse_eq_ok acceptSymbol_notMem_builtin hparse
  exact laid_of_isInfix hlex hderivation (List.infix_refl _)

/-- A program is laid out line by line. -/
lemma exists_lays_plan (hlex : lex source = .ok tokens) (hparse : parse builtin tokens = .ok tree) :
    ∃ ls, Lays False (Plan.plan id tree) tokens ls := by
  have hlaid := laid_of_parse hlex hparse
  obtain ⟨hlabel, hderivation, rfl⟩ := isDerivation_of_parse_eq_ok acceptSymbol_notMem_builtin hparse
  obtain ⟨ls, hstated⟩ := exists_stated ⟨hderivation, hlabel.trans start_builtin⟩ (AllLexed.fits hlaid.lexed) (by decide)
  exact ⟨ls, (outcome_iff_lays (by decide)).1 (hstated.outcome hlaid)⟩

/-- The steps of a program are rows, one below the other. -/
theorem exists_rows_plan (hlex : lex source = .ok tokens) (hparse : parse builtin tokens = .ok tree) :
    ∃ l, Rows (-1) (Plan.plan id tree) l := by
  obtain ⟨ls, hlays⟩ := exists_lays_plan hlex hparse
  refine ⟨_, hlays.rows (-1) (Int.le_refl _) fun tok htok _ => ?_⟩
  have hplaced := ((isChain_of_lex hlex).2 tok htok).line
  omega

/-- The run of the steps of a program begins before its first token. -/
lemma stands_start (h : ∀ t ∈ tokens, t.Placed) : Stands [] 0 Cursor.start [] tokens :=
  .of_fresh rfl fun t ht => h t (List.mem_of_mem_head? ht)

/-- The steps of a program account for its tokens and are aligned. -/
lemma accounts_and_goes (hlex : lex source = .ok tokens) (hparse : parse builtin tokens = .ok tree) :
    Accounts [] (Plan.plan id tree) tokens ∧ Goes [] 0 Cursor.start (Plan.plan id tree) tokens [] := by
  obtain ⟨hchain, hplaced⟩ := isChain_of_lex hlex
  obtain ⟨ls, hlays⟩ := exists_lays_plan hlex hparse
  have haccounts := (hlays.sets [] (by simp [LineStart])).accounts
  refine ⟨haccounts, ?_⟩
  have hgoes : Goes [] 0 Cursor.start (Plan.plan id tree) ([] ++ tokens) [] :=
    haccounts.goes (by simpa using ⟨hchain, hplaced⟩) (stands_start (by simpa using hplaced))
  exact hgoes

lemma exists_generate (hlex : lex source = .ok tokens) (hparse : parse builtin tokens = .ok tree) :
    ∃ c, Cursor.start.run (Plan.plan id tree) = .ok c ∧ generate tree = .ok (terminated c.text) := by
  obtain ⟨c, hrun, -⟩ := (accounts_and_goes hlex hparse).2.ends
  refine ⟨c, hrun, ?_⟩
  rw [generate, hrun]
  rfl

lemma prefix_terminated (s : Text) : s <+: terminated s := by
  unfold terminated
  split
  · exact List.prefix_refl s
  · exact List.prefix_append s _

/-- Rendering a program keeps the places of the source. Its steps go through the tokens one by one, all of
them are aligned, and so are those of every expression that is rendered on its own. -/
theorem generate_aligned {source : Text} {tokens : List Token} {tree : Tree}
    (hlex : lex source = .ok tokens) (hparse : parse builtin tokens = .ok tree) :
    Accounts [] (Plan.plan id tree) tokens ∧
    (∃ out, generate tree = .ok out ∧ AlignedRun [] (Plan.plan id tree) out) ∧
    ∀ e : Tree, e.IsDerivation builtin → e.label = expressionLabel → e.leaves <:+: tokens →
      ∃ tok out, e.first? = some tok ∧ fragment e = .ok out ∧
        AlignedRun [⟨0, 0, 0, 0, some anchor⟩] (Plan.plan (Position.relativeTo tok.pos) e) out := by
  obtain ⟨haccounts, hgoes⟩ := accounts_and_goes hlex hparse
  refine ⟨haccounts, ?_, ?_⟩
  · obtain ⟨c, hrun, hgenerate⟩ := exists_generate hlex hparse
    exact ⟨_, hgenerate, hgoes.alignedRun hrun (prefix_terminated c.text)⟩
  · intro e he hlabel hpart
    have hlaid := laid_of_isInfix hlex he hpart
    obtain ⟨ls, hspelled⟩ := exists_spelled ⟨he, hlabel⟩ (AllLexed.fits hlaid.lexed) (by decide)
    obtain ⟨tok, c, _, hfirst, hrun, -, -, hgoes⟩ := hspelled.exists_goes hlaid
    refine ⟨tok, c.text, hfirst, ?_, hgoes.alignedRun hrun (List.prefix_refl _)⟩
    have htext : Plan.fragmentText (Plan.plan (Position.relativeTo tok.pos) e) = .ok c.text := by
      rw [Plan.fragmentText]
      exact congrArg (· >>= fun c => pure c.text) hrun
    simp only [fragment, hfirst, htext]

/-- A loop over a range is rendered as a numeric loop at the same places. -/
theorem generate_aligned_loop :
    ∃ tokens tree, lex (utf8 "for i in range(n):\n\tprint(i)\n") = .ok tokens ∧
      parse builtin tokens = .ok tree ∧ Accounts [] (Plan.plan id tree) tokens ∧
      generate tree = .ok (utf8 "for i = 0, n - 1 do\n    print(i)\nend\n") ∧
      AlignedRun [] (Plan.plan id tree) (utf8 "for i = 0, n - 1 do\n    print(i)\nend\n") := by
  let source := utf8 "for i in range(n):\n\tprint(i)\n"
  obtain ⟨hlex, hparse⟩ := lex_parse_ofSource source (by decide +kernel)
  obtain ⟨haccounts, ⟨out, hgenerate, hrun⟩, -⟩ := generate_aligned hlex hparse
  have hout : generate (.ofSource source) = .ok (utf8 "for i = 0, n - 1 do\n    print(i)\nend\n") := by
    decide +kernel
  obtain rfl := Except.ok.inj (hgenerate.symm.trans hout)
  exact ⟨_, _, hlex, hparse, haccounts, hout, hrun⟩

end Lunify
