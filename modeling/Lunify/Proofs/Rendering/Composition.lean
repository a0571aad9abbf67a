import Lunify.Proofs.Rendering.Elsewhere
import Lunify.Proofs.Rendering.Generate
import Lunify.Proofs.Rendering.Padding

/-!
# Rendering one program after another

Two programs one after the other are a program. The blank lines that the second one begins with go into the
blocks that are open at the end of the first one, and all else of it moves down, so the steps of the whole
are those of the first program and then those of the second one, further down (`exists_plan_append`). The
second program begins below what was written for the first one, and what it is written as does not depend
on that: the outputs stand one after the other, with line feeds between them (`generate_append`).
-/

namespace Lunify

open List

open Grammar Tree

/-! ### The tree of two programs -/

/-- A program is made of statements. -/
lemma exists_statements_of_parse {source : Text} {tokens : List Token} {tree : Tree}
    (hlex : lex source = .ok tokens) (hparse : parse builtin tokens = .ok tree) :
    ∃ t ls, Stated False "<statements>" t ls ∧ t.Laid ∧ t.leaves = tokens ∧
      Plan.plan id tree = Plan.plan id t := by
  have hlaid := laid_of_parse hlex hparse
  obtain ⟨hlabel, hderivation, hleaves⟩ := isDerivation_of_parse_eq_ok acceptSymbol_notMem_builtin hparse
  have hprogram : Derives "<program>" tree := ⟨hderivation, hlabel.trans start_builtin⟩
  obtain ⟨ts, rfl, rhs, hrhs, hts⟩ := hprogram.children
    (show ("<program>", [["<statements>"]]) ∈ builtinTable by decide)
  obtain rfl := mem_singleton.1 hrhs
  obtain ⟨t, rfl, ht⟩ := exists_one hts
  have hlaid' := hlaid.child (by decide) (mem_singleton_self t)
  obtain ⟨ls, hstated⟩ := exists_stated ht (AllLexed.fits hlaid'.lexed) (by decide)
  refine ⟨t, ls, hstated, hlaid', ?_, ?_⟩
  · rw [← hleaves]
    simp [leaves, leavesOf]
  · rw [Core.plan_node, flatMap_singleton]

/-- Statements are a program. -/
lemma exists_parse_of_statements {s : Tree} (hs : Derives "<statements>" s)
    (hnewline : endsWithNewline s.leaves = true) :
    ∃ tree, parse builtin s.leaves = .ok tree ∧ ∀ view, Plan.plan view tree = Plan.plan view s := by
  have hprogram : Derives "<program>" (.node (utf8 "<program>") [s]) :=
    derives_of_line (by decide : hasLine _ (["<statements>"].map utf8) = true) (.cons hs .nil)
  have hleaves : (Tree.node (utf8 "<program>") [s]).leaves = s.leaves := by simp [leaves, leavesOf]
  have hparse := parse_leaves hprogram.derivation start_builtin.symm (hleaves ▸ hnewline)
  rw [hleaves] at hparse
  refine ⟨_, hparse, fun view => ?_⟩
  rw [Core.plan_node, flatMap_singleton]

/-- Tokens end with the end of a line, up to the closings of blocks. -/
lemma endsWithNewline_iff {tokens : List Token} : endsWithNewline tokens = true ↔
    ∃ before t closings, tokens = before ++ t :: closings ∧ t.isDivider newlineText = true ∧
      ∀ u ∈ closings, u.isDivider dedentText = true := by
  have hother : ∀ t : Token, t.isDivider newlineText = true → t.isDivider dedentText = false := by
    intro t ht
    have hne : newlineText ≠ dedentText := by decide
    simp only [Token.isDivider, Bool.and_eq_true, decide_eq_true_eq] at ht
    simp [Token.isDivider, ht, hne]
  constructor
  · intro h
    have hsplit := takeWhile_append_dropWhile (p := Token.isDivider dedentText) (l := tokens.reverse)
    unfold endsWithNewline at h
    cases hdrop : tokens.reverse.dropWhile (Token.isDivider dedentText) with
    | nil => simp [hdrop] at h
    | cons t rest =>
      simp only [hdrop] at h hsplit
      refine ⟨rest.reverse, t, (tokens.reverse.takeWhile (Token.isDivider dedentText)).reverse, ?_, h, ?_⟩
      · have hreverse := congrArg List.reverse hsplit
        simpa using hreverse.symm
      · intro u hu
        exact mem_takeWhile_imp (mem_reverse.1 hu)
  · rintro ⟨before, t, closings, rfl, ht, hclosings⟩
    have hdrop : (before ++ t :: closings).reverse.dropWhile (Token.isDivider dedentText) =
        t :: before.reverse := by
      rw [reverse_append, reverse_cons, append_assoc,
        dropWhile_append_of_pos fun u hu => hclosings u (mem_reverse.1 hu)]
      simp [hother t ht]
    simp only [endsWithNewline, hdrop, ht]

/-- Tokens that go on with tokens of which the end is that of a line. -/
lemma endsWithNewline_append {before blank rest closings : List Token}
    (hblank : ∀ t ∈ blank, t.isDivider newlineText = true)
    (hclosings : ∀ t ∈ closings, t.isDivider dedentText = true)
    (h : endsWithNewline (blank ++ rest) = true) (n : Nat) :
    endsWithNewline (before ++ blank.map (Token.down n) ++ closings ++ rest.map (Token.down n)) = true := by
  obtain ⟨before', t, closings', hsplit, ht, hclosings'⟩ := endsWithNewline_iff.1 h
  rw [endsWithNewline_iff]
  have hmoved : ∀ u ∈ closings'.map (Token.down n), u.isDivider dedentText = true := by
    simpa using hclosings'
  rcases append_eq_append_iff.1 hsplit with ⟨middle, rfl, rfl⟩ | ⟨middle, hmiddle, hrest⟩
  · exact ⟨before ++ blank.map (Token.down n) ++ closings ++ middle.map (Token.down n), t.down n, _,
      by simp, by simpa using ht, hmoved⟩
  · cases middle with
    | nil =>
      rw [nil_append] at hrest
      exact ⟨before ++ blank.map (Token.down n) ++ closings, t.down n, _, by rw [← hrest, map_cons],
        by simpa using ht, hmoved⟩
    | cons v middle =>
      -- The rest only closes blocks, so the last line ends before it.
      have htail : closings' = middle ++ rest := (List.cons.inj hrest).2
      rw [htail, forall_mem_append] at hclosings'
      obtain ⟨last, hlast, hnewline⟩ : ∃ last ∈ (before ++ blank.map (Token.down n)).getLast?,
          last.isDivider newlineText = true := by
        refine ⟨_, by rw [getLast?_append, getLast?_map,
          getLast?_eq_some_getLast (ne_nil_of_mem (a := v) (by simp [hmiddle]))]; rfl, ?_⟩
        rw [Token.isDivider_down]
        exact hblank _ (getLast_mem _)
      obtain ⟨first, hfirst⟩ := getLast?_eq_some_iff.1 hlast
      refine ⟨first, last, closings ++ rest.map (Token.down n), by rw [hfirst]; simp, hnewline, ?_⟩
      rw [forall_mem_append]
      exact ⟨hclosings, by simpa using hclosings'.2⟩

lemma endsWithNewline_of_parse {g : Grammar} {tokens : List Token} {tree : Tree}
    (h : parse g tokens = .ok tree) : endsWithNewline tokens = true := by
  by_contra hnewline
  rw [parse, if_neg hnewline] at h
  cases h

/-- The steps of two programs one after the other. -/
theorem exists_plan_append {p q : Text} {ps qs : List Token} {t u : Tree}
    (hend : p.getLast? = some (byte '\n')) (hp : lex p = .ok ps) (ht : parse builtin ps = .ok t)
    (hq : lex q = .ok qs) (hu : parse builtin qs = .ok u) :
    ∃ tokens tree, lex (p ++ q) = .ok tokens ∧ parse builtin tokens = .ok tree ∧
      Plan.plan id tree = Plan.plan id t ++ (Plan.plan id u).map (Step.moved (Token.lower (p.count (byte '\n')))) := by
  set n := p.count (byte '\n') with hn
  obtain ⟨s, ls, hs, hslaid, hsleaves, hsplan⟩ := exists_statements_of_parse hp ht
  obtain ⟨s', ls', hs', hs'laid, hs'leaves, hs'plan⟩ := exists_statements_of_parse hq hu
  obtain ⟨sts, hsts, hstsleaves, hstsplan⟩ := hs'.exists_statements rfl hs'laid
  obtain ⟨before, blank, rest, depth, pos, pos', rfl, -, -, rfl, hblank, hlex⟩ :=
    exists_lex_append hend hp hq
  obtain ⟨later, hlater, rfl, hlaterplan⟩ := exists_statements_of_newlines hsts hblank
    (hstsleaves.symm.trans hs'leaves)
  -- No program begins with an indented line.
  have hindent : ¬∃ tok ∈ (leavesOf later).head?, tok.isDivider indentText = true := by
    rintro ⟨tok, hhead, htok⟩
    cases later with
    | nil => cases hhead
    | cons st later =>
      have hst := hlater st (mem_cons_self ..)
      rw [leavesOf, head?_append_of_ne_nil _ (leaves_ne_nil hst.derivation)] at hhead
      have hother : tok.isDivider indentText = false :=
        head_ne_depth (by simp) hst.derivation hst.label (by decide) tok hhead
      exact absurd (htok.symm.trans hother) (by decide)
  have hlex := hlex.resolve_left hindent
  have hblank' : ∀ tok ∈ blank.map (Token.down n), tok.isDivider newlineText = true := by
    simpa using hblank
  obtain ⟨padded, hpadded, hleaves⟩ : ∃ padded, Replaces "<statements>" s padded ∧
      padded.leaves = before ++ blank.map (Token.down n) ++ dedents pos' depth :=
    hs.exists_replaces hblank' hslaid hsleaves
  have hmoved : ∀ st ∈ later.map (Tree.moved (Token.lower n)), Derives "<statement>" st := by
    intro st hst
    obtain ⟨st, hmem, rfl⟩ := mem_map.1 hst
    exact ⟨(hlater st hmem).derivation.moved _, by rw [label_moved, (hlater st hmem).label]⟩
  have htokens : (withStatements padded (later.map (Tree.moved (Token.lower n)))).leaves =
      before ++ blank.map (Token.down n) ++ dedents pos' depth ++ (leavesOf later).map (Token.down n) := by
    rw [leaves_withStatements, hleaves, ← movedAll_eq_map, leavesOf_movedAll]
    rfl
  have hnewline : endsWithNewline (withStatements padded (later.map (Tree.moved (Token.lower n)))).leaves = true := by
    rw [htokens]
    exact endsWithNewline_append hblank (fun _ => isDivider_of_mem_dedents) (endsWithNewline_of_parse hu) n
  obtain ⟨tree, hparse, hplan⟩ :=
    exists_parse_of_statements (derives_withStatements hpadded.derives hmoved) hnewline
  rw [htokens] at hparse
  refine ⟨_, tree, hlex, hparse, ?_⟩
  rw [hplan, plan_withStatements, hpadded.plan_eq, hsplan, hs'plan, hstsplan, hlaterplan, map_flatMap,
    flatMap_map]
  congr 2
  funext st
  exact Plan.plan_shown (fun _ => rfl) (fun a b => Position.relativeTo_down n a.pos b.pos) st

/-! ### The text of two programs -/

/-- What accounts for tokens begins with one of them, if nothing is visible before. -/
lemma Accounts.exists_first {done tokens : List Token} {steps : List Step} (h : Accounts done steps tokens)
    (hdone : ∀ t ∈ done, t.isVisible = false) (hne : steps ≠ []) :
    ∃ t ∈ tokens, ∃ s rest, steps = .token t s :: rest := by
  have hstart : ∀ done : List Token, (∀ t ∈ done, t.isVisible = false) → ¬MidLine done := by
    rintro done hdone ⟨t, ht, hvisible⟩
    rw [hdone t (mem_of_getLast? ht)] at hvisible
    cases hvisible
  induction h with
  | nil => exact absurd rfl hne
  | silent ht _ ih =>
    obtain ⟨t, hmem, s, rest, hsteps⟩ := ih (by simpa [or_imp, forall_and] using ⟨hdone, ht⟩) hne
    exact ⟨t, mem_cons_of_mem _ hmem, s, rest, hsteps⟩
  | token _ _ _ _ => exact ⟨_, mem_cons_self .., _, _, rfl⟩
  | keyword hmiddle => exact absurd hmiddle (hstart _ hdone)
  | drop hmiddle => exact absurd hmiddle (hstart _ hdone)
  | before hmiddle => exact absurd hmiddle (hstart _ hdone)
  | insert hplace =>
    rcases hplace with hmiddle | ⟨-, t, ht, hvisible⟩
    · exact absurd hmiddle (hstart _ hdone)
    · rw [hdone t ht] at hvisible
      cases hvisible
  | span hmiddle => exact absurd hmiddle (hstart _ hdone)
  | close hsplit _ hvisible =>
    rw [hdone _ (by simp [hsplit])] at hvisible
    cases hvisible

lemma terminated_append (s : Text) {r : Text} (hr : r ≠ []) : terminated (s ++ r) = s ++ terminated r := by
  have hlast : (s ++ r).getLast? = r.getLast? := by
    rw [getLast?_append, getLast?_eq_some_getLast hr, Option.some_or]
  unfold terminated
  rw [hlast]
  by_cases hfeed : r.getLast? = some (byte '\n')
  · simp [hfeed]
  · simp [hfeed, hr]

/-- Line feeds after a text, of which the first may be the one that is put at its end. -/
lemma exists_terminated_append_feeds (s : Text) {k : Nat} (hk : 0 < k) :
    ∃ n, s ++ List.replicate k (byte '\n') = terminated s ++ List.replicate n (byte '\n') ∧
      n + (terminated s).count (byte '\n') = k + s.count (byte '\n') := by
  unfold terminated
  split
  · exact ⟨k, rfl, rfl⟩
  · obtain ⟨n, rfl⟩ := Nat.exists_eq_add_of_lt hk
    refine ⟨n, ?_, ?_⟩
    · rw [Nat.zero_add, replicate_succ, append_assoc, singleton_append]
    · rw [count_append, count_singleton_self]
      omega

/-- Where the cursor is after a program: above the line after its last one, moved down by the closing
keywords, of which each has a line of its own. -/
lemma exists_cursor {p : Text} {ps : List Token} {t : Tree} (hend : p.getLast? = some (byte '\n'))
    (hp : lex p = .ok ps) (ht : parse builtin ps = .ok t) :
    ∃ c, Cursor.start.run (Plan.plan id t) = .ok c ∧ generate t = .ok (terminated c.text) ∧
      c.line = c.text.count (byte '\n') ∧ c.shift = Text.ownLineEnds (terminated c.text) ∧
      c.line < p.count (byte '\n') + c.shift := by
  obtain ⟨c, hrun, hstands⟩ := (accounts_and_goes hp ht).2.ends
  obtain ⟨l, hrows⟩ := exists_rows_plan hp ht
  have hgenerate : generate t = .ok (terminated c.text) := by
    rw [generate, hrun]
    rfl
  have hends := hrows.ownLineEnds_eq (.inr ⟨rfl, Int.le_refl _⟩) hrun
  have hline : c.line = c.text.count (byte '\n') := (congrArg Position.line hstands.fits).symm
  have hshift : c.shift = Text.ownLineEnds (terminated c.text) := by
    rw [Text.ownLineEnds_terminated, hends, hstands.shift]
    simp [closings, Cursor.start, Cursor.text]
  refine ⟨c, hrun, hgenerate, hline, hshift, ?_⟩
  cases hlast : lastRead ps with
  | none =>
    obtain ⟨rfl, -⟩ := hstands.fresh hlast
    have hmem : byte '\n' ∈ p := mem_of_getLast? hend
    have hpos := count_pos_iff.2 hmem
    simp only [Cursor.start]
    omega
  | some tok =>
    -- What was read is not among the closings at the end, which are all that stands below.
    obtain ⟨before, -, -, depth, pos, -, rfl, hbefore, -⟩ := exists_lex_append hend hp hp
    obtain ⟨hmem, hread⟩ := mem_filter.1 (mem_of_getLast? hlast)
    have htok : tok ∈ before := by
      refine (mem_append.1 hmem).resolve_right fun hclosing => ?_
      rw [eq_of_mem_replicate hclosing] at hread
      simp [Token.isSynthetic] at hread
    have hle := hstands.last tok hlast
    have hlt := hbefore tok htok
    omega

/-- Rendering is compositional. Two programs of which the first ends with a line feed are a program
one after the other. If anything is written for the second one, the output is that of the first program,
line feeds, and that of the second one, and these bring it below all lines of the first source and all the
closing keywords that were added to these. -/
theorem generate_append {p q : Text} {ps qs : List Token} {t u : Tree}
    (hend : p.getLast? = some (byte '\n')) (hp : lex p = .ok ps) (ht : parse builtin ps = .ok t)
    (hq : lex q = .ok qs) (hu : parse builtin qs = .ok u) :
    ∃ tokens tree, lex (p ++ q) = .ok tokens ∧ parse builtin tokens = .ok tree ∧
      ∃ r s, generate t = .ok r ∧ generate u = .ok s ∧ (s ≠ [] → ∃ n,
        generate tree = .ok (r ++ List.replicate n (byte '\n') ++ s) ∧
        n + r.count (byte '\n') = p.count (byte '\n') + Text.ownLineEnds r) := by
  obtain ⟨tokens, tree, hlex, hparse, hplan⟩ := exists_plan_append hend hp ht hq hu
  obtain ⟨c, hrun, hgenerate, hline, hshift, hbelow⟩ := exists_cursor hend hp ht
  obtain ⟨d, hrun', hgenerate'⟩ := exists_generate hq hu
  refine ⟨tokens, tree, hlex, hparse, _, _, hgenerate, hgenerate', fun hne => ?_⟩
  have hwritten : d.text ≠ [] := by
    intro hempty
    rw [hempty] at hne
    exact hne rfl
  have hsteps : Plan.plan id u ≠ [] := by
    intro hempty
    rw [hempty] at hrun'
    obtain rfl := Except.ok.inj hrun'
    exact hwritten rfl
  obtain ⟨tok, htok, text, rest, hfirst⟩ :=
    (accounts_and_goes hq hu).1.exists_first (by simp) hsteps
  rw [hfirst] at hrun' hplan
  have hpos : 0 ≤ tok.pos.line := ((isChain_of_lex hq).2 tok htok).line
  obtain ⟨e, hrun'', htext⟩ := Cursor.exists_run_down hbelow hpos hrun'
  have hwhole : generate tree = .ok (terminated e.text) := by
    have hboth : Cursor.start.run (Plan.plan id tree) = .ok e := by
      rw [hplan, Cursor.run, List.foldlM_append]
      exact bind_eq_ok_iff.2 ⟨c, hrun, hrun''⟩
    rw [generate, hboth]
    rfl
  set k := (p.count (byte '\n') + c.shift - c.line).toNat with hk
  obtain ⟨n, hfeeds, hcount⟩ := exists_terminated_append_feeds c.text (show 0 < k by omega)
  refine ⟨n, ?_, ?_⟩
  · rw [hwhole, htext, terminated_append _ hwritten, hfeeds]
  · omega

/-- A blank line at the start of the second program goes into the loop that the first one ends with. -/
theorem generate_append_loop :
    ∃ tokens tree, lex (utf8 "for i in a:\n\tf()\n\n" ++ utf8 "\nf()\n") = .ok tokens ∧
      parse builtin tokens = .ok tree ∧
      generate tree = .ok (utf8 "for i in pairs(a) do\n    f()\nend\n" ++ utf8 "\n" ++ utf8 "\nf()\n") := by
  let p := utf8 "for i in a:\n\tf()\n\n"
  obtain ⟨hp, ht⟩ := lex_parse_ofSource p (by decide +kernel)
  obtain ⟨hq, hu⟩ := lex_parse_ofSource (utf8 "\nf()\n") (by decide +kernel)
  obtain ⟨tokens, tree, hlex, hparse, r, s, hr, hs, happend⟩ := generate_append (by decide) hp ht hq hu
  have hr' : generate (.ofSource p) = .ok (utf8 "for i in pairs(a) do\n    f()\nend\n") := by decide +kernel
  have hs' : generate (.ofSource (utf8 "\nf()\n")) = .ok (utf8 "\nf()\n") := by decide +kernel
  obtain rfl := Except.ok.inj (hr.symm.trans hr')
  obtain rfl := Except.ok.inj (hs.symm.trans hs')
  obtain ⟨n, hgenerate, hn⟩ := happend (by decide)
  have hcount : (utf8 "for i in pairs(a) do\n    f()\nend\n").count (byte '\n') = 3 ∧
      p.count (byte '\n') = 3 ∧
      Text.ownLineEnds (utf8 "for i in pairs(a) do\n    f()\nend\n") = 1 := by decide +kernel
  obtain rfl : n = 1 := by omega
  exact ⟨tokens, tree, hlex, hparse, hgenerate⟩

end Lunify
