import Lunify.Proofs.Tree.Edges

/-!
# Words of the built-in grammar end with a line break

Parsing first asks for a line break before the closing dedents and only then looks at the grammar. For
tokens of a source text this check rejects nothing that the grammar derives: `Grammar.closes` says of a
list of symbols that it ends with a line break, or a symbol of complete lines, and dedents after it. The
right-hand sides of a symbol of complete lines close again, and with them every word that a closing list
derives (`Grammar.Yields.closes`).
-/

namespace Lunify

open List

namespace Grammar

/-- Whether a list of symbols ends with one of the given symbols and dedents after it. -/
def closes (last : List Symbol) : List Symbol → Bool
  | [] => false
  | s :: α => closes last α || (decide (s ∈ last) && α.all (· = dedentText))

/-- The symbols with rules whose words are complete lines. -/
def completeLines : List Symbol :=
  ["<program>", "<statements>", "<statement>", "<compound_statement>", "<block>", "<newlines>",
    "<function>", "<if>", "<else>", "<while>", "<for>"].map utf8

/-- What complete lines are made of ends with a line break or complete lines. -/
lemma closes_rhs : ∀ p ∈ builtinTable, utf8 p.1 ∈ completeLines → ∀ rhs ∈ p.2,
    closes (newlineText :: completeLines) (rhs.map utf8) = true := by
  decide +kernel

lemma isTerminal_completeLines : ∀ s ∈ completeLines, builtin.isTerminal s = false := by
  intro s hs
  obtain ⟨l, hl, rfl⟩ := mem_map.1 hs
  refine (isTerminal_builtin_eq_false_iff l).2 ?_
  revert l
  decide

lemma eq_of_yields_dedents {α w : List Symbol} (hα : α.all (· = dedentText) = true)
    (h : builtin.Yields α w) : w = α := by
  refine Yields.eq_of_terminals (fun s hs => ?_) h
  rw [of_decide_eq_true (all_eq_true.1 hα s hs)]
  exact isTerminal_builtin_of_mem (w := "dedent") (by decide)

/-- Putting dedents or a closing list behind a list. -/
lemma closes_append {last u v : List Symbol}
    (h : closes last v = true ∨ closes last u = true ∧ v.all (· = dedentText) = true) :
    closes last (u ++ v) = true := by
  induction u with
  | nil => simpa [closes] using h
  | cons s u ih =>
    simp only [cons_append, closes, Bool.or_eq_true, Bool.and_eq_true, all_append] at h ⊢
    rcases h with h | ⟨h | h, hv⟩
    · exact .inl (ih (.inl h))
    · exact .inl (ih (.inr ⟨h, hv⟩))
    · exact .inr ⟨h.1, h.2, hv⟩

/-- The words of a list that closes end with a line break and dedents. -/
lemma Yields.closes {α w : List Symbol} (h : builtin.Yields α w)
    (hα : closes (newlineText :: completeLines) α = true) :
    Grammar.closes [newlineText] w = true := by
  induction h with
  | nil => exact hα
  | @terminal s α w hs h ih =>
    simp only [Grammar.closes, Bool.or_eq_true, Bool.and_eq_true, decide_eq_true_eq] at hα ⊢
    rcases hα with hα | ⟨hmem, hα⟩
    · exact .inl (ih hα)
    · rcases mem_cons.1 hmem with rfl | hmem
      · exact .inr ⟨mem_singleton_self _, eq_of_yields_dedents hα h ▸ hα⟩
      · exact absurd ((isTerminal_completeLines s hmem).symm.trans hs) Bool.false_ne_true
  | @rule r α u v hr hu hv ihu ihv =>
    refine closes_append ?_
    simp only [Grammar.closes, Bool.or_eq_true, Bool.and_eq_true, decide_eq_true_eq] at hα
    rcases hα with hα | ⟨hmem, hα⟩
    · exact .inl (ihv hα)
    · obtain ⟨p, hp, rhs, hrhs, hlhs, hright⟩ := exists_of_mem_builtin hr
      have hlines : r.lhs ∈ completeLines := by
        refine (mem_cons.1 hmem).resolve_left fun hnewline => ?_
        have hterminal := isTerminal_builtin_of_mem (w := "newline") (by decide)
        exact absurd ((isTerminal_lhs hr).symm.trans (hnewline ▸ hterminal)) Bool.false_ne_true
      have hclosed := closes_rhs p hp (hlhs ▸ hlines) rhs hrhs
      exact .inr ⟨ihu (hright ▸ hclosed), eq_of_yields_dedents hα hv ▸ hα⟩

end Grammar

open Grammar

lemma endsWithNewline_cons (t : Token) (ts : List Token) : endsWithNewline (t :: ts) =
    (endsWithNewline ts || (t.isDivider newlineText && ts.all (Token.isDivider dedentText))) := by
  have hall : ((ts.reverse.dropWhile (Token.isDivider dedentText)).isEmpty : Bool) =
      ts.all (Token.isDivider dedentText) := by
    rw [← all_reverse, Bool.eq_iff_iff, List.isEmpty_iff, dropWhile_eq_nil_iff,
      all_eq_true]
  unfold endsWithNewline
  rw [reverse_cons, dropWhile_append, ← hall]
  cases ts.reverse.dropWhile (Token.isDivider dedentText) with
  | nil =>
    cases hdedent : t.isDivider dedentText with
    | true => simp [hdedent, Lexer.isDivider_ne hdedent (w := newlineText) (by decide)]
    | false => simp [hdedent]
  | cons d rest => simp

/-- Tokens of a source whose symbols end with a line break and dedents pass the check for it. -/
lemma endsWithNewline_of_closes {tokens : List Token} (hlexed : ∀ tok ∈ tokens, tok.Lexed)
    (h : closes [newlineText] (tokens.map Token.symbol) = true) : endsWithNewline tokens = true := by
  induction tokens with
  | nil => exact h
  | cons t ts ih =>
    obtain ⟨ht, hts⟩ := forall_mem_cons.1 hlexed
    rw [endsWithNewline_cons, Bool.or_eq_true, Bool.and_eq_true]
    simp only [map_cons, closes, Bool.or_eq_true, Bool.and_eq_true, decide_eq_true_eq,
      mem_singleton, all_map] at h
    rcases h with h | ⟨hnewline, hdedents⟩
    · exact .inl (ih hts h)
    · refine .inr ⟨Token.isDivider_of_symbol hnewline (by decide) ht, all_eq_true.2 ?_⟩
      intro tok htok
      have hdedent := of_decide_eq_true (all_eq_true.1 hdedents tok htok)
      exact Token.isDivider_of_symbol hdedent (by decide) (hts tok htok)

/-- The check for a line break at the end loses no program: tokens of a source whose symbols the
built-in grammar derives pass it. So these tokens have a tree exactly when the grammar derives them, and
the error of the check means that it does not. -/
theorem exists_parse_builtin_iff {source : Text} {tokens : List Token}
    (hlex : lex source = .ok tokens) :
    (tokens.map Token.symbol ∈ builtin.language → endsWithNewline tokens = true) ∧
    ((∃ tree, parse builtin tokens = .ok tree) ↔ tokens.map Token.symbol ∈ builtin.language) ∧
    (parse builtin tokens = .error .noNewline → tokens.map Token.symbol ∉ builtin.language) := by
  have hnewline : tokens.map Token.symbol ∈ builtin.language → endsWithNewline tokens = true := by
    intro hword
    rw [mem_language_iff_yields, start_builtin] at hword
    exact endsWithNewline_of_closes (lexed_of_mem_lex hlex) (hword.closes (by decide +kernel))
  have hparse : tokens.map Token.symbol ∈ builtin.language → ∃ tree, parse builtin tokens = .ok tree := by
    intro hword
    obtain ⟨s, hs⟩ := Option.isSome_iff_exists.1
      ((Chart.accepting?_build_isSome_iff (Chart.fits_predict builtin) acceptSymbol_notMem_builtin
        _).2 hword)
    obtain ⟨tree, htree, -⟩ := exists_parse_eq_ok acceptSymbol_notMem_builtin (hnewline hword) hs
    exact ⟨tree, htree⟩
  refine ⟨hnewline, ⟨?_, hparse⟩, fun herror hword => ?_⟩
  · rintro ⟨tree, htree⟩
    obtain ⟨hlabel, hderivation, hleaves⟩ :=
      isDerivation_of_parse_eq_ok acceptSymbol_notMem_builtin htree
    rw [mem_language_iff_yields, ← hlabel, ← hleaves]
    exact hderivation.yields
  · obtain ⟨tree, htree⟩ := hparse hword
    simp [htree] at herror

/-- A block whose last line is not ended: the check fails, so the grammar derives no such program. -/
theorem notMem_language_unended :
    ∃ tokens, lex (utf8 "if a:\n\tpass") = .ok tokens ∧ parse builtin tokens = .error .noNewline ∧
      tokens.map Token.symbol ∉ builtin.language := by
  let tokens : List Token :=
    [⟨.keyword, utf8 "if", ⟨0, 0⟩⟩, ⟨.identifier, utf8 "a", ⟨0, 3⟩⟩, ⟨.divider, utf8 ":", ⟨0, 4⟩⟩,
      ⟨.divider, newlineText, ⟨0, 5⟩⟩, ⟨.divider, indentText, ⟨1, 4⟩⟩, ⟨.keyword, utf8 "pass", ⟨1, 4⟩⟩]
  have hlex : lex (utf8 "if a:\n\tpass") = .ok tokens := by decide +kernel
  have herror : parse builtin tokens = .error .noNewline := by
    simp only [parse, show endsWithNewline tokens = false by decide +kernel]
    rfl
  obtain ⟨-, -, hnone⟩ := exists_parse_builtin_iff hlex
  exact ⟨tokens, hlex, herror, hnone herror⟩

end Lunify
