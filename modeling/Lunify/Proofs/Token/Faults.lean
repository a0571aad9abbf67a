import Lunify.Proofs.Token.Lossless

/-!
# Where the lexer stops

`Lexer.Fault` says at which byte of a line the lexer cannot go on: a blank after the leading tabs of a line
that is not blank, or else a byte after text that can be read, with which no lexeme begins. A line has at
most one fault, and a source has tokens exactly when no line has one. The error of a source is that of the
first fault, and its caret stands below the byte of the fault (`lex_stops_at_first_fault`).
-/

namespace Lunify

open List

namespace LexError

/-- The line that is shown with an error. -/
def text : LexError → Text
  | .unexpected _ _ text => text
  | .indentation _ _ text => text

/-- The column under which the caret is put. -/
def column : LexError → Nat
  | .unexpected _ column _ => column
  | .indentation _ column _ => column

end LexError

namespace Lexer

/-! ### Faults of a line -/

/-- The offset in a line at which the lexer cannot go on, with the error for it. -/
inductive Fault (number : Nat) (line : Text) : Nat → LexError → Prop
  | indentation (hspace : line.all isSpace = false)
      (hblank : (line)[leadingTabs line]? = some (byte ' ')) :
      Fault number line (leadingTabs line)
        (.indentation number (tabWidth * leadingTabs line) (shown line))
  | unexpected {s r : Text} {b : UInt8} {tokens : List Token}
      (hblank : (line)[leadingTabs line]? ≠ some (byte ' '))
      (hline : line.drop (leadingTabs line) = s ++ b :: r)
      (hreads : Reads number (b :: r) (tabWidth * leadingTabs line) s tokens)
      (hb : isSpace b = false) (hfirst : Lexeme.first? (b :: r) = none) :
      Fault number line (leadingTabs line + s.length)
        (.unexpected number (tabWidth * leadingTabs line + s.length) (shown line))

variable {number depth : Nat} {last : Bool} {line : Text} {k : Nat} {e : LexError}

lemma all_isSpace_eq_false {b : UInt8} (hb : isSpace b = false) (hmem : b ∈ line) :
    line.all isSpace = false := by
  rw [all_eq_false]
  exact ⟨b, hmem, by simp [hb]⟩

/-- A line with a fault has no tokens. -/
lemma Fault.lineTokens_eq (h : Fault number line k e) (depth : Nat) (last : Bool) :
    lineTokens number depth last line = .error e := by
  cases h with
  | indentation hspace hblank =>
    rw [← head?_drop] at hblank
    simp [lineTokens, hspace, hblank]
  | @unexpected s r b tokens hblank hline hreads hb hfirst =>
    have hmem : b ∈ line := mem_of_mem_drop (hline ▸ mem_append_right s mem_cons_self)
    rw [← head?_drop] at hblank
    simp only [lineTokens, all_isSpace_eq_false hb hmem, Bool.false_eq_true, if_false, hblank]
    rw [hline, lexemes_append line hreads, lexemes_stuck hb hfirst]
    rfl

/-- A line has tokens or a fault. -/
lemma exists_readsLine_or_fault (number depth : Nat) (last : Bool) (line : Text) :
    (∃ tokens depth', ReadsLine number depth last line tokens depth') ∨
      ∃ k e, Fault number line k e := by
  by_cases hspace : line.all isSpace = true
  · cases last with
    | true => exact .inl ⟨_, _, .last hspace⟩
    | false => exact .inl ⟨_, _, .blank hspace⟩
  rw [Bool.not_eq_true] at hspace
  by_cases hblank : (line)[leadingTabs line]? = some (byte ' ')
  · exact .inr ⟨_, _, .indentation hspace hblank⟩
  obtain ⟨before, rest, tokens, hline, hreads, rfl | ⟨b, r, rfl, hb, hfirst⟩⟩ :=
    exists_reads number (tabWidth * leadingTabs line) (line.drop (leadingTabs line))
  · rw [append_nil] at hline
    exact .inl ⟨_, _, .text hspace (by rwa [head?_drop]) (hline ▸ hreads)⟩
  · exact .inr ⟨_, _, .unexpected hblank hline hreads hb hfirst⟩

/-- The offset of a fault is where its column points to. -/
lemma Fault.offset_eq (h : Fault number line k e) :
    e.column + leadingTabs line = tabWidth * leadingTabs line + k := by
  cases h with
  | indentation => rfl
  | unexpected =>
    simp only [LexError.column]
    omega

/-- A line has one fault at most. -/
lemma Fault.unique {k' : Nat} {e' : LexError} (h : Fault number line k e) (h' : Fault number line k' e') :
    k = k' ∧ e = e' := by
  obtain rfl := Except.error.inj ((h.lineTokens_eq 0 true).symm.trans (h'.lineTokens_eq 0 true))
  have hk := h.offset_eq
  have hk' := h'.offset_eq
  exact ⟨by omega, rfl⟩

/-! ### The caret -/

lemma shown_append (line : Text) :
    ∃ returns, line = shown line ++ returns ∧ ∀ b ∈ returns, b = byte '\r' := by
  refine ⟨(line.reverse.takeWhile (· = byte '\r')).reverse, ?_, fun b hb => ?_⟩
  · rw [shown, Text.dropEndWhile, ← reverse_append, takeWhile_append_dropWhile,
      reverse_reverse]
  · simpa using mem_takeWhile_imp (mem_reverse.1 hb)

/-- What follows a line does not change its depth if it is no tab. -/
lemma leadingTabs_append {s : Text} (hs : ∀ b ∈ s.head?, b ≠ byte '\t') (line : Text) :
    leadingTabs (line ++ s) = leadingTabs line := by
  have hnone : s.takeWhile (· = byte '\t') = [] := by
    cases s with
    | nil => rfl
    | cons b s => simpa using hs b rfl
  rw [leadingTabs, takeWhile_append, hnone, append_nil]
  split
  · rename_i hall
    rw [leadingTabs, hall]
  · rfl

/-- The error of a fault shows the line, without the carriage returns at its end, and is about a byte after
the leading tabs. -/
lemma Fault.exists_byte (h : Fault number line k e) :
    e.text = shown line ∧ leadingTabs line ≤ k ∧ ∃ b, b ≠ byte '\r' ∧ (line)[k]? = some b := by
  cases h with
  | indentation hspace hblank => exact ⟨rfl, Nat.le_refl _, byte ' ', by decide, hblank⟩
  | @unexpected s r b tokens hblank hline hreads hb hfirst =>
    refine ⟨rfl, Nat.le_add_right _ _, b, ?_, ?_⟩
    · rintro rfl
      exact absurd hb (by decide)
    · rw [← getElem?_drop, hline, getElem?_append_right (Nat.le_refl _), Nat.sub_self]
      rfl

lemma notMem_blanks (n : Nat) : byte '\n' ∉ Text.blanks n := by
  intro h
  exact absurd (eq_of_mem_replicate h) (by decide)

/-- The byte above the caret is that of the fault. -/
lemma Fault.exists_caret (h : Fault number line k e) (hfeed : byte '\n' ∉ line) :
    ∃ b above column, (line)[k]? = some b ∧
      caret e.text e.column = above ++ byte '\n' :: (Text.blanks column ++ utf8 "^") ∧
      byte '\n' ∉ above ∧ above[column]? = some b := by
  obtain ⟨htext, hle, b, hb, hk⟩ := h.exists_byte
  obtain ⟨returns, hline, hreturns⟩ := shown_append line
  have htabs : leadingTabs (shown line) = leadingTabs line := by
    conv_rhs => rw [hline]
    refine (leadingTabs_append (fun c hc => ?_) _).symm
    rw [hreturns c (mem_of_mem_head? hc)]
    decide
  have hshown : (shown line)[k]? = some b := by
    rw [hline] at hk
    rcases Nat.lt_or_ge k (shown line).length with hlt | hge
    · rwa [getElem?_append_left hlt] at hk
    · rw [getElem?_append_right hge] at hk
      exact absurd (hreturns b (mem_of_getElem? hk)) hb
  have hoffset := h.offset_eq
  refine ⟨b, Text.blanks (4 + tabWidth * leadingTabs line) ++ (shown line).drop (leadingTabs line),
    4 + e.column, hk, ?_, ?_, ?_⟩
  · have hblanks : ∀ n, Text.blanks (4 + n) = utf8 "    " ++ Text.blanks n := by
      intro n
      rw [Text.blanks, replicate_add]
      rfl
    rw [caret, htext, htabs, hblanks, hblanks]
    simp only [append_assoc]
    rfl
  · intro hmem
    rcases mem_append.1 hmem with hmem | hmem
    · exact notMem_blanks _ hmem
    · exact hfeed (hline ▸ mem_append_left returns (mem_of_mem_drop hmem))
  · rw [getElem?_append_right (by simp only [Text.blanks, length_replicate]; omega),
      getElem?_drop, Text.blanks, length_replicate]
    rwa [show leadingTabs line + (4 + e.column - (4 + tabWidth * leadingTabs line)) = k by omega]

/-! ### Faults of a source -/

variable {lines : List Text}

/-- A line that is read has no fault. -/
lemma ReadsLine.not_fault {tokens : List Token} {depth' : Nat}
    (h : ReadsLine number depth last line tokens depth') : ¬Fault number line k e := by
  intro hfault
  have herror := hfault.lineTokens_eq depth last
  rw [lineTokens_eq_ok_iff.2 h] at herror
  cases herror

/-- Lines with tokens have no fault. -/
lemma ReadsLines.not_fault {tokens : List Token} (h : ReadsLines number depth lines tokens) {n : Nat}
    (hn : lines[n]? = some line) : ¬Fault (number + n) line k e := by
  induction h generalizing n with
  | nil => simp at hn
  | last h =>
    obtain ⟨rfl, rfl⟩ : n = 0 ∧ _ = line := by simpa [getElem?_singleton] using hn
    exact h.not_fault
  | cons h _ ih =>
    cases n with
    | zero =>
      obtain rfl := Option.some.inj hn
      exact h.not_fault
    | succ n =>
      rw [← Nat.add_assoc, Nat.add_right_comm]
      exact ih hn

/-- If lines have no tokens, the error is that of the first fault. -/
lemma exists_fault_of_linesTokens (h : linesTokens number depth lines = .error e) :
    ∃ n line k, lines[n]? = some line ∧ Fault (number + n) line k e ∧
      ∀ m l, m < n → lines[m]? = some l → ∀ j e', ¬Fault (number + m) l j e' := by
  fun_induction linesTokens number depth lines with
  | case1 => cases h
  | case2 number depth line =>
    rcases exists_readsLine_or_fault number depth true line with ⟨_, _, hreads⟩ | ⟨k, e', hfault⟩
    · rw [lineTokens_eq_ok_iff.2 hreads] at h
      cases h
    · rw [hfault.lineTokens_eq] at h
      obtain rfl := Except.error.inj h
      exact ⟨0, line, k, rfl, hfault, fun m _ hm => absurd hm (Nat.not_lt_zero m)⟩
  | case3 number depth line next rest ih =>
    rcases exists_readsLine_or_fault number depth false line with ⟨_, depth', hreads⟩ | ⟨k, e', hfault⟩
    · rw [lineTokens_eq_ok_iff.2 hreads] at h
      cases hlater : linesTokens (number + 1) depth' (next :: rest) with
      | ok later => simp [hlater, bind, Except.bind, pure, Except.pure] at h
      | error e' =>
        simp only [hlater, bind, Except.bind] at h
        obtain rfl := Except.error.inj h
        obtain ⟨n, line', k, hn, hfault, hnone⟩ := ih depth' hlater
        refine ⟨n + 1, line', k, hn, ?_, fun m l hm hl => ?_⟩
        · rwa [← Nat.add_assoc, Nat.add_right_comm]
        · cases m with
          | zero =>
            obtain rfl := Option.some.inj hl
            exact fun _ _ => hreads.not_fault
          | succ m =>
            rw [← Nat.add_assoc, Nat.add_right_comm]
            exact hnone m l (Nat.lt_of_succ_lt_succ hm) hl
    · rw [hfault.lineTokens_eq] at h
      obtain rfl := Except.error.inj h
      exact ⟨0, line, k, rfl, hfault, fun m _ hm => absurd hm (Nat.not_lt_zero m)⟩

end Lexer

/-- The line with a number begins after as many line feeds. -/
lemma Text.exists_of_getElem?_lines {source line : Text} {n : Nat}
    (h : (Text.lines source)[n]? = some line) :
    ∃ before after, source = before ++ line ++ after ∧ before.EndsLine ∧
      before.count (byte '\n') = n := by
  unfold lines at h
  fun_induction splitOn (byte '\n') source generalizing n with
  | case1 s hnil =>
    obtain ⟨rfl, rfl⟩ : n = 0 ∧ s = line := by simpa [getElem?_singleton] using h
    exact ⟨[], [], by simp, .inl rfl, rfl⟩
  | case2 s b r hcons ih =>
    have hs := eq_of_dropWhile_eq_cons hcons
    cases n with
    | zero =>
      obtain rfl := Option.some.inj h
      exact ⟨[], byte '\n' :: r, hs, .inl rfl, rfl⟩
    | succ n =>
      obtain ⟨before, after, rfl, hends, hcount⟩ := ih h
      refine ⟨s.takeWhile (· != byte '\n') ++ byte '\n' :: before, after, ?_, ?_, ?_⟩
      · simpa using hs
      · rcases hends with rfl | hlast
        · exact .inr (by simp)
        · exact .inr (by rw [getLast?_append_cons, getLast?_cons, hlast]; rfl)
      · rw [count_append, count_eq_zero.2 (notMem_takeWhile _ s), count_cons_self, hcount,
          Nat.zero_add]

/-- The lexer stops at the first fault of a source. It gives tokens exactly when no line has a fault.
Otherwise the error is that of a fault before which there is no other one, on an earlier line or on the same
line, and in the two lines that `caret` gives, the byte above the caret is the byte of the source at which the
fault is. -/
theorem lex_stops_at_first_fault (source : Text) :
    ((∃ tokens, lex source = .ok tokens) ↔
      ∀ n line, (Text.lines source)[n]? = some line → ∀ k e, ¬Lexer.Fault n line k e) ∧
    ∀ e, lex source = .error e → ∃ n line k b offset,
      ((Text.lines source)[n]? = some line ∧ Lexer.Fault n line k e ∧
        ∀ m l j e', (Text.lines source)[m]? = some l → Lexer.Fault m l j e' → n < m ∨ n = m ∧ k = j) ∧
      (source[offset]? = some b ∧ (source.take offset).count (byte '\n') = n ∧
        offset = source.lineStart offset + k) ∧
      ∃ above column, caret e.text e.column = above ++ byte '\n' :: (Text.blanks column ++ utf8 "^") ∧
        byte '\n' ∉ above ∧ above[column]? = some b := by
  refine ⟨⟨?_, fun hnone => ?_⟩, fun e he => ?_⟩
  · rintro ⟨tokens, htokens⟩ n line hn k e
    have hfault := (Lexer.lex_eq_ok_iff.1 htokens).not_fault hn (k := k) (e := e)
    rwa [Nat.zero_add] at hfault
  · cases hlex : lex source with
    | ok tokens => exact ⟨tokens, rfl⟩
    | error e =>
      obtain ⟨n, line, k, hn, hfault, -⟩ := Lexer.exists_fault_of_linesTokens hlex
      rw [Nat.zero_add] at hfault
      exact absurd hfault (hnone n line hn k e)
  · obtain ⟨n, line, k, hn, hfault, hfirst⟩ := Lexer.exists_fault_of_linesTokens he
    simp only [Nat.zero_add] at hfault hfirst
    have hfeed : byte '\n' ∉ line := Text.notMem_of_mem_splitOn (List.mem_of_getElem? hn)
    obtain ⟨b, above, column, hb, hcaret, habove, hcolumn⟩ := hfault.exists_caret hfeed
    have hk := (List.getElem?_eq_some_iff.1 hb).1
    obtain ⟨before, after, rfl, hends, hcount⟩ := Text.exists_of_getElem?_lines hn
    refine ⟨n, line, k, b, before.length + k, ⟨hn, hfault, fun m l j e' hm hfault' => ?_⟩, ⟨?_, ?_, ?_⟩,
      above, column, hcaret, habove, hcolumn⟩
    · rcases Nat.lt_trichotomy n m with hlt | rfl | hgt
      · exact .inl hlt
      · obtain rfl := Option.some.inj (hn.symm.trans hm)
        exact .inr ⟨rfl, (hfault.unique hfault').1⟩
      · exact absurd hfault' (hfirst m l hgt hm j e')
    · rw [List.append_assoc, List.getElem?_append_right (Nat.le_add_right _ _), Nat.add_sub_cancel_left,
        List.getElem?_append_left hk, hb]
    · rw [Text.count_take_line hfeed hk.le, hcount]
    · rw [Text.lineStart_eq hends hfeed hk.le]

example : lex (utf8 "a\n\tb ?\r\n") = .error (.unexpected 1 6 (utf8 "\tb ?")) ∧
    caret (utf8 "\tb ?") 6 = utf8 "        b ?\n          ^" := by
  decide +kernel

end Lunify
