import Lunify.Proofs.Core.Spelling

/-!
# Strings in Lua texts

A string of the source is written as it stands, with its quotes. The scanner of Lua gives back exactly the
bytes between the quotes, whatever comes after them, if and only if these have no backslash and no carriage
return (`string_scanned_iff`).

One direction is a run of the scanner. For the other one, an escape takes at least two bytes of the text and
gives one byte of the value (`Chunk.length_quotedString`), so a value with as many bytes as there are between
the quotes has none. A carriage return is never scanned as such: it stands for a line break.
-/

namespace Lunify

open List

namespace Chunk

variable {q : UInt8} {line column : Int} {s t : Text}

/-- Whether the scanner reads a text, whatever it reads of the rest, as one string token that ends where the
text ends and has the given value. -/
def IsScannedAsString (line column : Int) (s value rest : Text) : Prop :=
  ∃ m ms, marks line column (s ++ rest) = m :: ms ∧
    tokenFrom m ms = .ok (⟨.string value, line, ⟨line, column + s.length⟩, value⟩,
      marks line (column + s.length) rest)

/-! ### Bytes and their places -/

lemma marks_cons (hq : q ≠ byte '\n' ∧ q ≠ byte '\r') (line column : Int) (t : Text) :
    marks line column (q :: t) = ⟨q, line, column + 1⟩ :: marks line (column + 1) t := by
  cases t with
  | nil => simp [marks, hq]
  | cons b t => simp [marks, isBreakPair, hq]

/-- A byte that is no line break stands after the bytes before it. -/
lemma exists_marks_append (hq : q ≠ byte '\n' ∧ q ≠ byte '\r') (line column : Int) (s t : Text) :
    ∃ line' column', marks line column (s ++ q :: t) =
        marks line column s ++ ⟨q, line', column' + 1⟩ :: marks line' (column' + 1) t ∧
      ((∀ b ∈ s, b ≠ byte '\n' ∧ b ≠ byte '\r') → line' = line ∧ column' = column + s.length) := by
  fun_induction marks line column s with
  | case1 line column => exact ⟨line, column, marks_cons hq line column t, by simp⟩
  | case2 line column b hbreak =>
    refine ⟨line + 1, 0, ?_, fun h => ?_⟩
    · simp [marks, isBreakPair, hq, hbreak, marks_cons hq]
    · simp [h b mem_cons_self] at hbreak
  | case3 line column b hbreak =>
    refine ⟨line, column + 1, ?_, fun _ => ⟨rfl, by simp⟩⟩
    simp [marks, isBreakPair, hq, hbreak, marks_cons hq]
  | case4 line column b c r hpair ih =>
    obtain ⟨line', column', heq, -⟩ := ih
    refine ⟨line', column', ?_, fun h => ?_⟩
    · simp [marks, hpair, heq]
    · simp [isBreakPair, h b mem_cons_self] at hpair
  | case5 line column b c r hpair hbreak ih =>
    obtain ⟨line', column', heq, -⟩ := ih
    refine ⟨line', column', ?_, fun h => ?_⟩
    · simp only [cons_append, marks, hpair, hbreak] at heq ⊢
      simp [heq]
    · simp [h b mem_cons_self] at hbreak
  | case6 line column b c r hpair hbreak ih =>
    obtain ⟨line', column', heq, hplaces⟩ := ih
    refine ⟨line', column', ?_, fun h => ?_⟩
    · simp only [cons_append, marks, hpair, hbreak] at heq ⊢
      simp [heq]
    · obtain ⟨hline, hcolumn⟩ := hplaces fun d hd => h d (mem_cons_of_mem b hd)
      refine ⟨hline, ?_⟩
      simp only [hcolumn, length_cons]
      omega

lemma length_marks_le (line column : Int) (s : Text) : (marks line column s).length ≤ s.length := by
  fun_induction marks line column s with
  | case4 line column b c r _ ih =>
    simp only [length_cons]
    omega
  | case5 line column b c r _ _ ih => simpa using ih
  | case6 line column b c r _ _ ih => simpa using ih
  | _ => simp

lemma length_marks_eq (line column line' column' : Int) (s : Text) :
    (marks line column s).length = (marks line' column' s).length := by
  fun_induction marks line column s generalizing line' column' with
  | case4 line column b c r hpair ih => simp [marks, hpair, ih (line' + 1) 0]
  | case5 line column b c r hpair hbreak ih =>
    rw [marks, if_neg hpair, if_pos hbreak, length_cons, length_cons, ih (line' + 1) 0]
  | case6 line column b c r hpair hbreak ih =>
    rw [marks, if_neg hpair, if_neg hbreak, length_cons, length_cons, ih line' (column' + 1)]
  | _ => simp_all [marks]

/-- Line breaks of any form are line feeds. -/
lemma byte_ne_return_of_mem_marks {m : Mark} (h : m ∈ marks line column s) : m.byte ≠ byte '\r' := by
  have hfeed : byte '\n' ≠ byte '\r' := by decide
  fun_induction marks line column s with
  | case1 => cases h
  | case2 line column b hbreak =>
    rw [mem_singleton.1 h]
    exact hfeed
  | case3 line column b hbreak =>
    rw [mem_singleton.1 h]
    simp at hbreak
    exact hbreak.2
  | case4 line column b c r hpair ih =>
    rcases mem_cons.1 h with rfl | h
    · exact hfeed
    · exact ih h
  | case5 line column b c r hpair hbreak ih =>
    rcases mem_cons.1 h with rfl | h
    · exact hfeed
    · exact ih h
  | case6 line column b c r hpair hbreak ih =>
    rcases mem_cons.1 h with rfl | h
    · simp at hbreak
      exact hbreak.2
    · exact ih h

/-! ### Values -/

/-- A value has at most as many bytes as there are up to the closing quote, and fewer if one of these is a
backslash. -/
lemma length_quotedString {content : Text} {ms : List Mark} {k : Scanned Text}
    (h : quotedString q content ms = .ok k) :
    k.value.length + k.rest.length < content.length + ms.length ∧
      (k.value.length + k.rest.length + 1 = content.length + ms.length →
        ∃ ks, ks <+: ms ∧ k.value = content.reverse ++ textOf ks ∧ ∀ m ∈ ks, m.byte ≠ byte '\\') := by
  fun_induction quotedString q content ms
  case case1 | case3 | case4 => cases h
  case case2 content m r hm =>
    obtain rfl := Except.ok.inj h
    refine ⟨by simp, fun _ => ⟨[], nil_prefix, ?_, by simp⟩⟩
    simp [textOf]
  case case12 content m r hquote hbreak hescape ih =>
    obtain ⟨hlt, hall⟩ := ih h
    simp only [length_cons] at hlt hall ⊢
    refine ⟨by omega, fun heq => ?_⟩
    obtain ⟨ks, hks, hvalue, hplain⟩ := hall (by omega)
    refine ⟨m :: ks, (prefix_cons_inj m).2 hks, ?_, ?_⟩
    · simp [hvalue, textOf]
    · simpa [hescape] using hplain
  -- An escape takes more bytes than the one that it gives.
  case case5 ih | case6 ih | case7 ih | case8 ih | case9 ih | case10 ih | case11 ih =>
    obtain ⟨hlt, -⟩ := ih h
    simp only [length_cons, length_nil] at hlt ⊢
    exact ⟨by omega, fun heq => by omega⟩

/-- A string in quotes is scanned as the bytes between them just if these are plain. -/
lemma isScannedAsString_iff {r : Text}
    (hq : q = Lunify.Lexeme.doubleQuote ∨ q = Lunify.Lexeme.singleQuote)
    (hr : ∀ b ∈ r, b ≠ q ∧ b ≠ byte '\n') (line column : Int) (rest : Text) :
    IsScannedAsString line column (q :: (r ++ [q])) r rest ↔
      ∀ b ∈ r, b ≠ byte '\\' ∧ b ≠ byte '\r' := by
  have hbreak : q ≠ byte '\n' ∧ q ≠ byte '\r' := by rcases hq with rfl | rfl <;> decide
  obtain ⟨line', column', hmarks, hplaces⟩ := exists_marks_append hbreak line (column + 1) r rest
  have hfirst : marks line column (q :: (r ++ [q]) ++ rest) =
      ⟨q, line, column + 1⟩ :: marks line (column + 1) (r ++ q :: rest) := by
    rw [cons_append, append_assoc, singleton_append, marks_cons hbreak]
  have htoken := tokenFrom_quote (m := ⟨q, line, column + 1⟩) hq (marks line (column + 1) (r ++ q :: rest))
  constructor
  · rintro ⟨m, ms, hms, hscan⟩
    rw [hfirst] at hms
    obtain ⟨rfl, rfl⟩ := List.cons.inj hms
    obtain ⟨k, hk, hpair⟩ := Tree.bind_eq_ok_iff.1 (htoken.symm.trans hscan)
    obtain ⟨htok, hrest⟩ := Prod.mk.inj (Except.ok.inj hpair)
    have hvalue : k.value = r := congrArg Token.shown htok
    obtain ⟨hlt, hall⟩ := length_quotedString hk
    have hle := length_marks_le line (column + 1) r
    have hlength := length_marks_eq line (column + (q :: (r ++ [q])).length) line' (column' + 1) rest
    have htotal := congrArg List.length hmarks
    simp only [length_append, length_cons] at htotal
    rw [hvalue, hrest, hlength, htotal] at hlt hall
    -- The value has all the bytes that there are, so none of them is a backslash.
    have hnil : ([] : Text).length = 0 := rfl
    obtain ⟨ks, hks, hbytes, hplain⟩ := hall (by omega)
    rw [reverse_nil, nil_append] at hbytes
    intro b hb
    rw [hbytes] at hb
    obtain ⟨m, hm, rfl⟩ := mem_map.1 hb
    exact ⟨hplain m hm, byte_ne_return_of_mem_marks (hks.subset hm)⟩
  · intro hplain
    obtain ⟨hline, hcolumn⟩ := hplaces fun b hb => ⟨(hr b hb).2, (hplain b hb).2⟩
    have htext : textOf (marks line (column + 1) r) = r :=
      textOf_marks (fun hmem => (hplain _ hmem).2 rfl) line (column + 1)
    have hbytes : ∀ m ∈ marks line (column + 1) r,
        m.byte ≠ q ∧ m.byte ≠ byte '\n' ∧ m.byte ≠ byte '\\' := by
      intro m hm
      have hmem : m.byte ∈ r := htext ▸ mem_map_of_mem hm
      exact ⟨(hr _ hmem).1, (hr _ hmem).2, (hplain _ hmem).1⟩
    refine ⟨_, _, hfirst, ?_⟩
    rw [htoken, hmarks, hline, hcolumn,
      quotedString_append (m := ⟨q, line, column + 1 + r.length + 1⟩) rfl hbytes [], htext]
    have hlast : column + (q :: (r ++ [q])).length = column + 1 + r.length + 1 := by
      simp only [length_cons, length_append, length_nil]
      omega
    rw [hlast]
    rfl

end Chunk

/-- A string of the source is written as it stands, with its quotes. In the Lua text it is one string token
whose value is the bytes between the quotes if and only if these have no backslash and no carriage return,
whatever comes after it. -/
theorem string_scanned_iff {source : Text} {tokens : List Token} (hlex : lex source = .ok tokens)
    {tok : Token} (htok : tok ∈ tokens) (hkind : tok.kind = .string) :
    ∃ q r, tok.content = q :: (r ++ [q]) ∧
      (∀ view c, ∃ c', Cursor.run c (Plan.plan view (Tree.ofTerminal tok.symbol tok)) = .ok c' ∧
        c.Extends c' tok.content) ∧
      ∀ line column rest, Chunk.IsScannedAsString line column tok.content r rest ↔
        ∀ b ∈ r, b ≠ byte '\\' ∧ b ≠ byte '\r' := by
  have hlexed := lexed_of_mem_lex hlex tok htok
  simp only [Token.Lexed, hkind] at hlexed
  obtain ⟨q, r, hcontent, hq, hr⟩ := hlexed
  refine ⟨q, r, hcontent, fun view c => ?_, fun line column rest => ?_⟩
  · have hsymbol : tok.symbol = stringSymbol := by simp [Token.symbol, hkind]
    have hform : Form.ofLabel stringSymbol ∈ [Form.sequence, .assignment, .call, .identifier] := by decide
    have hplan : Plan.plan view (Tree.ofTerminal tok.symbol tok) =
        [.token (Plan.place view tok) tok.content] := by
      rw [hsymbol, Tree.ofTerminal, if_pos (by decide), Core.plan_node hform, List.flatMap_singleton,
        Core.plan_leaf (.inr (.inr hkind))]
    refine ⟨_, ?_, Cursor.extends_token c (Plan.place view tok) tok.content⟩
    rw [hplan]
    rfl
  · rw [hcontent]
    exact Chunk.isScannedAsString_iff hq hr line column rest

/-- A string with the other quote in it. -/
theorem string_scanned_iff_apostrophe :
    ∃ tokens, lex (utf8 "s = \"it's\"\n") = .ok tokens ∧
      (⟨.string, utf8 "\"it's\"", ⟨0, 4⟩⟩ : Token) ∈ tokens ∧
      Chunk.IsScannedAsString 1 4 (utf8 "\"it's\"") (utf8 "it's") (utf8 "\n") := by
  have hlex : lex (utf8 "s = \"it's\"\n") = .ok [⟨.identifier, utf8 "s", ⟨0, 0⟩⟩,
      ⟨.operator, utf8 "=", ⟨0, 2⟩⟩, ⟨.string, utf8 "\"it's\"", ⟨0, 4⟩⟩,
      ⟨.divider, newlineText, ⟨0, 10⟩⟩] := by decide +kernel
  refine ⟨_, hlex, by simp, ?_⟩
  obtain ⟨q, r, hcontent, -, hiff⟩ :=
    @string_scanned_iff _ _ hlex ⟨.string, utf8 "\"it's\"", ⟨0, 4⟩⟩ (by simp) rfl
  have hr : r = utf8 "it's" := by
    have hbytes := congrArg (fun s : Text => s.tail.dropLast) hcontent
    rw [List.tail_cons, List.dropLast_concat] at hbytes
    rw [← hbytes]
    decide
  subst hr
  exact (hiff 1 4 (utf8 "\n")).2 (by decide +kernel)

/-- A backslash in a string begins an escape: the two bytes of a backslash and a `t` are one tab in Lua. -/
theorem string_value_of_escape :
    ∃ tokens, lex (utf8 "print('a\\tb')\n") = .ok tokens ∧
      (⟨.string, utf8 "'a\\tb'", ⟨0, 6⟩⟩ : Token) ∈ tokens ∧
      (Chunk.tokens (utf8 "'a\\tb'")).map Chunk.Token.lexeme = [.string (utf8 "a\tb"), .finish] ∧
      utf8 "a\tb" ≠ utf8 "a\\tb" := by
  have hlex : lex (utf8 "print('a\\tb')\n") = .ok [⟨.keyword, utf8 "print", ⟨0, 0⟩⟩,
      ⟨.divider, utf8 "(", ⟨0, 5⟩⟩, ⟨.string, utf8 "'a\\tb'", ⟨0, 6⟩⟩, ⟨.divider, utf8 ")", ⟨0, 12⟩⟩,
      ⟨.divider, newlineText, ⟨0, 13⟩⟩] := by decide +kernel
  exact ⟨_, hlex, by simp, by decide +kernel, by decide +kernel⟩

end Lunify
