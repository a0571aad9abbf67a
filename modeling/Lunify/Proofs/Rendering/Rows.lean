import Lunify.Proofs.Rendering.Accounts

/-!
# The lines of the output

The steps of a program come in rows (`Rows`): a row begins with a token on a line of its own and goes on on
that line, and a closing keyword may stand between rows. So every closing keyword that a step puts on a
line of its own is a line of the output that is just `end`, and no other line is: `Rows.ownLineEnds_eq`.
A row is told from such a line by a byte that the closing keyword does not have, so that a name `end` at
its start does no harm.
-/

namespace Lunify

open List

variable {s : Text} {line : Int}

/-! ### Lines that are just a closing keyword -/

namespace Text

/-- Whether a line is just a closing keyword. -/
def isEndLine (line : Text) : Bool :=
  line.dropWhile (· = byte ' ') = utf8 "end"

/-- The number of lines of a text that are just a closing keyword. -/
def ownLineEnds (s : Text) : Nat :=
  (lines s).countP isEndLine

/-- A line with a byte that the closing keyword does not have is more than that. -/
lemma isEndLine_eq_false {line : Text} {b : UInt8} (hb : b ∈ line) (hother : b ∉ utf8 " end") :
    isEndLine line = false := by
  rw [isEndLine, decide_eq_false_iff_not]
  intro hend
  refine hother ?_
  have hblank : byte ' ' ∈ utf8 " end" := by decide
  have hword : ∀ x ∈ utf8 "end", x ∈ utf8 " end" := by decide +kernel
  have hline : line = line.takeWhile (· = byte ' ') ++ utf8 "end" := by
    rw [← hend, takeWhile_append_dropWhile]
  rw [hline, mem_append] at hb
  rcases hb with hb | hb
  · have hspace := mem_takeWhile_imp hb
    rw [decide_eq_true_eq] at hspace
    rwa [hspace]
  · exact hword b hb

lemma ownLineEnds_of_notMem (h : byte '\n' ∉ s) : ownLineEnds s = if isEndLine s then 1 else 0 := by
  rw [ownLineEnds, lines, splitOn_of_notMem h, countP_singleton]

@[simp] lemma ownLineEnds_nil : ownLineEnds [] = 0 := by
  rw [ownLineEnds_of_notMem (by simp)]
  rfl

lemma ownLineEnds_append_cons (s r : Text) :
    ownLineEnds (s ++ byte '\n' :: r) = ownLineEnds s + ownLineEnds r := by
  rw [ownLineEnds, lines, splitOn_append, countP_append]
  rfl

lemma ownLineEnds_feeds_append (n : Nat) (s : Text) :
    ownLineEnds (List.replicate n (byte '\n') ++ s) = ownLineEnds s := by
  induction n with
  | zero => rfl
  | succ n ih =>
    have h := ownLineEnds_append_cons [] (List.replicate n (byte '\n') ++ s)
    rw [nil_append, ownLineEnds_nil, Nat.zero_add, ih] at h
    exact h

lemma ownLineEnds_append_feeds {n : Nat} (hn : n ≠ 0) (s r : Text) :
    ownLineEnds (s ++ List.replicate n (byte '\n') ++ r) = ownLineEnds s + ownLineEnds r := by
  obtain ⟨n, rfl⟩ := Nat.exists_eq_succ_of_ne_zero hn
  rw [replicate_succ, append_assoc, cons_append, ownLineEnds_append_cons,
    ownLineEnds_feeds_append]

lemma ownLineEnds_terminated (s : Text) : ownLineEnds (terminated s) = ownLineEnds s := by
  unfold terminated
  split
  · rfl
  · rw [ownLineEnds_append_cons, ownLineEnds_nil, Nat.add_zero]

end Text

namespace Cursor

/-! ### Text on one line -/

variable {c c' c'' : Cursor}

/-- Whether a cursor has written more on its line. -/
structure Grows (c c' : Cursor) (s : Text) : Prop where
  text : c'.text = c.text ++ s
  noFeed : byte '\n' ∉ s
  line : c'.line = c.line
  shift : c'.shift = c.shift

lemma Grows.of_eq (htext : c'.text = c.text) (hline : c'.line = c.line) (hshift : c'.shift = c.shift) :
    Grows c c' [] :=
  ⟨by rw [htext, append_nil], by simp, hline, hshift⟩

lemma Grows.trans {r : Text} (h : Grows c c' s) (h' : Grows c' c'' r) : Grows c c'' (s ++ r) where
  text := by rw [h'.text, h.text, append_assoc]
  noFeed := by simpa using ⟨h.noFeed, h'.noFeed⟩
  line := h'.line.trans h.line
  shift := h'.shift.trans h.shift

lemma text_downTo (c : Cursor) (line : Int) :
    (c.downTo line).text = c.text ++ List.replicate (line - c.line).toNat (byte '\n') := by
  unfold downTo
  split
  · have hnone : (line - c.line).toNat = 0 := by omega
    rw [hnone, replicate_zero, append_nil]
  · exact text_append _ _

lemma shift_downTo (c : Cursor) (line : Int) : (c.downTo line).shift = c.shift := by
  unfold downTo
  split <;> rfl

lemma downTo_of_le (h : line ≤ c.line) : c.downTo line = c :=
  if_pos h

lemma grows_rightTo (c : Cursor) (column : Int) :
    ∃ n, Grows c (c.rightTo column) (Text.blanks n) := by
  have hblank : ∀ n, byte '\n' ∉ Text.blanks n := by
    intro n hmem
    exact absurd (eq_of_mem_replicate hmem) (by decide)
  unfold rightTo
  split
  · exact ⟨0, .of_eq rfl rfl rfl⟩
  · exact ⟨_, text_append _ _, hblank _, rfl, rfl⟩

lemma grows_advance {p : Position} (h : p.line + c.shift ≤ c.line) :
    ∃ n, Grows c (c.advance p) (Text.blanks n) := by
  unfold advance
  rw [downTo_of_le h]
  exact grows_rightTo c _

/-- Writing a text in place of another. -/
lemma grows_replace (c : Cursor) (hs : byte '\n' ∉ s) (width : Int) :
    Grows c (c.replace s width) (c.glue s ++ s) := by
  have hfields : (c.write s).line = c.line ∧ (c.write s).shift = c.shift := by
    unfold write
    split <;> exact ⟨rfl, rfl⟩
  refine ⟨(text_write c s).trans (append_assoc _ _ _), ?_, hfields.1, hfields.2⟩
  have hfeed : byte '\n' ≠ byte ' ' := by decide
  unfold glue
  split
  · simpa [hfeed] using hs
  · exact hs

lemma grows_advance_replace {p : Position} (h : p.line + c.shift ≤ c.line) (hs : byte '\n' ∉ s)
    (width : Int) :
    ∃ r, Grows c ((c.advance p).replace s width) r ∧ ∀ b ∈ s, b ∈ r := by
  obtain ⟨n, hadvance⟩ := grows_advance h
  refine ⟨_, hadvance.trans (grows_replace _ hs width), fun b hb => ?_⟩
  simp [hb]

end Cursor

/-! ### Rows of steps -/

/-- Whether a step goes on on a line of the source. -/
structure Step.OnLine (line : Int) (st : Step) : Prop where
  isOpen : st.isClose = false
  target : ∀ p, st.target? = some p → p.line = line
  noFeed : ∀ s, st.text? = some s → byte '\n' ∉ s

/-- A step that goes on on the line of the cursor. -/
lemma Cursor.exists_grows {c c' : Cursor} (hline : c.line = line + c.shift) {st : Step} (hst : st.OnLine line)
    (hstep : c.step st = .ok c') :
    ∃ r, Grows c c' r ∧ ∀ t s, st = .token t s → ∀ b ∈ s, b ∈ r := by
  cases st with
  | token t s =>
    obtain rfl := Except.ok.inj hstep
    have ht := hst.target t.pos rfl
    obtain ⟨r, hgrows, hmem⟩ :=
      grows_advance_replace (by omega : t.pos.line + c.shift ≤ c.line) (hst.noFeed s rfl) t.content.length
    refine ⟨r, hgrows, ?_⟩
    rintro _ _ ⟨⟩
    exact hmem
  | span first last s =>
    obtain rfl := Except.ok.inj hstep
    have ht := hst.target first.pos rfl
    obtain ⟨r, hgrows, -⟩ := grows_advance_replace (by omega : first.pos.line + c.shift ≤ c.line)
      (hst.noFeed s rfl) (last.finish.column - first.pos.column)
    exact ⟨r, hgrows, by simp⟩
  | insert s =>
    obtain rfl := Except.ok.inj hstep
    exact ⟨_, grows_replace c (hst.noFeed s rfl) 0, by simp⟩
  | before t s =>
    obtain rfl := Except.ok.inj hstep
    have ht := hst.target t.pos rfl
    obtain ⟨r, hgrows, -⟩ :=
      grows_advance_replace (by omega : t.pos.line + c.shift ≤ c.line) (hst.noFeed s rfl) 0
    exact ⟨r, hgrows, by simp⟩
  | drop t =>
    obtain rfl := Except.ok.inj hstep
    refine ⟨[], ?_, by simp⟩
    split <;> exact .of_eq rfl rfl rfl
  | keyword t s =>
    obtain rfl := Except.ok.inj hstep
    have ht := hst.target t.pos rfl
    obtain ⟨n, hadvance⟩ := grows_advance (by omega : t.pos.line + c.shift ≤ c.line)
    have hword : byte '\n' ∉ (if (c.advance t.pos).last = byte ' ' then s else byte ' ' :: s) := by
      have hs := hst.noFeed s rfl
      have hfeed : byte '\n' ≠ byte ' ' := by decide
      split
      · exact hs
      · simpa [hfeed] using hs
    obtain ⟨r, hgrows, -⟩ := grows_advance_replace
      (by rw [hadvance.line, hadvance.shift]; omega :
        t.pos.line + (c.advance t.pos).shift ≤ (c.advance t.pos).line) hword t.content.length
    exact ⟨_, hadvance.trans hgrows, by simp⟩
  | close opener last => cases hst.isOpen
  | fail e => cases hstep

/-- Whether a step writes a token with a byte that the closing keyword does not have. -/
def Step.IsMark (st : Step) : Prop :=
  ∃ u x, st = .token u x ∧ ∃ b ∈ x, b ∉ utf8 " end"

/-- Whether a token and the steps after it make a row: they stay on its line, and what they write is more
than a closing keyword. -/
structure Row (t : Token) (s : Text) (within : List Step) : Prop where
  noFeed : byte '\n' ∉ s
  onLine : ∀ st ∈ within, st.OnLine t.pos.line
  marked : ∃ st ∈ Step.token t s :: within, st.IsMark

/-- Rows of steps on lines after the first line and up to the second one, with closing keywords between
them. -/
inductive Rows : Int → List Step → Int → Prop
  | nil {l l' : Int} (h : l ≤ l') : Rows l [] l'
  | row {l l' : Int} {t : Token} {s : Text} {within steps : List Step} (hline : l < t.pos.line)
      (hrow : Row t s within) (h : Rows t.pos.line steps l') :
      Rows l (.token t s :: (within ++ steps)) l'
  | close {l l' : Int} {opener last : Token} {steps : List Step} (hlast : 0 ≤ last.pos.line)
      (h : Rows (max l last.pos.line) steps l') : Rows l (.close opener last :: steps) l'

/-- Steps that stay on the line of the cursor. -/
lemma Cursor.exists_grows_run {c c' : Cursor} (hline : c.line = line + c.shift) {steps : List Step}
    (hsteps : ∀ st ∈ steps, st.OnLine line) (hrun : c.run steps = .ok c') :
    ∃ r, Grows c c' r ∧ ∀ t s, .token t s ∈ steps → ∀ b ∈ s, b ∈ r := by
  induction steps generalizing c with
  | nil =>
    obtain rfl := Except.ok.inj hrun
    exact ⟨[], .of_eq rfl rfl rfl, by simp⟩
  | cons st steps ih =>
    rw [forall_mem_cons] at hsteps
    rw [run, foldlM_cons] at hrun
    obtain ⟨c₁, hstep, hrun⟩ := Tree.bind_eq_ok_iff.1 hrun
    obtain ⟨r, hgrows, hmem⟩ := exists_grows hline hsteps.1 hstep
    obtain ⟨r', hgrows', hmem'⟩ := ih (by rw [hgrows.line, hgrows.shift, hline]) hsteps.2 hrun
    refine ⟨r ++ r', hgrows.trans hgrows', fun t s hst b hb => ?_⟩
    rcases mem_cons.1 hst with heq | hst
    · exact mem_append_left _ (hmem t s heq.symm b hb)
    · exact mem_append_right _ (hmem' t s hst b hb)

namespace Cursor

variable {c : Cursor}

lemma line_downTo (c : Cursor) (line : Int) : (c.downTo line).line = max c.line line := by
  unfold downTo
  split
  · omega
  · simp only
    omega

lemma eq_blank_of_mem_glue {b : UInt8} (hb : b ∈ c.glue s) : b = byte ' ' := by
  unfold glue at hb
  split at hb
  · simpa using hb
  · cases hb

/-- The text that a token begins its row with. -/
lemma exists_text_token (c : Cursor) (t : Token) (hs : byte '\n' ∉ s) :
    ∃ blanks : Text, (∀ b ∈ blanks, b = byte ' ') ∧
      (c.token t s).text = c.text ++
        List.replicate (t.pos.line + c.shift - c.line).toNat (byte '\n') ++ (blanks ++ s) ∧
      (c.token t s).line = max c.line (t.pos.line + c.shift) ∧ (c.token t s).shift = c.shift := by
  obtain ⟨n, hright⟩ := grows_rightTo (c.downTo (t.pos.line + c.shift))
    (t.pos.column + (c.downTo (t.pos.line + c.shift)).delta)
  have hreplace := grows_replace (c.advance t.pos) hs t.content.length
  refine ⟨Text.blanks n ++ (c.advance t.pos).glue s, ?_, ?_, ?_, ?_⟩
  · intro b hb
    rcases mem_append.1 hb with hb | hb
    · exact eq_of_mem_replicate hb
    · exact eq_blank_of_mem_glue hb
  · rw [token, hreplace.text, advance, hright.text, text_downTo]
    simp
  · rw [token, hreplace.line, advance, hright.line, line_downTo]
  · rw [token, hreplace.shift, advance, hright.shift, shift_downTo]

/-- The text of a closing keyword. -/
lemma exists_text_close (c : Cursor) (opener last : Token) :
    ∃ n ≠ 0, ∃ blanks : Text, (∀ b ∈ blanks, b = byte ' ') ∧
      (c.close opener last).text =
        c.text ++ List.replicate n (byte '\n') ++ (blanks ++ utf8 "end") ∧
      (c.close opener last).line ≤ max (c.line + 1) (last.pos.line + c.shift + 1) ∧
      (c.close opener last).shift = c.shift + 1 := by
  set line := if last.pos.line + c.shift + 1 ≤ c.line then c.line + 1 else last.pos.line + c.shift + 1
    with hline
  have hlt : c.line < line := by
    rw [hline]
    split_ifs <;> omega
  obtain ⟨n, hright⟩ := grows_rightTo (c.downTo line) opener.pos.column
  have hwrite := grows_replace ((c.downTo line).rightTo opener.pos.column)
    (by decide : byte '\n' ∉ utf8 "end") 0
  refine ⟨(line - c.line).toNat, by omega, Text.blanks n ++
    ((c.downTo line).rightTo opener.pos.column).glue (utf8 "end"), ?_, ?_, ?_, ?_⟩
  · intro b hb
    rcases mem_append.1 hb with hb | hb
    · exact eq_of_mem_replicate hb
    · exact eq_blank_of_mem_glue hb
  · refine hwrite.text.trans ?_
    rw [hright.text, text_downTo]
    simp
  · refine (hwrite.line.trans (hright.line.trans (line_downTo c line))).le.trans ?_
    rw [hline]
    split_ifs <;> omega
  · exact congrArg (· + 1) (hwrite.shift.trans (hright.shift.trans (shift_downTo c line)))

end Cursor

/-- Rows of steps put closing keywords on lines of their own just where they close. -/
theorem Rows.ownLineEnds_eq {l l' : Int} {steps : List Step} (h : Rows l steps l') {c c' : Cursor}
    (hc : c.line ≤ l + c.shift ∨ c = Cursor.start ∧ -1 ≤ l) (hrun : c.run steps = .ok c') :
    Text.ownLineEnds c'.text = Text.ownLineEnds c.text + steps.countP Step.isClose := by
  induction h generalizing c with
  | nil h =>
    obtain rfl := Except.ok.inj hrun
    rfl
  | @row l l' t s within steps hline hrow h ih =>
    rw [Cursor.run, foldlM_cons] at hrun
    obtain ⟨c₁, hstep, hrun⟩ := Tree.bind_eq_ok_iff.1 hrun
    rw [foldlM_append] at hrun
    obtain ⟨c₂, hwithin, hlater⟩ := Tree.bind_eq_ok_iff.1 hrun
    obtain rfl := Except.ok.inj hstep
    obtain ⟨blanks, hblanks, htext, hline₁, hshift₁⟩ := c.exists_text_token t hrow.noFeed
    have hreached : (c.token t s).line = t.pos.line + (c.token t s).shift := by
      rw [hline₁, hshift₁]
      rcases hc with hc | ⟨rfl, hl⟩
      · omega
      · simp only [Cursor.start]
        omega
    obtain ⟨r, hgrows, hmem⟩ := Cursor.exists_grows_run hreached hrow.onLine hwithin
    have hrest : Text.isEndLine (blanks ++ s ++ r) = false := by
      obtain ⟨st, hst, u, x, rfl, b, hb, hother⟩ := hrow.marked
      refine Text.isEndLine_eq_false ?_ hother
      rcases mem_cons.1 hst with heq | hst
      · obtain ⟨-, rfl⟩ := Step.token.inj heq
        simp [hb]
      · simp [hmem u x hst b hb]
    have hfeed : byte '\n' ∉ blanks ++ s ++ r := by
      have hblank : byte '\n' ≠ byte ' ' := by decide
      simp only [mem_append, not_or]
      exact ⟨⟨fun h => hblank (hblanks _ h), hrow.noFeed⟩, hgrows.noFeed⟩
    have hends : Text.ownLineEnds c₂.text = Text.ownLineEnds c.text := by
      rw [hgrows.text, htext, append_assoc (_ ++ _)]
      by_cases hfeeds : (t.pos.line + c.shift - c.line).toNat = 0
      · have hnil : c.text = [] := by
          rcases hc with hc | ⟨rfl, -⟩
          · omega
          · rfl
        rw [hfeeds, hnil, replicate_zero, nil_append, nil_append,
          Text.ownLineEnds_of_notMem hfeed, hrest, Text.ownLineEnds_nil]
        rfl
      · rw [Text.ownLineEnds_append_feeds hfeeds, Text.ownLineEnds_of_notMem hfeed, hrest]
        rfl
    have hopen : within.countP Step.isClose = 0 := by
      rw [countP_eq_zero]
      intro st hst
      simp [(hrow.onLine st hst).isOpen]
    rw [ih (.inl ?_) hlater, hends, countP_cons_of_neg (by simp [Step.isClose]), countP_append,
      hopen, Nat.zero_add]
    rw [hgrows.line, hgrows.shift, hreached]
  | @close l l' opener last steps hlast h ih =>
    rw [Cursor.run, foldlM_cons] at hrun
    obtain ⟨c₁, hstep, hrun⟩ := Tree.bind_eq_ok_iff.1 hrun
    obtain rfl := Except.ok.inj hstep
    obtain ⟨n, hn, blanks, hblanks, htext, hline, hshift⟩ := c.exists_text_close opener last
    have hends : Text.ownLineEnds (c.close opener last).text = Text.ownLineEnds c.text + 1 := by
      have hblank : byte '\n' ≠ byte ' ' := by decide
      have hfeed : byte '\n' ∉ blanks ++ utf8 "end" := by
        simp only [mem_append, not_or]
        exact ⟨fun h => hblank (hblanks _ h), by decide⟩
      have hend : Text.isEndLine (blanks ++ utf8 "end") = true := by
        rw [Text.isEndLine, dropWhile_append_of_pos (by simpa using hblanks)]
        decide
      rw [htext, Text.ownLineEnds_append_feeds hn, Text.ownLineEnds_of_notMem hfeed, if_pos hend]
    rw [ih (.inl ?_) hrun, hends, countP_cons_of_pos rfl]
    · omega
    · rw [hshift]
      rcases hc with hc | ⟨rfl, hl⟩
      · omega
      · simp only [Cursor.start] at hline ⊢
        omega

end Lunify
