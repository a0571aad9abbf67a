import Lunify.Proofs.Rendering.Pieces

/-!
# Where the cursor stands

`Text.place` is the place right after a text, and a cursor fits (`Cursor.Fits`) when its line and its
column are the place after the text it has written. Moving to a place that is not behind the cursor
(`Cursor.IsAhead`) leads to just that place, and writing moves the column by what is written.
-/

namespace Lunify

open List

namespace Text

/-- The place right after a text. -/
def place (s : Text) : Position :=
  ⟨s.count (byte '\n'), (s.reverse.takeWhile (· != byte '\n')).length⟩

/-- A text without line feeds goes on on the same line. -/
lemma place_append (s : Text) {r : Text} (hr : byte '\n' ∉ r) :
    (s ++ r).place = ⟨s.place.line, s.place.column + r.length⟩ := by
  have hline : ∀ b ∈ r.reverse, (b != byte '\n') = true := by
    intro b hb
    rw [bne_iff_ne]
    rintro rfl
    exact hr (mem_reverse.1 hb)
  have hcolumn : (s ++ r).reverse.takeWhile (· != byte '\n') =
      r.reverse ++ s.reverse.takeWhile (· != byte '\n') := by
    rw [reverse_append, takeWhile_append_of_pos hline]
  simp only [place, count_append, count_eq_zero_of_not_mem hr, hcolumn, Position.mk.injEq,
    length_append, length_reverse]
  omega

/-- Line feeds lead to the start of a later line. -/
lemma place_feeds (s : Text) {n : Nat} (hn : 0 < n) :
    (s ++ List.replicate n (byte '\n')).place = ⟨s.place.line + n, 0⟩ := by
  obtain ⟨m, rfl⟩ : ∃ m, n = m + 1 := ⟨n - 1, by omega⟩
  have hreverse : (s ++ List.replicate (m + 1) (byte '\n')).reverse =
      byte '\n' :: (List.replicate m (byte '\n') ++ s.reverse) := by
    rw [reverse_append, reverse_replicate, replicate_succ, cons_append]
  simp [place, hreverse, count_append]

end Text

namespace Cursor

variable {c : Cursor} {p : Position} {s : Text}

/-- Whether the line and the column of a cursor are the place after its text. -/
def Fits (c : Cursor) : Prop :=
  c.text.place = ⟨c.line, c.column⟩

lemma fits_start : start.Fits := by
  simp [Fits, start, text, Text.place]

/-- Whether a place of the source is not behind the cursor. -/
def IsAhead (c : Cursor) (p : Position) : Prop :=
  c.line ≤ p.line + c.shift ∧ (c.line = p.line + c.shift → c.column ≤ p.column + c.delta)

lemma fits_append (h : c.Fits) (hs : byte '\n' ∉ s) :
    ({ c.append s with column := c.column + s.length } : Cursor).Fits := by
  have htext : ({ c.append s with column := c.column + s.length } : Cursor).text = c.text ++ s :=
    text_append c s
  unfold Fits at h ⊢
  rw [htext, Text.place_append c.text hs, h]
  rfl

/-- Moving right to a column that is not behind the cursor. -/
lemma rightTo_spec (h : c.Fits) {column : Int} (hle : c.column ≤ column) :
    (c.rightTo column).Fits ∧ (c.rightTo column).column = column ∧
      (c.rightTo column).line = c.line ∧ (c.rightTo column).shift = c.shift ∧
      (c.rightTo column).delta = c.delta := by
  unfold rightTo
  split
  · exact ⟨h, by omega, rfl, rfl, rfl⟩
  · rename_i hlt
    have hfeed : byte '\n' ∉ Text.blanks (column - c.column).toNat := by
      intro hmem
      exact absurd (eq_of_mem_replicate hmem) (by decide)
    have hcolumn : c.column + (Text.blanks (column - c.column).toNat).length = column := by
      rw [Text.blanks, length_replicate]
      omega
    have hfits := fits_append h hfeed
    rw [hcolumn] at hfits
    exact ⟨hfits, rfl, rfl, rfl, rfl⟩

/-- Moving down to a line below the cursor. -/
lemma downTo_spec (h : c.Fits) {line : Int} (hlt : c.line < line) :
    (c.downTo line).Fits ∧ (c.downTo line).column = 0 ∧ (c.downTo line).line = line ∧
      (c.downTo line).shift = c.shift ∧ (c.downTo line).delta = 0 := by
  have hne : ¬ line ≤ c.line := by omega
  rw [downTo, if_neg hne]
  refine ⟨?_, rfl, rfl, rfl, rfl⟩
  have hpos : 0 < (line - c.line).toNat := by omega
  have hplace := Text.place_feeds c.text hpos
  unfold Fits at h ⊢
  rw [h] at hplace
  refine Eq.trans (congrArg Text.place (text_append c _)) (hplace.trans ?_)
  simp only [Position.mk.injEq, and_true]
  omega

/-- What is known after a move to a place of the source, where `delta` is how far the line there runs
ahead. -/
structure Reaches (c c' : Cursor) (p : Position) (delta : Int) : Prop where
  fits : c'.Fits
  line : c'.line = p.line + c.shift
  column : c'.column = p.column + delta
  shift : c'.shift = c.shift
  delta : c'.delta = delta
  pads : c.Pads c'

/-- Moving on within a line. -/
lemma reaches_of_eq (h : c.Fits) (hline : c.line = p.line + c.shift)
    (hcolumn : c.column ≤ p.column + c.delta) : Reaches c (c.advance p) p c.delta := by
  have hdown : c.downTo (p.line + c.shift) = c := by rw [downTo, if_pos (by omega)]
  have hadvance : c.advance p = c.rightTo (p.column + c.delta) := by rw [advance, hdown]
  obtain ⟨hfits, hcolumn', hline', hshift, hdelta⟩ := rightTo_spec h hcolumn
  rw [hadvance]
  exact ⟨hfits, hline'.trans hline, hcolumn', hshift, hdelta, pads_rightTo c _⟩

/-- Moving on to a later line. -/
lemma reaches_of_lt (h : c.Fits) (hlt : c.line < p.line + c.shift) (hcolumn : 0 ≤ p.column) :
    Reaches c (c.advance p) p 0 := by
  obtain ⟨hfits, hcolumn', hline, hshift, hdelta⟩ := downTo_spec h hlt
  have hadvance : c.advance p = (c.downTo (p.line + c.shift)).rightTo (p.column + 0) := by
    rw [advance, hdelta]
  obtain ⟨hfits', hcolumn'', hline', hshift', hdelta'⟩ :=
    rightTo_spec hfits (show (c.downTo (p.line + c.shift)).column ≤ p.column + 0 by omega)
  rw [hadvance]
  exact ⟨hfits', hline'.trans hline, hcolumn'', hshift'.trans hshift, hdelta'.trans hdelta,
    (pads_downTo c _).trans (pads_rightTo _ _)⟩

lemma glued_blank (a : UInt8) :
    glued (byte ' ') a = false ∧ glued (byte '\n') a = false ∧ glued a (byte ' ') = false := by
  have hword : Lexeme.isWordByte (byte ' ') = false ∧ Lexeme.isWordByte (byte '\n') = false := by
    decide
  have hne : byte ' ' ≠ byte '-' ∧ byte ' ' ≠ byte '[' ∧ byte '\n' ≠ byte '-' ∧
      byte '\n' ≠ byte '[' := by
    decide
  simp [glued, hword, hne]

/-- No blank is needed after white space. -/
lemma needsBlank_of_pads {c' : Cursor} (h : c.Pads c') (hne : c'.text ≠ c.text) (s : Text) :
    c'.needsBlank s = false := by
  obtain ⟨ws, hws, htext⟩ := h
  rcases eq_nil_or_concat ws with rfl | ⟨ws, b, rfl⟩
  · exact absurd (by simpa using htext) hne
  · have hwritten : c'.written = b :: (c.text ++ ws).reverse := by
      have := congrArg List.reverse htext
      simpa [text] using this
    have hblank := hws b (by simp)
    unfold needsBlank
    rw [hwritten]
    cases s with
    | nil => rfl
    | cons a s =>
      rcases hblank with rfl | rfl
      · exact (glued_blank a).1
      · exact (glued_blank a).2.1

/-- The blanks that a text needs before it. -/
def glue (c : Cursor) (s : Text) : Text :=
  if c.needsBlank s then [byte ' '] else []

/-- The blank that a keyword needs before it. -/
def space (c : Cursor) : Text :=
  if c.last = byte ' ' then [] else [byte ' ']

/-- A keyword with the blank before it needs no other one. -/
lemma glue_append_word (c : Cursor) (s : Text) :
    c.text ++ c.glue (if c.last = byte ' ' then s else byte ' ' :: s) ++
      (if c.last = byte ' ' then s else byte ' ' :: s) = c.text ++ c.space ++ s := by
  unfold space
  by_cases hlast : c.last = byte ' '
  · have hnone : c.needsBlank s = false := by
      unfold last at hlast
      unfold needsBlank
      cases hwritten : c.written with
      | nil => rfl
      | cons b r =>
        obtain rfl : b = byte ' ' := by simpa [hwritten] using hlast
        cases s with
        | nil => rfl
        | cons a s => exact (glued_blank a).1
    simp [hlast, glue, hnone]
  · have hnone : c.needsBlank (byte ' ' :: s) = false := by
      unfold needsBlank
      cases c.written with
      | nil => rfl
      | cons b r => exact (glued_blank b).2.2
    simp [hlast, glue, hnone]

lemma text_write (c : Cursor) (s : Text) : (c.write s).text = c.text ++ c.glue s ++ s := by
  unfold write glue
  by_cases hblank : c.needsBlank s = true
  · simp [hblank, text, append]
  · simp [hblank, text, append]

/-- Every step adds to the text. -/
lemma text_prefix_of_step {c' : Cursor} {st : Step} (h : c.step st = .ok c') : c.text <+: c'.text := by
  cases htext : st.text? with
  | some s =>
    obtain ⟨d, hstep, ws, -, hd, -⟩ := exists_step htext c
    obtain rfl := Except.ok.inj (hstep.symm.trans h)
    rw [hd, append_assoc]
    exact prefix_append _ _
  | none => cases st with
    | drop t =>
      obtain rfl := Except.ok.inj h
      split <;> exact prefix_refl _
    | fail e => cases h
    | _ => cases htext

/-- Every run adds to the text. -/
lemma text_prefix_of_run {c' : Cursor} {steps : List Step} (h : c.run steps = .ok c') :
    c.text <+: c'.text := by
  induction steps generalizing c with
  | nil =>
    obtain rfl := Except.ok.inj h
    exact prefix_refl _
  | cons st steps ih =>
    rw [run, foldlM_cons] at h
    cases hstep : c.step st with
    | error e =>
      rw [hstep] at h
      cases h
    | ok c₁ =>
      rw [hstep] at h
      exact (text_prefix_of_step hstep).trans (ih h)

/-- Writing a text. -/
lemma write_spec (h : c.Fits) (hs : byte '\n' ∉ s) :
    (c.write s).Fits ∧ (c.write s).text = c.text ++ c.glue s ++ s ∧
      (c.write s).column = c.column + (c.glue s).length + s.length ∧ (c.write s).line = c.line ∧
      (c.write s).shift = c.shift ∧ (c.write s).delta = c.delta := by
  have htext := text_write c s
  unfold write glue at htext ⊢
  by_cases hblank : c.needsBlank s = true
  · have hfeed : byte '\n' ∉ [byte ' '] := by decide
    have hfits := fits_append (fits_append h hfeed) hs
    simp only [hblank, if_true] at htext ⊢
    exact ⟨hfits, htext, by simp, rfl, rfl, rfl⟩
  · have hfits := fits_append h hs
    simp only [hblank] at htext ⊢
    exact ⟨hfits, htext, by simp, rfl, rfl, rfl⟩

/-- Writing a text in place of `width` columns of the source. -/
lemma replace_spec (h : c.Fits) (hs : byte '\n' ∉ s) (width : Int) :
    (c.replace s width).Fits ∧ (c.replace s width).text = c.text ++ c.glue s ++ s ∧
      (c.replace s width).column = c.column + (c.glue s).length + s.length ∧
      (c.replace s width).line = c.line ∧ (c.replace s width).shift = c.shift ∧
      (c.replace s width).delta =
        c.delta + ((c.replace s width).column - c.column - width) := by
  obtain ⟨hfits, htext, hcolumn, hline, hshift, hdelta⟩ := write_spec h hs
  refine ⟨hfits, htext, hcolumn, hline, hshift, ?_⟩
  have hcolumn' : (c.replace s width).column = (c.write s).column := rfl
  have hdelta' : (c.replace s width).delta =
      (c.write s).delta + ((c.write s).column - c.column) - width := rfl
  omega

end Cursor

end Lunify
