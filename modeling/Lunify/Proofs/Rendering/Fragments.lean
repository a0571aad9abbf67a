import Lunify.Proofs.Rendering.Alignment
import Lunify.Proofs.Tree.Derives

/-!
# Expressions rendered on their own

The bounds of a numeric loop are rendered as if the source began with them. All tokens of an expression
are on one line, and seen from the first of them they still follow each other
(`isChain_seenFrom`). Nothing is read before the expression, so the run starts as if an empty token
stood there (`anchor`), and its steps are aligned (`goes_of_seenFrom`).
-/

namespace Lunify

open List

variable {t : Token} {ts : List Token}

lemma precedes_of_isVisible {a b : Token} (ha : a.isVisible = true) (hb : b.isVisible = true)
    (hline : a.pos.line = b.pos.line) (hcolumn : a.pos.column + a.content.length ≤ b.pos.column) :
    a.Precedes b :=
  Lexer.precedes_of_read (Token.isSynthetic_of_isVisible ha) (Token.isSynthetic_of_isVisible hb) hline
    hcolumn

/-- A token as seen from a place. -/
def Token.seenFrom (origin : Position) (t : Token) : Token :=
  t.relocate (origin.relativeTo t.pos)

lemma Token.pos_seenFrom {origin : Position} (h : t.pos.line = origin.line) :
    (t.seenFrom origin).pos = ⟨0, t.pos.column - origin.column⟩ := by
  simp [Token.seenFrom, Token.relocate, Position.relativeTo, h]

/-- Visible tokens still follow each other as seen from the first of them. -/
lemma isChain_seenFrom (hchain : (t :: ts).IsChain Token.Precedes)
    (hvisible : ∀ u ∈ t :: ts, u.isVisible = true) :
    ((t :: ts).map (Token.seenFrom t.pos)).IsChain Token.Precedes := by
  have honward := onward_of_isChain hchain hvisible
  rw [isChain_map]
  refine hchain.imp_of_mem_imp fun a b ha hb hab => ?_
  obtain ⟨hline, -⟩ := honward a ha
  obtain ⟨hline', -⟩ := honward b hb
  obtain ⟨-, hcolumn⟩ := hab.onward (Token.isSynthetic_of_isVisible (hvisible a ha))
  refine precedes_of_isVisible (hvisible a ha) (hvisible b hb) ?_ ?_
  · rw [Token.pos_seenFrom hline, Token.pos_seenFrom hline']
  · rw [Token.pos_seenFrom hline, Token.pos_seenFrom hline']
    have hcontent : (a.seenFrom t.pos).content = a.content := rfl
    simp only [hcontent]
    omega

/-- A token of no width at the start of a text. -/
def anchor : Token :=
  ⟨.identifier, [], ⟨0, 0⟩⟩

/-- The start of a run after the token of no width. -/
lemma stands_anchor {rest : List Token} (hchain : ([anchor] ++ rest).IsChain Token.Precedes)
    (hrest : ∀ t ∈ rest.head?, 0 ≤ t.pos.column) :
    Stands [⟨0, 0, 0, 0, some anchor⟩] 0 Cursor.start [anchor] rest := by
  refine .of_visible rfl (by decide) hchain Cursor.fits_start rfl rfl (by simp [Cursor.start]) rfl
    ⟨_, mem_singleton_self _, rfl, rfl⟩ (fun t ht _ _ => ?_) fun before t after heq _ _ => ?_
  · simpa [Cursor.start] using hrest t ht
  · obtain ⟨-, rfl⟩ := Stands.eq_of_singleton heq
    exact ⟨_, mem_singleton_self _, rfl, rfl⟩

/-- Visible tokens as seen from the first of them are on the first line. -/
lemma pos_of_mem_seenFrom (hchain : (t :: ts).IsChain Token.Precedes)
    (hvisible : ∀ u ∈ t :: ts, u.isVisible = true) :
    ∀ u ∈ (t :: ts).map (Token.seenFrom t.pos), u.pos.line = 0 ∧ 0 ≤ u.pos.column := by
  intro u hu
  obtain ⟨v, hv, rfl⟩ := mem_map.1 hu
  obtain ⟨hline, hcolumn⟩ := onward_of_isChain hchain hvisible v hv
  rw [Token.pos_seenFrom hline]
  exact ⟨rfl, by simp only; omega⟩

/-- Steps that account for visible tokens as seen from the first of them are aligned. -/
lemma goes_of_seenFrom {steps : List Step}
    (h : Accounts [anchor] steps ((t :: ts).map (Token.seenFrom t.pos)))
    (hchain : (t :: ts).IsChain Token.Precedes) (hvisible : ∀ u ∈ t :: ts, u.isVisible = true)
    (hfeed : ∀ u ∈ t :: ts, byte '\n' ∉ u.content) :
    Goes [⟨0, 0, 0, 0, some anchor⟩] 0 Cursor.start steps
      ([anchor] ++ (t :: ts).map (Token.seenFrom t.pos)) [] := by
  have hpos := pos_of_mem_seenFrom hchain hvisible
  have hfirst : anchor.Precedes (t.seenFrom t.pos) := by
    refine precedes_of_isVisible (by decide) (hvisible t mem_cons_self) ?_ ?_
    · rw [Token.pos_seenFrom rfl]
      rfl
    · rw [Token.pos_seenFrom rfl]
      simp [anchor]
  have hchain' : ([anchor] ++ ((t :: ts).map (Token.seenFrom t.pos) ++ [])).IsChain Token.Precedes := by
    rw [append_nil, singleton_append, map_cons, isChain_cons_cons, ← map_cons]
    exact ⟨hfirst, isChain_seenFrom hchain hvisible⟩
  have hplaced : ∀ u ∈ [anchor] ++ ((t :: ts).map (Token.seenFrom t.pos) ++ []), u.Placed := by
    rw [append_nil, singleton_append, forall_mem_cons]
    refine ⟨⟨Int.le_refl _, Int.le_refl _, by simp [anchor]⟩, fun u hu => ?_⟩
    obtain ⟨hline, hcolumn⟩ := hpos u hu
    obtain ⟨v, hv, rfl⟩ := mem_map.1 hu
    exact ⟨Int.le_of_eq hline.symm, hcolumn, hfeed v hv⟩
  exact h.goes ⟨hchain', hplaced⟩ (stands_anchor hchain' fun u hu => (hpos u (by simpa using mem_of_mem_head? hu)).2)

end Lunify
