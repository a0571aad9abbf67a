import Lunify.Proofs.Rendering.Inline
import Lunify.Proofs.Rendering.Rows

/-!
# Rows up to a body

Rows are put together below each other (`Rows.append`), and the last one may still go on (`EndsInRow`). A
construct begins with a header, which is a row of its own. A body on the line of its header goes on on that row,
and so does the closing keyword after it; the statements of an indented body are rows on later lines, and the
closing keyword comes after them (`OpenRows`). Which line is reached depends on the last token that was read
(`lastLine`).
-/

namespace Lunify

open List

variable {l l' m line : Int} {steps steps' : List Step} {tokens tokens' : List Token} {t : Token}

namespace Rows

lemma le (h : Rows l steps l') : l ≤ l' := by
  induction h with
  | nil h => exact h
  | row hline _ _ ih => omega
  | close _ _ ih => omega

lemma mono (h : Rows l steps l') (hm : m ≤ l) : Rows m steps l' := by
  induction h generalizing m with
  | nil h => exact .nil (hm.trans h)
  | row hline hrow h _ => exact .row (by omega) hrow h
  | close hlast _ ih => exact .close hlast (ih (by omega))

lemma append (h : Rows l steps m) (h' : Rows m steps' l') : Rows l (steps ++ steps') l' := by
  induction h with
  | nil h => exact h'.mono h
  | row hline hrow _ ih =>
    rw [cons_append, append_assoc]
    exact .row hline hrow (ih h')
  | close hlast _ ih => exact .close hlast (ih h')

end Rows

/-- Rows of which the last one goes on, on the given line. -/
def EndsInRow (l : Int) (steps : List Step) (line : Int) : Prop :=
  ∃ before t s within m, steps = before ++ .token t s :: within ∧ Rows l before m ∧ m < line ∧
    t.pos.line = line ∧ Row t s within

namespace EndsInRow

lemma rows (h : EndsInRow l steps line) : Rows l steps line := by
  obtain ⟨before, t, s, within, m, rfl, hbefore, hm, rfl, hrow⟩ := h
  have hlast : Rows m (.token t s :: (within ++ [])) t.pos.line := .row hm hrow (.nil (Int.le_refl _))
  rw [append_nil] at hlast
  exact hbefore.append hlast

/-- The last row goes on. -/
lemma append (h : EndsInRow l steps line) (hsteps : ∀ st ∈ steps', st.OnLine line) :
    EndsInRow l (steps ++ steps') line := by
  obtain ⟨before, t, s, within, m, rfl, hbefore, hm, rfl, hrow⟩ := h
  refine ⟨before, t, s, within ++ steps', m, by simp, hbefore, hm, rfl, hrow.noFeed, ?_, ?_⟩
  · exact forall_mem_append.2 ⟨hrow.onLine, hsteps⟩
  · obtain ⟨st, hst, hmark⟩ := hrow.marked
    refine ⟨st, ?_, hmark⟩
    rw [← cons_append]
    exact mem_append_left _ hst

lemma prepend (h' : Rows l steps' m) (h : EndsInRow m steps line) :
    EndsInRow l (steps' ++ steps) line := by
  obtain ⟨before, t, s, within, m, rfl, hbefore, hm, rfl, hrow⟩ := h
  exact ⟨steps' ++ before, t, s, within, m, by simp, h'.append hbefore, hm, rfl, hrow⟩

lemma of_row {s : Text} {within : List Step} (hline : l < t.pos.line) (hrow : Row t s within) :
    EndsInRow l (.token t s :: within) t.pos.line :=
  ⟨[], t, s, within, l, rfl, .nil (Int.le_refl _), hline, rfl, hrow⟩

end EndsInRow

/-- Steps within a line stay on the line of their tokens. -/
lemma Inline.onLine (h : Inline steps tokens) (hline : ∀ t ∈ tokens, t.pos.line = line) :
    ∀ st ∈ steps, st.OnLine line := by
  induction h with
  | nil => simp
  | token hs _ ih =>
    rw [forall_mem_cons] at hline ⊢
    exact ⟨⟨rfl, by rintro _ ⟨⟩; exact hline.1, by rintro _ ⟨⟩; exact hs⟩, ih hline.2⟩
  | keyword hs _ ih =>
    rw [forall_mem_cons] at hline ⊢
    exact ⟨⟨rfl, by rintro _ ⟨⟩; exact hline.1, by rintro _ ⟨⟩; exact hs⟩, ih hline.2⟩
  | drop _ ih =>
    rw [forall_mem_cons] at hline ⊢
    exact ⟨⟨rfl, by rintro _ ⟨⟩, by rintro _ ⟨⟩⟩, ih hline.2⟩
  | before hs _ ih =>
    have ht := hline _ (mem_cons_self ..)
    exact forall_mem_cons.2 ⟨⟨rfl, by rintro _ ⟨⟩; exact ht, by rintro _ ⟨⟩; exact hs⟩, ih hline⟩
  | insert hs _ ih =>
    exact forall_mem_cons.2 ⟨⟨rfl, by rintro _ ⟨⟩, by rintro _ ⟨⟩; exact hs⟩, ih hline⟩
  | @span first last _ s steps _ hs _ ih =>
    have hfirst := hline first (by simp)
    exact forall_mem_cons.2 ⟨⟨rfl, by rintro _ ⟨⟩; exact hfirst, by rintro _ ⟨⟩; exact hs⟩,
      ih fun t ht => hline t (mem_append_right _ ht)⟩

/-! ### The line of the last token that was read -/

/-- The line of the last token that was read, after the given line. -/
def lastLine (l : Int) (tokens : List Token) : Int :=
  ((lastRead tokens).map fun t => t.pos.line).getD l

lemma lastLine_of_lastRead (h : lastRead tokens = some t) : lastLine l tokens = t.pos.line := by
  rw [lastLine, h, Option.map_some, Option.getD_some]

lemma lastLine_append : lastLine l (tokens ++ tokens') = lastLine (lastLine l tokens) tokens' := by
  cases h : lastRead tokens' with
  | some t => rw [lastLine_of_lastRead (lastRead_append_of_some h), lastLine_of_lastRead h]
  | none =>
    have hnone : tokens'.filter (fun t => !t.isSynthetic) = [] := getLast?_eq_none_iff.1 h
    simp [lastLine, lastRead, filter_append, hnone]

lemma lastLine_eq_self (h : ∀ t ∈ tokens, t.isSynthetic = false → t.pos.line = l) :
    lastLine l tokens = l := by
  cases hlast : lastRead tokens with
  | none => rw [lastLine, hlast, Option.map_none, Option.getD_none]
  | some t =>
    obtain ⟨ht, hread⟩ := mem_filter.1 (mem_of_getLast? hlast)
    rw [lastLine_of_lastRead hlast]
    exact h t ht (by simpa using hread)

lemma lastLine_of_getLast? (h : tokens.getLast? = some t) (hread : t.isSynthetic = false) :
    lastLine l tokens = t.pos.line := by
  obtain ⟨before, rfl⟩ := getLast?_eq_some_iff.1 h
  exact lastLine_of_lastRead (lastRead_append_read hread)

/-- Whether what is read is below a line. -/
def ReadsBelow (l : Int) (tokens : List Token) : Prop :=
  ∀ t ∈ tokens, t.isSynthetic = false → l < t.pos.line

lemma readsBelow_append : ReadsBelow l (tokens ++ tokens') ↔ ReadsBelow l tokens ∧ ReadsBelow l tokens' :=
  forall_mem_append

lemma lt_of_lastRead (h : ReadsBelow l tokens) (hlast : lastRead tokens = some t) : l < t.pos.line := by
  obtain ⟨ht, hread⟩ := mem_filter.1 (mem_of_getLast? hlast)
  exact h t ht (by simpa using hread)

lemma le_lastLine (h : ReadsBelow l tokens) : l ≤ lastLine l tokens := by
  cases hlast : lastRead tokens with
  | none => rw [lastLine, hlast, Option.map_none, Option.getD_none]
  | some t =>
    rw [lastLine_of_lastRead hlast]
    exact (lt_of_lastRead h hlast).le

lemma line_le_of_isChain (h : (t :: tokens).IsChain Token.Precedes) :
    ∀ u ∈ tokens, t.pos.line ≤ u.pos.line := by
  induction tokens generalizing t with
  | nil => simp
  | cons v tokens ih =>
    obtain ⟨hhead, htail⟩ := isChain_cons_cons.1 h
    rw [forall_mem_cons]
    exact ⟨hhead.line_le, fun u hu => hhead.line_le.trans (ih htail u hu)⟩

/-- What comes after the end of a line is read below it. -/
lemma readsBelow_of_lastRead {a : Token} (hchain : (tokens ++ tokens').IsChain Token.Precedes)
    (hstart : LineStart tokens) (hlast : lastRead tokens = some a) : ReadsBelow a.pos.line tokens' := by
  intro t ht _
  obtain ⟨u, rest, rfl⟩ := exists_cons_of_ne_nil (ne_nil_of_mem ht)
  have hfirst : (tokens ++ [u]).IsChain Token.Precedes := hchain.infix ⟨[], rest, by simp⟩
  have hlt := line_lt_of_lineStart hfirst hstart hlast
  rcases mem_cons.1 ht with rfl | ht
  · exact hlt
  · exact hlt.trans_le (line_le_of_isChain (isChain_append.1 hchain).2.1 t ht)

lemma readsBelow_lastLine (hchain : (tokens ++ tokens').IsChain Token.Precedes) (hstart : LineStart tokens)
    (hl : ReadsBelow l tokens') : ReadsBelow (lastLine l tokens) tokens' := by
  cases hlast : lastRead tokens with
  | none =>
    rw [lastLine, hlast]
    exact hl
  | some a =>
    rw [lastLine_of_lastRead hlast]
    exact readsBelow_of_lastRead hchain hstart hlast

/-! ### Steps up to a body -/

/-- The steps of a construct up to its last body, which is on the line of its header or not. -/
structure OpenRows (inline : Bool) (l : Int) (steps : List Step) (l' : Int) : Prop where
  rows : Rows l steps l'
  inline : inline = true → EndsInRow l steps l'

lemma OpenRows.prepend {inline : Bool} (h : OpenRows inline m steps l') (h' : Rows l steps' m) :
    OpenRows inline l (steps' ++ steps) l' where
  rows := h'.append h.rows
  inline := fun hinline => (h.inline hinline).prepend h'

/-- Whether a step closes a body with the given tokens, which is on the line of its header or not. -/
def IsClosing (inline : Bool) (opener : Token) (body : List Token) (st : Step) : Prop :=
  if inline then st = .insert (utf8 " end") else ∃ last, lastRead body = some last ∧ st = .close opener last

/-- The closing keyword after the rows of a construct. -/
lemma OpenRows.rows_closing {inline : Bool} {opener : Token} {body : List Token} {st : Step}
    (h : OpenRows inline l steps (lastLine l tokens)) (hst : IsClosing inline opener body st)
    (hbody : body <:+ tokens) (hl : -1 ≤ l) (hreads : ReadsBelow l tokens) :
    Rows l (steps ++ [st]) (lastLine l tokens) := by
  cases inline with
  | true =>
    obtain rfl : st = .insert (utf8 " end") := hst
    refine ((h.inline rfl).append ?_).rows
    rw [forall_mem_singleton]
    exact ⟨rfl, by rintro _ ⟨⟩, by rintro _ ⟨⟩; decide⟩
  | false =>
    obtain ⟨last, hlast, rfl⟩ : ∃ last, lastRead body = some last ∧ st = .close opener last := hst
    obtain ⟨before, rfl⟩ := hbody
    have hlast' : lastRead (before ++ body) = some last := lastRead_append_of_some hlast
    have hline := lt_of_lastRead hreads hlast'
    have hrows := h.rows
    rw [lastLine_of_lastRead hlast'] at hrows ⊢
    refine hrows.append (.close (by omega) (.nil ?_))
    rw [Int.max_self]

end Lunify
