import Lunify.Rendering.Step
import Lunify.Proofs.Chunk.Scanner

/-!
# Rendered text as a sequence of words

A rendering step writes a piece of text after white space (`Step.text?`, `Cursor.Extends`). Where the
step goes in the source decides how much white space there is and nothing else, so what a list of
steps means for a Lua reader is the list of the tokens it writes: `Writes P steps ls Q` says that
after any text made of words whose last byte satisfies `P`, the steps succeed and add the words `ls`,
and the last byte then satisfies `Q`. Steps are put together with `Writes.append`.
-/

namespace Lunify

open List

open Chunk (Lexes IsBlank joins Apart)

variable {c : Cursor} {s : Text} {x : UInt8}

/-- The text that a step writes, white space before it apart. -/
def Step.text? : Step → Option Text
  | .token _ s | .span _ _ s | .insert s | .before _ s | .keyword _ s => some s
  | .close _ _ => some (utf8 "end")
  | .drop _ | .fail _ => none

namespace Cursor

variable {c' : Cursor}

/-- Whether a cursor is another one after white space. -/
def Pads (c c' : Cursor) : Prop :=
  ∃ ws, (∀ b ∈ ws, IsBlank b) ∧ c'.text = c.text ++ ws

/-- Whether a cursor is another one after white space and a text, which stand apart from what is
before them as far as `glued` goes. -/
def Extends (c c' : Cursor) (s : Text) : Prop :=
  ∃ ws, (∀ b ∈ ws, IsBlank b) ∧ c'.text = c.text ++ ws ++ s ∧ (ws = [] → c.needsBlank s = false)

@[simp] lemma text_append (c : Cursor) (s : Text) : (c.append s).text = c.text ++ s := by
  simp [text, append]

lemma pads_downTo (c : Cursor) (line : Int) : c.Pads (c.downTo line) := by
  unfold downTo
  split
  · exact ⟨[], by simp, by simp⟩
  · refine ⟨_, ?_, text_append c _⟩
    intro b hb
    exact .inr (eq_of_mem_replicate hb)

lemma pads_rightTo (c : Cursor) (column : Int) : c.Pads (c.rightTo column) := by
  unfold rightTo
  split
  · exact ⟨[], by simp, by simp⟩
  · refine ⟨_, ?_, text_append c _⟩
    intro b hb
    exact .inl (eq_of_mem_replicate hb)

lemma Pads.trans {c'' : Cursor} (h : c.Pads c') (h' : c'.Pads c'') : c.Pads c'' := by
  obtain ⟨ws, hws, htext⟩ := h
  obtain ⟨ws', hws', htext'⟩ := h'
  refine ⟨ws ++ ws', ?_, by rw [htext', htext, append_assoc]⟩
  intro b hb
  exact (mem_append.1 hb).elim (hws b) (hws' b)

lemma pads_advance (c : Cursor) (p : Position) : c.Pads (c.advance p) :=
  (pads_downTo c _).trans (pads_rightTo _ _)

lemma needsBlank_of_text_eq (h : c'.text = c.text) (s : Text) : c'.needsBlank s = c.needsBlank s := by
  have hwritten : c'.written = c.written := reverse_inj.1 h
  unfold needsBlank
  rw [hwritten]

/-- A text after white space. -/
lemma Pads.extends {c'' : Cursor} (h : c.Pads c') (h' : c'.Extends c'' s) : c.Extends c'' s := by
  obtain ⟨ws, hws, htext⟩ := h
  obtain ⟨ws', hws', htext', hneeds⟩ := h'
  refine ⟨ws ++ ws', ?_, by rw [htext', htext, append_assoc c.text], ?_⟩
  · intro b hb
    exact (mem_append.1 hb).elim (hws b) (hws' b)
  · intro hnil
    obtain ⟨rfl, rfl⟩ := append_eq_nil_iff.1 hnil
    rw [← needsBlank_of_text_eq (htext.trans (append_nil _)) s]
    exact hneeds rfl

lemma extends_write (c : Cursor) (s : Text) : c.Extends (c.write s) s := by
  unfold write
  by_cases hblank : c.needsBlank s = true
  · refine ⟨[byte ' '], by simp [IsBlank], ?_, by simp⟩
    simp [hblank, text, append]
  · refine ⟨[], by simp, ?_, fun _ => Bool.eq_false_iff.2 hblank⟩
    simp [hblank, text, append]

lemma extends_replace (c : Cursor) (s : Text) (width : Int) : c.Extends (c.replace s width) s :=
  extends_write c s

lemma extends_token (c : Cursor) (t : Token) (s : Text) : c.Extends (c.token t s) s :=
  (pads_advance c t.pos).extends (extends_replace _ s _)

lemma extends_close (c : Cursor) (opener last : Token) :
    c.Extends (c.close opener last) (utf8 "end") := by
  have hdown := pads_downTo c (if last.pos.line + c.shift + 1 ≤ c.line then c.line + 1
    else last.pos.line + c.shift + 1)
  exact hdown.extends ((pads_rightTo _ opener.pos.column).extends (extends_write _ (utf8 "end")))

lemma Extends.of_blank (h : c.Extends c' (byte ' ' :: s)) : c.Extends c' s := by
  obtain ⟨ws, hws, htext, -⟩ := h
  refine ⟨ws ++ [byte ' '], ?_, by simpa using htext, by simp⟩
  intro b hb
  rcases mem_append.1 hb with hb | hb
  · exact hws b hb
  · exact .inl (mem_singleton.1 hb)

/-- A step that has a text writes it. -/
lemma exists_step {st : Step} (h : st.text? = some s) (c : Cursor) :
    ∃ c', c.step st = .ok c' ∧ c.Extends c' s := by
  cases st with
  | token t s' =>
    obtain rfl := Option.some.inj h
    exact ⟨_, rfl, extends_token c t s'⟩
  | span first last s' =>
    obtain rfl := Option.some.inj h
    exact ⟨_, rfl, (pads_advance c first.pos).extends (extends_replace _ s' _)⟩
  | insert s' =>
    obtain rfl := Option.some.inj h
    exact ⟨_, rfl, extends_replace c s' 0⟩
  | before t s' =>
    obtain rfl := Option.some.inj h
    exact ⟨_, rfl, (pads_advance c t.pos).extends (extends_replace _ s' 0)⟩
  | keyword t w =>
    obtain rfl := Option.some.inj h
    refine ⟨_, rfl, (pads_advance c t.pos).extends ?_⟩
    split
    · exact extends_token _ t w
    · exact (extends_token _ t (byte ' ' :: w)).of_blank
  | close opener last =>
    obtain rfl := Option.some.inj h
    exact ⟨_, rfl, extends_close c opener last⟩
  | drop t => simp [Step.text?] at h
  | fail e => simp [Step.text?] at h

lemma last_eq (c : Cursor) : c.last = c.text.getLast?.getD 0 := by
  rw [last, text, getLast?_reverse, headD_eq_head?_getD]

end Cursor

/-! ### What steps write -/

/-- The bytes after which an equals sign may stand directly. -/
def Ended (x : UInt8) : Prop :=
  joins x (byte '=') = false

/-- The bytes after which a number may stand directly, or after a blank. -/
def Open (x : UInt8) : Prop :=
  Text.isDigit x = false ∧ x ≠ byte '.'

lemma open_start : Open Cursor.start.last := by
  exact ⟨by decide, by decide⟩

/-- Whether a text that follows a byte is either apart from it or held off by a blank. -/
def HeldOff (x : UInt8) (s : Text) : Prop :=
  ∀ b ∈ s.head?, joins x b = true → Cursor.glued x b = true

/-- What begins with no equals sign and no colon is held off from what a number may stand after. -/
lemma heldOff_of_open (hx : Open x) (h : ∀ b ∈ s.head?, b ≠ byte '=' ∧ b ≠ byte ':') : HeldOff x s := by
  intro b hb hjoin
  obtain ⟨hequals, hcolon⟩ := h b hb
  simp only [joins, hx.1, hx.2, hequals, hcolon, decide_false, Bool.or_false, Bool.and_false,
    Bool.false_and] at hjoin
  simpa [Cursor.glued] using hjoin

/-- What begins with no equals sign, point or colon is held off from anything but a point, and from
that too if it does not go on with a number. -/
lemma heldOff_of_head (h : ∀ b ∈ s.head?, b ≠ byte '=' ∧ b ≠ byte '.' ∧ b ≠ byte ':')
    (hx : x ≠ byte '.' ∨ ∀ b ∈ s.head?, Text.isDigit b = false ∧ b ≠ byte 'e' ∧ b ≠ byte 'E') :
    HeldOff x s := by
  intro b hb hjoin
  obtain ⟨hequals, hpoint, hcolon⟩ := h b hb
  have hnumber : (Text.isDigit x = true ∨ x = byte '.') →
      (Text.isDigit b = true ∨ b = byte 'e' ∨ b = byte 'E') →
      Lexeme.isWordByte x = true ∧ Lexeme.isWordByte b = true := by
    intro hbefore hafter
    rcases hx with hx | hx
    · refine ⟨by simp [Lexeme.isWordByte, hbefore.resolve_right hx], ?_⟩
      rcases hafter with hb | rfl | rfl
      · simp [Lexeme.isWordByte, hb]
      · decide
      · decide
    · obtain ⟨hdigit, hsmall, hlarge⟩ := hx b hb
      simp [hdigit, hsmall, hlarge] at hafter
  simp only [joins, hequals, hpoint, hcolon, decide_false, Bool.or_false, Bool.and_false,
    Bool.or_eq_true, Bool.and_eq_true, decide_eq_true_eq] at hjoin
  simp only [Cursor.glued, Bool.or_eq_true, Bool.and_eq_true, decide_eq_true_eq]
  rcases hjoin with ((hword | ⟨hbefore, hafter⟩) | hminus) | hbracket
  · exact .inl (.inl hword)
  · exact .inl (.inl (hnumber hbefore (or_assoc.1 hafter)))
  · exact .inl (.inr hminus)
  · exact .inr hbracket

lemma heldOff_of_ended (hx : Ended x) (s : Text) : HeldOff x (byte '=' :: s) := by
  rintro b hb hjoin
  obtain rfl := Option.some.inj hb
  exact absurd (hx.symm.trans hjoin) Bool.false_ne_true

/-- White space joins nothing after it. -/
lemma joins_of_isBlank (hx : IsBlank x) (b : UInt8) : joins x b = false := by
  have hword : ∀ y : UInt8, IsBlank y → Lexeme.isWordByte y = false ∧ Open y := by
    rintro y (rfl | rfl) <;> exact ⟨by decide, by decide, by decide⟩
  obtain ⟨hplain, hdigit, hpoint⟩ := hword x hx
  simp only [joins, hplain, hdigit, hpoint, decide_false, Bool.or_self, Bool.false_and, Bool.false_or]
  rcases hx with rfl | rfl <;> simp [byte]

/-- A text that is held off from what is before it stands apart from it. -/
lemma apart_of_heldOff {ws : Text} (hws : ∀ b ∈ ws, IsBlank b) (hneeds : ws = [] → c.needsBlank s = false)
    (hheld : HeldOff c.last s) :
    Apart (c.text ++ ws) s := by
  intro x hx b hb
  cases ws with
  | nil =>
    rw [append_nil] at hx
    have hlast : c.last = x := by rw [Cursor.last_eq, Option.mem_def.1 hx, Option.getD_some]
    rw [Cursor.text, getLast?_reverse] at hx
    obtain ⟨before, hwritten⟩ := head?_eq_some_iff.1 hx
    obtain ⟨after, rfl⟩ := head?_eq_some_iff.1 hb
    have hglued : Cursor.glued x b = false := by
      have hblank := hneeds rfl
      unfold Cursor.needsBlank at hblank
      rwa [hwritten] at hblank
    by_contra hjoin
    rw [hlast] at hheld
    exact absurd (hglued.symm.trans (hheld b rfl (Bool.not_eq_false _ ▸ hjoin))) Bool.false_ne_true
  | cons w ws =>
    rw [getLast?_append, getLast?_eq_some_getLast (cons_ne_nil w ws),
      Option.some_or, ← getLast?_eq_some_getLast] at hx
    exact joins_of_isBlank (hws x (mem_of_getLast? hx)) b

/-- What a list of steps adds to a text made of words. -/
def Writes (P : UInt8 → Prop) (steps : List Step) (ls : List Chunk.Lexeme) (Q : UInt8 → Prop) :
    Prop :=
  ∀ (c : Cursor) (ks : List Chunk.Lexeme), Lexes c.text ks → P c.last →
    ∃ c', c.run steps = .ok c' ∧ Lexes c'.text (ks ++ ls) ∧ Q c'.last

namespace Writes

variable {P P' Q Q' R : UInt8 → Prop} {steps steps' : List Step} {ks ls : List Chunk.Lexeme}

lemma nil : Writes P [] [] P := by
  intro c ks hks hP
  exact ⟨c, rfl, by rwa [append_nil], hP⟩

lemma append (h : Writes P steps ks Q) (h' : Writes Q steps' ls R) :
    Writes P (steps ++ steps') (ks ++ ls) R := by
  intro c js hjs hP
  obtain ⟨c', hrun, hlexes, hQ⟩ := h c js hjs hP
  obtain ⟨c'', hrun', hlexes', hR⟩ := h' c' _ hlexes hQ
  refine ⟨c'', ?_, by rwa [← append_assoc], hR⟩
  rw [Cursor.run, foldlM_append, ← Cursor.run, hrun]
  exact hrun'

lemma weaken (h : Writes P steps ls Q) (hP : ∀ x, P' x → P x) (hQ : ∀ x, Q x → Q' x) :
    Writes P' steps ls Q' := by
  intro c ks hks hc
  obtain ⟨c', hrun, hlexes, hc'⟩ := h c ks hks (hP _ hc)
  exact ⟨c', hrun, hlexes, hQ _ hc'⟩

/-- A step that writes words which are held off from what is before them. -/
lemma piece {st : Step} (hst : st.text? = some s) (hs : Lexes s ls) (hne : s ≠ [])
    (hheld : ∀ x, P x → HeldOff x s) (hlast : ∀ x ∈ s.getLast?, Q x) : Writes P [st] ls Q := by
  intro c ks hks hP
  obtain ⟨c', hstep, ws, hws, htext, hneeds⟩ := Cursor.exists_step hst c
  refine ⟨c', ?_, ?_, ?_⟩
  · simp only [Cursor.run, foldlM_cons, foldlM_nil, hstep]
    rfl
  · rw [htext]
    exact (hks.append_blanks hws).append hs (apart_of_heldOff hws hneeds (hheld _ hP))
  · rw [Cursor.last_eq, htext, getLast?_append, getLast?_eq_some_getLast hne,
      Option.some_or, Option.getD_some]
    exact hlast _ (getLast?_eq_some_getLast hne)

/-- Leaving a token out. -/
lemma drop (t : Token) : Writes P [.drop t] [] P := by
  intro c ks hks hP
  by_cases hline : t.pos.line + c.shift = c.line
  · refine ⟨{ c with delta := c.delta - t.content.length }, ?_, by rwa [append_nil], hP⟩
    simp only [Cursor.run, foldlM_cons, foldlM_nil, Cursor.step, hline, if_true]
    rfl
  · refine ⟨c, ?_, by rwa [append_nil], hP⟩
    simp only [Cursor.run, foldlM_cons, foldlM_nil, Cursor.step, hline, if_false]
    rfl

end Writes

end Lunify
