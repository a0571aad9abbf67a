import Lunify.Proofs.Rendering.Moved
import Lunify.Proofs.Rendering.Rows
import Lunify.Proofs.Token.Concatenation

/-!
# Rendering a tree elsewhere

If the tokens of a tree are shown at other places and still stand to each other as before, then the tree is
rendered by the same steps at the other places (`Plan.plan_shown`): the bounds of numeric loops are rendered
as if the text began with them, so these do not change at all.

`Cursor.andThen` joins two cursors. A run goes on after another one as it goes from the start, with its
tokens further down and further right (`Cursor.Begun.run`), as long as it keeps to its line or the first
one stands at the start of a line.
-/

namespace Lunify

open List

/-- The place of a token `n` lines further down. -/
def Token.lower (n : Nat) (t : Token) : Position :=
  t.pos.down n

lemma Token.moved_lower (n : Nat) (t : Token) : t.moved (lower n) = t.down n := rfl

/-- The place of a token that stands further down and further right. -/
def Token.shifted (line column : Int) (t : Token) : Position :=
  ⟨t.pos.line + line, t.pos.column + column⟩

lemma Step.moved_pos (s : Step) : s.moved Token.pos = s := by
  cases s <;> rfl

lemma Position.relativeTo_down (m : Nat) (origin p : Position) :
    (origin.down m).relativeTo (p.down m) = origin.relativeTo p := by
  have hline : p.line + m - (origin.line + m) = p.line - origin.line := by omega
  have hsame : p.line + m = origin.line + m ↔ p.line = origin.line := by omega
  simp only [Position.relativeTo, Position.down, hline, hsame]

/-- A tree elsewhere is rendered by the same steps elsewhere. -/
theorem Plan.plan_shown {f g : Token → Position} {view view' : Position → Position}
    (h : ∀ t, view' (f t) = g (place view t))
    (hrelative : ∀ a b : Token,
      (view' (f a)).relativeTo (view' (f b)) = (view a.pos).relativeTo (view b.pos)) (t : Tree) :
    plan view' (t.moved f) = (plan view t).map (Step.moved g) := by
  have hshows : Shows (sizeOf · < sizeOf t) f g view view' := by
    refine ⟨h, fun hlt u hu => ?_, fun {e tok} hlt _ _ => ?_⟩
    · have hmem := sizeOf_lt_of_mem hu
      rw [Tree.node.sizeOf_spec] at hlt
      omega
    · -- The texts begin with the expressions, and from there all tokens are where they were.
      have hplan := @plan_shown f Token.pos (fun p => (view tok.pos).relativeTo (view p))
        (fun p => (view' (f tok)).relativeTo (view' p)) (hrelative tok)
        (fun a b => by rw [hrelative, hrelative]) e
      rw [funext Step.moved_pos, map_id'] at hplan
      exact congrArg fragmentText hplan
  refine plan_moved hshows t fun u hu => ?_
  cases t with
  | leaf l tok => cases hu
  | node l ts =>
    have hmem := sizeOf_lt_of_mem hu
    rw [Tree.node.sizeOf_spec]
    simp only [Tree.children] at hmem
    omega
termination_by sizeOf t

/-! ### Runs one after the other -/

namespace Cursor

/-- A cursor that has begun where another one stands. -/
def andThen (b c : Cursor) : Cursor :=
  ⟨c.written ++ b.written, c.line + b.line, c.column + b.column, c.shift + b.shift, c.delta + b.delta⟩

/-- The place of a token in a source that goes on where a cursor stands. -/
def placed (b : Cursor) : Token → Position :=
  Token.shifted (b.line - b.shift) (b.column - b.delta)

/-- Whether a cursor is at the start of a line. -/
def AtMargin (b : Cursor) : Prop :=
  b.column = 0 ∧ b.delta = 0

/-- Whether a cursor that goes on after another one has written something, or begins a line. -/
def Begun (b c : Cursor) : Prop :=
  c.written ≠ [] ∨ b.written.head? = some (byte '\n')

@[simp] lemma andThen_start (b : Cursor) : b.andThen start = b := by
  simp [andThen, start]

lemma text_andThen (b c : Cursor) : (b.andThen c).text = b.text ++ c.text :=
  reverse_append

variable {b c d : Cursor} {s : Text}

lemma Begun.mono (h : Begun b c) (hd : c.text <+: d.text) : Begun b d := by
  refine h.imp_left fun hne hnil => hne (reverse_eq_nil_iff.1 (prefix_nil.1 ?_))
  rwa [text, text, hnil] at hd

lemma downTo_andThen {line : Int} (h : AtMargin b ∨ line ≤ c.line) :
    (b.andThen c).downTo (line + b.line) = b.andThen (c.downTo line) := by
  unfold downTo andThen
  by_cases hle : line ≤ c.line
  · simp [hle]
  · obtain ⟨hcolumn, hdelta⟩ := h.resolve_right hle
    simp [hle, append, hcolumn, hdelta, Int.add_sub_add_right]

lemma rightTo_andThen (b c : Cursor) (column : Int) :
    (b.andThen c).rightTo (column + b.column) = b.andThen (c.rightTo column) := by
  unfold rightTo andThen
  by_cases hle : column ≤ c.column
  · simp [hle]
  · simp [hle, append, Int.add_sub_add_right]

lemma advance_andThen {t : Token} (h : AtMargin b ∨ t.pos.line + c.shift ≤ c.line) :
    (b.andThen c).advance (b.placed t) = b.andThen (c.advance t.pos) := by
  have hline : (b.placed t).line + (b.andThen c).shift = t.pos.line + c.shift + b.line := by
    simp only [placed, Token.shifted, andThen]
    omega
  have hcolumn : ∀ d : Cursor,
      (b.placed t).column + (b.andThen d).delta = t.pos.column + d.delta + b.column := by
    intro d
    simp only [placed, Token.shifted, andThen]
    omega
  unfold advance
  simp only [hline, downTo_andThen h, hcolumn, rightTo_andThen]

/-- The same byte stands before a text, or a line feed stands where nothing did. -/
lemma Begun.needsBlank (h : Begun b c) (s : Text) : (b.andThen c).needsBlank s = c.needsBlank s := by
  unfold Cursor.needsBlank andThen
  cases hc : c.written with
  | cons a written => cases s <;> rfl
  | nil =>
    obtain ⟨written, hb⟩ := head?_eq_some_iff.1 (h.resolve_left (· hc))
    cases s with
    | nil => simp
    | cons a s => simpa [hb] using (glued_blank a).2.1

lemma Begun.last (h : Begun b c) : (b.andThen c).last = byte ' ' ↔ c.last = byte ' ' := by
  have hfeed : byte '\n' ≠ byte ' ' ∧ (0 : UInt8) ≠ byte ' ' := by decide
  unfold Cursor.last andThen
  cases hc : c.written with
  | cons a written => rfl
  | nil =>
    obtain ⟨written, hb⟩ := head?_eq_some_iff.1 (h.resolve_left (· hc))
    simp [hb, hfeed]

lemma write_andThen (h : (b.andThen c).needsBlank s = c.needsBlank s) :
    (b.andThen c).write s = b.andThen (c.write s) := by
  unfold write
  rw [h]
  split <;> simp [append, andThen, Int.add_right_comm]

lemma replace_andThen (h : (b.andThen c).needsBlank s = c.needsBlank s) (width : Int) :
    (b.andThen c).replace s width = b.andThen (c.replace s width) := by
  unfold replace
  rw [write_andThen h]
  simp only [andThen, mk.injEq, true_and]
  omega

/-- Moving to a token and writing there. -/
lemma Begun.replace_advance (h : Begun b c) {t : Token} (ht : AtMargin b ∨ t.pos.line + c.shift ≤ c.line)
    (s : Text) (width : Int) :
    ((b.andThen c).advance (b.placed t)).replace s width = b.andThen ((c.advance t.pos).replace s width) := by
  rw [advance_andThen ht]
  obtain ⟨ws, -, htext⟩ := pads_advance c t.pos
  exact replace_andThen ((h.mono (htext ▸ prefix_append _ _)).needsBlank s) width

lemma Begun.close (h : Begun b c) (hb : AtMargin b) (opener last : Token) :
    (b.andThen c).close (opener.moved b.placed) (last.moved b.placed) = b.andThen (c.close opener last) := by
  have hline : (if (last.moved b.placed).pos.line + (b.andThen c).shift + 1 ≤ (b.andThen c).line
        then (b.andThen c).line + 1 else (last.moved b.placed).pos.line + (b.andThen c).shift + 1) =
      (if last.pos.line + c.shift + 1 ≤ c.line then c.line + 1 else last.pos.line + c.shift + 1) + b.line := by
    simp only [Token.moved, Token.relocate, placed, Token.shifted, andThen]
    split_ifs <;> omega
  have hcolumn : (opener.moved b.placed).pos.column = opener.pos.column + b.column := by
    simp [Token.moved, Token.relocate, placed, Token.shifted, hb.2]
  unfold Cursor.close
  simp only [hline, downTo_andThen (.inl hb), hcolumn, rightTo_andThen]
  obtain ⟨ws, -, htext⟩ := (pads_downTo c (if last.pos.line + c.shift + 1 ≤ c.line then c.line + 1
    else last.pos.line + c.shift + 1)).trans (pads_rightTo _ opener.pos.column)
  rw [write_andThen ((h.mono (htext ▸ prefix_append _ _)).needsBlank _)]
  simp [andThen, Int.add_right_comm]

/-- The same step after another cursor. -/
lemma Begun.step (h : Begun b c) {st : Step} (hstep : c.step st = .ok d)
    (hst : AtMargin b ∨ st.isClose = false ∧ ∀ p, st.target? = some p → p.line + c.shift ≤ c.line) :
    (b.andThen c).step (st.moved b.placed) = .ok (b.andThen d) := by
  have hahead : ∀ p, st.target? = some p → AtMargin b ∨ p.line + c.shift ≤ c.line :=
    fun p hp => hst.imp_right fun hst => hst.2 p hp
  cases st with
  | token t s =>
    obtain rfl := Except.ok.inj hstep
    exact congrArg Except.ok (h.replace_advance (hahead _ rfl) s _)
  | span first last s =>
    obtain rfl := Except.ok.inj hstep
    have hwidth : (last.moved b.placed).finish.column - (first.moved b.placed).pos.column =
        last.finish.column - first.pos.column := by
      have hsame : (last.moved b.placed).isSynthetic = last.isSynthetic := rfl
      unfold Token.finish
      rw [hsame]
      split <;> simp only [Token.moved, Token.relocate, placed, Token.shifted] <;> omega
    rw [Step.moved, Cursor.step, hwidth]
    exact congrArg Except.ok (h.replace_advance (hahead _ rfl) s _)
  | insert s =>
    obtain rfl := Except.ok.inj hstep
    exact congrArg Except.ok (replace_andThen (h.needsBlank s) 0)
  | before t s =>
    obtain rfl := Except.ok.inj hstep
    exact congrArg Except.ok (h.replace_advance (hahead _ rfl) s 0)
  | drop t =>
    obtain rfl := Except.ok.inj hstep
    have hiff : (t.moved b.placed).pos.line + (b.andThen c).shift = (b.andThen c).line ↔
        t.pos.line + c.shift = c.line := by
      simp only [Token.moved, Token.relocate, placed, Token.shifted, andThen]
      omega
    simp only [Step.moved, Cursor.step, hiff]
    split
    · simp only [andThen, Token.moved, Token.relocate, Except.ok.injEq, mk.injEq, true_and]
      omega
    · rfl
  | keyword t word =>
    obtain rfl := Except.ok.inj hstep
    obtain ⟨ws, -, htext⟩ := pads_advance c t.pos
    have hbegun : Begun b (c.advance t.pos) := h.mono (htext ▸ prefix_append _ _)
    simp only [Step.moved, Cursor.step, Token.moved, Token.relocate, advance_andThen (hahead _ rfl),
      hbegun.last]
    refine congrArg Except.ok (hbegun.replace_advance ((hahead _ rfl).imp_right fun hle => ?_) _ _)
    obtain ⟨n, hgrows⟩ := grows_advance hle
    rwa [hgrows.shift, hgrows.line]
  | close opener last =>
    obtain rfl := Except.ok.inj hstep
    exact congrArg Except.ok (h.close (hst.resolve_right (by simp [Step.isClose])) opener last)
  | fail e => cases hstep

/-- A run after another cursor. -/
theorem Begun.run (h : Begun b c) {steps : List Step} (hrun : c.run steps = .ok d)
    (hsteps : AtMargin b ∨ ∃ line, c.line = line + c.shift ∧ ∀ st ∈ steps, st.OnLine line) :
    (b.andThen c).run (steps.map (Step.moved b.placed)) = .ok (b.andThen d) := by
  induction steps generalizing c with
  | nil =>
    obtain rfl := Except.ok.inj hrun
    rfl
  | cons st steps ih =>
    rw [Cursor.run, foldlM_cons] at hrun
    obtain ⟨e, hstep, hrun⟩ := Tree.bind_eq_ok_iff.1 hrun
    have hmoved : (b.andThen c).step (st.moved b.placed) = .ok (b.andThen e) := by
      refine h.step hstep (hsteps.imp_right ?_)
      rintro ⟨line, hline, hsteps⟩
      have hst := hsteps st mem_cons_self
      exact ⟨hst.isOpen, fun p hp => by rw [hst.target p hp, hline]⟩
    have hrest := ih (h.mono (text_prefix_of_step hstep)) hrun (hsteps.imp_right ?_)
    · rw [Cursor.run, map_cons, foldlM_cons]
      exact Tree.bind_eq_ok_iff.2 ⟨_, hmoved, hrest⟩
    · rintro ⟨line, hline, hsteps⟩
      rw [forall_mem_cons] at hsteps
      obtain ⟨r, hgrows, -⟩ := exists_grows hline hsteps.1 hstep
      exact ⟨line, by rw [hgrows.line, hgrows.shift, hline], hsteps.2⟩

/-- Moving down in two parts. -/
lemma downTo_downTo (c : Cursor) {line line' : Int} (h : line ≤ line') :
    (c.downTo line).downTo line' = c.downTo line' := by
  unfold downTo
  by_cases hc : line ≤ c.line
  · rw [if_pos hc]
  · rw [if_neg hc]
    by_cases heq : line' ≤ line
    · obtain rfl : line = line' := by omega
      rw [if_pos (by simp), if_neg hc]
    · have hcount : (line' - c.line).toNat = (line' - line).toNat + (line - c.line).toNat := by omega
      rw [if_neg (by simpa using heq), if_neg (by omega)]
      simp only [append, hcount, reverse_replicate, replicate_append_replicate,
        ← append_assoc]

/-- Steps of which the first writes a token, further down than the cursor is: the text is that of a run
from the start, after line feeds. -/
theorem exists_run_down {n : Nat} (hline : c.line < n + c.shift) {t : Token} {steps : List Step}
    (hpos : 0 ≤ t.pos.line) (hrun : start.run (.token t s :: steps) = .ok d) :
    ∃ d', c.run ((Step.token t s :: steps).map (Step.moved (Token.lower n))) = .ok d' ∧
      d'.text = c.text ++ List.replicate (n + c.shift - c.line).toNat (byte '\n') ++ d.text := by
  set b := c.downTo (n + c.shift) with hb
  obtain ⟨k, hk⟩ : ∃ k, (n + c.shift - c.line).toNat = k + 1 :=
    ⟨(n + c.shift - c.line).toNat - 1, by omega⟩
  have hdown : b = ⟨List.replicate (k + 1) (byte '\n') ++ c.written, n + c.shift, 0, c.shift, 0⟩ := by
    rw [hb, downTo, if_neg (by omega), hk]
    simp [append]
  have hlower : b.placed = Token.lower n := by
    funext u
    simp [hdown, placed, Token.shifted, Token.lower, Position.down]
  -- The first step moves down past the line that the run goes on from.
  have hfirst : c.token (t.down n) s = b.token (t.down n) s := by
    have hle : n + c.shift ≤ (t.down n).pos.line + c.shift := by
      rw [Token.pos_down, Position.line_down]
      omega
    unfold token advance
    rw [hb, shift_downTo, downTo_downTo _ hle]
  have hmargin : AtMargin b := by
    rw [hdown]
    exact ⟨rfl, rfl⟩
  have hbegun : Begun b start := .inr (by rw [hdown]; rfl)
  have hrun' := hbegun.run hrun (.inl hmargin)
  rw [andThen_start, hlower] at hrun'
  refine ⟨b.andThen d, ?_, ?_⟩
  · rw [← hrun', run, run, map_cons, foldlM_cons, foldlM_cons]
    simp only [Step.moved, Token.moved_lower, step, hfirst]
  · rw [text_andThen, hb, text_downTo]

end Cursor

end Lunify
