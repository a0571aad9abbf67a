import Lunify.Proofs.Rendering.Elsewhere
import Lunify.Proofs.Rendering.Generate

/-!
# Rendering an expression on its own and in place

All tokens of an expression are on one line, so what it is rendered as depends only on how far they stand from
the first of them (`Plan.plan_onLine`). A run that reaches the place of the expression goes on as the run that
renders the expression on its own (`fragment_inPlace`).
-/

namespace Lunify

open List Tree Grammar

/-- A place of a line as seen from another one. -/
def Position.onLine (origin p : Position) : Position :=
  ⟨0, p.column - origin.column⟩

namespace Plan

variable {o : Position} {e : Tree}

/-- A tree on one line is rendered by the same steps wherever its line begins. -/
lemma plan_onLine (hline : ∀ u ∈ e.leaves, u.pos.line = o.line) {view : Position → Position}
    {g : Token → Position} (hview : ∀ t : Token, view ⟨o.line, t.pos.column⟩ = g (place o.onLine t))
    (hrelative : ∀ a b, (view ⟨o.line, a⟩).relativeTo (view ⟨o.line, b⟩) = ⟨0, b - a⟩) :
    plan view e = (plan o.onLine e).map (Step.moved g) := by
  have hmoved : e.moved (fun t => ⟨o.line, t.pos.column⟩) = e :=
    moved_eq_self e fun u hu => by rw [← hline u hu]
  nth_rewrite 1 [← hmoved]
  refine plan_shown hview (fun a b => ?_) e
  rw [hrelative]
  simp [Position.relativeTo, Position.onLine]

lemma plan_relativeTo (hline : ∀ u ∈ e.leaves, u.pos.line = o.line) :
    plan o.relativeTo e = plan o.onLine e := by
  rw [plan_onLine hline (g := Token.pos) (fun t => by simp [Position.relativeTo, Position.onLine, place,
    Token.relocate]) (fun a b => by simp [Position.relativeTo]), funext Step.moved_pos, map_id']

end Plan

lemma fragment_eq {e : Tree} {tok : Token} (hfirst : e.first? = some tok)
    (hline : ∀ u ∈ e.leaves, u.pos.line = tok.pos.line) :
    fragment e = Plan.fragmentText (Plan.plan tok.pos.onLine e) := by
  simp only [fragment, hfirst, Plan.plan_relativeTo hline]

/-- Where an expression stands does not show in its text. -/
lemma fragment_moved {e : Tree} {tok : Token} (hfirst : e.first? = some tok)
    (hline : ∀ u ∈ e.leaves, u.pos.line = tok.pos.line) (line column : Int) :
    fragment (e.moved (Token.shifted line column)) = fragment e := by
  have hfirst' : (e.moved (Token.shifted line column)).first? = some (tok.moved (Token.shifted line column)) := by
    rw [first?_moved, hfirst, Option.map_some]
  have hline' : ∀ u ∈ (e.moved (Token.shifted line column)).leaves,
      u.pos.line = (tok.moved (Token.shifted line column)).pos.line := by
    rw [leaves_moved, forall_mem_map]
    exact fun u hu => congrArg (· + line) (hline u hu)
  rw [fragment_eq hfirst' hline', fragment_eq hfirst hline]
  have hplan := @Plan.plan_shown (Token.shifted line column) Token.pos tok.pos.onLine
    (tok.moved (Token.shifted line column)).pos.onLine (fun t => by
      simp [Position.onLine, Token.moved, Token.relocate, Token.shifted, Plan.place]) (fun a b => by
      simp [Position.relativeTo, Position.onLine, Token.moved, Token.relocate, Token.shifted]) e
  rw [hplan, funext Step.moved_pos, map_id']

/-- The expressions of a program are laid out as the program is. -/
lemma laid_of_isSubtree {tree e : Tree} (h : tree.Laid) (hsub : e.IsSubtree tree)
    (hlabel : e.label = expressionLabel) : e.Laid := by
  have hpart := hsub.isInfix_leaves
  refine ⟨?_, fun tok htok => h.lexed tok (hpart.subset htok), List.IsChain.infix h.chain hpart⟩
  exact (IsPart.isSubtree (.inl h.derivation) hsub).isDerivation
    (hlabel ▸ (isTerminal_builtin_eq_false_iff "<expression>").2 (by decide))

namespace Cursor

/-- Whether a blank is needed shows in the first byte. -/
lemma needsBlank_eq_of_isPrefix (b : Cursor) {s r : Text} (hs : s ≠ []) (h : s <+: r) :
    b.needsBlank r = b.needsBlank s := by
  obtain ⟨a, s, rfl⟩ := exists_cons_of_ne_nil hs
  obtain ⟨r, rfl⟩ := h
  unfold needsBlank
  cases b.written <;> rfl

/-- Moving on within a line writes blanks. -/
lemma advance_onLine {c : Cursor} {p : Position} (hline : c.line = p.line + c.shift)
    (hcolumn : c.column ≤ p.column + c.delta) :
    c.advance p = { c.append (Text.blanks (p.column + c.delta - c.column).toNat) with
      column := p.column + c.delta } := by
  rw [advance, downTo_of_le hline.ge, rightTo]
  split
  · have heq : p.column + c.delta = c.column := by omega
    simp [heq, Text.blanks, append]
  · rfl

/-- A run that begins with a token goes on from a cursor that has reached the place of it. -/
lemma run_inPlace {b c d : Cursor} {t : Token} {s : Text} {steps : List Step} {tokens : List Token}
    (ht : t.pos = ⟨0, 0⟩) (hs : s ≠ []) (hinline : Inline (.token t s :: steps) tokens)
    (hline : ∀ u ∈ tokens, u.pos.line = 0) (hrun : start.run (.token t s :: steps) = .ok d)
    (hb : c.advance (b.placed t) = b) (hblank : b.needsBlank d.text = false) :
    c.run ((Step.token t s :: steps).map (Step.moved b.placed)) = .ok (b.andThen d) := by
  have hstart : start.token t s = start.replace s t.content.length := by
    rw [token, ht]
    rfl
  have honLine := forall_mem_cons.1 (hinline.onLine hline)
  have hgrows := grows_replace start (honLine.1.noFeed s rfl) t.content.length
  rw [← hstart] at hgrows
  have htext : (start.token t s).text = s := hgrows.text
  rw [run, foldlM_cons] at hrun
  have hbegins : s <+: d.text := by
    have hrest := text_prefix_of_run (c := start.token t s) hrun
    rwa [htext] at hrest
  rw [needsBlank_eq_of_isPrefix b hs hbegins] at hblank
  have hreplace : b.replace s t.content.length = b.andThen (start.token t s) := by
    rw [hstart, ← replace_andThen (by rw [andThen_start, hblank]; rfl), andThen_start]
  have hbegun : Begun b (start.token t s) := by
    refine .inl fun hnil => hs ?_
    rw [← htext, text, hnil, reverse_nil]
  have hrest := hbegun.run hrun (.inr ⟨0, by rw [hgrows.line, hgrows.shift]; rfl, honLine.2⟩)
  rw [← hreplace] at hrest
  rw [run, map_cons, foldlM_cons]
  refine bind_eq_ok_iff.2 ⟨_, ?_, hrest⟩
  exact congrArg (fun b => Except.ok (replace b s _)) hb

end Cursor

/-- An expression is rendered in place as it is on its own. Moving it leaves its text unchanged. A cursor on
its line that is not beyond its first token, where the text may stand directly and no sign is left out, goes on
with blanks up to that token and the text. -/
theorem fragment_inPlace {source : Text} {tokens : List Token} {tree e : Tree}
    (hlex : lex source = .ok tokens) (hparse : parse builtin tokens = .ok tree) (he : e.IsSubtree tree)
    (hlabel : e.label = expressionLabel) :
    (∀ line column, fragment (e.moved (Token.shifted line column)) = fragment e) ∧
    ∃ tok text, e.first? = some tok ∧ fragment e = .ok text ∧ (tok.symbol ≠ utf8 "+" →
      ∀ c : Cursor, c.line = tok.pos.line + c.shift → c.column ≤ tok.pos.column + c.delta →
        (c.advance tok.pos).needsBlank text = false →
        ∃ d, c.run (Plan.plan id e) = .ok d ∧
          d.text = c.text ++ Text.blanks (tok.pos.column + c.delta - c.column).toNat ++ text) := by
  have hlaid := laid_of_isSubtree (laid_of_parse hlex hparse) he hlabel
  obtain ⟨ls, hspelled⟩ := exists_spelled ⟨hlaid.derivation, hlabel⟩ (AllLexed.fits hlaid.lexed) (by decide)
  obtain ⟨tok, d, _, hfirst, hrun, -⟩ := hspelled.exists_goes hlaid
  obtain ⟨tok', rest, hfirst', hleaves⟩ := hspelled.leads
  obtain rfl := Option.some.inj (hfirst.symm.trans hfirst')
  have hline : ∀ u ∈ e.leaves, u.pos.line = tok.pos.line := by
    have hvisible := hlaid.visible (by decide) hlabel
    have hchain := hlaid.chain
    rw [hleaves] at hvisible hchain ⊢
    exact fun u hu => (onward_of_isChain hchain hvisible u hu).1
  rw [Plan.plan_relativeTo hline] at hrun
  refine ⟨fragment_moved hfirst hline, tok, d.text, hfirst, ?_, fun hplus c hc hcolumn hblank => ?_⟩
  · rw [fragment_eq hfirst hline, Plan.fragmentText, hrun]
    rfl
  set b := c.advance tok.pos with hb
  rw [Cursor.advance_onLine hc hcolumn] at hb
  have hplaced : b.placed = Token.shifted tok.pos.line tok.pos.column := by
    simp [Cursor.placed, hb, Cursor.append, hc]
  have hinline := (hspelled.written hlaid.lexed tok.pos.onLine).inline
  have hsteps : Plan.plan id e = (Plan.plan tok.pos.onLine e).map (Step.moved b.placed) := by
    rw [hplaced]
    exact Plan.plan_onLine hline (fun t => by simp [Position.onLine, Plan.place, Token.relocate, Token.shifted])
      (fun a b => by simp [Position.relativeTo])
  obtain ⟨t, s, steps, hplan, hs⟩ : BeginsWithToken (Plan.plan tok.pos.onLine e) :=
    hspelled.beginsWithToken hlaid.lexed ⟨_, rfl, .inr ⟨by decide, fun u hu => (Option.some.inj (hfirst.symm.trans hu)) ▸ hplus⟩⟩
  have hzero : ∀ u ∈ placed tok.pos.onLine e, u.pos.line = 0 := forall_mem_map.2 fun _ _ => rfl
  rw [hplan] at hrun hinline hsteps
  obtain rfl : t = Plan.place tok.pos.onLine tok := by
    rw [placed, hleaves, map_cons] at hinline
    cases hinline
    rfl
  have hfirstPlace : b.placed (Plan.place tok.pos.onLine tok) = tok.pos := by
    rw [hplaced]
    simp [Token.shifted, Plan.place, Token.relocate, Position.onLine]
  have htext : b.text = c.text ++ Text.blanks (tok.pos.column + c.delta - c.column).toNat := by
    rw [hb]
    exact Cursor.text_append c _
  refine ⟨b.andThen d, ?_, by rw [Cursor.text_andThen, htext]⟩
  rw [hsteps]
  exact Cursor.run_inPlace (by simp [Plan.place, Token.relocate, Position.onLine]) hs hinline hzero hrun
    (by rw [hfirstPlace, Cursor.advance_onLine hc hcolumn, hb]) hblank

/-- A length is written after the equals sign as it is on its own. -/
theorem fragment_inPlace_length :
    ∃ tokens tree e d, lex (utf8 "x = len(y)\n") = .ok tokens ∧ parse builtin tokens = .ok tree ∧
      e.IsSubtree tree ∧ fragment e = .ok (utf8 "#y") ∧
      Cursor.run ⟨(utf8 "x =").reverse, 0, 3, 0, 0⟩ (Plan.plan id e) = .ok d ∧ d.text = utf8 "x = #y" := by
  let source := utf8 "x = len(y)\n"
  let e := (Tree.ofSource source).part [0, 0, 0, 0, 2]
  obtain ⟨hlex, hparse⟩ := lex_parse_ofSource source (by decide +kernel)
  have hsub : e.IsSubtree (.ofSource source) := isSubtree_part _ _
  have hfragment : fragment e = .ok (utf8 "#y") := by decide +kernel
  have hlen : e.first? = some ⟨.keyword, utf8 "len", ⟨0, 4⟩⟩ := by decide +kernel
  obtain ⟨-, tok, text, hfirst, htext, hrun⟩ := fragment_inPlace hlex hparse hsub (by decide +kernel)
  obtain rfl := Option.some.inj (hfirst.symm.trans hlen)
  obtain rfl := Except.ok.inj (htext.symm.trans hfragment)
  obtain ⟨d, hd, hwritten⟩ := hrun (by decide) ⟨(utf8 "x =").reverse, 0, 3, 0, 0⟩ rfl (by decide) (by decide +kernel)
  exact ⟨_, _, e, d, hlex, hparse, hsub, hfragment, hd, hwritten⟩

end Lunify
