import Lunify.Proofs.Tree.Moved
import Lunify.Rendering.Plan

/-!
# Rendering with tokens at other places

A tree whose tokens stand at other places (`Tree.moved`) is rendered by the same steps at other places,
`Plan.plan_moved`. What a view shows may move differently from the places themselves (`Plan.Shows`). The
bounds of numeric loops are rendered on their own, so for these the texts have to agree.
-/

namespace Lunify

open List

/-- A step with its tokens at other places. -/
def Step.moved (f : Token → Position) : Step → Step
  | .token t text => .token (t.moved f) text
  | .span first last text => .span (first.moved f) (last.moved f) text
  | .insert text => .insert text
  | .before t text => .before (t.moved f) text
  | .drop t => .drop (t.moved f)
  | .keyword t word => .keyword (t.moved f) word
  | .close opener last => .close (opener.moved f) (last.moved f)
  | .fail e => .fail e

@[simp] lemma Step.moved_insert (f : Token → Position) (s : Text) : (Step.insert s).moved f = .insert s := rfl

@[simp] lemma Step.moved_fail (f : Token → Position) (e : RenderError) : (Step.fail e).moved f = .fail e := rfl

namespace Plan

/-- Whether two views show tokens alike, where the first one shows them at their places and the second one
at others: what is at the place `f t` is shown where `g` puts what the first view shows. For the trees of a
class that is closed under children, the texts of expressions on their own are the same. -/
structure Shows (P : Tree → Prop) (f g : Token → Position) (view view' : Position → Position) : Prop where
  pos : ∀ t : Token, view' (f t) = g (Plan.place view t)
  child : ∀ {l : Text} {ts : List Tree}, P (.node l ts) → ∀ t ∈ ts, P t
  fragment : ∀ {e : Tree} {tok : Token}, P e → e.is expressionLabel = true → e.first? = some tok →
    fragmentText (plan (fun p => (view' (f tok)).relativeTo (view' p)) (e.moved f)) =
      fragmentText (plan (fun p => (view tok.pos).relativeTo (view p)) e)

variable {P : Tree → Prop} {f g : Token → Position} {view view' : Position → Position}

/-! ### What is asked of a tree -/

lemma lastAlternative_moved : ∀ (body : Option Tree) (ts : List Tree),
    lastAlternative (body.map (Tree.moved f)) (Tree.movedAll f ts) =
      (lastAlternative body ts).map (Tree.moved f)
  | body, [] => by rw [Tree.movedAll, lastAlternative, lastAlternative]
  | body, .leaf l tok :: ts => by
    rw [Tree.movedAll, Tree.moved, lastAlternative, lastAlternative]
    split
    · rfl
    · exact lastAlternative_moved body ts
  | body, .node l us :: ts => by
    rw [Tree.movedAll, Tree.moved, lastAlternative, lastAlternative]
    split
    · rw [Tree.find?_is_movedAll]
      exact lastAlternative_moved _ us
    · exact lastAlternative_moved body ts

lemma lastBody_moved (ts : List Tree) :
    lastBody (Tree.movedAll f ts) = (lastBody ts).map (Tree.moved f) := by
  rw [lastBody, lastBody, Tree.find?_is_movedAll, lastAlternative_moved]

lemma isInline_moved (body : Tree) : isInline (body.moved f) = isInline body := by
  have hlabel : Tree.label ∘ Tree.moved f = Tree.label := funext fun t => Tree.label_moved f t
  unfold isInline
  rw [Tree.children_moved, head?_map, Option.map_map, hlabel]

lemma lastToken_moved (body : Tree) :
    lastToken (body.moved f) = (lastToken body).map (Token.moved f) := by
  have hread : (fun t : Token => !t.isSynthetic) ∘ Token.moved f = fun t => !t.isSynthetic := rfl
  unfold lastToken
  rw [Tree.leaves_moved, ← map_reverse, find?_map, hread, Tree.first?_moved]
  cases body.leaves.reverse.find? fun t => !t.isSynthetic <;> rfl

lemma isPrimary_moved : ∀ t : Tree, isPrimary (t.moved f) = isPrimary t
  | .leaf l tok => rfl
  | .node l [] => rfl
  | .node l [t] => by
    rw [Tree.moved, Tree.movedAll, Tree.movedAll, isPrimary, isPrimary, isPrimary_moved t]
  | .node l (t :: u :: ts) => rfl

lemma isComparison_moved (t : Tree) : isComparison (t.moved f) = isComparison t := by
  unfold isComparison
  rw [Tree.children_moved]
  cases t.children with
  | nil => rfl
  | cons u us => simp

lemma bound_moved (finish : Tree) (text : Text) (down : Bool) :
    bound (finish.moved f) text down = bound finish text down := by
  unfold bound
  rw [Tree.leaves_moved]
  rcases finish.leaves with _ | ⟨t, _ | ⟨u, ts⟩⟩ <;> rfl

lemma isNegative_moved (step : Tree) : isNegative (step.moved f) = isNegative step := by
  unfold isNegative
  rw [Tree.leaves_moved]
  rcases step.leaves with _ | ⟨t, _ | ⟨u, _ | ⟨v, ts⟩⟩⟩ <;> rfl

lemma bounds_moved (args : List Tree) (texts : List Text) :
    bounds (args.map (Tree.moved f)) texts = bounds args texts := by
  rcases args with _ | ⟨a, _ | ⟨b, _ | ⟨c, _ | ⟨d, args⟩⟩⟩⟩ <;>
    rcases texts with _ | ⟨s, _ | ⟨t, _ | ⟨u, _ | ⟨v, texts⟩⟩⟩⟩ <;>
    simp [bounds, bound_moved, isNegative_moved]

lemma needed_moved (step : Token → Step) (hstep : ∀ t, step (t.moved g) = (step t).moved g)
    (t : Option Token) : needed step (t.map (Token.moved g)) = (needed step t).moved g := by
  cases t with
  | none => rfl
  | some t => exact hstep t

section

variable (h : Shows P f g view view')
include h

namespace Shows

lemma place (t : Token) :
    Plan.place view' (t.moved f) = (Plan.place view t).moved g := by
  unfold Plan.place Token.moved Token.relocate
  simp only [h.pos t]
  rfl

lemma children {t : Tree} (ht : P t) : ∀ u ∈ t.children, P u := by
  cases t with
  | leaf l tok => simp [Tree.children]
  | node l ts => exact h.child ht

lemma leafSteps (t : Token) :
    Plan.leafSteps view' (t.moved f) = (Plan.leafSteps view t).map (Step.moved g) := by
  unfold Plan.leafSteps
  rw [h.place, show (t.moved f).kind = t.kind from rfl, show (t.moved f).content = t.content from rfl]
  change (if t.isSynthetic = true then _ else _) = _
  split
  · rfl
  · split
    · split <;> rfl
    · rfl
    · rfl

lemma tokenAt (ts : List Tree) (i : Nat) :
    Plan.tokenAt view' (Tree.movedAll f ts) i = (Plan.tokenAt view ts i).map (Token.moved g) := by
  unfold Plan.tokenAt
  rw [Tree.movedAll_eq_map, getElem?_map]
  cases ts[i]? with
  | none => rfl
  | some t =>
    cases t with
    | leaf l tok => exact congrArg some (h.place tok)
    | node l us => rfl

lemma firstToken (t : Option Tree) :
    Plan.firstToken view' (t.map (Tree.moved f)) = (Plan.firstToken view t).map (Token.moved g) := by
  unfold Plan.firstToken
  cases t with
  | none => rfl
  | some t =>
    simp only [Option.map_some, Option.bind_some, Tree.first?_moved]
    cases t.first? with
    | none => rfl
    | some tok => exact congrArg some (h.place tok)

lemma colonStep? (colon : Colon) (t : Tree) :
    Plan.colonStep? view' colon (t.moved f) = (Plan.colonStep? view colon t).map (Step.moved g) := by
  cases t with
  | node l us => rfl
  | leaf l tok =>
    by_cases hcolon : (decide (tok.content = utf8 ":") && decide (colon ≠ .plain)) = true
    · have hsome : ∀ view, Plan.colonStep? view colon (.leaf l tok) =
          some (colonStep colon (Plan.place view tok)) := fun view => if_pos hcolon
      have hdown : Plan.colonStep? view' colon (.leaf l (tok.moved f)) =
          some (colonStep colon (Plan.place view' (tok.moved f))) := if_pos hcolon
      rw [Tree.moved, hdown, hsome, h.place]
      cases colon <;> rfl
    · have hnone : ∀ view, Plan.colonStep? view colon (.leaf l tok) = none := fun view => if_neg hcolon
      have hdown : Plan.colonStep? view' colon (.leaf l (tok.moved f)) = none := if_neg hcolon
      rw [Tree.moved, hdown, hnone]
      rfl

end Shows

/-- The closing of a block further down. -/
lemma closing_moved (opener : Option Token) (body : Tree) :
    closing view' (opener.map (Token.moved g)) (body.moved f) =
      (closing view opener body).moved g := by
  unfold closing
  rw [isInline_moved, lastToken_moved]
  split
  · rfl
  · cases opener with
    | none => rfl
    | some kw =>
      cases lastToken body with
      | none => rfl
      | some t => exact congrArg (Step.close (kw.moved g)) (h.place t)

lemma closed_moved (l : Text) (ts : List Tree) (inner : List Step) :
    closed view' l (Tree.movedAll f ts) (inner.map (Step.moved g)) =
      (closed view l ts inner).map (Step.moved g) := by
  unfold closed
  rw [lastBody_moved, h.tokenAt]
  cases ts with
  | nil => rfl
  | cons t ts =>
    rw [Tree.movedAll, isEmpty_cons, isEmpty_cons, if_neg Bool.false_ne_true,
      if_neg Bool.false_ne_true]
    cases lastBody (t :: ts) with
    | none => rfl
    | some body => simp [closing_moved h]

lemma braced_moved (ts : List Tree) (inner : List Step) :
    braced view' (Tree.movedAll f ts) (inner.map (Step.moved g)) =
      (braced view ts inner).map (Step.moved g) := by
  unfold braced
  rw [h.tokenAt, h.tokenAt, Tree.length_movedAll, needed_moved _ fun _ => rfl, needed_moved _ fun _ => rfl]
  simp

lemma table_moved (ts : List Tree) (items : Option (List Step))
    (trailing : List Step) :
    table view' (Tree.movedAll f ts) (items.map (List.map (Step.moved g)))
        (trailing.map (Step.moved g)) =
      (table view ts items trailing).map (Step.moved g) := by
  have hleaf : ∀ i, isLeafAt (Tree.movedAll f ts) i = isLeafAt ts i := by
    intro i
    unfold isLeafAt
    rw [Tree.movedAll_eq_map, getElem?_map]
    cases ts[i]? <;> simp
  unfold table
  cases items with
  | none => exact braced_moved h ts []
  | some steps =>
    simp only [Option.map_some, Tree.length_movedAll, hleaf]
    split
    · rfl
    · rw [← braced_moved h, map_append]
      split <;> rfl

lemma element_moved (isList : Bool) (i : Nat) (t : Tree)
    (steps : List Step) :
    element view' isList i (t.moved f) (steps.map (Step.moved g)) =
      ((element view isList i t steps).1.map (Step.moved g), (element view isList i t steps).2) := by
  have hend : (elementEnd isList).map (Step.moved g) = elementEnd isList := by
    cases isList <;> rfl
  unfold element
  rw [Tree.isLeaf_moved]
  split
  · rfl
  · have hfirst := h.firstToken (some t)
    rw [Option.map_some] at hfirst
    rw [hfirst, needed_moved _ fun _ => rfl]
    simp [hend]

lemma rangeHeader_moved (ts : List Tree) (opening : List Step)
    (texts : List (Except RenderError Text)) :
    rangeHeader view' (Tree.movedAll f ts) (opening.map (Step.moved g)) texts =
      (rangeHeader view ts opening texts).map (Step.moved g) := by
  have hrange : ((Tree.movedAll f ts)[3]?.map Tree.children).getD [] =
      ((ts[3]?.map Tree.children).getD []).map (Tree.moved f) := by
    rw [Tree.movedAll_eq_map, getElem?_map]
    cases ts[3]? <;> simp
  unfold rangeHeader
  simp only [hrange, h.tokenAt]
  generalize (ts[3]?.map Tree.children).getD [] = range
  have hargs : (range.map (Tree.moved f)).filter (Tree.is expressionLabel) =
      (range.filter (Tree.is expressionLabel)).map (Tree.moved f) := by
    rw [filter_map]
    exact congrArg _ (filter_congr fun t _ => Tree.is_moved f _ t)
  have hbounds : bounds ((range.map (Tree.moved f)).filter (Tree.is expressionLabel)) =
      bounds (range.filter (Tree.is expressionLabel)) := by
    rw [hargs]
    exact funext fun texts => bounds_moved _ texts
  rw [hbounds]
  cases texts.mapM id >>= bounds (range.filter (Tree.is expressionLabel)) with
  | error e => rfl
  | ok text =>
    have hlast : ((range.map (Tree.moved f)).getLast?.bind Tree.token?).map (place view') =
        ((range.getLast?.bind Tree.token?).map (place view)).map (Token.moved g) := by
      rw [getLast?_map]
      cases range.getLast? with
      | none => rfl
      | some t =>
        cases t with
        | node l us => rfl
        | leaf l tok => exact congrArg some (h.place tok)
    rw [hlast]
    cases tokenAt view ts 2 with
    | none => simp [Step.moved]
    | some first =>
      cases (range.getLast?.bind Tree.token?).map (place view) with
      | none => simp [Step.moved]
      | some last => simp [Step.moved]

/-! ### The steps of a tree -/

mutual

/-- A tree with its tokens at other places is rendered by the same steps at other places. -/
theorem plan_moved : ∀ t : Tree, (∀ u ∈ t.children, P u) →
    plan view' (t.moved f) = (plan view t).map (Step.moved g)
  | .leaf l tok, _ => by
    rw [Tree.moved, plan, plan]
    exact h.leafSteps tok
  | .node l ts, hts => by
    have hlabel : ∀ i : Nat, ((Tree.movedAll f ts)[i]?).map Tree.label = ts[i]?.map Tree.label := by
      intro i
      rw [Tree.getElem?_movedAll]
      cases ts[i]? <;> simp
    have hnth := fun i => nth_moved i ts hts
    have hparts := fun colon => parts_moved colon ts hts
    have hbefore : ∀ (s : Text) (t : Option Token), needed (.before · s) (t.map (Token.moved g)) =
        (needed (.before · s) t).moved g := fun s => needed_moved _ fun _ => rfl
    have htoken : ∀ (s : Text) (t : Option Token), needed (.token · s) (t.map (Token.moved g)) =
        (needed (.token · s) t).moved g := fun s => needed_moved _ fun _ => rfl
    have hkeyword : ∀ (s : Text) (t : Option Token), needed (.keyword · s) (t.map (Token.moved g)) =
        (needed (.keyword · s) t).moved g := fun s => needed_moved _ fun _ => rfl
    have hdrop : ∀ t : Option Token, needed .drop (t.map (Token.moved g)) = (needed .drop t).moved g :=
      needed_moved _ fun _ => rfl
    rw [Tree.moved, plan, plan]
    cases Form.ofLabel l with
    | function => simp only [hparts, closed_moved h]
    | conditional => simp only [hparts, closed_moved h]
    | whileLoop => simp only [hparts, closed_moved h]
    | alternative =>
      simp only [h.tokenAt]
      cases tokenAt view ts 0 with
      | none => rfl
      | some kw => exact hparts _
    | forLoop =>
      simp only [Tree.length_movedAll, hlabel, h.tokenAt, hnth, fragmentsNth_moved 3 ts hts, hkeyword]
      split
      · rfl
      · rw [Tree.getElem?_movedAll, h.firstToken, hbefore, Tree.getElem?_movedAll]
        cases ts[5]? with
        | none =>
          split <;> simp [← rangeHeader_moved h]
        | some body =>
          split <;> simp [← rangeHeader_moved h, closing_moved h]
    | length =>
      have hprimary : (((Tree.movedAll f ts)[2]?).map isPrimary).getD false =
          (ts[2]?.map isPrimary).getD false := by
        rw [Tree.getElem?_movedAll]
        cases ts[2]? <;> simp [isPrimary_moved]
      simp only [Tree.length_movedAll, hprimary, h.tokenAt, hnth, htoken, hdrop]
      split
      · rfl
      · split <;> simp
    | list => simp only [Tree.length_movedAll, elements_moved true ts hts, hnth, table_moved h]
    | set => simp only [Tree.length_movedAll, elements_moved false ts hts, hnth, table_moved h]
    | dict =>
      simp only [h.tokenAt]
      cases tokenAt view ts 0 with
      | none => rfl
      | some kw =>
        by_cases hkw : kw.content ≠ utf8 "dict"
        · have hkw' : (kw.moved g).content ≠ utf8 "dict" := hkw
          simp only [Option.map_some, if_pos hkw', if_pos hkw]
          exact hparts _
        · have hkw' : ¬(kw.moved g).content ≠ utf8 "dict" := hkw
          simp only [Option.map_some, if_neg hkw', if_neg hkw]
          rw [Tree.any_is_movedAll, ← braced_moved h, found_moved _ ts hts, hdrop]
          split <;> rfl
    | pair =>
      simp only [Tree.getElem?_movedAll, h.tokenAt, h.firstToken, hnth, hbefore, htoken]
      simp
    | keywordArgument =>
      simp only [Tree.getElem?_movedAll, h.firstToken, hnth]
      rw [needed_moved _ fun _ => rfl]
      simp
    | inversion =>
      have hcomparison : (((Tree.movedAll f ts)[1]?).map isComparison).getD false =
          (ts[1]?.map isComparison).getD false := by
        rw [Tree.getElem?_movedAll]
        cases ts[1]? <;> simp [isComparison_moved]
      simp only [hcomparison, hnth]
      split
      · rw [Tree.getElem?_movedAll, h.firstToken, hbefore]
        simp
      · exact hparts _
    | factor =>
      simp only [Tree.getElem?_movedAll]
      cases ts[0]? with
      | none => rfl
      | some op =>
        simp only [Option.map_some, Tree.isLeafOf_moved, h.tokenAt, hnth, hdrop]
        split
        · simp
        · exact hparts _
    | _ => exact hparts _

theorem parts_moved (colon : Colon) : ∀ ts : List Tree, (∀ t ∈ ts, P t) →
    parts view' colon (Tree.movedAll f ts) = (parts view colon ts).map (Step.moved g)
  | [], _ => by rw [Tree.movedAll, parts, parts, map_nil]
  | t :: ts, hts => by
    obtain ⟨ht, hts⟩ := forall_mem_cons.1 hts
    rw [Tree.movedAll, parts, parts, h.colonStep?, parts_moved colon ts hts,
      plan_moved t (h.children ht)]
    cases colonStep? view colon t with
    | none => simp
    | some step => rfl

theorem nth_moved : ∀ (i : Nat) (ts : List Tree), (∀ t ∈ ts, P t) →
    nth view' i (Tree.movedAll f ts) = (nth view i ts).map (Step.moved g)
  | i, [], _ => by
    rw [Tree.movedAll, nth, nth]
    rfl
  | 0, t :: ts, hts => by
    rw [Tree.movedAll, nth, nth, plan_moved t (h.children (hts t mem_cons_self))]
  | i + 1, t :: ts, hts => by
    rw [Tree.movedAll, nth, nth, nth_moved i ts (forall_mem_cons.1 hts).2]

theorem found_moved (label : Text) : ∀ ts : List Tree, (∀ t ∈ ts, P t) →
    found view' label (Tree.movedAll f ts) = (found view label ts).map (Step.moved g)
  | [], _ => by
    rw [Tree.movedAll, found, found]
    rfl
  | t :: ts, hts => by
    obtain ⟨ht, hts⟩ := forall_mem_cons.1 hts
    rw [Tree.movedAll, found, found, Tree.is_moved, plan_moved t (h.children ht), found_moved label ts hts]
    split <;> rfl

/-- The texts of expressions do not depend on where they stand. -/
theorem fragments_moved : ∀ ts : List Tree, (∀ t ∈ ts, P t) →
    fragments view' (Tree.movedAll f ts) = fragments view ts
  | [], _ => by rw [Tree.movedAll, fragments, fragments]
  | t :: ts, hts => by
    obtain ⟨ht, hts⟩ := forall_mem_cons.1 hts
    rw [Tree.movedAll, fragments, fragments, Tree.is_moved, Tree.first?_moved, fragments_moved ts hts]
    split
    · rename_i hexpression
      cases hfirst : t.first? with
      | none => rfl
      | some tok => exact congrArg (· :: _) (h.fragment ht hexpression hfirst)
    · rfl

theorem fragmentsNth_moved : ∀ (i : Nat) (ts : List Tree), (∀ t ∈ ts, P t) →
    fragmentsNth view' i (Tree.movedAll f ts) = fragmentsNth view i ts
  | i, [], _ => by rw [Tree.movedAll, fragmentsNth, fragmentsNth]
  | 0, .leaf l tok :: ts, _ => by
    rw [Tree.movedAll, Tree.moved, fragmentsNth, fragmentsNth, fragmentsIn, fragmentsIn]
  | 0, .node l us :: ts, hts => by
    rw [Tree.movedAll, Tree.moved, fragmentsNth, fragmentsNth, fragmentsIn, fragmentsIn,
      fragments_moved us (h.child (hts _ mem_cons_self))]
  | i + 1, t :: ts, hts => by
    rw [Tree.movedAll, fragmentsNth, fragmentsNth, fragmentsNth_moved i ts (forall_mem_cons.1 hts).2]

theorem elements_moved (isList : Bool) : ∀ ts : List Tree, (∀ t ∈ ts, P t) →
    elements view' isList (Tree.movedAll f ts) = (elements view isList ts).map (List.map (Step.moved g))
  | [], _ => by
    rw [Tree.movedAll, elements, elements]
    rfl
  | t :: ts, hts => by
    obtain ⟨ht, hts⟩ := forall_mem_cons.1 hts
    rw [Tree.movedAll, elements, elements, Tree.is_moved, chain_moved isList t (h.children ht),
      elements_moved isList ts hts]
    split <;> rfl

theorem chain_moved (isList : Bool) : ∀ t : Tree, (∀ u ∈ t.children, P u) → chain view' isList (t.moved f) =
    ((chain view isList t).1.map (Step.moved g), (chain view isList t).2)
  | .leaf l tok, _ => by
    rw [Tree.moved, chain, chain]
    rfl
  | .node l [], _ => by
    rw [Tree.moved, Tree.movedAll, chain, chain, chainOf]
    rfl
  | .node l (t :: ts), hts => by
    obtain ⟨ht, hts⟩ := forall_mem_cons.1 hts
    rw [Tree.moved, Tree.movedAll, chain, chain, chainOf, chainOf, Tree.isLeaf_moved, Tree.is_moved,
      chain_moved isList t (h.children ht), plan_moved t (h.children ht), element_moved h]
    split <;> simp [elementsFrom_moved isList _ ts hts]

theorem elementsFrom_moved (isList : Bool) : ∀ (i : Nat) (ts : List Tree), (∀ t ∈ ts, P t) →
    elementsFrom view' isList i (Tree.movedAll f ts) =
      ((elementsFrom view isList i ts).1.map (Step.moved g), (elementsFrom view isList i ts).2)
  | i, [], _ => by
    rw [Tree.movedAll, elementsFrom, elementsFrom]
    rfl
  | i, t :: ts, hts => by
    obtain ⟨ht, hts⟩ := forall_mem_cons.1 hts
    rw [Tree.movedAll, elementsFrom, elementsFrom, plan_moved t (h.children ht), element_moved h]
    simp [elementsFrom_moved isList _ ts hts]

end

end

end Plan

end Lunify
