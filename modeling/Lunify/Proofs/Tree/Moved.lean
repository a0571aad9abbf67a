import Lunify.Proofs.Tree.Derivation

/-!
# Trees with their tokens at other places

`Token.moved` puts a token at another place and leaves the rest of it alone, and `Tree.moved` does so with
all tokens of a tree. What a tree derives and what its parts are called does not depend on places.
-/

namespace Lunify

open List

/-- A token at another place. -/
def Token.moved (f : Token → Position) (t : Token) : Token :=
  t.relocate (f t)

variable (f : Token → Position)

namespace Tree

mutual

/-- A tree with its tokens at other places. -/
def moved (f : Token → Position) : Tree → Tree
  | .leaf l tok => .leaf l (tok.moved f)
  | .node l ts => .node l (movedAll f ts)

/-- Trees with their tokens at other places. -/
def movedAll (f : Token → Position) : List Tree → List Tree
  | [] => []
  | t :: ts => moved f t :: movedAll f ts

end

@[simp] lemma label_moved (t : Tree) : (t.moved f).label = t.label := by
  cases t <;> rfl

lemma movedAll_eq_map (ts : List Tree) : movedAll f ts = ts.map (moved f) := by
  induction ts with
  | nil => rfl
  | cons t ts ih => rw [movedAll, ih, map_cons]

@[simp] lemma children_moved (t : Tree) : (t.moved f).children = t.children.map (moved f) := by
  cases t with
  | leaf l tok => rfl
  | node l ts => exact movedAll_eq_map f ts

@[simp] lemma isLeaf_moved (t : Tree) : (t.moved f).isLeaf = t.isLeaf := by
  cases t <;> rfl

@[simp] lemma is_moved (l : Text) (t : Tree) : (t.moved f).is l = t.is l := by
  cases t <;> rfl

@[simp] lemma isLeafOf_moved (w : Text) (t : Tree) : (t.moved f).isLeafOf w = t.isLeafOf w := by
  cases t <;> rfl

mutual

lemma leaves_moved : ∀ t : Tree, (t.moved f).leaves = t.leaves.map (Token.moved f)
  | .leaf l tok => rfl
  | .node l ts => by rw [moved, leaves, leaves, leavesOf_movedAll ts]

lemma leavesOf_movedAll :
    ∀ ts : List Tree, leavesOf (movedAll f ts) = (leavesOf ts).map (Token.moved f)
  | [] => rfl
  | t :: ts => by
    rw [movedAll, leavesOf, leavesOf, map_append, leaves_moved t, leavesOf_movedAll ts]

end

lemma first?_moved : ∀ t : Tree, (t.moved f).first? = t.first?.map (Token.moved f)
  | .leaf l tok => rfl
  | .node l [] => rfl
  | .node l (t :: ts) => by
    rw [moved, movedAll, first?, first?]
    exact first?_moved t

lemma find?_is_movedAll (l : Text) (ts : List Tree) :
    (movedAll f ts).find? (is l) = (ts.find? (is l)).map (moved f) := by
  have hcomp : is l ∘ moved f = is l := funext fun t => is_moved f l t
  rw [movedAll_eq_map, find?_map, hcomp]

lemma any_is_movedAll (l : Text) (ts : List Tree) : (movedAll f ts).any (is l) = ts.any (is l) := by
  rw [movedAll_eq_map, any_map]
  exact congrArg _ (funext fun t => is_moved f l t)

lemma getElem?_movedAll (ts : List Tree) (i : Nat) : (movedAll f ts)[i]? = ts[i]?.map (moved f) := by
  rw [movedAll_eq_map, getElem?_map]

@[simp] lemma length_movedAll (ts : List Tree) : (movedAll f ts).length = ts.length := by
  rw [movedAll_eq_map, length_map]

/-- A derivation stays one. -/
lemma IsDerivation.moved {g : Grammar} {t : Tree} (ht : t.IsDerivation g) :
    (t.moved f).IsDerivation g := by
  induction ht with
  | leaf hs hcategory htoken => exact .leaf hs hcategory htoken
  | category hs hcategory htoken => exact .category hs hcategory htoken
  | @rule r ts hr hlabels _ ih =>
    rw [Tree.moved, movedAll_eq_map]
    refine .rule hr ?_ ?_
    · rw [map_map, ← hlabels]
      exact map_congr_left fun t _ => label_moved f t
    · exact forall_mem_map.2 ih

variable {f}

mutual

/-- A tree whose tokens stay where they are is the same. -/
lemma moved_eq_self : ∀ t : Tree, (∀ tok ∈ t.leaves, f tok = tok.pos) → t.moved f = t
  | .leaf l tok, h => by rw [moved, Token.moved, h tok mem_cons_self]; rfl
  | .node l ts, h => by rw [moved, movedAll_eq_self ts h]

lemma movedAll_eq_self : ∀ ts : List Tree, (∀ tok ∈ leavesOf ts, f tok = tok.pos) → movedAll f ts = ts
  | [], _ => rfl
  | t :: ts, h => by
    rw [leavesOf, forall_mem_append] at h
    rw [movedAll, moved_eq_self t h.1, movedAll_eq_self ts h.2]

end

end Tree

end Lunify
