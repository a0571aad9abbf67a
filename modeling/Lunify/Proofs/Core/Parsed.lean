import Lunify.Rendering.Plan
import Lunify.Proofs.Core.Target

/-!
# The parse trees of core programs

What rendering looks at in a parse tree besides its words: whether the operand of `not` is a comparison
(`Core.Represents.isComparison_eq`), and where the parts of a header end.
-/

namespace Lunify

open List

namespace Core

variable {t u : Tree} {φ : Phrase} {k : Nat} {e : Expr}

/-! ### Comparisons -/

/-- Only an expression at the level of comparisons or above can be a comparison. -/
lemma Represents.isComparison_eq_false (h : Represents t (.expr k e)) (hk : 5 ≤ k) :
    e.isComparison = false := by
  generalize hφ : Phrase.expr k e = φ at h
  induction h generalizing k with
  | level hk' _ ih =>
    cases hφ
    exact ih (by omega) rfl
  | compare =>
    cases hφ
    omega
  | _ =>
    cases hφ <;> rfl

/-- Rendering sees whether the operand of a negation is a comparison. -/
lemma Represents.isComparison_eq (h : Represents t (.expr 3 e)) :
    Plan.isComparison t = e.isComparison := by
  cases h with
  | inversion ho _ =>
    obtain ⟨tok, rfl, -⟩ := ho
    simp [Plan.isComparison, node, Tree.children, Expr.isComparison]
  | level _ ht =>
    cases ht with
    | level _ hu =>
      rw [hu.isComparison_eq_false (le_refl 5)]
      simp [Plan.isComparison, Tree.children]
    | compare =>
      simp [Plan.isComparison, node, Tree.children, Tree.is, Tree.label, Expr.isComparison]

/-! ### Bodies -/

/-- Whether a part of a construct is neither a body nor an alternative. -/
def IsHeaderPart (t : Tree) : Prop :=
  t.label ≠ blockLabel ∧ t.label ≠ utf8 "<else>"

/-- The last body is not among the parts of the header. -/
lemma lastAlternative_append {body : Option Tree} {ts us : List Tree} (hts : ∀ t ∈ ts, IsHeaderPart t) :
    Plan.lastAlternative body (ts ++ us) = Plan.lastAlternative body us := by
  induction ts with
  | nil => rfl
  | cons t ts ih =>
    rw [forall_mem_cons] at hts
    rw [cons_append, ← ih hts.2]
    cases t with
    | leaf l tok =>
      rw [Plan.lastAlternative]
      exact if_neg hts.1.2
    | node l us =>
      rw [Plan.lastAlternative]
      exact if_neg hts.1.2

end Core

end Lunify
