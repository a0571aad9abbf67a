import Lunify.Proofs.Chunk.Rules
import Lunify.Proofs.Core.Evaluation
import Lunify.Proofs.Core.Target

/-!
# Integers as numbers of Lua

`Core.Exact N IsInt` says what is asked of the numbers of Lua: integers up to `Core.limit` are among
them, and arithmetic, comparison and printing are exact as long as they stay there. Double precision
numbers are so. `IsInt x n` says that the number `x` is the integer `n`. It need not be a function, since
there are two zeros.

`Core.Same` relates values of core programs to values of Lua, and the operators respect it
(`Core.Exact.arith`, `Core.Exact.compare`).
-/

namespace Lunify

namespace Core

open Chunk (Numerals scannedDigits)

variable {ν : Type}

/-- Whether an integer can be a number of Lua. -/
def Within (n : Int) : Prop :=
  -limit ≤ n ∧ n ≤ limit

/-- What is asked of the numbers of Lua. A sum that is too large for an exact result is rounded, but not
past an integer on its way. -/
structure Exact (N : Numerals ν) (IsInt : ν → Int → Prop) : Prop where
  within : ∀ {x m}, IsInt x m → Within m
  literal : ∀ {s}, Text.IsDecimal s → Text.digitsValue s ≤ limit →
    IsInt (N.literal s) (Text.digitsValue s)
  zero : IsInt (N.ofInt 0) 0
  one : IsInt (N.ofInt 1) 1
  neg : ∀ {x m}, IsInt x m → IsInt (N.neg x) (-m)
  add : ∀ {x y m n}, IsInt x m → IsInt y n → Within (m + n) → IsInt (N.arith .add x y) (m + n)
  sub : ∀ {x y m n}, IsInt x m → IsInt y n → Within (m - n) → IsInt (N.arith .sub x y) (m - n)
  mul : ∀ {x y m n}, IsInt x m → IsInt y n → Within (m * n) → IsInt (N.arith .mul x y) (m * n)
  mod : ∀ {x y m n}, IsInt x m → IsInt y n → n ≠ 0 → IsInt (N.arith .mod x y) (m.fmod n)
  above : ∀ {x y z m n k}, IsInt x m → IsInt y n → IsInt z k → limit < m + n → k < limit →
    N.le (N.arith .add x y) z = false
  below : ∀ {x y z m n k}, IsInt x m → IsInt y n → IsInt z k → m + n < -limit → -limit < k →
    N.le z (N.arith .add x y) = false
  eq : ∀ {x y m n}, IsInt x m → IsInt y n → N.eq x y = decide (m = n)
  lt : ∀ {x y m n}, IsInt x m → IsInt y n → N.lt x y = decide (m < n)
  le : ∀ {x y m n}, IsInt x m → IsInt y n → N.le x y = decide (m ≤ n)
  text : ∀ {x m}, IsInt x m → N.text x = Text.ofInt m

/-- The values of Lua that a value may be. -/
inductive Same (IsInt : ν → Int → Prop) : Value → Chunk.Value ν → Prop
  | int {n : Int} {x : ν} (hx : IsInt x n) (hn : Fits n) : Same IsInt (.int n) (.number x)
  | str (s : Text) : Same IsInt (.str s) (.string s)
  | bool (b : Bool) : Same IsInt (.bool b) (.bool b)
  | none : Same IsInt .none .nil
  | function (ref : Nat) : Same IsInt (.function ref) (.function ref)

lemma Fits.within {n : Int} (h : Fits n) : Within n :=
  ⟨h.1.le, h.2.le⟩

/-- The digits of a literal as they are scanned: a zero before another digit is left out. -/
lemma scannedDigits_cases (s : Text) :
    scannedDigits s = s ∨ ∃ c r, s = byte '0' :: c :: r ∧ scannedDigits s = c :: r := by
  match s with
  | [] | [_] => exact .inl rfl
  | b :: c :: r =>
    by_cases hb : b = byte '0'
    · subst hb
      exact .inr ⟨c, r, rfl, rfl⟩
    · exact .inl (by simp [scannedDigits, hb])

lemma digitsValue_scannedDigits (s : Text) : Text.digitsValue (scannedDigits s) = Text.digitsValue s := by
  rcases scannedDigits_cases s with h | ⟨c, r, rfl, h⟩ <;> rw [h]
  exact (Text.digitsValue_zero_cons _).symm

lemma isDecimal_scannedDigits {s : Text} (hs : Text.IsDecimal s) : Text.IsDecimal (scannedDigits s) := by
  rcases scannedDigits_cases s with h | ⟨c, r, rfl, h⟩ <;> rw [h]
  · exact hs
  · exact hs.of_zero_cons

namespace Exact

variable {N : Numerals ν} {IsInt : ν → Int → Prop} (hN : Exact N IsInt)

variable {v v' : Value} {b : Bool} {w w' : Chunk.Value ν}

include hN

lemma literalValue (d : Literal) : IsInt (N.literal (scannedDigits d.digits)) d.value := by
  have hvalue := digitsValue_scannedDigits d.digits
  rw [Literal.value, ← hvalue]
  exact hN.literal (isDecimal_scannedDigits d.isDecimal) (hvalue.trans_le d.small.le)

lemma ofNat {n : Nat} (hn : n ≤ limit) : IsInt (N.literal (Text.ofNat n)) n := by
  have hvalue := Text.digitsValue_ofNat n
  have hliteral := hN.literal (Text.isDecimal_ofNat n) (hvalue.trans_le hn)
  rwa [hvalue] at hliteral

/-- An operator on integers gives the same integer. -/
lemma arith {op : Arith} {m n : Int} {x y : ν} (hx : IsInt x m) (hy : IsInt y n)
    (hv : op.result? m n = some v) : Same IsInt v (.number (N.arith op.target x y)) := by
  have hofInt : ∀ {k : Int}, Value.ofInt? k = some v → (Within k → IsInt (N.arith op.target x y) k) →
      Same IsInt v (.number (N.arith op.target x y)) := by
    intro k hk hint
    unfold Value.ofInt? at hk
    split at hk
    · rename_i hfits
      obtain rfl := Option.some.inj hk
      exact .int (hint hfits.within) hfits
    · exact absurd hk (by simp)
  cases op with
  | add => exact hofInt hv (hN.add hx hy)
  | sub => exact hofInt hv (hN.sub hx hy)
  | mul => exact hofInt hv (hN.mul hx hy)
  | mod =>
    by_cases hn : n = 0
    · simp [Arith.result?, hn] at hv
    · rw [Arith.result?, if_neg hn] at hv
      exact hofInt hv fun _ => hN.mod hx hy hn

/-- Equality of values is that of Lua. -/
lemma same (hv : Same IsInt v w) (hv' : Same IsInt v' w') (hb : v.same? v' = some b) : w.eq N w' = b := by
  cases hv with
  | int hx hn =>
    cases hv' with
    | int hy hm => simpa [Value.same?, Chunk.Value.eq, hN.eq hx hy] using hb
    | bool c => simp [Value.same?] at hb
    | _ => simpa [Value.same?, Chunk.Value.eq] using hb
  | bool c =>
    cases hv' with
    | int hy hm => simp [Value.same?] at hb
    | _ => simpa [Value.same?, Chunk.Value.eq] using hb
  | _ =>
    cases hv' with
    | _ => simpa [Value.same?, Chunk.Value.eq] using hb

/-- The order of values is that of Lua. -/
lemma before (hv : Same IsInt v w) (hv' : Same IsInt v' w') (hb : v.before? v' = some b) :
    Lua.less? N w w' = some b ∧ Lua.atMost? N w' w = some !b := by
  cases hv with
  | int hx hn =>
    cases hv' with
    | int hy hm =>
      obtain rfl := Option.some.inj hb
      simp only [Lua.less?, Lua.atMost?, hN.lt hx hy, hN.le hy hx, true_and,
        ← decide_not, not_lt]
    | _ => simp [Value.before?] at hb
  | str s =>
    cases hv' with
    | str t =>
      obtain rfl := Option.some.inj hb
      simp [Lua.less?, Lua.atMost?]
    | _ => simp [Value.before?] at hb
  | _ => simp [Value.before?] at hb

/-- A comparison gives the same truth value. -/
lemma compare {op : Comparison} (hv : Same IsInt v w) (hv' : Same IsInt v' w')
    (hb : op.holds? v v' = some b) :
    Lua.binary? N op.binary w w' = some (.bool b) := by
  cases op with
  | eq =>
    have heq := hN.same hv hv' hb
    simp [Comparison.binary, Lua.binary?, heq]
  | ne =>
    obtain ⟨c, hc, rfl⟩ := Option.map_eq_some_iff.1 hb
    have heq := hN.same hv hv' hc
    simp [Comparison.binary, Lua.binary?, heq]
  | lt =>
    obtain ⟨hless, -⟩ := hN.before hv hv' hb
    simp [Comparison.binary, Lua.binary?, hless]
  | gt =>
    obtain ⟨hless, -⟩ := hN.before hv' hv hb
    simp [Comparison.binary, Lua.binary?, hless]
  | le =>
    obtain ⟨c, hc, rfl⟩ := Option.map_eq_some_iff.1 hb
    obtain ⟨-, hatMost⟩ := hN.before hv' hv hc
    simp [Comparison.binary, Lua.binary?, hatMost]
  | ge =>
    obtain ⟨c, hc, rfl⟩ := Option.map_eq_some_iff.1 hb
    obtain ⟨-, hatMost⟩ := hN.before hv hv' hc
    simp [Comparison.binary, Lua.binary?, hatMost]

lemma shown {s : Text} (hv : Same IsInt v w) (hs : v.shown? = some s) : w.text N = s := by
  cases hv with
  | int hx hn =>
    obtain rfl := Option.some.inj hs
    exact hN.text hx
  | str t => exact Option.some.inj hs
  | bool b =>
    obtain rfl := Option.some.inj hs
    cases b <;> rfl
  | none => simp [Value.shown?] at hs
  | function ref => simp [Value.shown?] at hs

/-! ### Loops over ranges -/

variable {i stop step : Int} {a limit' c : ν} {down : Bool}

/-- A loop over numbers goes on just as long as the range does. -/
lemma goesOn_eq (ha : IsInt a i) (hlimit : IsInt limit' (lastBefore down stop)) (hc : IsInt c step)
    (hstep : step ≠ 0) (hdown : down = decide (step < 0)) :
    Lua.goesOn N a limit' c = decide (goesOn i stop step) := by
  rw [Lua.goesOn, hN.lt hN.zero hc, hN.le ha hlimit, hN.le hlimit ha, hdown, lastBefore]
  unfold goesOn
  rcases lt_or_gt_of_ne hstep with hneg | hpos
  · simp only [hneg, not_lt.2 hneg.le, decide_true, decide_false, if_true, Bool.false_eq_true,
      if_false, false_and, true_and, false_or, decide_eq_decide]
    omega
  · simp only [hpos, not_lt.2 hpos.le, decide_true, decide_false, if_true, Bool.false_eq_true,
      if_false, false_and, true_and, or_false, decide_eq_decide]
    omega

/-- The next number of a loop is the next integer, unless both are past the end. -/
lemma next (ha : IsInt a i) (hlimit : IsInt limit' (lastBefore down stop)) (hc : IsInt c step)
    (hstep : step ≠ 0) (hdown : down = decide (step < 0)) (hstop : Fits stop) :
    IsInt (N.arith .add a c) (i + step) ∨
      (¬goesOn (i + step) stop step ∧ Lua.goesOn N (N.arith .add a c) limit' c = false) := by
  obtain ⟨hlow, hhigh⟩ := hstop
  by_cases hwithin : Within (i + step)
  · exact .inl (hN.add ha hc hwithin)
  · refine .inr ?_
    have hai := hN.within ha
    rw [Lua.goesOn, hN.lt hN.zero hc]
    unfold Within at hwithin hai
    unfold goesOn
    rcases lt_or_gt_of_ne hstep with hneg | hpos
    · have hbelow := hN.below ha hc hlimit (by omega) (by simp [lastBefore, hdown, hneg]; omega)
      refine ⟨by omega, ?_⟩
      simpa [not_lt.2 hneg.le] using hbelow
    · have habove := hN.above ha hc hlimit (by omega)
        (by simp [lastBefore, hdown, not_lt.2 hpos.le]; omega)
      refine ⟨by omega, ?_⟩
      simpa [hpos] using habove

end Exact

end Core

end Lunify
