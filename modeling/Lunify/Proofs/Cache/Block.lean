import Mathlib.Tactic.Lemma
import Mathlib.Tactic.NormNum
import Lunify.Cache.Block

/-!
# Compressed blocks

What `Block.encode` writes is read back by `Block.decode`, unless it is longer than a block can be
(`Block.decode_encode`). So a block never reads as anything else than what was written.
-/

namespace Lunify

open List

namespace Block

lemma decodeLength_small {n : Nat} (hn : n < 128) (groups : Nat) (rest : Text) :
    decodeLength (groups + 1) (n.toUInt8 :: rest) = some (n, rest) := by
  have hbyte : n.toUInt8.toNat = n := by
    rw [Nat.toUInt8_eq, UInt8.toNat_ofNat']
    omega
  rw [decodeLength, hbyte, if_pos hn]

/-- The low group of a large number is followed by the rest of it. -/
lemma decodeLength_large (n groups : Nat) (rest : Text) :
    decodeLength (groups + 1) ((n % 128 + 128).toUInt8 :: rest) =
      (decodeLength groups rest).map fun (m, rest) => (n % 128 + 128 * m, rest) := by
  have hbyte : (n % 128 + 128).toUInt8.toNat = n % 128 + 128 := by
    rw [Nat.toUInt8_eq, UInt8.toNat_ofNat']
    omega
  rw [decodeLength, hbyte, if_neg (by omega), Nat.add_sub_cancel]

/-- A length is read back if there are groups enough. -/
lemma decodeLength_encodeLength (groups n : Nat) (rest : Text) :
    decodeLength (groups + 1) (encodeLength n ++ rest) =
      if n < 128 ^ (groups + 1) then some (n, rest) else none := by
  induction groups generalizing n with
  | zero =>
    rw [encodeLength]
    split
    · rename_i hn
      rw [singleton_append, decodeLength_small hn, if_pos (by simpa using hn)]
    · rename_i hn
      have hnone : decodeLength 0 (encodeLength (n / 128) ++ rest) = none := by
        rw [encodeLength]
        split <;> rfl
      rw [cons_append, decodeLength_large, hnone, if_neg (by simpa using hn)]
      rfl
  | succ groups ih =>
    have hpow : 128 ^ (groups + 1 + 1) = 128 * 128 ^ (groups + 1) := by
      rw [Nat.pow_succ, Nat.mul_comm]
    rw [encodeLength]
    split
    · rename_i hn
      have hpos : 0 < 128 ^ (groups + 1) := Nat.pow_pos (by norm_num)
      rw [singleton_append, decodeLength_small hn, if_pos (by omega)]
    · rename_i hn
      rw [cons_append, decodeLength_large, ih]
      by_cases hlt : n < 128 ^ (groups + 1 + 1)
      · rw [if_pos (by omega), if_pos hlt, Option.map_some]
        simp only [Nat.mod_add_div]
      · rw [if_neg (by omega), if_neg hlt, Option.map_none]

lemma littleEndian_fourBytes {n : Nat} (h : n < 2 ^ 32) : littleEndian (fourBytes n) = n := by
  simp [littleEndian, fourBytes]
  omega

/-- A text that is one literal, with its length in four bytes, is read back. -/
lemma decodeElements_longLiteral {s : Text} (hs : s ≠ []) (hlength : s.length < 2 ^ 32) (fuel : Nat) :
    decodeElements s.length (fuel + 1) 0 [] (longLiteral :: fourBytes (s.length - 1) ++ s) = some s := by
  have hpos : 0 < s.length := length_pos_iff.2 hs
  have hnumber : littleEndian (fourBytes (s.length - 1)) + 1 = s.length := by
    rw [littleEndian_fourBytes (by omega)]
    omega
  have hfour : (fourBytes (s.length - 1)).length = 4 := rfl
  have helement : element? longLiteral (fourBytes (s.length - 1) ++ s) = some (.literal s, []) := by
    have hmark : longLiteral.toNat = 252 := by decide
    have hshort : ¬ (fourBytes (s.length - 1)).length + s.length < 4 := by
      rw [hfour]
      omega
    have htake : (fourBytes (s.length - 1) ++ s).take 4 = fourBytes (s.length - 1) := by
      rw [← hfour, take_left]
    have hdrop : (fourBytes (s.length - 1) ++ s).drop 4 = s := by
      rw [← hfour, drop_left]
    simp only [element?, hmark]
    norm_num [hshort, htake, hdrop, hnumber, takeLiteral]
  rw [cons_append, decodeElements, helement]
  simp only [Nat.zero_add, Nat.lt_irrefl, if_false, append_nil]
  rw [decodeElements, if_pos rfl, reverse_reverse]

/-- A block reads as what was written, if that is short enough for a block, and else as nothing. -/
lemma decode_encode (s : Text) : decode (encode s) = if s.length < 2 ^ 32 then some s else none := by
  have hpow : Nat.pow 2 32 < 128 ^ (9 + 1) := by decide
  rw [decode, encode, show maxGroups = 9 + 1 from rfl, decodeLength_encodeLength]
  by_cases hlength : s.length < 2 ^ 32
  · rw [if_pos hlength, if_pos (hlength.trans hpow)]
    simp only [if_pos (show s.length < Nat.pow 2 32 from hlength)]
    cases s with
    | nil => rfl
    | cons b r => exact decodeElements_longLiteral (cons_ne_nil b r) hlength _
  · rw [if_neg hlength]
    split
    · rename_i n rest heq
      split at heq
      · cases heq
        exact if_neg hlength
      · cases heq
    · rfl

lemma eq_of_decode_encode {s t : Text} (h : decode (encode s) = some t) : t = s := by
  rw [decode_encode] at h
  split at h
  · exact (Option.some.inj h).symm
  · cases h

end Block

end Lunify
