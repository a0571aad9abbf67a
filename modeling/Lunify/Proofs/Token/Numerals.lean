import Mathlib.Computability.RegularExpressions
import Lunify.Proofs.Token.Lexemes

/-!
# The language of numbers

The syntax of numbers is a regular expression, `Lexeme.numberPattern`. Its words are the numerals
(`Lexeme.mem_numberPattern_iff`), and `Lexeme.number` gives the length of the longest of them at the beginning of a
text (`Lexeme.number_is_longest`).
-/

namespace Lunify

open List

namespace Lexeme

open RegularExpression

variable {w : Text}

def digitPattern : RegularExpression UInt8 :=
  (utf8 "0123456789").foldr (fun b P => char b + P) 0

def repeated (P : RegularExpression UInt8) : RegularExpression UInt8 :=
  P * star P

def optional (P : RegularExpression UInt8) : RegularExpression UInt8 :=
  1 + P

def exponentPattern : RegularExpression UInt8 :=
  (char (byte 'e') + char (byte 'E')) * (optional (char (byte '+') + char (byte '-')) * repeated digitPattern)

/-- Digits with an optional fraction and an optional exponent, or a point, digits and an optional exponent. -/
def numberPattern : RegularExpression UInt8 :=
  repeated digitPattern * (optional (char (byte '.') * star digitPattern) * optional exponentPattern) +
    char (byte '.') * (repeated digitPattern * optional exponentPattern)

lemma mem_digitPattern_iff : w ∈ digitPattern.matches' ↔ ∃ b, Text.isDigit b = true ∧ w = [b] := by
  have hsum : ∀ l : Text, w ∈ (l.foldr (fun b P => char b + P) 0).matches' ↔ ∃ b ∈ l, w = [b] := by
    intro l
    induction l with
    | nil => simp [Language.notMem_zero]
    | cons b l ih =>
      rw [foldr_cons, matches'_add, Language.mem_add, ih, exists_mem_cons_iff]
      rfl
  have hdigits : ∀ n : Fin 256, UInt8.ofNat n ∈ utf8 "0123456789" ↔ Text.isDigit (UInt8.ofNat n) = true := by
    decide +kernel
  have hdigits' : ∀ b : UInt8, b ∈ utf8 "0123456789" ↔ Text.isDigit b = true := by
    intro b
    have h := hdigits ⟨b.toNat, b.toNat_lt⟩
    rwa [UInt8.ofNat_toNat] at h
  rw [digitPattern, hsum]
  simp only [hdigits']

lemma mem_star_digitPattern_iff :
    w ∈ (star digitPattern).matches' ↔ ∀ b ∈ w, Text.isDigit b = true := by
  rw [matches'_star, Language.mem_kstar]
  constructor
  · rintro ⟨ds, rfl, hds⟩ b hb
    obtain ⟨d, hd, hb⟩ := mem_flatten.1 hb
    obtain ⟨c, hc, rfl⟩ := mem_digitPattern_iff.1 (hds d hd)
    rwa [mem_singleton.1 hb]
  · intro hw
    refine ⟨w.map ([·]), (flatMap_singleton' w).symm, fun d hd => ?_⟩
    obtain ⟨b, hb, rfl⟩ := mem_map.1 hd
    exact mem_digitPattern_iff.2 ⟨b, hw b hb, rfl⟩

lemma mem_repeated_digitPattern_iff :
    w ∈ (repeated digitPattern).matches' ↔ w ≠ [] ∧ ∀ b ∈ w, Text.isDigit b = true := by
  rw [repeated, matches'_mul, Language.mem_mul]
  constructor
  · rintro ⟨d, hd, ds, hds, rfl⟩
    obtain ⟨b, hb, rfl⟩ := mem_digitPattern_iff.1 hd
    refine ⟨by simp, ?_⟩
    simpa [hb] using mem_star_digitPattern_iff.1 hds
  · rintro ⟨hne, hw⟩
    obtain ⟨b, r, rfl⟩ := exists_cons_of_ne_nil hne
    obtain ⟨hb, hr⟩ := forall_mem_cons.1 hw
    exact ⟨[b], mem_digitPattern_iff.2 ⟨b, hb, rfl⟩, r, mem_star_digitPattern_iff.2 hr, rfl⟩

lemma mem_optional_iff {P : RegularExpression UInt8} :
    w ∈ (optional P).matches' ↔ w = [] ∨ w ∈ P.matches' :=
  Language.mem_add _ _ _

lemma mem_exponentPattern_iff : (w = [] ∨ w ∈ exponentPattern.matches') ↔ w.IsExponent := by
  have hmark : ∀ {v : Text} {a b : UInt8}, v ∈ (char a + char b).matches' ↔ v = [a] ∨ v = [b] := Iff.rfl
  rw [exponentPattern]
  simp only [matches'_mul, Language.mem_mul, hmark, mem_optional_iff, mem_repeated_digitPattern_iff]
  constructor
  · rintro (rfl | ⟨e, he, _, ⟨sign, hsign, s, ⟨hne, hs⟩, rfl⟩, rfl⟩)
    · exact .none
    · rcases he with rfl | rfl
      · exact .some (s := s) (.inl rfl) (by simpa using hsign) hne hs
      · exact .some (s := s) (.inr rfl) (by simpa using hsign) hne hs
  · rintro (_ | ⟨he, hsign, hne, hs⟩)
    · exact .inl rfl
    · exact .inr ⟨_, he.imp (congrArg ([·])) (congrArg ([·])), _,
        ⟨_, by simpa using hsign, _, ⟨hne, hs⟩, rfl⟩, rfl⟩

/-- The words of the pattern are the numerals. -/
lemma mem_numberPattern_iff : w ∈ numberPattern.matches' ↔ w.IsNumeral := by
  have hpoint : ∀ {v : Text}, v ∈ (char (byte '.')).matches' ↔ v = [byte '.'] := Iff.rfl
  rw [numberPattern, matches'_add, Language.mem_add]
  simp only [matches'_mul, Language.mem_mul, hpoint, mem_repeated_digitPattern_iff, mem_optional_iff,
    mem_exponentPattern_iff, mem_star_digitPattern_iff]
  constructor
  · rintro (⟨s, ⟨hne, hs⟩, _, ⟨f, rfl | ⟨_, rfl, r, hr, rfl⟩, e, he, rfl⟩, rfl⟩ |
      ⟨_, rfl, _, ⟨r, ⟨hne, hr⟩, e, he, rfl⟩, rfl⟩)
    · exact ⟨s, e, rfl, .whole hne hs, he⟩
    · exact ⟨s ++ byte '.' :: r, e, by simp, .point (.inl hne) hs hr, he⟩
    · exact ⟨[] ++ byte '.' :: r, e, rfl, .point (.inr hne) (by simp) hr, he⟩
  · rintro ⟨m, e, rfl, ⟨hne, hs⟩ | ⟨hne, hs, hr⟩, he⟩
    · exact .inl ⟨m, ⟨hne, hs⟩, e, ⟨[], .inl rfl, e, he, rfl⟩, rfl⟩
    · rename_i s r
      by_cases hs' : s = []
      · subst hs'
        exact .inr ⟨_, rfl, _, ⟨r, ⟨hne.resolve_left fun h => h rfl, hr⟩, e, he, rfl⟩, rfl⟩
      · exact .inl ⟨s, ⟨hs', hs⟩, _, ⟨_, .inr ⟨_, rfl, r, hr, rfl⟩, e, he, rfl⟩, by simp⟩

/-- The length of a number is that of the longest word of the pattern with which a text begins, and zero if it
begins with none. -/
theorem number_is_longest (s : Text) :
    (∃ w, w <+: s ∧ w ∈ numberPattern.matches' ∧ w.length = number s ∧
      ∀ v, v <+: s → v ∈ numberPattern.matches' → v.length ≤ number s) ∨
    (number s = 0 ∧ ∀ v, v <+: s → v ∉ numberPattern.matches') := by
  have hlongest : ∀ v, v <+: s → v ∈ numberPattern.matches' → v.length ≤ number s := by
    rintro v ⟨r, rfl⟩ hv
    exact length_le_number (mem_numberPattern_iff.1 hv) r
  rcases Nat.eq_zero_or_pos (number s) with hzero | hpos
  · refine .inr ⟨hzero, fun v hv hmem => ?_⟩
    obtain ⟨b, r, rfl, -⟩ := (mem_numberPattern_iff.1 hmem).exists_cons
    have hle := hlongest _ hv hmem
    rw [List.length_cons, hzero] at hle
    exact absurd hle (Nat.not_succ_le_zero _)
  · exact .inl ⟨s.take (number s), List.take_prefix _ _, mem_numberPattern_iff.2 (isNumeral_of_number hpos),
      List.length_take_of_le (number_le s), hlongest⟩

end Lexeme

end Lunify
