import Mathlib.Tactic.Lemma
import Mathlib.Tactic.Ring
import Lunify.Json.Read
import Lunify.Token.Lexeme

/-!
# Quoted texts

A text is the bytes of its runes (`flatMap_bytes_runes`), and what stands between quotes can be read rune by rune:
`Text.unquoted?` gives back every text from its quoted form (`unquoted?_quoted`), which is on one line. Letters and
digits need no escapes, so a word between quotes is written as it is.
-/

namespace Lunify

open List

/-! ### Runes and their bytes -/

namespace Rune

lemma within_iff {lo hi b : UInt8} : within lo hi b = true ↔ lo.toNat ≤ b.toNat ∧ b.toNat ≤ hi.toNat := by
  simp [within, UInt8.le_iff_toNat_le]

/-- The second byte of three excludes short forms and surrogates. -/
lemma within_secondOfThree {b c : UInt8}
    (hc : within (secondOfThree b).1 (secondOfThree b).2 c = true) :
    128 ≤ c.toNat ∧ c.toNat ≤ 191 ∧ (b.toNat = 224 → 160 ≤ c.toNat) ∧ (b.toNat = 237 → c.toNat ≤ 159) := by
  unfold secondOfThree at hc
  split_ifs at hc with h h'
  all_goals
    simp only [← UInt8.toNat_inj, within_iff] at *
    simp at *
    omega

/-- The second byte of four excludes short forms and numbers that are too large. -/
lemma within_secondOfFour {b c : UInt8}
    (hc : within (secondOfFour b).1 (secondOfFour b).2 c = true) :
    128 ≤ c.toNat ∧ c.toNat ≤ 191 ∧ (b.toNat = 240 → 144 ≤ c.toNat) ∧ (b.toNat = 244 → c.toNat ≤ 143) := by
  unfold secondOfFour at hc
  split_ifs at hc with h h'
  all_goals
    simp only [← UInt8.toNat_inj, within_iff] at *
    simp at *
    omega

lemma utf8EncodeChar_ofNat {n : Nat} (h : n.isValidChar) : String.utf8EncodeChar (Char.ofNat n) =
    if n ≤ 127 then [UInt8.ofNat n]
    else if n ≤ 2047 then [UInt8.ofNat (n / 64 % 32 + 192), UInt8.ofNat (n % 64 + 128)]
    else if n ≤ 65535 then
      [UInt8.ofNat (n / 4096 % 16 + 224), UInt8.ofNat (n / 64 % 64 + 128), UInt8.ofNat (n % 64 + 128)]
    else [UInt8.ofNat (n / 262144 % 8 + 240), UInt8.ofNat (n / 4096 % 64 + 128),
      UInt8.ofNat (n / 64 % 64 + 128), UInt8.ofNat (n % 64 + 128)] := by
  have hn : (Char.ofNat n).val.toNat = n := by
    rw [Char.ofNat, dif_pos h]
    rfl
  rw [String.utf8EncodeChar, hn]

/-- A rune has the bytes that it is read from. -/
lemma bytes_decode (b : UInt8) (r : Text) : (decode b r).1.bytes = b :: r.take (decode b r).2 := by
  have hbyte : ∀ {n : Nat} {c : UInt8}, n = c.toNat → UInt8.ofNat n = c := by
    rintro n c rfl
    exact UInt8.ofNat_toNat
  fun_cases decode b r with
  | case1 _ h =>
    have h : b.toNat < 128 := UInt8.lt_iff_toNat_lt.1 h
    rw [bytes, utf8EncodeChar_ofNat (.inl (by omega)), if_pos (by omega), hbyte rfl, take_zero]
  | case2 _ hb c r hc =>
    have hb : 194 ≤ b.toNat ∧ b.toNat ≤ 223 := within_iff.1 hb
    have hc : 128 ≤ c.toNat ∧ c.toNat ≤ 191 := within_iff.1 hc
    rw [bytes, low, utf8EncodeChar_ofNat (.inl (by omega)), if_neg (by omega), if_pos (by omega),
      hbyte (c := b) (by omega), hbyte (c := c) (by omega)]
    rfl
  | case5 _ _ hb c d r hcd =>
    obtain ⟨hc, hd⟩ := Bool.and_eq_true_iff.1 hcd
    have hc := within_secondOfThree hc
    have hb : 224 ≤ b.toNat ∧ b.toNat ≤ 239 := within_iff.1 hb
    have hd : 128 ≤ d.toNat ∧ d.toNat ≤ 191 := within_iff.1 hd
    rw [bytes, low, low, utf8EncodeChar_ofNat (by unfold Nat.isValidChar; omega), if_neg (by omega),
      if_neg (by omega), if_pos (by omega), hbyte (c := b) (by omega), hbyte (c := c) (by omega),
      hbyte (c := d) (by omega)]
    rfl
  | case8 _ _ _ hb c d e r hcde =>
    obtain ⟨hcd, he⟩ := Bool.and_eq_true_iff.1 hcde
    obtain ⟨hc, hd⟩ := Bool.and_eq_true_iff.1 hcd
    have hc := within_secondOfFour hc
    have hb : 240 ≤ b.toNat ∧ b.toNat ≤ 244 := within_iff.1 hb
    have hd : 128 ≤ d.toNat ∧ d.toNat ≤ 191 := within_iff.1 hd
    have he : 128 ≤ e.toNat ∧ e.toNat ≤ 191 := within_iff.1 he
    rw [bytes, low, low, low, utf8EncodeChar_ofNat (by unfold Nat.isValidChar; omega), if_neg (by omega),
      if_neg (by omega), if_neg (by omega), hbyte (c := b) (by omega), hbyte (c := c) (by omega),
      hbyte (c := d) (by omega), hbyte (c := e) (by omega)]
    rfl
  | case3 | case4 | case6 | case7 | case9 | case10 | case11 => rfl

/-- The bytes of a character that are below 128 are the character. -/
lemma eq_of_mem_utf8EncodeChar {c : Char} {b : UInt8} (hb : b ∈ String.utf8EncodeChar c) (hlt : b < 128) :
    String.utf8EncodeChar c = [b] ∧ b.toNat = c.toNat := by
  have hlt : b.toNat < 128 := UInt8.lt_iff_toNat_lt.1 hlt
  have hhigh : ∀ {n : Nat}, 128 ≤ n → n < 256 → b ≠ UInt8.ofNat n := by
    rintro n hn hn' rfl
    rw [UInt8.toNat_ofNat', Nat.mod_eq_of_lt hn'] at hlt
    omega
  unfold String.utf8EncodeChar at hb ⊢
  simp only at hb ⊢
  split_ifs at hb ⊢ with h h' h''
  · obtain rfl := mem_singleton.1 hb
    refine ⟨rfl, ?_⟩
    rw [UInt8.toNat_ofNat', Nat.mod_eq_of_lt (by omega)]
    rfl
  all_goals simp only [mem_cons, not_mem_nil, or_false] at hb
  · rcases hb with hb | hb <;> exact absurd hb (hhigh (by omega) (by omega))
  · rcases hb with hb | hb | hb <;> exact absurd hb (hhigh (by omega) (by omega))
  · rcases hb with hb | hb | hb | hb <;> exact absurd hb (hhigh (by omega) (by omega))

end Rune

namespace Text

lemma flatMap_bytes_runesFrom (k : Nat) (s : Text) : (runesFrom k s).flatMap Rune.bytes = s.drop k := by
  induction s generalizing k with
  | nil => simp [runesFrom]
  | cons b r ih =>
    cases k with
    | zero => rw [runesFrom, flatMap_cons, Rune.bytes_decode, ih, cons_append, take_append_drop, drop_zero]
    | succ k => rw [runesFrom, ih, drop_succ_cons]

/-- A text is the bytes of its runes. -/
lemma flatMap_bytes_runes (s : Text) : (runes s).flatMap Rune.bytes = s :=
  flatMap_bytes_runesFrom 0 s

/-! ### Reading quoted texts -/

def hexNumber? (s : Text) : Option Nat :=
  s.foldl (fun n? b => do return 16 * (← n?) + (← Json.hexValue? b)) (some 0)

/-- The byte that a letter after a backslash stands for. -/
def escapedByte? (letter : UInt8) : Option UInt8 :=
  if letter = byte '"' || letter = byte '\\' then some letter
  else ((List.range 14).find? fun code => (escapeLetter code).map byte = some letter).map UInt8.ofNat

/-- What the text after a backslash begins with stands for, and the rest of the text. -/
def escape? : Text → Option (Text × Text)
  | [] => none
  | b :: r =>
    if b = byte 'x' then (hexNumber? (r.take 2)).map fun n => ([UInt8.ofNat n], r.drop 2)
    else if b = byte 'u' then
      (hexNumber? (r.take 4)).map fun n => (String.utf8EncodeChar (Char.ofNat n), r.drop 4)
    else if b = byte 'U' then
      (hexNumber? (r.take 8)).map fun n => (String.utf8EncodeChar (Char.ofNat n), r.drop 8)
    else (escapedByte? b).map fun c => ([c], r)

lemma length_le_of_escape? {s v rest : Text} (h : escape? s = some (v, rest)) : rest.length ≤ s.length := by
  cases s with
  | nil => cases h
  | cons b r =>
    rw [escape?] at h
    split_ifs at h <;> (obtain ⟨n, -, hn⟩ := Option.map_eq_some_iff.1 h; cases hn; simp; try omega)

/-- The text before a closing quote that ends the given text. -/
def unquotedFrom? (s : Text) : Option Text :=
  match s with
  | [] => none
  | b :: r =>
    if b = byte '"' then (if r.isEmpty then some [] else none)
    else if b = byte '\\' then
      match _h : escape? r with
      | none => none
      | some (v, rest) => (unquotedFrom? rest).map (v ++ ·)
    else (unquotedFrom? r).map (b :: ·)
termination_by s.length
decreasing_by
  · have := length_le_of_escape? _h
    rw [length_cons]
    omega
  · exact Nat.lt_succ_self _

/-- The text that stands between quotes. -/
def unquoted? : Text → Option Text
  | [] => none
  | b :: r => if b = byte '"' then unquotedFrom? r else none

lemma hexNumber?_hex {width n : Nat} (h : n < 16 ^ width) : hexNumber? (hex width n) = some n := by
  have hdigit : ∀ d < 16, Json.hexValue? (hexDigit d) = some d := by decide +kernel
  have hfold : ∀ (width a : Nat), (hex width n).foldl
      (fun n? b => do return 16 * (← n?) + (← Json.hexValue? b)) (some a) = some (a * 16 ^ width + n % 16 ^ width) := by
    intro width
    induction width with
    | zero => simp [hex, Nat.mod_one]
    | succ width ih =>
      intro a
      have hcons : hex (width + 1) n = hexDigit (n / 16 ^ width % 16) :: hex width n := by
        simp [hex, range_succ]
      rw [hcons, foldl_cons, hdigit _ (Nat.mod_lt _ (by decide))]
      refine (ih _).trans ?_
      rw [Nat.mod_pow_succ, Nat.pow_succ]
      congr 1
      ring
  rw [hexNumber?, hfold, Nat.zero_mul, Nat.zero_add, Nat.mod_eq_of_lt h]

/-- The bytes that have a meaning of their own in a line of quoted texts. -/
def marks : Text :=
  [byte '"', byte '\\', byte '\n']

lemma notMem_marks_of_mem_hex {width n : Nat} {d : UInt8} (h : d ∈ hex width n) : d ∉ marks := by
  have hdigit : ∀ k < 16, hexDigit k ∉ marks := by decide +kernel
  obtain ⟨i, -, rfl⟩ := mem_map.1 h
  exact hdigit _ (Nat.mod_lt _ (by decide))

lemma take_drop_hex (width n : Nat) (rest : Text) :
    (hex width n ++ rest).take width = hex width n ∧ (hex width n ++ rest).drop width = rest := by
  have hlength : (hex width n).length = width := by simp [hex]
  exact ⟨take_left' hlength, drop_left' hlength⟩

/-- A rune between quotes: bytes that need no escape, or a backslash and what stands for the rune. -/
lemma escapeRune_cases (r : Rune) :
    (escapeRune '"' r = r.bytes ∧ ∀ b ∈ r.bytes, b ∉ marks) ∨
    ∃ b ds, escapeRune '"' r = byte '\\' :: b :: ds ∧ b ≠ byte '\n' ∧ (∀ d ∈ ds, d ∉ marks) ∧
      ∀ rest, escape? (b :: ds ++ rest) = some (r.bytes, rest) := by
  have hbyte : ∀ n < 256, ∀ rest, escape? (byte 'x' :: hex 2 n ++ rest) = some ([UInt8.ofNat n], rest) := by
    intro n hn rest
    obtain ⟨htake, hdrop⟩ := take_drop_hex 2 n rest
    rw [cons_append, escape?, if_pos rfl, htake, hdrop, hexNumber?_hex hn]
    rfl
  cases r with
  | stray b =>
    refine .inr ⟨byte 'x', hex 2 b.toNat, rfl, by decide, fun d => notMem_marks_of_mem_hex, fun rest => ?_⟩
    rw [hbyte _ b.toNat_lt, UInt8.ofNat_toNat]
    rfl
  | char c =>
    rw [escapeRune, Rune.bytes]
    split_ifs with hc hprint
    · refine .inr ⟨byte c, [], rfl, ?_⟩
      simp only [Bool.or_eq_true, decide_eq_true_eq] at hc
      rcases hc with rfl | rfl <;> exact ⟨by decide, by simp, fun rest => rfl⟩
    · refine .inl ⟨rfl, fun b hb hmark => ?_⟩
      have hall : ∀ b ∈ marks, b < 128 ∧ (Char.ofNat b.toNat = '"' ∨ Char.ofNat b.toNat = '\\' ∨
          isPrintable b.toNat = false) := by decide +kernel
      obtain ⟨hlt, hb'⟩ := hall b hmark
      rw [(Rune.eq_of_mem_utf8EncodeChar hb hlt).2, Char.ofNat_toNat] at hb'
      simp_all
    · have hletters : ∀ letter, escapeLetter c.toNat = some letter → c.toNat < 14 ∧
          byte letter ∉ [byte 'x', byte 'u', byte 'U', byte '\n'] ∧
          escapedByte? (byte letter) = some (UInt8.ofNat c.toNat) := by
        intro letter h
        unfold escapeLetter at h
        split at h <;> cases h <;> rename_i heq <;> rw [heq] <;> exact ⟨by decide, by decide, rfl⟩
      cases hletter : escapeLetter c.toNat with
      | some letter =>
        obtain ⟨hlt, hne, hescaped⟩ := hletters letter hletter
        simp only [mem_cons, not_mem_nil, or_false, not_or] at hne
        refine .inr ⟨byte letter, [], rfl, hne.2.2.2, by simp, fun rest => ?_⟩
        have hsmall : c.val.toNat ≤ 127 := by
          change c.toNat ≤ 127
          omega
        rw [singleton_append, escape?, if_neg hne.1, if_neg hne.2.1, if_neg hne.2.2.1, hescaped,
          String.utf8EncodeChar, if_pos hsmall]
        rfl
      | none =>
        simp only [escapeCode]
        split_ifs with hsmall hmiddle
        · refine .inr ⟨byte 'x', hex 2 c.toNat, rfl, by decide, fun d => notMem_marks_of_mem_hex, fun rest => ?_⟩
          simp only [Bool.or_eq_true, decide_eq_true_eq] at hsmall
          have hle : c.val.toNat ≤ 127 := by
            change c.toNat ≤ 127
            omega
          rw [hbyte _ (by omega), String.utf8EncodeChar, if_pos hle]
          rfl
        · refine .inr ⟨byte 'u', hex 4 c.toNat, rfl, by decide, fun d => notMem_marks_of_mem_hex, fun rest => ?_⟩
          obtain ⟨htake, hdrop⟩ := take_drop_hex 4 c.toNat rest
          rw [cons_append, escape?, if_neg (by decide), if_pos rfl, htake, hdrop, hexNumber?_hex hmiddle,
            Option.map_some, Char.ofNat_toNat]
        · refine .inr ⟨byte 'U', hex 8 c.toNat, rfl, by decide, fun d => notMem_marks_of_mem_hex, fun rest => ?_⟩
          obtain ⟨htake, hdrop⟩ := take_drop_hex 8 c.toNat rest
          have hlt : c.toNat < 16 ^ 8 := by
            have := c.val.toNat_lt
            exact this
          rw [cons_append, escape?, if_neg (by decide), if_neg (by decide), if_pos rfl, htake, hdrop,
            hexNumber?_hex hlt, Option.map_some, Char.ofNat_toNat]

lemma unquotedFrom?_append {s : Text} (hs : ∀ b ∈ s, b ∉ marks) (rest : Text) :
    unquotedFrom? (s ++ rest) = (unquotedFrom? rest).map (s ++ ·) := by
  induction s with
  | nil => simp
  | cons b s ih =>
    obtain ⟨hb, hs⟩ := forall_mem_cons.1 hs
    simp only [marks, mem_cons, not_or] at hb
    rw [cons_append, unquotedFrom?, if_neg hb.1, if_neg hb.2.1, ih hs, Option.map_map]
    rfl

/-- A rune between quotes is read back. -/
lemma unquotedFrom?_escapeRune (r : Rune) (rest : Text) :
    unquotedFrom? (escapeRune '"' r ++ rest) = (unquotedFrom? rest).map (r.bytes ++ ·) := by
  rcases escapeRune_cases r with ⟨h, hplain⟩ | ⟨b, ds, h, -, -, hescape⟩
  · rw [h, unquotedFrom?_append hplain]
  · rw [h, cons_append, unquotedFrom?, if_neg (by decide), if_pos rfl]
    split
    · rename_i hnone
      cases hnone.symm.trans (hescape rest)
    · rename_i v tail hsome
      cases hsome.symm.trans (hescape rest)
      rfl

/-- Every text is read back from its quoted form. -/
theorem unquoted?_quoted (s : Text) : unquoted? (quoted s) = some s := by
  have hrunes : ∀ rs : List Rune, unquotedFrom? (rs.flatMap (escapeRune '"') ++ [byte '"']) =
      some (rs.flatMap Rune.bytes) := by
    intro rs
    induction rs with
    | nil =>
      rw [flatMap_nil, nil_append, unquotedFrom?, if_pos rfl]
      rfl
    | cons r rs ih =>
      rw [flatMap_cons, append_assoc, unquotedFrom?_escapeRune, ih]
      rfl
  rw [quoted, cons_append, unquoted?, if_pos rfl, hrunes, flatMap_bytes_runes]

/-- A quoted text is on one line. -/
lemma notMem_quoted (s : Text) : byte '\n' ∉ quoted s := by
  have hrune : ∀ r, byte '\n' ∉ escapeRune '"' r := by
    intro r hmem
    rcases escapeRune_cases r with ⟨h, hplain⟩ | ⟨b, ds, h, hb, hds, -⟩
    · exact hplain _ (h ▸ hmem) (by simp [marks])
    · rw [h, mem_cons, mem_cons] at hmem
      rcases hmem with hmem | hmem | hmem
      · exact absurd hmem (by decide)
      · exact hb hmem.symm
      · exact hds _ hmem (by simp [marks])
  intro hmem
  rw [quoted, cons_append, mem_cons, mem_append, mem_flatMap] at hmem
  rcases hmem with hmem | ⟨r, -, hmem⟩ | hmem
  · exact absurd hmem (by decide)
  · exact hrune r hmem
  · exact absurd (mem_singleton.1 hmem) (by decide)

/-! ### Words -/

/-- A letter or digit is one rune, which is written as it is. -/
lemma escapeRune_of_isWordByte {b : UInt8} (hb : Lexeme.isWordByte b = true) :
    b < 0x80 ∧ escapeRune '"' (.char (Char.ofNat b.toNat)) = [b] := by
  have hall : ∀ n : Fin 256, Lexeme.isWordByte (UInt8.ofNat n) = true →
      UInt8.ofNat n < 0x80 ∧
        escapeRune '"' (.char (Char.ofNat (UInt8.ofNat n).toNat)) = [UInt8.ofNat n] := by
    decide +kernel
  have heq : UInt8.ofNat b.toNat = b := UInt8.ofNat_toNat
  have h := hall ⟨b.toNat, b.toNat_lt⟩
  simp only [heq] at h
  exact h hb

/-- A word between quotes is written as it is. -/
lemma quoted_of_isWordByte {s : Text} (hs : ∀ b ∈ s, Lexeme.isWordByte b = true) :
    quoted s = byte '"' :: s ++ [byte '"'] := by
  have hrunes : (runesFrom 0 s).flatMap (escapeRune '"') = s := by
    induction s with
    | nil => rfl
    | cons b r ih =>
      rw [forall_mem_cons] at hs
      obtain ⟨hlt, hescape⟩ := escapeRune_of_isWordByte hs.1
      have hdecode : Rune.decode b r = (.char (Char.ofNat b.toNat), 0) := by
        unfold Rune.decode
        exact if_pos hlt
      rw [runesFrom, hdecode, flatMap_cons, hescape, ih hs.2, singleton_append]
  rw [quoted, runes, hrunes]

end Text

end Lunify
