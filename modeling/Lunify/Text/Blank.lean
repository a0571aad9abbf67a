import Lunify.Text.Basic

namespace Lunify

namespace Text

/-! ### White space

Blanks are the characters with the Unicode property White_Space. They are recognized on bytes:
the encoding of a blank begins with a byte that cannot continue another character, so no blank is
ever found inside a character. -/

/-- The number of bytes of the blank a text begins with, `0` when it begins with none. -/
def blankWidth : Text → Nat
  | [] => 0
  | b :: r =>
    if b = 32 || (9 ≤ b && b ≤ 13) then 1
    else match r with
      | [] => 0
      | c :: r =>
        if b = 0xC2 && (c = 0x85 || c = 0xA0) then 2
        else match r with
          | [] => 0
          | d :: _ =>
            if (b = 0xE1 && c = 0x9A && d = 0x80)
                || (b = 0xE2 && c = 0x80 &&
                  ((0x80 ≤ d && d ≤ 0x8A) || d = 0xA8 || d = 0xA9 || d = 0xAF))
                || (b = 0xE2 && c = 0x81 && d = 0x9F)
                || (b = 0xE3 && c = 0x80 && d = 0x80) then 3
            else 0

/-- Removes blanks at the start. -/
def dropBlanks (s : Text) : Text :=
  if _h : 0 < blankWidth s ∧ s ≠ [] then dropBlanks (s.drop (blankWidth s)) else s
termination_by s.length
decreasing_by
  have hs : 0 < s.length := List.length_pos_iff.mpr _h.2
  simp only [List.length_drop]
  omega

def isBlank (s : Text) : Bool :=
  (dropBlanks s).isEmpty

def dropEndBlanks : Text → Text
  | [] => []
  | b :: r => if isBlank (b :: r) then [] else b :: dropEndBlanks r

def trim (s : Text) : Text :=
  dropEndBlanks (dropBlanks s)

/-- The bytes before the first blank, and the text from there on. -/
def spanWord : Text → Text × Text
  | [] => ([], [])
  | b :: r =>
    if 0 < blankWidth (b :: r) then ([], b :: r)
    else (b :: (spanWord r).1, (spanWord r).2)

/-- What follows a word is no longer than the text. -/
theorem length_spanWord_snd_le (s : Text) : (spanWord s).2.length ≤ s.length := by
  induction s with
  | nil => simp [spanWord]
  | cons b r ih =>
    rw [spanWord]
    split
    · simp
    · simpa using Nat.le_succ_of_le ih

/-- Dropping blanks makes no text longer. -/
theorem length_dropBlanks_le (s : Text) : (dropBlanks s).length ≤ s.length := by
  fun_induction dropBlanks s with
  | case1 s h ih =>
    have hd : (s.drop (blankWidth s)).length ≤ s.length := by simp
    exact Nat.le_trans ih hd
  | case2 s h => exact Nat.le_refl _

/-- The words of a text: the longest runs without blanks, in order. -/
def words (s : Text) : List Text :=
  match _h : dropBlanks s with
  | [] => []
  | b :: r => (b :: (spanWord r).1) :: words (spanWord r).2
termination_by s.length
decreasing_by
  have h₁ : (spanWord r).2.length ≤ r.length := length_spanWord_snd_le r
  have h₂ : (dropBlanks s).length ≤ s.length := length_dropBlanks_le s
  rw [_h, List.length_cons] at h₂
  omega

/-- The pieces between commas without surrounding blanks; empty pieces are left out. -/
def commaList (s : Text) : List Text :=
  ((splitOn (byte ',') s).map trim).filter (fun piece => !piece.isEmpty)

end Text

end Lunify
