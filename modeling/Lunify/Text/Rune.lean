import Lunify.Text.Basic

namespace Lunify

/-! ### Characters of a byte text

`Text.runes` reads a text as UTF-8. A byte that starts no well-formed sequence stands for itself
and is one byte wide: overlong forms, surrogates and values above U+10FFFF are not well formed.
Sequences never overlap, because a byte that can start one cannot continue another. -/

/-- One step of reading a text as UTF-8: a character, or a byte that belongs to none. -/
inductive Rune where
  | char (c : Char)
  | stray (b : UInt8)
deriving DecidableEq, Repr, Inhabited

namespace Rune

def bytes : Rune → Text
  | .char c => String.utf8EncodeChar c
  | .stray b => [b]

def code : Rune → Nat
  | .char c => c.toNat
  | .stray _ => 0xFFFD

def cleaned : Rune → Text
  | .char c => String.utf8EncodeChar c
  | .stray _ => [0xEF, 0xBF, 0xBD]

/-- Whether a byte may continue a sequence whose next byte lies in `[lo, hi]`. -/
def within (lo hi b : UInt8) : Bool :=
  lo ≤ b && b ≤ hi

def secondOfThree (b : UInt8) : UInt8 × UInt8 :=
  if b = 0xE0 then (0xA0, 0xBF) else if b = 0xED then (0x80, 0x9F) else (0x80, 0xBF)

def secondOfFour (b : UInt8) : UInt8 × UInt8 :=
  if b = 0xF0 then (0x90, 0xBF) else if b = 0xF4 then (0x80, 0x8F) else (0x80, 0xBF)

def low (b : UInt8) : Nat :=
  b.toNat % 64

/-- The rune that starts with byte `b` followed by `r`, and how many bytes of `r` it takes. -/
def decode (b : UInt8) (r : Text) : Rune × Nat :=
  if b < 0x80 then
    (.char (Char.ofNat b.toNat), 0)
  else if within 0xC2 0xDF b then
    match r with
    | b₁ :: _ =>
      if within 0x80 0xBF b₁ then
        (.char (Char.ofNat (b.toNat % 32 * 64 + low b₁)), 1)
      else (.stray b, 0)
    | _ => (.stray b, 0)
  else if within 0xE0 0xEF b then
    match r with
    | b₁ :: b₂ :: _ =>
      if within (secondOfThree b).1 (secondOfThree b).2 b₁ && within 0x80 0xBF b₂ then
        (.char (Char.ofNat ((b.toNat % 16 * 64 + low b₁) * 64 + low b₂)), 2)
      else (.stray b, 0)
    | _ => (.stray b, 0)
  else if within 0xF0 0xF4 b then
    match r with
    | b₁ :: b₂ :: b₃ :: _ =>
      if within (secondOfFour b).1 (secondOfFour b).2 b₁ && within 0x80 0xBF b₂ &&
          within 0x80 0xBF b₃ then
        (.char (Char.ofNat (((b.toNat % 8 * 64 + low b₁) * 64 + low b₂) * 64 + low b₃)), 3)
      else (.stray b, 0)
    | _ => (.stray b, 0)
  else (.stray b, 0)

end Rune

namespace Text

/-- The runes of a text from where `skip` more bytes of the previous rune have passed. -/
def runesFrom : Nat → Text → List Rune
  | _, [] => []
  | skip + 1, _ :: r => runesFrom skip r
  | 0, b :: r => (Rune.decode b r).1 :: runesFrom (Rune.decode b r).2 r

def runes (s : Text) : List Rune :=
  runesFrom 0 s

def isUtf8 (s : Text) : Bool :=
  (runes s).all fun
    | .char _ => true
    | .stray _ => false

def runeCount (s : Text) : Nat :=
  (runes s).length

def cleaned (s : Text) : Text :=
  (runes s).flatMap Rune.cleaned

/-- The text followed by blanks up to `width` runes; a wider text is left as it is. -/
def padRight (width : Nat) (s : Text) : Text :=
  s ++ blanks (width - runeCount s)

end Text

end Lunify
