import Lunify.Text.Basic

namespace Lunify

namespace Block

/-! ### Compressed blocks

A block begins with the length of its content, as a number in groups of seven bits. Then come
elements: literal bytes, and copies of bytes that stand some way back in the content. The two low
bits of an element's first byte say which it is. -/

/-- A number in groups of seven bits, the lowest first; all bytes but the last have the high bit. -/
def encodeLength (n : Nat) : Text :=
  if n < 128 then [n.toUInt8] else (n % 128 + 128).toUInt8 :: encodeLength (n / 128)
termination_by n
decreasing_by omega

def maxGroups : Nat := 10

/-- Reads a number in at most `groups` groups of seven bits. -/
def decodeLength (groups : Nat) : Text → Option (Nat × Text)
  | [] => none
  | b :: rest =>
    match groups with
    | 0 => none
    | groups + 1 =>
      if b.toNat < 128 then some (b.toNat, rest)
      else (decodeLength groups rest).map fun (n, rest) => (b.toNat - 128 + 128 * n, rest)

def littleEndian (s : Text) : Nat :=
  s.foldr (fun b n => b.toNat + 256 * n) 0

def fourBytes (n : Nat) : Text :=
  [n.toUInt8, (n / 256).toUInt8, (n / 65536).toUInt8, (n / 16777216).toUInt8]

/-- The mark of a literal whose length is in the four bytes after the mark. -/
def longLiteral : UInt8 := 0xFC

def encode (s : Text) : Text :=
  encodeLength s.length ++
    if s.isEmpty then [] else longLiteral :: fourBytes (s.length - 1) ++ s

/-- Puts `n` bytes before a content that is written backwards, each the one that stands `offset`
bytes back at the time. -/
def copyBack (offset : Nat) : Nat → Text → Text
  | 0, out => out
  | n + 1, out => copyBack offset n (out.getD (offset - 1) 0 :: out)

/-- An element: literal bytes, or a copy. -/
inductive Element where
  | literal (s : Text)
  | copy (offset length : Nat)
deriving DecidableEq, Repr

/-- A literal of the given length at the start of a text, and what follows it. -/
def takeLiteral (n : Nat) (s : Text) : Option (Element × Text) :=
  if s.length < n then none else some (.literal (s.take n), s.drop n)

/-- The element at the start of a text, and what follows it. -/
def element? (b : UInt8) (r : Text) : Option (Element × Text) :=
  let high := b.toNat / 4
  match b.toNat % 4 with
  | 0 =>
    if high < 60 then takeLiteral (high + 1) r
    else
      let width := high - 59
      if r.length < width then none
      else takeLiteral (littleEndian (r.take width) + 1) (r.drop width)
  | 1 =>
    match r with
    | c :: r => some (.copy (b.toNat / 32 * 256 + c.toNat) (4 + high % 8), r)
    | [] => none
  | 2 => if r.length < 2 then none else some (.copy (littleEndian (r.take 2)) (high + 1), r.drop 2)
  | _ => if r.length < 4 then none else some (.copy (littleEndian (r.take 4)) (high + 1), r.drop 4)

/-- Reads elements until the text ends. The content so far is `out`, written backwards, of length
`done`; the whole is to have `total` bytes. Each element takes a unit of fuel. -/
def decodeElements (total : Nat) : Nat → Nat → Text → Text → Option Text
  | _, done, out, [] => if done = total then some out.reverse else none
  | 0, _, _, _ => none
  | fuel + 1, done, out, b :: r =>
    match element? b r with
    | none => none
    | some (.literal s, rest) =>
      if total < done + s.length then none
      else decodeElements total fuel (done + s.length) (s.reverse ++ out) rest
    | some (.copy offset length, rest) =>
      if offset = 0 || done < offset || total < done + length then none
      else decodeElements total fuel (done + length) (copyBack offset length out) rest

/-- The content of a block, if it is one. -/
def decode (s : Text) : Option Text :=
  match decodeLength maxGroups s with
  | some (n, rest) => if n < Nat.pow 2 32 then decodeElements n rest.length 0 [] rest else none
  | none => none

end Block

end Lunify
