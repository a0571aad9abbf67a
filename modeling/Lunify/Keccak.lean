import Lunify.Text.Basic

namespace Lunify

/-! ### Keccak-256

The sponge with a state of 25 lanes of 64 bits and a rate of 136 bytes. A message is padded with
the byte `0x01`, zeros, and a final bit in the last byte of its last block. The lane in column `x`
of row `y` has index `x + 5 * y`. -/

namespace Keccak

abbrev Lanes := Array UInt64

def lane (a : Lanes) (i : Nat) : UInt64 :=
  a.getD i 0

def tabulate (f : Nat → UInt64) : Lanes :=
  Array.ofFn fun i : Fin 25 => f i

def rotate (w : UInt64) (n : Nat) : UInt64 :=
  if n = 0 then w else (w <<< n.toUInt64) ||| (w >>> (64 - n).toUInt64)

def offsets : Array Nat :=
  #[0, 1, 62, 28, 27, 36, 44, 6, 55, 20, 3, 10, 43, 25, 39, 41, 45, 15, 21, 8, 18, 2, 61, 56, 14]

/-- The constant added to the first lane in each of the 24 rounds. -/
def roundConstants : List UInt64 :=
  [0x0000000000000001, 0x0000000000008082, 0x800000000000808A, 0x8000000080008000,
   0x000000000000808B, 0x0000000080000001, 0x8000000080008081, 0x8000000000008009,
   0x000000000000008A, 0x0000000000000088, 0x0000000080008009, 0x000000008000000A,
   0x000000008000808B, 0x800000000000008B, 0x8000000000008089, 0x8000000000008003,
   0x8000000000008002, 0x8000000000000080, 0x000000000000800A, 0x800000008000000A,
   0x8000000080008081, 0x8000000000008080, 0x0000000080000001, 0x8000000080008008]

def column (a : Lanes) (x : Nat) : UInt64 :=
  lane a x ^^^ lane a (x + 5) ^^^ lane a (x + 10) ^^^ lane a (x + 15) ^^^ lane a (x + 20)

/-- Adds to every lane the parities of two neighbouring columns. -/
def mixColumns (a : Lanes) : Lanes :=
  let c := (Array.ofFn fun x : Fin 5 => column a x)
  tabulate fun i => lane a i ^^^ lane c ((i + 4) % 5) ^^^ rotate (lane c ((i + 1) % 5)) 1

def moveLanes (a : Lanes) : Lanes :=
  tabulate fun i =>
    let source := (i % 5 + 3 * (i / 5)) % 5 + 5 * (i % 5)
    rotate (lane a source) (offsets.getD source 0)

def mixRows (a : Lanes) : Lanes :=
  tabulate fun i =>
    let row := 5 * (i / 5)
    lane a i ^^^ (~~~ lane a (row + (i + 1) % 5) &&& lane a (row + (i + 2) % 5))

def round (a : Lanes) (constant : UInt64) : Lanes :=
  let b := mixRows (moveLanes (mixColumns a))
  b.set! 0 (lane b 0 ^^^ constant)

def permute (a : Lanes) : Lanes :=
  roundConstants.foldl round a

def rate : Nat := 136

def laneOfBytes (s : Text) : UInt64 :=
  s.foldr (fun b w => (w <<< 8) ||| b.toUInt64) 0

def bytesOfLane (w : UInt64) : Text :=
  (List.range 8).map fun i => (w >>> (8 * i).toUInt64).toUInt8

def absorb (a : Lanes) (block : Text) : Lanes :=
  permute (tabulate fun i =>
    if i < rate / 8 then lane a i ^^^ laneOfBytes ((block.drop (8 * i)).take 8) else lane a i)

/-- The zeros and the final bit that complete a block of which `used` bytes are taken. -/
def padding (used : Nat) : Text :=
  if used + 1 = rate then [0x81]
  else 0x01 :: List.replicate (rate - 2 - used) 0 ++ [0x80]

/-- Absorbs a message that is padded to full blocks. -/
def absorbAll (a : Lanes) (message : Text) : Lanes :=
  if message.isEmpty then a
  else absorbAll (absorb a (message.take rate)) (message.drop rate)
termination_by message.length
decreasing_by
  have hpos : 0 < message.length := by
    cases message with
    | nil => simp_all
    | cons _ _ => simp
  simp only [List.length_drop, rate]
  omega

/-- The 32 bytes of the Keccak-256 hash of a message. -/
def hash (message : Text) : Text :=
  let padded := message ++ padding (message.length % rate)
  let a := absorbAll (Array.replicate 25 0) padded
  (List.range 4).flatMap fun i => bytesOfLane (lane a i)

end Keccak

end Lunify
