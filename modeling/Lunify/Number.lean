namespace Lunify

/-! ### Numbers

The total of natural numbers, and the range of the whole numbers that fit into 64 bits. -/

def total : List Nat → Nat
  | [] => 0
  | n :: ns => n + total ns

def wordSize : Nat := 18446744073709551616

/-- The first whole number that is too large for 64 bits with a sign. -/
def wordLimit : Int := 9223372036854775808

def fitsWord (i : Int) : Bool :=
  -wordLimit ≤ i && i < wordLimit

end Lunify
