import ArrayShapes.Text.Character

/-!
Numerals in any radix up to sixteen.
-/

namespace ArrayShapes.Text

def digitValue? (c : Char) : Option Nat :=
  if '0' ≤ c && c ≤ '9' then some (c.toNat - '0'.toNat)
  else if 'a' ≤ c && c ≤ 'f' then some (c.toNat - 'a'.toNat + 10)
  else if 'A' ≤ c && c ≤ 'F' then some (c.toNat - 'A'.toNat + 10)
  else none

/-- A digit of a radix. -/
def digit? (radix : Nat) (c : Char) : Option Nat := (digitValue? c).filter (· < radix)

def isDigit (radix : Nat) (c : Char) : Bool := (digit? radix c).isSome

/-- The number whose digits follow those of `n`. -/
def numeralFrom? (radix : Nat) : Nat → List Char → Option Nat
  | n, [] => some n
  | n, c :: cs => do numeralFrom? radix (n * radix + (← digit? radix c)) cs

/-- A numeral of at least one digit. -/
def numeral? (radix : Nat) : List Char → Option Nat
  | [] => none
  | c :: cs => numeralFrom? radix 0 (c :: cs)

/-- A numeral with an optional `+` in front of it. -/
def unsigned? (radix : Nat) : List Char → Option Nat
  | '+' :: cs => numeral? radix cs
  | cs => numeral? radix cs

/-- A numeral with an optional sign in front of it, within 64 bits. -/
def signed? (radix : Nat) (cs : List Char) : Option Int :=
  match cs with
  | '-' :: cs => ((numeral? radix cs).filter (· ≤ 0x8000000000000000)).map fun n => -(n : Int)
  | _ => ((unsigned? radix cs).filter (· < 0x8000000000000000)).map fun n => (n : Int)

end ArrayShapes.Text
