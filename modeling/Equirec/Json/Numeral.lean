import Equirec.Json.Basic

/-!
# The value of a numeral

A numeral is a sign, digits, maybe a fraction and maybe an exponent.

* `Json.Numeral`         the parts of a numeral
* `Json.Numeral.absorb`  takes in digits while the number that they make stays below `2 ^ 64`
* `Json.Numeral.value?`  the value; none if it is out of the range of floats

Digits are taken in from the left.  A digit of the whole part that does not fit any more counts as a
zero; a digit of the fraction that does not fit ends the fraction.  The number taken in is then
rounded to a float and multiplied or divided by a power of ten, so that a long numeral may differ
from the nearest float in its last bits.
-/

namespace Equirec.Json

structure Numeral where
  negative : Bool
  whole : List Nat
  fraction : Option (List Nat)
  exponent : Option Int

namespace Numeral

/-- the number after taking in digits from the left, and the digits from the first on that would
lead to `2 ^ 64` or beyond -/
def absorb (n : Nat) : List Nat → Nat × List Nat
  | [] => (n, [])
  | d :: ds => if n * 10 + d < 2 ^ 64 then absorb (n * 10 + d) ds else (n, d :: ds)

def tenPow (k : Nat) : Float := Float.ofScientific 1 false k

/-- the largest power of ten that is a float is `10 ^ 308` -/
def largestExponent : Nat := 308

/-- `x / 10 ^ k`, `n` times by `10 ^ 308` first, unless zero is reached before -/
def scaleDown : Nat → Float → Nat → Float
  | 0, x, k => x / tenPow k
  | n + 1, x, k =>
    if x == 0 then x else scaleDown n (x / tenPow largestExponent) (k - largestExponent)

/-- `m * 10 ^ e` as a float; none if it is too large -/
def scaled? (m : Nat) (e : Int) : Option Float :=
  let x := Float.ofNat m
  match e with
  | .ofNat k =>
    if k ≤ largestExponent then
      let y := x * tenPow k
      if y.isInf then none else some y
    else if x == 0 then some x else none
  | .negSucc k => some (scaleDown (k / largestExponent) x (k + 1))

def value? (numeral : Numeral) : Option Json :=
  let (m, excess) := absorb 0 numeral.whole
  match numeral.fraction, numeral.exponent, excess, numeral.negative with
  | none, none, [], false => some (.natural m)
  | none, none, [], true => some (.real (-Float.ofNat m))
  | _, _, _, _ =>
    let digits := numeral.fraction.getD []
    let (m, dropped) := absorb m digits
    let e : Int := numeral.exponent.getD 0 + excess.length - (digits.length - dropped.length : Nat)
    (scaled? m e).map fun x => .real (if numeral.negative then -x else x)

end Numeral

end Equirec.Json
