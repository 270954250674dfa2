import Equirec.Json.Reader.Basic
import Equirec.Json.Numeral

/-!
# Reading numbers

* `Json.Reader.digits`   all digits ahead
* `Json.Reader.number`   a numeral and its value: a sign, digits without a superfluous zero in
                         front, a fraction and an exponent
-/

namespace Equirec.Json.Reader

def digit? (c : Char) : Option Nat :=
  if '0' ≤ c ∧ c ≤ '9' then some (c.toNat - '0'.toNat) else none

/-- all digits ahead -/
def digits : Reader (List Nat) := fun cs =>
  .ok ((cs.takeWhile fun c => (digit? c).isSome).filterMap digit?,
    cs.dropWhile fun c => (digit? c).isSome)

/-- all digits ahead, of which there has to be one -/
def digits1 : Reader (List Nat) := do
  match digit? (← ahead) with
  | some _ => digits
  | none => malformed

/-- whether the next character is one of those given; if so, it is moved past -/
def accept (p : Char → Bool) : Reader Bool := do
  match ← get with
  | [] => pure false
  | c :: cs =>
    if p c then
      set cs
      pure true
    else
      pure false

/-- digits without a superfluous zero in front -/
def wholePart : Reader (List Nat) := do
  match ← digits1 with
  | 0 :: _ :: _ => malformed
  | ds => pure ds

def fractionPart : Reader (Option (List Nat)) := do
  if ← accept (· == '.') then some <$> digits1 else pure none

/-- the number written by decimal digits -/
def ofDigits (ds : List Nat) : Nat := ds.foldl (fun n d => n * 10 + d) 0

def exponentPart : Reader (Option Int) := do
  if ← accept fun c => c == 'e' || c == 'E' then
    let negative ← accept (· == '-')
    let _ ← if negative then pure false else accept (· == '+')
    let n := ofDigits (← digits1)
    pure (some (if negative then -(n : Int) else n))
  else
    pure none

def number : Reader Json := do
  let negative ← accept (· == '-')
  let whole ← wholePart
  let fraction ← fractionPart
  let exponent ← exponentPart
  match (Numeral.mk negative whole fraction exponent).value? with
  | some j => pure j
  | none => malformed

end Equirec.Json.Reader
