import Equirec.Json.Basic

/-!
# Readers

A reader takes what it needs from the front of a text, and leaves the rest or fails.

* `Json.Reader`          readers; the first failure is the failure of the whole
* `Json.Reader.peek`     the next character that is not blank, which stays ahead
* `Json.Reader.literal`  moves past given characters
* `Json.read`            a whole text: what a reader takes, and nothing but blanks behind it

A text that ends where a character is wanted is cut short.
-/

namespace Equirec.Json

abbrev Reader := StateT (List Char) (Except Failure)

namespace Reader

variable {α : Type}

def fail (f : Failure) : Reader α := throw f

def malformed : Reader α := fail .malformed

def mismatch (m : Mismatch) : Reader α := fail (.mismatch m)

/-- the result of a decoder, in a reader -/
def ofExcept : Except Mismatch α → Reader α
  | .ok a => pure a
  | .error m => mismatch m

/-! ## characters -/

def isBlank (c : Char) : Bool := c == ' ' || c == '\t' || c == '\n' || c == '\r'

/-- the next character, which stays ahead -/
def ahead : Reader Char := do
  match ← get with
  | [] => fail .cutShort
  | c :: _ => pure c

/-- the next character that is not blank, which stays ahead -/
def peek : Reader Char := do
  modify fun cs => cs.dropWhile isBlank
  ahead

/-- moves past the next character -/
def skip : Reader Unit := modify List.tail

/-- the next character, moved past -/
def next : Reader Char := do
  let c ← ahead
  skip
  pure c

/-- moves past the given characters -/
def literal : List Char → Reader Unit
  | [] => pure ()
  | c :: cs => do
    if (← next) = c then literal cs else malformed

end Reader

/-- reads a whole text; `reader` is given a number above the number of characters ahead of it -/
def read {α : Type} (reader : Nat → Reader α) (text : String) : Except Failure α := do
  let cs := text.toList
  let (a, rest) ← (reader (cs.length + 1)).run cs
  if rest.all Reader.isBlank then .ok a else .error .malformed

end Equirec.Json
