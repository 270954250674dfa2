import Equirec.Json.Reader.Basic

/-!
# Reading strings

* `Json.Reader.escape`       the character that an escape stands for
* `Json.Reader.stringChars`  the characters of a string up to its closing quote
* `Json.Reader.string`       a string in a reader

A character beyond the first plane may be escaped by a pair of escapes of four digits.  Half of such
a pair alone stands for nothing.  Control characters have to be escaped.
-/

namespace Equirec.Json.Reader

def hexDigit? (c : Char) : Option Nat :=
  if '0' ≤ c ∧ c ≤ '9' then some (c.toNat - '0'.toNat)
  else if 'a' ≤ c ∧ c ≤ 'f' then some (c.toNat - 'a'.toNat + 10)
  else if 'A' ≤ c ∧ c ≤ 'F' then some (c.toNat - 'A'.toNat + 10)
  else none

/-- the number written by four hexadecimal digits.  Four bytes of the text are looked at: where
there are fewer the text is cut short, whatever they are. -/
def hex4 : List Char → Except Failure Nat
  | a :: b :: c :: d :: _ =>
    match hexDigit? a, hexDigit? b, hexDigit? c, hexDigit? d with
    | some a, some b, some c, some d => .ok (((a * 16 + b) * 16 + c) * 16 + d)
    | _, _, _, _ => .error .malformed
  | cs => .error (if (String.ofList cs).utf8ByteSize < 4 then .cutShort else .malformed)

/-- the character of an escape of one letter -/
def shortEscape? : Char → Option Char
  | '"' => some '"'
  | '\\' => some '\\'
  | '/' => some '/'
  | 'b' => some '\x08'
  | 'f' => some '\x0c'
  | 'n' => some '\n'
  | 'r' => some '\r'
  | 't' => some '\t'
  | _ => none

/-- the first half of a pair of escapes that stand for one character beyond the first plane -/
def isLeading (n : Nat) : Bool := decide (0xD800 ≤ n) && decide (n ≤ 0xDBFF)

/-- the second half of such a pair -/
def isTrailing (n : Nat) : Bool := decide (0xDC00 ≤ n) && decide (n ≤ 0xDFFF)

def pairValue (leading trailing : Nat) : Nat :=
  0x10000 + (leading - 0xD800) * 0x400 + (trailing - 0xDC00)

/-- the second half of a pair of escapes, with its backslash -/
def trailingHalf : List Char → Except Failure Nat
  | '\\' :: 'u' :: cs => do
    let n ← hex4 cs
    if isTrailing n then .ok n else .error .malformed
  | [] => .error .cutShort
  | ['\\'] => .error .cutShort
  | _ => .error .malformed

/-- what follows a backslash: its character, and how many characters it takes up -/
def escape : List Char → Except Failure (Char × Nat)
  | [] => .error .cutShort
  | 'u' :: cs => do
    let n ← hex4 cs
    if isTrailing n then
      .error .malformed
    else if isLeading n then
      let m ← trailingHalf (cs.drop 4)
      .ok (Char.ofNat (pairValue n m), 11)
    else
      .ok (Char.ofNat n, 5)
  | c :: _ =>
    match shortEscape? c with
    | some d => .ok (d, 1)
    | none => .error .malformed

/-- the characters of a string up to its closing quote, after those read before in reverse, and the
text behind it; the number bounds the characters ahead -/
def stringChars : Nat → List Char → List Char → Except Failure (List Char × List Char)
  | 0, _, _ => .error .cutShort
  | _ + 1, _, [] => .error .cutShort
  | n + 1, before, c :: cs =>
    if c = '"' then
      .ok (before.reverse, cs)
    else if c = '\\' then
      match escape cs with
      | .ok (d, used) => stringChars n (d :: before) (cs.drop used)
      | .error f => .error f
    else if c.toNat < 0x20 then
      .error .malformed
    else
      stringChars n (c :: before) cs

/-- a string whose opening quote has been read -/
def string (n : Nat) : Reader String := fun cs => do
  let (ds, rest) ← stringChars n [] cs
  .ok (String.ofList ds, rest)

end Equirec.Json.Reader
