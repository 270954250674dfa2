import Equirec.Json.Reader.Quoted
import Equirec.Json.Reader.Number

/-!
# Reading values

* `Json.Reader.items`, `Json.Reader.fields`   lists and objects, item by item and field by field
* `Json.Reader.value`  any value
* `Json.parse`         a whole text of one value

Readers of values recur on a number above the number of characters ahead, and may have room for so
many lists and objects inside each other and no more.
-/

namespace Equirec.Json

namespace Reader

variable {σ : Type}

/-! ## lists and objects -/

/-- what follows an item of a list: its end, or a comma and more items -/
def moreItems (item : σ → Reader σ) : Nat → σ → Reader σ
  | 0, _ => malformed
  | n + 1, s => do
    match ← peek with
    | ',' =>
      skip
      moreItems item n (← item s)
    | ']' =>
      skip
      pure s
    | _ => malformed

/-- the items of a list whose opening bracket has been read, `item` taking in one after the
other -/
def items (item : σ → Reader σ) (n : Nat) (s : σ) : Reader σ := do
  if (← peek) = ']' then
    skip
    pure s
  else
    moreItems item n (← item s)

/-- one field; `field` is given the key and goes on in front of the colon -/
def oneField (field : σ → String → Reader σ) (n : Nat) (s : σ) : Reader σ := do
  if (← peek) = '"' then
    skip
    field s (← string n)
  else
    malformed

/-- the colon between a key and its value -/
def colon : Reader Unit := do
  if (← peek) = ':' then skip else malformed

/-- what follows a field of an object: its end, or a comma and more fields -/
def moreFields (field : σ → String → Reader σ) : Nat → σ → Reader σ
  | 0, _ => malformed
  | n + 1, s => do
    match ← peek with
    | ',' =>
      skip
      moreFields field n (← oneField field n s)
    | '\x7d' =>
      skip
      pure s
    | _ => malformed

/-- the fields of an object whose opening brace has been read -/
def fields (field : σ → String → Reader σ) (n : Nat) (s : σ) : Reader σ := do
  if (← peek) = '\x7d' then
    skip
    pure s
  else
    moreFields field n (← oneField field n s)

/-! ## values -/

/-- how many lists and objects more may be entered inside each other; `none` is no limit -/
abbrev Room := Option Nat

def enter : Room → Reader Room
  | none => pure none
  | some 0 => malformed
  | some (n + 1) => pure (some n)

def value : Nat → Room → Reader Json
  | 0, _ => malformed
  | n + 1, room => do
    match ← peek with
    | 'n' => do
      literal ['n', 'u', 'l', 'l']
      pure .null
    | 't' => do
      literal ['t', 'r', 'u', 'e']
      pure (.bool true)
    | 'f' => do
      literal ['f', 'a', 'l', 's', 'e']
      pure (.bool false)
    | '"' => do
      skip
      .string <$> string n
    | '[' => do
      let inner ← enter room
      skip
      let js ← items (fun js => do pure ((← value n inner) :: js)) n []
      pure (.array js.reverse)
    | '\x7b' => do
      let inner ← enter room
      skip
      let fs ← fields (fun fs key => do
        colon
        pure ((key, ← value n inner) :: fs)) n []
      pure (.object fs.reverse)
    | c =>
      if c = '-' ∨ (digit? c).isSome then number else malformed

end Reader

/-- the value of a text -/
def parse (text : String) : Except Failure Json := read (fun n => Reader.value n none) text

end Equirec.Json
