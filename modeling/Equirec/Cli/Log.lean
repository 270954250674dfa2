import Equirec.Event

/-!
# The log

* `Cli.LogLine`         a line of the log: its level, where it comes from and what it says
* `Cli.LogLine.ofEvent` the line of an event
* `Cli.LogLine.text`    the line as it is written out
* `Cli.shown`           the lines that are written out for a number of `-v` flags
-/

namespace Equirec.Cli

inductive Level where
  | debug
  | trace
  deriving DecidableEq

namespace Level

def word : Level → String
  | debug => "DEBUG"
  | trace => "TRACE"

/-- how often `-v` has to be given -/
def threshold : Level → Nat
  | debug => 1
  | trace => 2

end Level

structure LogLine where
  level : Level
  target : String
  message : String
  deriving DecidableEq

/-- the part of the library that an event comes from -/
def topic : Event → String
  | .unfolded _ _ => "equality"
  | .assumedEqual _ _ => "equality"
  | .assumedSubtype _ _ => "assignability"
  | .unguarded _ => "expansion"
  | .declared _ _ => "checking"

/-- the two digits to base 16 of a number below 256 -/
def hexPair (n : Nat) : List Char := [Nat.digitChar (n / 16), Nat.digitChar (n % 16)]

/-- a character of a message: one that a terminal would obey is written by its number -/
def tame (c : Char) : List Char :=
  if c ∈ ['\x07', '\x08', '\x0c', '\x1b', '\x7f'] then
    ['\\', 'x'] ++ hexPair c.toNat
  else if 0x80 ≤ c.toNat ∧ c.toNat ≤ 0x9f then
    ['\\', 'u', '\x7b'] ++ hexPair c.toNat ++ ['\x7d']
  else
    [c]

namespace LogLine

def ofEvent (e : Event) : LogLine := ⟨.trace, "tiny_typeck::tiny::types::" ++ topic e, e.message⟩

/-- a line of the program itself -/
def debug (message : String) : LogLine := ⟨.debug, "tiny_typeck", message⟩

def text (l : LogLine) : String :=
  l.level.word ++ " " ++ l.target ++ ": " ++ String.ofList (l.message.toList.flatMap tame)

end LogLine

def shown (verbosity : Nat) (log : List LogLine) : List LogLine :=
  log.filter fun l => l.level.threshold ≤ verbosity

end Equirec.Cli
