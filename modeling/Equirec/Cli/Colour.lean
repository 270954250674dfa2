/-!
# Colours

* `Cli.Colour`        the colours of what is written out
* `Cli.Colour.paint`  a text between the codes that switch a colour on and off
-/

namespace Equirec.Cli

inductive Colour where
  | red
  | yellow
  | cyan
  | brightRed
  | brightGreen
  deriving DecidableEq

namespace Colour

def code : Colour → String
  | red => "31"
  | yellow => "33"
  | cyan => "36"
  | brightRed => "91"
  | brightGreen => "92"

/-- what switches the colour on -/
def start (c : Colour) : String := "\x1b[" ++ c.code ++ "m"

/-- what switches any colour off -/
def stop : String := "\x1b[0m"

/-- a text with `again` behind each place that switches the colour off -/
def resumed (again : List Char) : List Char → List Char
  | '\x1b' :: '[' :: '0' :: 'm' :: rest =>
    '\x1b' :: '[' :: '0' :: 'm' :: (again ++ resumed again rest)
  | c :: rest => c :: resumed again rest
  | [] => []

/-- a text in a colour: whatever part of it has a colour of its own, the rest has this one -/
def paint (c : Colour) (colours : Bool) (text : String) : String :=
  if colours then c.start ++ String.ofList (resumed c.start.toList text.toList) ++ stop else text

theorem paint_plain (c : Colour) (text : String) : c.paint false text = text := rfl

end Colour

end Equirec.Cli
