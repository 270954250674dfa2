import Equirec.TypeError
import Equirec.Cli.Colour

/-!
# Reports

* `Cli.indented`  the lines of a text behind their indents
* `Cli.report`    a type error as it is written out: its message, and its help if it has any
-/

namespace Equirec.Cli

/-- a line behind its indent, without the blanks at its end; those of the indent stay -/
def indentLine (indent : String) (line : List Char) : String :=
  indent ++ String.ofList (line.reverse.dropWhile (· == ' ')).reverse

/-- the lines of a text, the first one behind `first` and each other one behind `other` -/
def indented (first other text : String) : String :=
  match text.toList.splitOn '\n' with
  | [] => ""
  | line :: lines =>
    "\n".intercalate (indentLine first line :: lines.map (indentLine other))

def report (colours : Bool) (e : TypeError) : String :=
  let mark (sign : String) := "  " ++ Colour.red.paint colours sign ++ " "
  let message := indented (mark "×") (mark "│") e.message ++ "\n"
  match e.help with
  | some help =>
    message ++ indented (Colour.cyan.paint colours "  help: ") "        " help ++ "\n"
  | none => message

end Equirec.Cli
