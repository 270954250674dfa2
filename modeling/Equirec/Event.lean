import Equirec.Ty.Display

/-!
# Events

* `Event`          a step of a comparison or of a check that is worth a line of the log
* `Event.message`  the line
-/

namespace Equirec

inductive Event where
  /-- a comparison goes on with the head form of a type -/
  | unfolded (type headForm : Ty)
  /-- an equality holds because it is being decided already -/
  | assumedEqual (left right : Ty)
  /-- a subtyping holds because it is being decided already -/
  | assumedSubtype (left right : Ty)
  /-- a type without a head form was met -/
  | unguarded (type : Ty)
  /-- a recursive function has the type that it declares -/
  | declared (name : Name) (type : Ty)
  deriving DecidableEq

def Event.message : Event → String
  | unfolded t h => "unfolded " ++ t.display ++ " to " ++ h.display
  | assumedEqual t u => "assumed equal: " ++ t.display ++ " = " ++ u.display
  | assumedSubtype t u => "assumed subtype: " ++ t.display ++ " <: " ++ u.display
  | unguarded t => "unguarded recursive type: " ++ t.display
  | declared f t => f ++ ": " ++ t.display

end Equirec
