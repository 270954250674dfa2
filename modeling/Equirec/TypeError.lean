import Equirec.Ty.Display

/-!
# Type errors

* `TypeError`          what can be wrong with a term or a type, by cause
* `TypeError.message`  the error in one sentence
* `TypeError.help`     the types behind it, if it has any
-/

namespace Equirec

inductive TypeError where
  /-- a condition has another type than `boolean` -/
  | nonBooleanCondition (found : Ty)
  /-- the two branches of a conditional differ in type -/
  | branchMismatch (thenType elseType : Ty)
  /-- an operand of an addition has another type than `number` -/
  | nonNumberOperand (left right : Ty)
  | undefinedVariable (name : Name)
  | notAFunction (found : Ty)
  | arityMismatch (expected provided : Nat)
  /-- an argument does not fit the parameter at its place -/
  | argumentMismatch (param : Name) (expected found : Ty)
  | notAnObject (found : Ty)
  | unknownProperty (name : Name) (type : Ty)
  /-- the body of a recursive function has another type than the one declared -/
  | returnMismatch (function : Name) (declared found : Ty)
  | unboundTypeVariable (name : Name)
  deriving DecidableEq

namespace TypeError

def message : TypeError → String
  | nonBooleanCondition _ => "Condition of if must be a Boolean"
  | branchMismatch _ _ => "Then and else branches must have the same type"
  | nonNumberOperand _ _ => "Both operands of add must be Numbers"
  | undefinedVariable x => "Undefined variable: " ++ x
  | notAFunction _ => "Can only call functions"
  | arityMismatch _ _ => "Argument count mismatch"
  | argumentMismatch x _ _ => "Argument type mismatch for parameter " ++ x
  | notAnObject _ => "Can only get properties from objects"
  | unknownProperty x _ => "Property " ++ x ++ " does not exist on object"
  | returnMismatch _ _ _ => "Return type does not match declared return type"
  | unboundTypeVariable x => "Type variable " ++ x ++ " is not bound by any rec"

def help : TypeError → Option String
  | nonBooleanCondition t => some ("found " ++ quoted t.display)
  | branchMismatch t u =>
    some ("then branch is " ++ quoted t.display ++ ", else branch is " ++ quoted u.display)
  | nonNumberOperand t u =>
    some ("left operand is " ++ quoted t.display ++ ", right operand is " ++ quoted u.display)
  | undefinedVariable _ => none
  | notAFunction t => some ("found " ++ quoted t.display)
  | arityMismatch m n =>
    some ("the function takes " ++ toString m ++ " arguments, but " ++ toString n ++
      " were provided")
  | argumentMismatch _ t u =>
    some ("expected " ++ quoted t.display ++ ", found " ++ quoted u.display)
  | notAnObject t => some ("found " ++ quoted t.display)
  | unknownProperty _ t => some ("the object type is " ++ quoted t.display)
  | returnMismatch f t u =>
    some (quoted f ++ " declares " ++ quoted t.display ++ ", but its body is " ++
      quoted u.display)
  | unboundTypeVariable _ => none

end TypeError

end Equirec
