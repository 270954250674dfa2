import Equirec.Comparison
import Equirec.Context
import Equirec.Term.Basic

/-!
# The type of a term

* `Term.check`       the type of a term in a context, or the first thing wrong with it
* `Term.checkArgs`   arguments against parameters, one after the other
* `Term.checkProps`  the types of the properties of an object

The parts of a term are checked from left to right.  A type is unfolded only where its shape is
asked for: a condition, an operand, a function that is called, an object with a property wanted.
The branches of a conditional and the body of a recursive function have to be of equal type; an
argument may be of a subtype.
-/

namespace Equirec.Term

mutual
def check : Term → Context → Run Ty
  | bool _, _ => pure .boolean
  | number _, _ => pure .number
  | ite test thenTerm elseTerm, Γ => do
    let cond ← (← check test Γ).normalize
    if cond = .boolean then
      let t ← check thenTerm Γ
      let u ← check elseTerm Γ
      if ← t.equal u then pure t else Run.fail (.branchMismatch t u)
    else
      Run.fail (.nonBooleanCondition cond)
  | add left right, Γ => do
    let t ← (← check left Γ).normalize
    let u ← (← check right Γ).normalize
    if t = .number ∧ u = .number then pure .number else Run.fail (.nonNumberOperand t u)
  | var x, Γ =>
    match Γ.get? x with
    | some t => pure t
    | none => Run.fail (.undefinedVariable x)
  | func params body, Γ => do
    let result ← check body (Γ.extend params)
    pure (.func params result)
  | call callee args, Γ => do
    match ← (← check callee Γ).normalize with
    | .func params result =>
      if params.length = args.length then
        checkArgs args params Γ
        pure result
      else
        Run.fail (.arityMismatch params.length args.length)
    | other => Run.fail (.notAFunction other)
  | seq first rest, Γ => do
    let _ ← check first Γ
    check rest Γ
  | const x value rest, Γ => do
    let t ← check value Γ
    check rest (Γ.bind x t)
  | object props, Γ => do
    let row ← checkProps props Γ
    pure (.object row)
  | get target x, Γ => do
    match ← (← check target Γ).normalize with
    | .object props =>
      match props.lookup x with
      | some t => pure t
      | none => Run.fail (.unknownProperty x (.object props))
    | other => Run.fail (.notAnObject other)
  | recFunc f params result body rest, Γ => do
    let t ← check body (Γ.extend ((f, .func params result) :: params))
    if ← t.equal result then
      Run.log [.declared f (.func params result)]
      check rest (Γ.bind f (.func params result))
    else
      Run.fail (.returnMismatch f result t)
def checkArgs : List Term → Row → Context → Run Unit
  | a :: args, (x, expected) :: params, Γ => do
    let t ← check a Γ
    if ← t.subtype expected then
      checkArgs args params Γ
    else
      Run.fail (.argumentMismatch x expected t)
  | _, _, _ => pure ()
def checkProps : List (Name × Term) → Context → Run Row
  | [], _ => pure []
  | (x, a) :: props, Γ => do
    let t ← check a Γ
    let row ← checkProps props Γ
    pure ((x, t) :: row)
end

end Equirec.Term
