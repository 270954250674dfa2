import Equirec.Ty.Basic

/-!
# Types up to the names of binders

* `Ty.alphaUnder`  the comparison under pairs of binders, the innermost pair first
* `Ty.alphaEq`     two types have the same shape once the binders on both sides share their names

Nothing is unfolded.  A variable belongs to the innermost pair that binds its name on either side,
and that pair has to bind both variables; variables that no pair binds are free and have to have
the same name.  The names of parameters do not count.  Properties are looked up by name, so their
order does not count either.
-/

namespace Equirec.Ty

/-- whether two variables belong together under pairs of binders -/
def varsMatch (bound : List (Name × Name)) (x y : Name) : Bool :=
  match bound.find? fun b => b.1 == x || b.2 == y with
  | some b => b.1 == x && b.2 == y
  | none => x == y

mutual
def alphaUnder (bound : List (Name × Name)) : Ty → Ty → Bool
  | boolean, boolean => true
  | number, number => true
  | func ps r, func qs s => alphaParams bound ps qs && alphaUnder bound r s
  | object ps, object qs => ps.length == qs.length && alphaProps bound ps qs
  | var x, var y => varsMatch bound x y
  | mu x b, mu y c => alphaUnder ((x, y) :: bound) b c
  | _, _ => false
/-- parameters are compared by position -/
def alphaParams (bound : List (Name × Name)) : Row → Row → Bool
  | [], [] => true
  | (_, t) :: ps, (_, u) :: qs => alphaUnder bound t u && alphaParams bound ps qs
  | _, _ => false
/-- every property on the left is looked up on the right -/
def alphaProps (bound : List (Name × Name)) : Row → Row → Bool
  | [], _ => true
  | (x, t) :: ps, qs =>
    match qs.lookup x with
    | some u => alphaUnder bound t u && alphaProps bound ps qs
    | none => false
end

def alphaEq (t u : Ty) : Bool := alphaUnder [] t u

end Equirec.Ty
