import Equirec.TypeError

/-!
# Free and bound type variables

A variable is bound by a `mu` of its name around it; the scope of a `mu` is its body.

* `Ty.freeVars`   the free variables of a type from left to right, one entry per occurrence
* `Ty.firstFree`  the leftmost variable that neither an outer list of names nor a `mu` binds
* `Ty.validate`   refuses a type with a free variable, and names the leftmost
* `Ty.Closed`     no variable is free
-/

namespace Equirec.Ty

mutual
def freeVars : Ty → List Name
  | boolean => []
  | number => []
  | func ps r => freeVarsRow ps ++ r.freeVars
  | object ps => freeVarsRow ps
  | var x => [x]
  | mu x b => b.freeVars.filter (· != x)
def freeVarsRow : Row → List Name
  | [] => []
  | (_, t) :: ps => t.freeVars ++ freeVarsRow ps
end

mutual
def firstFree (bound : List Name) : Ty → Option Name
  | boolean => none
  | number => none
  | func ps r => firstFreeRow bound ps <|> firstFree bound r
  | object ps => firstFreeRow bound ps
  | var x => if bound.contains x then none else some x
  | mu x b => firstFree (x :: bound) b
def firstFreeRow (bound : List Name) : Row → Option Name
  | [] => none
  | (_, t) :: ps => firstFree bound t <|> firstFreeRow bound ps
end

def validate (t : Ty) : Except TypeError Unit :=
  match t.firstFree [] with
  | none => .ok ()
  | some x => .error (.unboundTypeVariable x)

def Closed (t : Ty) : Prop := t.freeVars = []

instance (t : Ty) : Decidable t.Closed := inferInstanceAs (Decidable (t.freeVars = []))

theorem freeVarsRow_eq_flatMap (ps : Row) : freeVarsRow ps = ps.flatMap fun p => p.2.freeVars := by
  induction ps with
  | nil => rfl
  | cons p ps ih =>
    rw [List.flatMap_cons, ← ih]
    rfl

end Equirec.Ty
