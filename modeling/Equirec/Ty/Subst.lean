import Equirec.Ty.Basic

/-!
# Substitution and unfolding

* `Ty.subst`   the type with another one in the place of each free occurrence of a variable
* `Ty.unfold`  one turn of a `mu`: its body with the whole `mu` in the place of its variable

Substitution is literal.  It stops below a `mu` that binds the same name again, and it does not
rename a `mu` whose name is free in the type put in; for a closed type put in, as in the unfolding
of a closed `mu`, nothing can be caught.
-/

namespace Equirec.Ty

mutual
def subst : Ty → Name → Ty → Ty
  | boolean, _, _ => boolean
  | number, _, _ => number
  | func ps r, x, s => func (substRow ps x s) (r.subst x s)
  | object ps, x, s => object (substRow ps x s)
  | var y, x, s => if y = x then s else var y
  | mu y b, x, s => if y = x then mu y b else mu y (b.subst x s)
def substRow : Row → Name → Ty → Row
  | [], _, _ => []
  | (y, t) :: ps, x, s => (y, t.subst x s) :: substRow ps x s
end

theorem substRow_eq_map (ps : Row) (x : Name) (s : Ty) :
    substRow ps x s = ps.map fun p => (p.1, p.2.subst x s) := by
  induction ps with
  | nil => rfl
  | cons p ps ih =>
    rw [List.map_cons, ← ih]
    rfl

def unfold : Ty → Ty
  | mu x b => b.subst x (mu x b)
  | t => t

theorem unfold_mu (x : Name) (b : Ty) : (mu x b).unfold = b.subst x (mu x b) := rfl

end Equirec.Ty
