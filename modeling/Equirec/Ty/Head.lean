import Equirec.Ty.Subst

/-!
# Head forms

The head form of a type is what is left once it has been unfolded until no `mu` stands in front.

* `Ty.headFrom`     unfolds at most so many times, and no further than the first type met before
* `Ty.headForm`     the head form; as many unfoldings as there are binders in front are enough
* `Ty.isUnguarded`  the type is a `mu` and all its unfoldings are, such as `mu a (var a)`: it has
                    no head form, and `headForm` returns a `mu` that the unfolding comes back to
-/

namespace Equirec.Ty

def headFrom : Nat → List Ty → Ty → Ty
  | 0, _, t => t
  | n + 1, met, t => if t.isMu && !met.contains t then headFrom n (t :: met) t.unfold else t

def headForm (t : Ty) : Ty := headFrom t.binders [] t

def isUnguarded (t : Ty) : Bool := t.headForm.isMu

theorem headFrom_of_not_isMu {t : Ty} (h : t.isMu = false) (n : Nat) (met : List Ty) :
    headFrom n met t = t := by
  cases n <;> simp [headFrom, h]

theorem headForm_of_not_isMu {t : Ty} (h : t.isMu = false) : t.headForm = t :=
  headFrom_of_not_isMu h _ _

theorem isUnguarded_of_not_isMu {t : Ty} (h : t.isMu = false) : t.isUnguarded = false := by
  rw [isUnguarded, headForm_of_not_isMu h, h]

end Equirec.Ty
