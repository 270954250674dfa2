import Equirec.Ty.Basic

/-!
# The printed form of a type

* `Ty.display`     `number`, `(x: number, y: a) => boolean`, `{ p: number; q: a }`, `rec a. a`;
                   an object without properties is `{}`
* `Ty.displayRow`  the members of a row, each a name and the printed form of its type

No parentheses are ever needed: a function type and a `mu` reach as far to the right as they can,
and the parts of a row are fenced by its commas or semicolons.
-/

namespace Equirec.Ty

mutual
def display : Ty → String
  | boolean => "boolean"
  | number => "number"
  | func ps r => "(" ++ ", ".intercalate (displayRow ps) ++ ") => " ++ r.display
  | object ps =>
    if ps.isEmpty then "\x7b\x7d" else "\x7b " ++ "; ".intercalate (displayRow ps) ++ " \x7d"
  | var x => x
  | mu x b => "rec " ++ x ++ ". " ++ b.display
def displayRow : Row → List String
  | [] => []
  | (x, t) :: ps => (x ++ ": " ++ t.display) :: displayRow ps
end

theorem displayRow_eq_map (ps : Row) :
    displayRow ps = ps.map fun p => p.1 ++ ": " ++ p.2.display := by
  induction ps with
  | nil => rfl
  | cons p ps ih => rw [List.map_cons, ← ih, displayRow]

end Equirec.Ty
