import Equirec.Json.Basic
import Equirec.Term.Basic

/-!
# From types and terms to JSON

* `Ty.toJson`, `Term.toJson`  the object of a type or a term: its tag, then the fields of its
                              variant in the order of their declaration
* `Json.named`                the object of a name and a second field
* `Json.ofFloat`              a float, which JSON has if it is finite
-/

namespace Equirec

namespace Json

/-- the object of a variant -/
def tagged (tag : String) (fields : List (String × Json)) : Json :=
  .object (("tag", .string tag) :: fields)

def named (x : Name) (label : String) (j : Json) : Json :=
  .object [("name", .string x), (label, j)]

/-- a float that JSON has no numeral for is written as `null` -/
def ofFloat (x : Float) : Json := if x.isFinite then .real x else .null

end Json

mutual
def Ty.toJson : Ty → Json
  | .boolean => Json.tagged "Boolean" []
  | .number => Json.tagged "Number" []
  | .func ps r => Json.tagged "Func" [("params", .array (Ty.rowToJson ps)), ("retType", r.toJson)]
  | .object ps => Json.tagged "Object" [("props", .array (Ty.rowToJson ps))]
  | .var x => Json.tagged "TypeVar" [("name", .string x)]
  | .mu x b => Json.tagged "Rec" [("name", .string x), ("type", b.toJson)]
def Ty.rowToJson : Row → List Json
  | [] => []
  | (x, t) :: ps => Json.named x "type" t.toJson :: Ty.rowToJson ps
end

mutual
def Term.toJson : Term → Json
  | .bool true => Json.tagged "true" []
  | .bool false => Json.tagged "false" []
  | .number n => Json.tagged "number" [("n", Json.ofFloat n)]
  | .ite c t e => Json.tagged "if" [("cond", c.toJson), ("thn", t.toJson), ("els", e.toJson)]
  | .add l r => Json.tagged "add" [("left", l.toJson), ("right", r.toJson)]
  | .var x => Json.tagged "var" [("name", .string x)]
  | .func ps b => Json.tagged "func" [("params", .array (Ty.rowToJson ps)), ("body", b.toJson)]
  | .call f as => Json.tagged "call" [("func", f.toJson), ("args", .array (Term.argsToJson as))]
  | .seq a r => Json.tagged "seq" [("body", a.toJson), ("rest", r.toJson)]
  | .const x a r =>
    Json.tagged "const" [("name", .string x), ("init", a.toJson), ("rest", r.toJson)]
  | .object ps => Json.tagged "objectNew" [("props", .array (Term.propsToJson ps))]
  | .get o x => Json.tagged "objectGet" [("obj", o.toJson), ("propName", .string x)]
  | .recFunc f ps t b r =>
    Json.tagged "recFunc"
      [("funcName", .string f), ("params", .array (Ty.rowToJson ps)), ("retType", t.toJson),
        ("body", b.toJson), ("rest", r.toJson)]
def Term.argsToJson : List Term → List Json
  | [] => []
  | a :: as => a.toJson :: Term.argsToJson as
def Term.propsToJson : List (Name × Term) → List Json
  | [] => []
  | (x, a) :: ps => Json.named x "term" a.toJson :: Term.propsToJson ps
end

theorem Ty.rowToJson_eq_map (ps : Row) :
    Ty.rowToJson ps = ps.map fun p => Json.named p.1 "type" p.2.toJson := by
  induction ps with
  | nil => rfl
  | cons p ps ih => rw [List.map_cons, ← ih, Ty.rowToJson]

theorem Term.argsToJson_eq_map (as : List Term) : Term.argsToJson as = as.map Term.toJson := by
  induction as with
  | nil => rfl
  | cons a as ih => rw [List.map_cons, ← ih, Term.argsToJson]

theorem Term.propsToJson_eq_map (ps : List (Name × Term)) :
    Term.propsToJson ps = ps.map fun p => Json.named p.1 "term" p.2.toJson := by
  induction ps with
  | nil => rfl
  | cons p ps ih => rw [List.map_cons, ← ih, Term.propsToJson]

end Equirec
