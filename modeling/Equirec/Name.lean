/-!
# Names

* `Name`             the name of a variable, a parameter, a property or a bound type
* `Name.sorted`      names in their order, repeats kept
* `Name.distinct`    names without repeats, in order of first appearance
* `quoted`           a name as messages show it
* `lookup_cons_ite`  a name is looked up in a list of named things from the front

The order of names is the order of their characters by code point, the first difference deciding.
It is also the order of the bytes of their UTF-8 form.
-/

namespace Equirec

abbrev Name := String

namespace Name

def sorted (names : List Name) : List Name :=
  names.mergeSort fun x y => decide (x ≤ y)

def distinct (names : List Name) : List Name :=
  names.eraseDups

end Name

/-- a name, or another text of the program, between backquotes -/
def quoted (text : String) : String := "`" ++ text ++ "`"

theorem lookup_cons_ite {β : Type} (x y : Name) (b : β) (row : List (Name × β)) :
    List.lookup x ((y, b) :: row) = if x = y then some b else row.lookup x := by
  by_cases h : x = y
  · rw [h, if_pos rfl, List.lookup_cons_self]
  · have hb : (x == y) = false := beq_eq_false_iff_ne.mpr h
    rw [List.lookup_cons, hb, if_neg h]

end Equirec
