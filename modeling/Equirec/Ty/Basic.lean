import Equirec.Name

/-!
# Types

A type is a leaf, a function type, an object type, a variable, or `mu x t`: the type `t` in which
`x` stands for the whole `mu x t` again.  A `mu` is the same type as its unfolding, so types stand
for trees that may be infinite.

* `Ty`            types; parameters and properties are rows, lists of named types
* `Ty.prop`       the property of an object type under a name, the first one if the name repeats
* `Ty.size`       the number of nodes of a type as it is written
* `Ty.induct`     induction on types, with one hypothesis for all members of a row
* `DecidableEq`   two types are equal if every name, order and shape is the same
-/

namespace Equirec

inductive Ty where
  | boolean
  | number
  | func (params : List (Name × Ty)) (result : Ty)
  | object (props : List (Name × Ty))
  | var (name : Name)
  | mu (name : Name) (body : Ty)
  deriving Inhabited

/-- named types in order: the parameters of a function, the properties of an object, the bindings
of a scope; nothing keeps a name from occurring twice -/
abbrev Row := List (Name × Ty)

namespace Ty

/-- induction on types: a row gives the hypothesis for each of its members -/
@[elab_as_elim, induction_eliminator]
theorem induct {P : Ty → Prop} (boolean : P .boolean) (number : P .number)
    (func : ∀ (params : Row) (result : Ty), (∀ p ∈ params, P p.2) → P result →
      P (.func params result))
    (object : ∀ props : Row, (∀ p ∈ props, P p.2) → P (.object props))
    (var : ∀ name, P (.var name)) (mu : ∀ name body, P body → P (.mu name body)) (t : Ty) : P t :=
  Ty.rec (motive_1 := P) (motive_2 := fun row => ∀ p ∈ row, P p.2) (motive_3 := fun p => P p.2)
    boolean number (fun params result hp hr => func params result hp hr)
    (fun props hp => object props hp) var mu (by simp)
    (fun p row hp hrow => by simpa using ⟨hp, by simpa using hrow⟩) (fun _ _ h => h) t

/-! ## equality as written -/

mutual
def beq : Ty → Ty → Bool
  | boolean, boolean => true
  | number, number => true
  | func ps r, func qs s => beqRow ps qs && beq r s
  | object ps, object qs => beqRow ps qs
  | var x, var y => x == y
  | mu x b, mu y c => x == y && beq b c
  | _, _ => false
def beqRow : Row → Row → Bool
  | [], [] => true
  | (x, t) :: ps, (y, u) :: qs => x == y && beq t u && beqRow ps qs
  | _, _ => false
end

mutual
theorem eq_of_beq : ∀ {t u : Ty}, beq t u = true → t = u
  | boolean, u, h => by cases u <;> simp_all [beq]
  | number, u, h => by cases u <;> simp_all [beq]
  | var x, u, h => by cases u <;> simp_all [beq]
  | func ps r, u, h => by
    cases u <;> simp [beq] at h
    rw [eq_of_beqRow h.1, eq_of_beq h.2]
  | object ps, u, h => by
    cases u <;> simp [beq] at h
    rw [eq_of_beqRow h]
  | mu x b, u, h => by
    cases u <;> simp [beq] at h
    rw [h.1, eq_of_beq h.2]
theorem eq_of_beqRow : ∀ {ps qs : Row}, beqRow ps qs = true → ps = qs
  | [], qs, h => by cases qs <;> simp_all [beqRow]
  | (x, t) :: ps, qs, h => by
    cases qs with
    | nil => simp [beqRow] at h
    | cons q qs =>
      obtain ⟨y, u⟩ := q
      simp [beqRow] at h
      rw [h.1.1, eq_of_beq h.1.2, eq_of_beqRow h.2]
end

mutual
theorem beq_self : ∀ t : Ty, beq t t = true
  | boolean => rfl
  | number => rfl
  | var x => by simp [beq]
  | func ps r => by simp [beq, beqRow_self ps, beq_self r]
  | object ps => by simp [beq, beqRow_self ps]
  | mu x b => by simp [beq, beq_self b]
theorem beqRow_self : ∀ ps : Row, beqRow ps ps = true
  | [] => rfl
  | (x, t) :: ps => by simp [beqRow, beq_self t, beqRow_self ps]
end

instance : BEq Ty := ⟨beq⟩

instance : LawfulBEq Ty where
  eq_of_beq := eq_of_beq
  rfl := beq_self _

instance : DecidableEq Ty := instDecidableEqOfLawfulBEq

/-! ## shape -/

def isMu : Ty → Bool
  | mu _ _ => true
  | _ => false

/-- the number of `mu` binders in front of a type -/
def binders : Ty → Nat
  | mu _ body => body.binders + 1
  | _ => 0

def prop : Ty → Name → Option Ty
  | object props, name => props.lookup name
  | _, _ => none

mutual
def size : Ty → Nat
  | boolean => 1
  | number => 1
  | func ps r => sizeRow ps + r.size + 1
  | object ps => sizeRow ps + 1
  | var _ => 1
  | mu _ b => b.size + 1
def sizeRow : Row → Nat
  | [] => 0
  | (_, t) :: ps => t.size + sizeRow ps
end

theorem size_pos (t : Ty) : 0 < t.size := by
  cases t <;> simp [size]

theorem size_le_sizeRow {p : Name × Ty} {ps : Row} (h : p ∈ ps) : p.2.size ≤ sizeRow ps := by
  induction ps with
  | nil => simp at h
  | cons q ps ih =>
    simp only [sizeRow]
    rcases List.mem_cons.mp h with rfl | h
    · omega
    · have := ih h
      omega

end Ty

end Equirec
