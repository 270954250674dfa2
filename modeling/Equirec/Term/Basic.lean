import Equirec.Ty.Basic

/-!
# Terms

* `Term`         literals, conditionals, sums, functions, constants, objects and recursive functions
* `Term.induct`  induction on terms, with one hypothesis for all arguments or properties
* `Term.beq`     equality as written, numbers being compared as numbers: zero equals minus zero

The types of parameters are written out, and so is the result type of a recursive function.
-/

namespace Equirec

inductive Term where
  | bool (value : Bool)
  | number (value : Float)
  | ite (test thenTerm elseTerm : Term)
  | add (left right : Term)
  | var (name : Name)
  | func (params : List (Name × Ty)) (body : Term)
  | call (callee : Term) (args : List Term)
  /-- the first term is checked and dropped -/
  | seq (first rest : Term)
  /-- `rest` with a name for `value` -/
  | const (name : Name) (value rest : Term)
  | object (props : List (Name × Term))
  | get (object : Term) (name : Name)
  /-- `rest` with a name for a function whose body may call it -/
  | recFunc (name : Name) (params : List (Name × Ty)) (result : Ty) (body rest : Term)
  deriving Inhabited

namespace Term

/-- induction on terms: a list gives the hypothesis for each of its members -/
@[elab_as_elim, induction_eliminator]
theorem induct {P : Term → Prop} (bool : ∀ b, P (.bool b)) (number : ∀ n, P (.number n))
    (ite : ∀ c t e, P c → P t → P e → P (.ite c t e))
    (add : ∀ l r, P l → P r → P (.add l r)) (var : ∀ x, P (.var x))
    (func : ∀ ps b, P b → P (.func ps b))
    (call : ∀ f as, P f → (∀ a ∈ as, P a) → P (.call f as))
    (seq : ∀ a r, P a → P r → P (.seq a r))
    (const : ∀ x a r, P a → P r → P (.const x a r))
    (object : ∀ ps : List (Name × Term), (∀ p ∈ ps, P p.2) → P (.object ps))
    (get : ∀ o x, P o → P (.get o x))
    (recFunc : ∀ f ps t b r, P b → P r → P (.recFunc f ps t b r)) (m : Term) : P m :=
  Term.rec (motive_1 := P) (motive_2 := fun as => ∀ a ∈ as, P a)
    (motive_3 := fun ps => ∀ p ∈ ps, P p.2) (motive_4 := fun p => P p.2)
    bool number (fun c t e hc ht he => ite c t e hc ht he) (fun l r hl hr => add l r hl hr) var
    (fun ps b hb => func ps b hb) (fun f as hf has => call f as hf has)
    (fun a r ha hr => seq a r ha hr) (fun x a r ha hr => const x a r ha hr)
    (fun ps hps => object ps hps) (fun o x ho => get o x ho)
    (fun f ps t b r hb hr => recFunc f ps t b r hb hr)
    (by simp) (fun a as ha has => by simpa using ⟨ha, has⟩)
    (by simp) (fun p ps hp hps => by simpa using ⟨hp, by simpa using hps⟩) (fun _ _ h => h) m

mutual
def beq : Term → Term → Bool
  | bool a, bool b => a == b
  | number m, number n => m == n
  | ite c t e, ite c' t' e' => beq c c' && beq t t' && beq e e'
  | add l r, add l' r' => beq l l' && beq r r'
  | var x, var y => x == y
  | func ps b, func qs c => ps == qs && beq b c
  | call f as, call g bs => beq f g && beqArgs as bs
  | seq a r, seq b s => beq a b && beq r s
  | const x a r, const y b s => x == y && beq a b && beq r s
  | object ps, object qs => beqProps ps qs
  | get o x, get p y => beq o p && x == y
  | recFunc f ps t b r, recFunc g qs u c s =>
    f == g && ps == qs && t == u && beq b c && beq r s
  | _, _ => false
def beqArgs : List Term → List Term → Bool
  | [], [] => true
  | a :: as, b :: bs => beq a b && beqArgs as bs
  | _, _ => false
def beqProps : List (Name × Term) → List (Name × Term) → Bool
  | [], [] => true
  | (x, a) :: ps, (y, b) :: qs => x == y && beq a b && beqProps ps qs
  | _, _ => false
end

instance : BEq Term := ⟨beq⟩

end Term

end Equirec
