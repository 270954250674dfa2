import Equirec.Term.Basic
import Equirec.Proofs.Ty.Distinct

/-!
# Well-formed terms

* `Term.annotations`  the types written in a term, from left to right
* `Term.literals`     the names of the properties of each object written in a term
* `Term.WellFormed`   the annotations are well-formed, and no object names a property twice
* `Term.Built`        the annotations are of some kind, and so are the names in objects
* `Term.built_call`, `Term.built_object` and so on
                      a term is built from its parts, and what they are built from
* `Term.wellFormed_call`, `Term.wellFormed_object` and so on
                      a term is well-formed if its parts are
-/

namespace Equirec

namespace Term

mutual
/-- the types of parameters and the result types that are written out -/
def annotations : Term → List Ty
  | bool _ => []
  | number _ => []
  | ite c a b => c.annotations ++ (a.annotations ++ b.annotations)
  | add l r => l.annotations ++ r.annotations
  | var _ => []
  | func ps b => ps.map Prod.snd ++ b.annotations
  | call f as => f.annotations ++ annotationsArgs as
  | seq a r => a.annotations ++ r.annotations
  | const _ a r => a.annotations ++ r.annotations
  | object ps => annotationsProps ps
  | get o _ => o.annotations
  | recFunc _ ps t b r => ps.map Prod.snd ++ t :: (b.annotations ++ r.annotations)
def annotationsArgs : List Term → List Ty
  | [] => []
  | a :: as => a.annotations ++ annotationsArgs as
def annotationsProps : List (Name × Term) → List Ty
  | [] => []
  | (_, a) :: ps => a.annotations ++ annotationsProps ps
end

mutual
/-- the names in each object that is written out -/
def literals : Term → List (List Name)
  | bool _ => []
  | number _ => []
  | ite c a b => c.literals ++ (a.literals ++ b.literals)
  | add l r => l.literals ++ r.literals
  | var _ => []
  | func _ b => b.literals
  | call f as => f.literals ++ literalsArgs as
  | seq a r => a.literals ++ r.literals
  | const _ a r => a.literals ++ r.literals
  | object ps => ps.map Prod.fst :: literalsProps ps
  | get o _ => o.literals
  | recFunc _ _ _ b r => b.literals ++ r.literals
def literalsArgs : List Term → List (List Name)
  | [] => []
  | a :: as => a.literals ++ literalsArgs as
def literalsProps : List (Name × Term) → List (List Name)
  | [] => []
  | (_, a) :: ps => a.literals ++ literalsProps ps
end

structure WellFormed (m : Term) : Prop where
  annotations : ∀ t ∈ m.annotations, t.WellFormed
  literals : ∀ names ∈ m.literals, names.Nodup

instance (m : Term) : Decidable m.WellFormed :=
  decidable_of_iff ((∀ t ∈ m.annotations, t.WellFormed) ∧ ∀ names ∈ m.literals, names.Nodup)
    ⟨fun h => ⟨h.1, h.2⟩, fun h => ⟨h.1, h.2⟩⟩

/-! ## parts -/

section
variable {P : Ty → Prop} {L : List Name → Prop}

/-- types and lists of names that are all of some kind -/
def Allowed (P : Ty → Prop) (L : List Name → Prop) (types : List Ty) (objects : List (List Name)) :
    Prop :=
  (∀ t ∈ types, P t) ∧ ∀ names ∈ objects, L names

/-- the types written in the term are of some kind, and so are the names of its objects -/
def Built (P : Ty → Prop) (L : List Name → Prop) (m : Term) : Prop :=
  Allowed P L m.annotations m.literals

theorem allowed_append {ts us : List Ty} {ls ks : List (List Name)} :
    Allowed P L (ts ++ us) (ls ++ ks) ↔ Allowed P L ts ls ∧ Allowed P L us ks := by
  show (∀ t ∈ ts ++ us, _) ∧ (∀ names ∈ ls ++ ks, _) ↔ _
  rw [List.forall_mem_append, List.forall_mem_append]
  exact and_and_and_comm

theorem allowed_type {t : Ty} : Allowed P L [t] [] ↔ P t := by
  simp [Allowed]

theorem allowed_names {names : List Name} : Allowed P L [] [names] ↔ L names := by
  simp [Allowed]

theorem allowed_row {ps : Row} : Allowed P L (ps.map Prod.snd) [] ↔ ∀ p ∈ ps, P p.2 := by
  show (∀ t ∈ ps.map Prod.snd, _) ∧ _ ↔ _
  rw [List.forall_mem_map]
  exact and_iff_left (List.forall_mem_nil _)

theorem allowed_args {as : List Term} :
    Allowed P L (annotationsArgs as) (literalsArgs as) ↔ ∀ a ∈ as, a.Built P L := by
  induction as with
  | nil => exact iff_of_true ⟨List.forall_mem_nil _, List.forall_mem_nil _⟩ (List.forall_mem_nil _)
  | cons a as ih =>
    rw [List.forall_mem_cons, ← ih]
    exact allowed_append

theorem allowed_props {ps : List (Name × Term)} :
    Allowed P L (annotationsProps ps) (literalsProps ps) ↔ ∀ p ∈ ps, p.2.Built P L := by
  induction ps with
  | nil => exact iff_of_true ⟨List.forall_mem_nil _, List.forall_mem_nil _⟩ (List.forall_mem_nil _)
  | cons p ps ih =>
    rw [List.forall_mem_cons, ← ih]
    exact allowed_append

theorem built_ite {c a b : Term} :
    (ite c a b).Built P L ↔ c.Built P L ∧ a.Built P L ∧ b.Built P L :=
  allowed_append.trans (and_congr_right' allowed_append)

theorem built_add {l r : Term} : (add l r).Built P L ↔ l.Built P L ∧ r.Built P L :=
  allowed_append

theorem built_func {ps : Row} {b : Term} :
    (func ps b).Built P L ↔ (∀ p ∈ ps, P p.2) ∧ b.Built P L := by
  rw [← allowed_row (P := P) (L := L)]
  show Allowed P L _ ([] ++ b.literals) ↔ _
  exact allowed_append

theorem built_call {f : Term} {as : List Term} :
    (call f as).Built P L ↔ f.Built P L ∧ ∀ a ∈ as, a.Built P L := by
  rw [← allowed_args]
  exact allowed_append

theorem built_seq {a r : Term} : (seq a r).Built P L ↔ a.Built P L ∧ r.Built P L :=
  allowed_append

theorem built_const {x : Name} {a r : Term} :
    (const x a r).Built P L ↔ a.Built P L ∧ r.Built P L :=
  allowed_append

theorem built_object {ps : List (Name × Term)} :
    (object ps).Built P L ↔ L (ps.map Prod.fst) ∧ ∀ p ∈ ps, p.2.Built P L := by
  rw [← allowed_names (P := P) (L := L), ← allowed_props]
  show Allowed P L ([] ++ annotationsProps ps) ([ps.map Prod.fst] ++ literalsProps ps) ↔ _
  exact allowed_append

theorem built_get {o : Term} {x : Name} : (get o x).Built P L ↔ o.Built P L := Iff.rfl

theorem built_recFunc {f : Name} {ps : Row} {t : Ty} {b r : Term} :
    (recFunc f ps t b r).Built P L ↔
      (∀ p ∈ ps, P p.2) ∧ P t ∧ b.Built P L ∧ r.Built P L := by
  rw [← allowed_row (P := P) (L := L), ← allowed_type (P := P) (L := L)]
  show Allowed P L (ps.map Prod.snd ++ ([t] ++ (b.annotations ++ r.annotations)))
    ([] ++ ([] ++ (b.literals ++ r.literals))) ↔ _
  rw [allowed_append, allowed_append, allowed_append]
  exact Iff.rfl

end

/-! ## parts of well-formed terms -/

theorem wellFormed_iff {m : Term} : m.WellFormed ↔ m.Built Ty.WellFormed List.Nodup :=
  ⟨fun h => ⟨h.1, h.2⟩, fun h => ⟨h.1, h.2⟩⟩

theorem wellFormed_ite {c a b : Term} :
    (ite c a b).WellFormed ↔ c.WellFormed ∧ a.WellFormed ∧ b.WellFormed := by
  simp only [wellFormed_iff, built_ite]

theorem wellFormed_add {l r : Term} : (add l r).WellFormed ↔ l.WellFormed ∧ r.WellFormed := by
  simp only [wellFormed_iff, built_add]

theorem wellFormed_func {ps : Row} {b : Term} :
    (func ps b).WellFormed ↔ (∀ p ∈ ps, p.2.WellFormed) ∧ b.WellFormed := by
  simp only [wellFormed_iff, built_func]

theorem wellFormed_call {f : Term} {as : List Term} :
    (call f as).WellFormed ↔ f.WellFormed ∧ ∀ a ∈ as, a.WellFormed := by
  simp only [wellFormed_iff, built_call]

theorem wellFormed_seq {a r : Term} : (seq a r).WellFormed ↔ a.WellFormed ∧ r.WellFormed := by
  simp only [wellFormed_iff, built_seq]

theorem wellFormed_const {x : Name} {a r : Term} :
    (const x a r).WellFormed ↔ a.WellFormed ∧ r.WellFormed := by
  simp only [wellFormed_iff, built_const]

theorem wellFormed_object {ps : List (Name × Term)} :
    (object ps).WellFormed ↔ (ps.map Prod.fst).Nodup ∧ ∀ p ∈ ps, p.2.WellFormed := by
  simp only [wellFormed_iff, built_object]

theorem wellFormed_get {o : Term} {x : Name} : (get o x).WellFormed ↔ o.WellFormed := by
  simp only [wellFormed_iff, built_get]

theorem wellFormed_recFunc {f : Name} {ps : Row} {t : Ty} {b r : Term} :
    (recFunc f ps t b r).WellFormed ↔
      (∀ p ∈ ps, p.2.WellFormed) ∧ t.WellFormed ∧ b.WellFormed ∧ r.WellFormed := by
  simp only [wellFormed_iff, built_recFunc]

end Term

end Equirec
