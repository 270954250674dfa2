import Equirec.Proofs.Tree
import Equirec.Proofs.Ty.Alpha

/-!
# Types without the names of binders

A variable that is bound is written as the number of binders between it and its own one, and a
binder without a name.  What is left are the names of free variables and those of properties.

* `Nameless`             types without the names of binders and parameters; the properties of an
                         object are a map from names
* `Ty.nameless`          the nameless form of a type
* `varsMatch_iff`        two variables belong together under pairs of binders if they are the same
                         reference on both sides
* `Ty.alphaUnder_iff`    types with distinct names agree if they have the same nameless form
* `Ty.alphaEq_iff_nameless`
                         so agreement up to the names of binders is an equivalence of such types
-/

namespace Equirec

/-- what a variable stands for: a binder, by the number of binders in between, or its own name -/
inductive Reference where
  | bound (between : Nat)
  | free (name : Name)
  deriving DecidableEq

inductive Nameless where
  | boolean
  | number
  | func (params : List Nameless) (result : Nameless)
  | object (props : Name → Option Nameless)
  | var (target : Reference)
  | mu (body : Nameless)

/-! ## references -/

namespace Reference

/-- the reference of a variable below binders of these names, the innermost first -/
def of (names : List Name) (x : Name) : Reference :=
  match names.idxOf? x with
  | some i => bound i
  | none => free x

/-- the same reference below one more binder -/
def further : Reference → Reference
  | bound i => bound (i + 1)
  | free x => free x

theorem of_nil (x : Name) : of [] x = free x := rfl

theorem of_cons_self (x : Name) (names : List Name) : of (x :: names) x = bound 0 := by
  rw [of, List.idxOf?_cons, if_pos (beq_self_eq_true x)]

theorem of_cons_of_ne {x y : Name} (h : y ≠ x) (names : List Name) :
    of (x :: names) y = (of names y).further := by
  have hb : (x == y) = false := beq_eq_false_iff_ne.mpr (Ne.symm h)
  rw [of, of, List.idxOf?_cons, hb]
  cases names.idxOf? y <;> rfl

theorem further_inj {r s : Reference} : r.further = s.further ↔ r = s := by
  cases r <;> cases s <;> simp [further]

theorem further_ne_bound_zero (r : Reference) : r.further ≠ bound 0 := by
  cases r <;> simp [further]

end Reference

/-- the innermost pair that binds one of two variables binds both of them if and only if they are
the same number of binders away from their own ones -/
theorem varsMatch_iff {bound : List (Name × Name)} {v w : Name} :
    Ty.varsMatch bound v w = true ↔
      Reference.of (bound.map Prod.fst) v = Reference.of (bound.map Prod.snd) w := by
  induction bound with
  | nil => rw [Ty.varsMatch_nil, List.map_nil, List.map_nil, Reference.of_nil, Reference.of_nil,
      Reference.free.injEq]
  | cons b bound ih =>
    obtain ⟨x, y⟩ := b
    rw [Ty.varsMatch_cons_iff, ih, List.map_cons, List.map_cons]
    by_cases hx : v = x <;> by_cases hy : w = y
    · rw [hx, hy, Reference.of_cons_self, Reference.of_cons_self]
      simp
    · rw [hx, Reference.of_cons_self, Reference.of_cons_of_ne hy]
      simp [hy, (Reference.further_ne_bound_zero _).symm]
    · rw [hy, Reference.of_cons_self, Reference.of_cons_of_ne hx]
      simp [hx, Reference.further_ne_bound_zero]
    · rw [Reference.of_cons_of_ne hx, Reference.of_cons_of_ne hy, Reference.further_inj]
      simp [hx, hy]

namespace Ty

/-! ## nameless forms -/

mutual
/-- the nameless form below binders of these names, the innermost first -/
def namelessUnder (names : List Name) : Ty → Nameless
  | boolean => .boolean
  | number => .number
  | func ps r => .func (namelessParams names ps) (namelessUnder names r)
  | object ps => .object (namelessProps names ps)
  | var x => .var (.of names x)
  | mu x b => .mu (namelessUnder (x :: names) b)
def namelessParams (names : List Name) : Row → List Nameless
  | [] => []
  | (_, t) :: ps => namelessUnder names t :: namelessParams names ps
def namelessProps (names : List Name) : Row → Name → Option Nameless
  | [], _ => none
  | (x, t) :: ps, y => if y = x then some (namelessUnder names t) else namelessProps names ps y
end

def nameless (t : Ty) : Nameless := namelessUnder [] t

theorem namelessParams_eq_map (names : List Name) (ps : Row) :
    namelessParams names ps = ps.map fun p => namelessUnder names p.2 := by
  induction ps with
  | nil => rfl
  | cons p ps ih =>
    rw [List.map_cons, ← ih]
    rfl

theorem namelessProps_eq_lookup (names : List Name) (ps : Row) (y : Name) :
    namelessProps names ps y = (ps.lookup y).map (namelessUnder names) := by
  induction ps with
  | nil => rfl
  | cons p ps ih =>
    rw [lookup_cons_ite, namelessProps, ih]
    split <;> rfl

end Ty

/-! ## rows -/

section
variable {names names' : List Name} {bound : List (Name × Name)} {ps qs : Row}

theorem Ty.namelessParams_eq_iff :
    namelessParams names ps = namelessParams names' qs ↔ ps.length = qs.length ∧
      ∀ p ∈ ps.zip qs, namelessUnder names p.1.2 = namelessUnder names' p.2.2 := by
  rw [namelessParams_eq_map, namelessParams_eq_map]
  induction ps generalizing qs with
  | nil =>
    cases qs with
    | nil => simp
    | cons q qs => simp
  | cons p ps ih =>
    cases qs with
    | nil => simp
    | cons q qs =>
      rw [List.map_cons, List.map_cons, List.cons.injEq, ih, List.zip_cons_cons,
        List.forall_mem_cons, List.length_cons, List.length_cons, Nat.add_right_cancel_iff,
        and_left_comm]

theorem Ty.isSome_namelessProps (names : List Name) (ps : Row) (x : Name) :
    (namelessProps names ps x).isSome ↔ x ∈ (Row.names ps).toFinset := by
  rw [namelessProps_eq_lookup, Option.isSome_map, Row.lookup_isSome_iff, List.mem_toFinset]
  exact Iff.rfl

/-- rows of distinct names are the same map if they are of one length and the members of one are
found in the other -/
theorem Ty.namelessProps_eq_iff (hps : (Row.names ps).Nodup) (hqs : (Row.names qs).Nodup) :
    namelessProps names ps = namelessProps names' qs ↔ ps.length = qs.length ∧
      ∀ p ∈ ps, ∃ u, qs.lookup p.1 = some u ∧ namelessUnder names p.2 = namelessUnder names' u := by
  constructor
  · intro h
    have hnames : (Row.names ps).toFinset = (Row.names qs).toFinset := by
      ext x
      rw [← isSome_namelessProps names, ← isSome_namelessProps names', h]
    refine ⟨((Row.toFinset_names_eq_iff hps hqs).mp hnames).1, fun p hp => ?_⟩
    have hx := congrFun h p.1
    rw [namelessProps_eq_lookup, namelessProps_eq_lookup, Row.lookup_of_mem hps hp,
      Option.map_some, eq_comm, Option.map_eq_some_iff] at hx
    obtain ⟨u, hu, e⟩ := hx
    exact ⟨u, hu, e.symm⟩
  · rintro ⟨hlen, h⟩
    have hnames : (Row.names ps).toFinset = (Row.names qs).toFinset :=
      Row.toFinset_names_eq hps hlen fun p hp => by
        obtain ⟨u, hu, _⟩ := h p hp
        exact Row.lookup_isSome_iff.mp (Option.isSome_of_eq_some hu)
    funext x
    cases hx : ps.lookup x with
    | some t =>
      obtain ⟨u, hu, e⟩ := h (x, t) (Row.mem_of_lookup hx)
      have hu : qs.lookup x = some u := hu
      rw [namelessProps_eq_lookup, namelessProps_eq_lookup, hx, hu]
      exact congrArg some e
    | none =>
      have hqs : ¬ (qs.lookup x).isSome := by
        rw [Row.lookup_isSome_iff, ← List.mem_toFinset]
        show x ∉ (Row.names qs).toFinset
        rw [← hnames, List.mem_toFinset]
        intro hmem
        have := Row.lookup_isSome_iff.mpr hmem
        rw [hx] at this
        exact Bool.noConfusion this
      rw [namelessProps_eq_lookup, namelessProps_eq_lookup, hx,
        Option.not_isSome_iff_eq_none.mp hqs]
      rfl

end

/-! ## agreement -/

namespace Ty

/-- the nameless forms of types with distinct names are the same below the left and the right
binders if and only if the types agree below the pairs of them -/
theorem alphaUnder_iff {bound : List (Name × Name)} {t u : Ty} (ht : t.Distinct)
    (hu : u.Distinct) :
    alphaUnder bound t u = true ↔
      namelessUnder (bound.map Prod.fst) t = namelessUnder (bound.map Prod.snd) u := by
  induction t generalizing bound u with
  | boolean | number =>
    cases u with
    | boolean | number => simp [alphaUnder, namelessUnder]
    | _ => exact iff_of_false Bool.false_ne_true (by simp [namelessUnder])
  | func ps r hps hr =>
    cases u with
    | func qs s =>
      obtain ⟨htps, htr⟩ := allObjects_func.mp ht
      obtain ⟨huqs, hus⟩ := allObjects_func.mp hu
      rw [alphaUnder_func_iff, hr htr hus, namelessUnder, namelessUnder, Nameless.func.injEq,
        namelessParams_eq_iff]
      refine and_congr_left' (and_congr_right' (forall₂_congr fun p hp => ?_))
      have hmem := List.of_mem_zip hp
      exact hps p.1 hmem.1 (htps p.1 hmem.1) (huqs p.2 hmem.2)
    | _ => exact iff_of_false Bool.false_ne_true (by simp [namelessUnder])
  | object ps hps =>
    cases u with
    | object qs =>
      obtain ⟨hnps, htps⟩ := allObjects_object.mp ht
      obtain ⟨hnqs, huqs⟩ := allObjects_object.mp hu
      rw [alphaUnder_object_iff, namelessUnder, namelessUnder, Nameless.object.injEq,
        namelessProps_eq_iff hnps hnqs]
      refine and_congr_right' (forall₂_congr fun p hp => exists_congr fun u => ?_)
      refine and_congr_right fun hlookup => ?_
      exact hps p hp (htps p hp) (huqs _ (Row.mem_of_lookup hlookup))
    | _ => exact iff_of_false Bool.false_ne_true (by simp [namelessUnder])
  | var x =>
    cases u with
    | var y =>
      rw [namelessUnder, namelessUnder, Nameless.var.injEq]
      exact varsMatch_iff
    | _ => exact iff_of_false Bool.false_ne_true (by simp [namelessUnder])
  | mu x b hb =>
    cases u with
    | mu y c =>
      rw [alphaUnder_mu, namelessUnder, namelessUnder, Nameless.mu.injEq]
      exact hb (allObjects_mu.mp ht) (allObjects_mu.mp hu)
    | _ => exact iff_of_false Bool.false_ne_true (by simp [namelessUnder])

/-- types with distinct names agree up to the names of binders if and only if their nameless forms
are the same, and so this agreement is an equivalence of such types -/
theorem alphaEq_iff_nameless :
    (∀ t u : Ty, t.Distinct → u.Distinct → (t.alphaEq u = true ↔ t.nameless = u.nameless)) ∧
      Equivalence fun t u : { t : Ty // t.Distinct } => t.val.alphaEq u.val = true := by
  have h : ∀ t u : Ty, t.Distinct → u.Distinct → (t.alphaEq u = true ↔ t.nameless = u.nameless) :=
    fun t u ht hu => alphaUnder_iff ht hu
  refine ⟨h, fun t => ?_, fun {t u} htu => ?_, fun {t u v} htu huv => ?_⟩
  · exact (h t t t.property t.property).mpr rfl
  · exact (h u t u.property t.property).mpr ((h t u t.property u.property).mp htu).symm
  · rw [h t u t.property u.property] at htu
    rw [h u v u.property v.property] at huv
    exact (h t v t.property v.property).mpr (htu.trans huv)

/-- binders with crossed names, a name that is bound again, parameters with other names and
properties in another order make no difference; a free variable that is caught does -/
theorem alphaEq_iff_nameless_crossed :
    let t := mu "a" (mu "b" (object [("p", func [("x", var "a")] (var "b")),
      ("q", mu "a" (var "a")), ("r", var "c")]))
    let u := mu "b" (mu "a" (object [("r", var "c"), ("q", mu "c" (var "c")),
      ("p", func [("y", var "b")] (var "a"))]))
    let v := mu "c" (mu "a" (object [("r", var "c"), ("q", mu "c" (var "c")),
      ("p", func [("y", var "c")] (var "a"))]))
    t.nameless = u.nameless ∧ t.nameless ≠ v.nameless := by
  intro t u v
  have htu := alphaEq_iff_nameless.1 t u (by decide) (by decide)
  have htv := alphaEq_iff_nameless.1 t v (by decide) (by decide)
  exact ⟨htu.mp (by decide), fun h => absurd (htv.mpr h) (by decide)⟩

end Ty

end Equirec
