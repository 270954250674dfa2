import Mathlib.Data.List.Basic
import Equirec.Proofs.Ty.Alpha

/-!
# The types a type leads to

A type leads to its parts, and a `mu` to its unfolding.  Unfolding puts copies of the whole type
into its body, so the types on such a way get larger and smaller; still there are only finitely
many of them, at most one for each node of the type as it is written.  This holds as long as no `mu`
is turned that has the name of a free variable: such names are held, and their `mu`s are not gone
into.

* `Ty.Leads`              one step: to a parameter, a result, a property or an unfolding
* `Ty.nodes`              the nodes of a type that are below no held `mu`, each with the binders
                          around it put in
* `Ty.length_nodes_le`    there are at most as many as the type has nodes
* `Ty.exists_inst_of_mem_nodes`
                          each is a part of the type with types put in
* `Ty.mem_freeVars_of_mem_nodes`
                          what is free in a node is free in the type
* `Ty.mem_nodes_or_held`  the nodes of a type lead to nodes of it, except for the held `mu`s
* `Ty.mem_nodes_of_leads` the nodes of a closed type lead to nodes of it
* `Ty.depth`              the layers of constructors in front of the next binder or variable
* `Ty.depth_le_size_of_mem`
                          no node has more layers than the type has nodes
* `Ty.Recognizable.alphaEq_of_mem_nodes`
                          the nodes of a recognizable type are known again
-/

namespace Equirec.Ty

/-- one step down a type, or one turn of a `mu` -/
inductive Leads : Ty → Ty → Prop
  | param {ps : Row} {r : Ty} {p : Name × Ty} (h : p ∈ ps) : Leads (func ps r) p.2
  | result {ps : Row} {r : Ty} : Leads (func ps r) r
  | prop {ps : Row} {p : Name × Ty} (h : p ∈ ps) : Leads (object ps) p.2
  | turn {x : Name} {b : Ty} : Leads (mu x b) (mu x b).unfold

/-- what is free in a part or an unfolding is free in the type -/
theorem mem_freeVars_of_leads {t u : Ty} (h : t.Leads u) {x : Name} (hx : x ∈ u.freeVars) :
    x ∈ t.freeVars := by
  cases h with
  | param h => exact mem_freeVars_func.mpr (.inl ⟨_, h, hx⟩)
  | result => exact mem_freeVars_func.mpr (.inr hx)
  | prop h => exact mem_freeVars_object.mpr ⟨_, h, hx⟩
  | turn => exact mem_freeVars_unfold hx

theorem Closed.of_leads {t u : Ty} (ht : t.Closed) (h : t.Leads u) : u.Closed :=
  closed_iff.mpr fun y hy => ht.not_mem y (mem_freeVars_of_leads h hy)

theorem Distinct.of_leads {t u : Ty} (ht : t.Distinct) (h : t.Leads u) : u.Distinct := by
  cases h with
  | param h => exact (allObjects_func.mp ht).1 _ h
  | result => exact (allObjects_func.mp ht).2
  | prop h => exact (allObjects_object.mp ht).2 _ h
  | turn => exact ht.unfold

/-! ## nodes -/

mutual
/-- the nodes of a type, below each `mu` with the whole of it in the place of its variable; the
`mu`s of held names are nodes, and nothing below them is -/
def nodes (held : List Name) : Assignment → Ty → List Ty
  | _, boolean => [boolean]
  | _, number => [number]
  | σ, func ps r => (func ps r).inst σ :: (nodesRow held σ ps ++ r.nodes held σ)
  | σ, object ps => (object ps).inst σ :: nodesRow held σ ps
  | σ, var x => [(var x).inst σ]
  | σ, mu x b =>
    (mu x b).inst σ :: if x ∈ held then [] else b.nodes held (σ.set x ((mu x b).inst σ))
def nodesRow (held : List Name) : Assignment → Row → List Ty
  | _, [] => []
  | σ, (_, t) :: ps => t.nodes held σ ++ nodesRow held σ ps
end

variable {held : List Name}

theorem mem_nodesRow {σ : Assignment} {ps : Row} {s : Ty} :
    s ∈ nodesRow held σ ps ↔ ∃ p ∈ ps, s ∈ p.2.nodes held σ := by
  induction ps with
  | nil => exact iff_of_false List.not_mem_nil (by simp)
  | cons p ps ih =>
    show s ∈ p.2.nodes held σ ++ nodesRow held σ ps ↔ _
    rw [List.mem_append, ih, List.exists_mem_cons_iff]

theorem mem_nodes_func {σ : Assignment} {ps : Row} {r s : Ty} :
    s ∈ (func ps r).nodes held σ ↔
      s = (func ps r).inst σ ∨ (∃ p ∈ ps, s ∈ p.2.nodes held σ) ∨ s ∈ r.nodes held σ := by
  show s ∈ (func ps r).inst σ :: (nodesRow held σ ps ++ r.nodes held σ) ↔ _
  rw [List.mem_cons, List.mem_append, mem_nodesRow]

theorem mem_nodes_object {σ : Assignment} {ps : Row} {s : Ty} :
    s ∈ (object ps).nodes held σ ↔ s = (object ps).inst σ ∨ ∃ p ∈ ps, s ∈ p.2.nodes held σ := by
  show s ∈ (object ps).inst σ :: nodesRow held σ ps ↔ _
  rw [List.mem_cons, mem_nodesRow]

theorem mem_nodes_mu {σ : Assignment} {x : Name} {b s : Ty} :
    s ∈ (mu x b).nodes held σ ↔
      s = (mu x b).inst σ ∨ x ∉ held ∧ s ∈ b.nodes held (σ.set x ((mu x b).inst σ)) := by
  show s ∈ (mu x b).inst σ :: (if x ∈ held then [] else _) ↔ _
  by_cases h : x ∈ held
  · rw [if_pos h, List.mem_singleton]
    exact (or_iff_left fun hs => hs.1 h).symm
  · rw [if_neg h, List.mem_cons]
    exact or_congr_right (and_iff_right h).symm

theorem length_nodesRow_le {σ : Assignment} {ps : Row}
    (h : ∀ p ∈ ps, (p.2.nodes held σ).length ≤ p.2.size) :
    (nodesRow held σ ps).length ≤ sizeRow ps := by
  refine Row.induct ps h (Nat.le_refl 0) fun p ps hp ih => ?_
  show (p.2.nodes held σ ++ nodesRow held σ ps).length ≤ p.2.size + sizeRow ps
  rw [List.length_append]
  exact Nat.add_le_add hp ih

theorem length_nodes_le (t : Ty) (σ : Assignment) : (t.nodes held σ).length ≤ t.size := by
  induction t generalizing σ with
  | func ps r hps hr =>
    show (nodesRow held σ ps ++ r.nodes held σ).length + 1 ≤ sizeRow ps + r.size + 1
    rw [List.length_append]
    have hrow := length_nodesRow_le fun p hp => hps p hp σ
    have hres := hr σ
    omega
  | object ps hps => exact Nat.succ_le_succ (length_nodesRow_le fun p hp => hps p hp σ)
  | mu x b hb =>
    show (if x ∈ held then [] else b.nodes held _).length + 1 ≤ b.size + 1
    by_cases h : x ∈ held
    · rw [if_pos h]
      exact Nat.succ_le_succ (Nat.zero_le _)
    · rw [if_neg h]
      exact Nat.succ_le_succ (hb _)
  | _ => exact Nat.le_refl 1

theorem inst_mem_nodes (t : Ty) (σ : Assignment) : t.inst σ ∈ t.nodes held σ := by
  cases t <;> exact List.mem_cons_self ..

/-- each node is a part of the type with types put in, and what passes on to parts, and to the body
of a `mu` as the `mu` itself is put in, has come down to it -/
theorem exists_inst_of_mem_nodes {P : Assignment → Ty → Prop}
    (part : ∀ σ t u, t.isMu = false → Leads t u → P σ t → P σ u)
    (body : ∀ σ x b, x ∉ held → P σ (mu x b) → P (σ.set x ((mu x b).inst σ)) b) {σ : Assignment}
    {t s : Ty} (h : P σ t) (hs : s ∈ t.nodes held σ) : ∃ τ u, P τ u ∧ s = u.inst τ := by
  induction t generalizing σ with
  | func ps r hps hr =>
    rcases mem_nodes_func.mp hs with e | ⟨p, hp, hs⟩ | hs
    · exact ⟨σ, _, h, e⟩
    · exact hps p hp (part _ _ _ rfl (.param hp) h) hs
    · exact hr (part _ _ _ rfl .result h) hs
  | object ps hps =>
    rcases mem_nodes_object.mp hs with e | ⟨p, hp, hs⟩
    · exact ⟨σ, _, h, e⟩
    · exact hps p hp (part _ _ _ rfl (.prop hp) h) hs
  | mu x b hb =>
    rcases mem_nodes_mu.mp hs with e | ⟨hx, hs⟩
    · exact ⟨σ, _, h, e⟩
    · exact hb (body _ _ _ hx h) hs
  | _ => exact ⟨σ, _, h, List.mem_singleton.mp hs⟩

/-! ## the types put in -/

/-- types are put in for all variables that are free in the type and not held, and leave none free
but held ones -/
structure Fills (held : List Name) (σ : Assignment) (t : Ty) : Prop where
  within : σ.Within held
  isSome : ∀ y ∈ t.freeVars, y ∈ held ∨ (σ y).isSome

theorem Fills.none {t : Ty} (ht : ∀ y ∈ t.freeVars, y ∈ held) : Fills held .none t :=
  ⟨.none, fun y hy => .inl (ht y hy)⟩

theorem Fills.part {σ : Assignment} {t u : Ty} (h : Fills held σ t) (hu : Leads t u) :
    Fills held σ u :=
  ⟨h.within, fun y hy => h.isSome y (mem_freeVars_of_leads hu hy)⟩

theorem Fills.mem_freeVars {σ : Assignment} {t : Ty} (h : Fills held σ t) :
    ∀ y ∈ (t.inst σ).freeVars, y ∈ held :=
  mem_of_mem_freeVars_inst h.within h.isSome

/-- a variable that is free in the body of a `mu` has a type once the `mu` itself is put in -/
theorem Fills.body {σ : Assignment} {x : Name} {b : Ty} (h : Fills held σ (mu x b)) :
    Fills held (σ.set x ((mu x b).inst σ)) b := by
  refine ⟨h.within.set x h.mem_freeVars, fun y hy => ?_⟩
  by_cases e : y = x
  · rw [e, Assignment.set_self]
    exact .inr rfl
  · rw [Assignment.set_of_ne σ e]
    exact h.isSome y (mem_freeVars_mu.mpr ⟨hy, e⟩)

theorem mem_freeVars_of_mem_nodes {t s : Ty} (ht : ∀ y ∈ t.freeVars, y ∈ held)
    (hs : s ∈ t.nodes held .none) : ∀ y ∈ s.freeVars, y ∈ held := by
  obtain ⟨τ, u, hu, rfl⟩ := exists_inst_of_mem_nodes (P := Fills held)
    (fun _ _ _ _ hl h => h.part hl) (fun _ _ _ _ h => h.body) (.none ht) hs
  exact hu.mem_freeVars

/-! ## the nodes lead to nodes -/

/-- the type is a `mu` of a held name -/
def Held (held : List Name) (t : Ty) : Prop := ∃ x ∈ held, ∃ b, t = mu x b

/-- a set of types that holds the nodes of a type, and what the types put in lead to -/
structure Holds (held : List Name) (C : Ty → Prop) (σ : Assignment) (t : Ty) : Prop where
  fills : Fills held σ t
  nodes : ∀ s ∈ t.nodes held σ, C s
  leads : ∀ x s, σ x = some s → ∀ u, Leads s u → C u

theorem Holds.of_leads_inst {C : Ty → Prop} {σ : Assignment} {t u : Ty} (h : Holds held C σ t)
    (hu : Leads (t.inst σ) u) : C u ∨ (t.inst σ).Held held := by
  cases t with
  | boolean => cases hu
  | number => cases hu
  | func ps r =>
    change Leads (func (instRow σ ps) (r.inst σ)) u at hu
    cases hu with
    | param hp =>
      obtain ⟨q, hq, rfl⟩ := mem_instRow.mp hp
      exact .inl (h.nodes _ (mem_nodes_func.mpr (.inr (.inl ⟨q, hq, inst_mem_nodes q.2 σ⟩))))
    | result => exact .inl (h.nodes _ (mem_nodes_func.mpr (.inr (.inr (inst_mem_nodes r σ)))))
  | object ps =>
    change Leads (object (instRow σ ps)) u at hu
    cases hu with
    | prop hp =>
      obtain ⟨q, hq, rfl⟩ := mem_instRow.mp hp
      exact .inl (h.nodes _ (mem_nodes_object.mpr (.inr ⟨q, hq, inst_mem_nodes q.2 σ⟩)))
  | var x =>
    cases hx : σ x with
    | some v =>
      rw [inst_var_of_some hx] at hu
      exact .inl (h.leads x v hx u hu)
    | none =>
      rw [inst_var_of_none hx] at hu
      cases hu
  | mu x b =>
    by_cases hx : x ∈ held
    · exact .inr ⟨x, hx, b.inst (σ.hide x), rfl⟩
    · change Leads (mu x (b.inst (σ.hide x))) u at hu
      cases hu with
      | turn =>
        -- the unfolding of the `mu` is its body with one more type put in
        rw [unfold_mu, subst_inst h.fills.within b hx]
        exact .inl (h.nodes _ (mem_nodes_mu.mpr (.inr ⟨hx, inst_mem_nodes b _⟩)))

theorem Holds.part {C : Ty → Prop} {σ : Assignment} {t u : Ty} (h : Holds held C σ t)
    (ht : t.isMu = false) (hu : Leads t u) : Holds held C σ u := by
  refine ⟨h.fills.part hu, fun s hs => h.nodes s ?_, h.leads⟩
  cases hu with
  | param hp => exact mem_nodes_func.mpr (.inr (.inl ⟨_, hp, hs⟩))
  | result => exact mem_nodes_func.mpr (.inr (.inr hs))
  | prop hp => exact mem_nodes_object.mpr (.inr ⟨_, hp, hs⟩)
  | turn => exact absurd ht (by simp [isMu])

theorem Holds.body {C : Ty → Prop} {σ : Assignment} {x : Name} {b : Ty} (hx : x ∉ held)
    (h : Holds held C σ (mu x b)) : Holds held C (σ.set x ((mu x b).inst σ)) b := by
  refine ⟨h.fills.body, fun s hs => h.nodes s (mem_nodes_mu.mpr (.inr ⟨hx, hs⟩)),
    Assignment.forall_set h.leads fun u hu => (h.of_leads_inst hu).resolve_right ?_⟩
  rintro ⟨y, hy, c, e⟩
  obtain ⟨rfl, _⟩ := mu.inj e
  exact hx hy

theorem mem_nodes_or_held {t s u : Ty} (ht : ∀ y ∈ t.freeVars, y ∈ held)
    (hs : s ∈ t.nodes held .none) (hu : Leads s u) : u ∈ t.nodes held .none ∨ s.Held held := by
  have h : Holds held (· ∈ t.nodes held .none) .none t :=
    ⟨.none ht, fun _ h => h, Assignment.forall_none⟩
  obtain ⟨τ, v, hv, rfl⟩ := exists_inst_of_mem_nodes (P := Holds held (· ∈ t.nodes held .none))
    (fun _ _ _ hm hl h => h.part hm hl) (fun _ _ _ hx h => h.body hx) h hs
  exact hv.of_leads_inst hu

theorem mem_nodes_of_leads {t s u : Ty} (ht : t.Closed) (hs : s ∈ t.nodes [] .none)
    (hu : Leads s u) : u ∈ t.nodes [] .none :=
  (mem_nodes_or_held (fun y hy => absurd hy (ht.not_mem y)) hs hu).resolve_right
    fun ⟨_, hx, _⟩ => absurd hx List.not_mem_nil

theorem self_mem_nodes (t : Ty) : t ∈ t.nodes held .none := by
  have h : t.inst .none ∈ t.nodes held .none := inst_mem_nodes t .none
  rwa [inst_none] at h

/-! ## layers -/

mutual
def depth : Ty → Nat
  | boolean => 0
  | number => 0
  | func ps r => max (depthRow ps) r.depth + 1
  | object ps => depthRow ps + 1
  | var _ => 0
  | mu _ _ => 0
def depthRow : Row → Nat
  | [] => 0
  | (_, t) :: ps => max t.depth (depthRow ps)
end

theorem depth_le_depthRow {ps : Row} {p : Name × Ty} (h : p ∈ ps) : p.2.depth ≤ depthRow ps := by
  induction ps with
  | nil => exact absurd h List.not_mem_nil
  | cons q ps ih =>
    show p.2.depth ≤ max q.2.depth (depthRow ps)
    rcases List.mem_cons.mp h with rfl | h
    · exact Nat.le_max_left ..
    · exact Nat.le_trans (ih h) (Nat.le_max_right ..)

theorem depth_lt_of_leads {s u : Ty} (h : Leads s u) (hs : s.isMu = false) :
    u.depth < s.depth := by
  cases h with
  | @param ps r p h =>
    show p.2.depth < max (depthRow ps) r.depth + 1
    have := depth_le_depthRow h
    omega
  | @result ps =>
    show u.depth < max (depthRow ps) u.depth + 1
    omega
  | @prop ps p h => exact Nat.lt_succ_of_le (depth_le_depthRow h)
  | turn => exact absurd hs (by simp [isMu])

theorem depthRow_instRow {σ : Assignment} {ps : Row}
    (h : ∀ p ∈ ps, (p.2.inst σ).depth = p.2.depth) : depthRow (instRow σ ps) = depthRow ps := by
  refine Row.induct ps h rfl fun p ps hp ih => ?_
  show max (p.2.inst σ).depth (depthRow (instRow σ ps)) = max p.2.depth (depthRow ps)
  rw [hp, ih]

theorem depth_inst {σ : Assignment} (hσ : ∀ x s, σ x = some s → s.depth = 0) (t : Ty) :
    (t.inst σ).depth = t.depth := by
  induction t with
  | boolean => rfl
  | number => rfl
  | func ps r hps hr =>
    show max (depthRow (instRow σ ps)) (r.inst σ).depth + 1 = max (depthRow ps) r.depth + 1
    rw [depthRow_instRow hps, hr]
  | object ps hps => exact congrArg (· + 1) (depthRow_instRow hps)
  | var x =>
    cases h : σ x with
    | none => rw [inst_var_of_none h]
    | some s =>
      rw [inst_var_of_some h, hσ x s h]
      rfl
  | mu x b _ => rfl

theorem depthRow_le_sizeRow {ps : Row} (h : ∀ p ∈ ps, p.2.depth ≤ p.2.size) :
    depthRow ps ≤ sizeRow ps := by
  refine Row.induct ps h (Nat.le_refl 0) fun p ps hp ih => ?_
  show max p.2.depth (depthRow ps) ≤ p.2.size + sizeRow ps
  omega

theorem depth_le_size (t : Ty) : t.depth ≤ t.size := by
  induction t with
  | func ps r hps hr =>
    show max (depthRow ps) r.depth + 1 ≤ sizeRow ps + r.size + 1
    have := depthRow_le_sizeRow hps
    omega
  | object ps hps => exact Nat.succ_le_succ (depthRow_le_sizeRow hps)
  | _ => exact Nat.zero_le _

theorem size_lt_of_leads {t u : Ty} (h : Leads t u) (ht : t.isMu = false) : u.size < t.size := by
  cases h with
  | @param ps r p hp =>
    show p.2.size < sizeRow ps + r.size + 1
    have := size_le_sizeRow hp
    omega
  | @result ps =>
    show u.size < sizeRow ps + u.size + 1
    omega
  | prop hp => exact Nat.lt_succ_of_le (size_le_sizeRow hp)
  | turn => exact absurd ht (by simp [isMu])

theorem depth_le_size_of_mem {t s : Ty} (hs : s ∈ t.nodes held .none) : s.depth ≤ t.size := by
  have hpart : ∀ (σ : Assignment) (u v : Ty), u.isMu = false → Leads u v →
      (∀ x s, σ x = some s → s.depth = 0) ∧ u.size ≤ t.size →
      (∀ x s, σ x = some s → s.depth = 0) ∧ v.size ≤ t.size := fun σ u v hm hl h =>
    ⟨h.1, Nat.le_trans (Nat.le_of_lt (size_lt_of_leads hl hm)) h.2⟩
  -- the `mu`s that are put in have no layer in front of them
  obtain ⟨τ, u, ⟨hτ, hu⟩, rfl⟩ := exists_inst_of_mem_nodes hpart
    (fun _ _ _ _ h => ⟨Assignment.forall_set h.1 rfl, Nat.le_of_succ_le h.2⟩)
    ⟨Assignment.forall_none, Nat.le_refl _⟩ hs
  rw [depth_inst hτ]
  exact Nat.le_trans (depth_le_size u) hu

/-! ## the nodes are known again -/

theorem Recognizable.part {t u : Ty} (ht : t.Recognizable) (hm : t.isMu = false)
    (h : Leads t u) : u.Recognizable := by
  cases h with
  | param hp => exact (allObjects_func.mp ht).1 _ hp
  | result => exact (allObjects_func.mp ht).2
  | prop hp => exact (allObjects_object.mp ht).2 _ hp
  | turn => exact absurd hm (by simp [isMu])

/-- recognizable types, and types put in that are known again -/
structure Known (σ : Assignment) (t : Ty) : Prop where
  fills : Fills [] σ t
  recognizable : t.Recognizable
  self : ∀ x s, σ x = some s → s.alphaEq s = true

theorem Known.alphaEq_inst {σ : Assignment} {t : Ty} (h : Known σ t) :
    (t.inst σ).alphaEq (t.inst σ) = true := by
  refine alphaUnder_inst h.recognizable.alphaEq_self fun v _ w _ hm => ?_
  obtain rfl := (varsMatch_nil v w).mp hm
  cases hv : σ v with
  | none => exact .inl ⟨rfl, rfl, hm⟩
  | some s =>
    have hs : s.Closed := closed_iff.mpr fun y hy =>
      absurd (h.fills.within v s hv y hy) List.not_mem_nil
    exact .inr ⟨s, s, rfl, rfl, alphaUnder_of_closed hs (h.self v s hv)⟩

theorem Known.part {σ : Assignment} {t u : Ty} (h : Known σ t) (ht : t.isMu = false)
    (hu : Leads t u) : Known σ u :=
  ⟨h.fills.part hu, h.recognizable.part ht hu, h.self⟩

theorem Known.body {σ : Assignment} {x : Name} {b : Ty} (h : Known σ (mu x b)) :
    Known (σ.set x ((mu x b).inst σ)) b :=
  ⟨h.fills.body, allObjects_mu.mp h.recognizable, Assignment.forall_set h.self h.alphaEq_inst⟩

theorem Recognizable.alphaEq_of_mem_nodes {t s : Ty} (ht : t.Recognizable) (hc : t.Closed)
    (hs : s ∈ t.nodes [] .none) : s.alphaEq s = true := by
  have h : Known .none t :=
    ⟨.none fun y hy => absurd hy (hc.not_mem y), ht, Assignment.forall_none⟩
  obtain ⟨τ, u, hu, rfl⟩ := exists_inst_of_mem_nodes (P := Known)
    (fun _ _ _ hm hl h => h.part hm hl) (fun _ _ _ _ h => h.body) h hs
  exact hu.alphaEq_inst

end Equirec.Ty
