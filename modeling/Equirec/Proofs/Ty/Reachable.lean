import Mathlib.Data.Set.Card
import Mathlib.Logic.Relation
import Equirec.Proofs.Ty.Regular

/-!
# The types that are reached from a type

Any number of steps, each to a part or to the unfolding of a `mu`, come from a closed type to its
nodes and to nothing else.  So they come to finitely many types, even where they never end and the
types on the way get larger than the one they start from.

* `Ty.reachable`                     the types that any number of steps come to
* `Ty.Leads.inst`, `Ty.leads_body`   a step to a part or to a body, with types put in
* `Ty.mem_reachable_of_mem_nodes`    every node is reached
* `Ty.mem_reachable_iff`             from a closed type nothing else is
* `Ty.reachable_regular`             they are at most as many as the type has nodes
-/

namespace Equirec.Ty

/-- the types that any number of steps come to -/
def reachable (t : Ty) : Set Ty := {u | Relation.ReflTransGen Leads t u}

variable {held : List Name} {σ : Assignment}

/-! ## the nodes are reached -/

theorem Leads.inst {t u : Ty} (h : Leads t u) (ht : t.isMu = false) (σ : Assignment) :
    Leads (t.inst σ) (u.inst σ) := by
  cases h with
  | @param ps r p hp =>
    have hq : (p.1, p.2.inst σ) ∈ instRow σ ps := mem_instRow.mpr ⟨p, hp, rfl⟩
    exact .param hq
  | result => exact .result
  | @prop ps p hp =>
    have hq : (p.1, p.2.inst σ) ∈ instRow σ ps := mem_instRow.mpr ⟨p, hp, rfl⟩
    exact .prop hq
  | turn => exact absurd ht (by simp [isMu])

/-- a `mu` with types put in is turned into its body with one more type put in -/
theorem leads_body (hσ : σ.Within held) {x : Name} (hx : x ∉ held) (b : Ty) :
    Leads ((mu x b).inst σ) (b.inst (σ.set x ((mu x b).inst σ))) := by
  rw [← subst_inst hσ b hx]
  exact .turn

/-- steps come to the type with the types put in -/
structure Reached (held : List Name) (t : Ty) (σ : Assignment) (u : Ty) : Prop where
  fills : Fills held σ u
  mem : u.inst σ ∈ t.reachable

theorem Reached.part {t u v : Ty} (h : Reached held t σ u) (hu : u.isMu = false)
    (hv : Leads u v) : Reached held t σ v :=
  ⟨h.fills.part hv, .tail h.mem (hv.inst hu σ)⟩

theorem Reached.body {t b : Ty} {x : Name} (hx : x ∉ held) (h : Reached held t σ (mu x b)) :
    Reached held t (σ.set x ((mu x b).inst σ)) b :=
  ⟨h.fills.body, .tail h.mem (leads_body h.fills.within hx b)⟩

theorem mem_reachable_of_mem_nodes {t s : Ty} (ht : ∀ y ∈ t.freeVars, y ∈ held)
    (hs : s ∈ t.nodes held .none) : s ∈ t.reachable := by
  have hself : t.inst .none ∈ t.reachable := by
    rw [inst_none]
    exact .refl
  obtain ⟨τ, u, hu, rfl⟩ := exists_inst_of_mem_nodes (P := Reached held t)
    (fun _ _ _ hm hl h => h.part hm hl) (fun _ _ _ hx h => h.body hx) ⟨.none ht, hself⟩ hs
  exact hu.mem

/-! ## nothing else is reached -/

theorem mem_nodes_of_mem_reachable {t s : Ty} (ht : t.Closed) (hs : s ∈ t.reachable) :
    s ∈ t.nodes [] .none := by
  induction hs with
  | refl => exact t.self_mem_nodes
  | tail _ hl ih => exact mem_nodes_of_leads ht ih hl

theorem mem_reachable_iff {t s : Ty} (ht : t.Closed) :
    s ∈ t.reachable ↔ s ∈ t.nodes [] .none :=
  ⟨mem_nodes_of_mem_reachable ht,
    mem_reachable_of_mem_nodes fun y hy => absurd hy (ht.not_mem y)⟩

theorem reachable_eq_toFinset {t : Ty} (ht : t.Closed) :
    t.reachable = ↑(t.nodes [] .none).toFinset := by
  ext s
  rw [Finset.mem_coe, List.mem_toFinset]
  exact mem_reachable_iff ht

/-- The steps from a closed type, to parts and to unfoldings, come to finitely many types, at most
one for each node of the type as it is written: to the nodes with the binders around them put in,
and to all of these. -/
theorem reachable_regular {t : Ty} (ht : t.Closed) :
    t.reachable.Finite ∧ t.reachable.ncard ≤ t.size ∧
      ∀ s, s ∈ t.reachable ↔ s ∈ t.nodes [] .none := by
  have heq := reachable_eq_toFinset ht
  refine ⟨heq ▸ Finset.finite_toSet _, ?_, fun s => mem_reachable_iff ht⟩
  calc
    t.reachable.ncard = (t.nodes [] .none).toFinset.card := by rw [heq, Set.ncard_coe_finset]
    _ ≤ (t.nodes [] .none).length := List.toFinset_card_le _
    _ ≤ t.size := length_nodes_le t .none

/-- binders of one name inside each other, with a copy of the outer one below the inner; a type that
is reached is larger than the whole, and still is one of its nodes -/
theorem reachable_regular_shadowed :
    let t := mu "a" (object [("l", mu "b" (func [("x", var "a")]
      (mu "a" (func [("y", var "b")] (var "a")))))])
    let u := mu "b" (func [("x", t)] (mu "a" (func [("y", var "b")] (var "a"))))
    t.Closed ∧ t.size = 9 ∧ t.reachable.Finite ∧ t.reachable.ncard ≤ 9 ∧
      u.unfold ∈ t.reachable ∧ u.unfold.size = 28 ∧ u.unfold ∈ t.nodes [] .none := by
  intro t u
  have ht : t.Closed := by decide
  have hprop : Leads t.unfold u := .prop (p := ("l", u)) (List.mem_singleton_self _)
  have hu : u.unfold ∈ t.reachable := .tail (.tail (.single .turn) hprop) .turn
  obtain ⟨hfin, hcard, hnodes⟩ := reachable_regular ht
  exact ⟨ht, by decide, hfin, hcard, hu, by decide, (hnodes _).mp hu⟩

end Equirec.Ty
