import Mathlib.Data.Finset.Card
import Mathlib.Data.Finset.Dedup
import Equirec.Proofs.Ty.Regular

/-!
# Trees

What a type stands for is a tree that may be infinite: `mu` has no node of its own, a type is
unfolded until a constructor comes up.

* `Tree`                  what stands at the end of each path down from the root
* `Tree.eq_of_bisimilar`  trees are equal if some relation between them holds on from node to node
* `Tree.Sub`              the largest relation in which trees are subtypes, node by node
* `Ty.tree`               the tree of a type; a type without a head form is a leaf
* `Ty.tree_unfold`, `Ty.tree_headForm`
                          unfolding leaves the tree as it is
* `Ty.readsUnfoldings_iff`
                          the tree is determined by what single unfoldings come to
* `Ty.tree_eq_of_alphaEq` so does a change of the names of binders
-/

namespace Equirec

/-- where a part stands below a node -/
inductive Place where
  | param (index : Nat)
  | result
  | prop (name : Name)
  deriving DecidableEq

/-- what stands at a node: a constructor, but neither the names of parameters nor the order of
properties -/
inductive Label where
  | boolean
  | number
  | func (arity : Nat)
  | object (names : Finset Name)
  /-- the type has no head form -/
  | unguarded
  | free (name : Name)
  deriving DecidableEq

/-- the places below a node -/
def Label.Has : Label → Place → Prop
  | .func n, .param i => i < n
  | .func _, .result => True
  | .object names, .prop x => x ∈ names
  | _, _ => False

/-! ## trees -/

/-- what stands at the end of each path, if anything does -/
abbrev Tree := List Place → Option Label

namespace Tree

def root (T : Tree) : Option Label := T []

def child (T : Tree) (s : Place) : Tree := fun path => T (s :: path)

/-- the tree with a root and the trees below it -/
def node (l : Label) (below : Place → Option Tree) : Tree
  | [] => some l
  | s :: path => (below s).bind fun T => T path

theorem eq_of_bisimilar (R : Tree → Tree → Prop)
    (hR : ∀ T U, R T U → T.root = U.root ∧ ∀ s, R (T.child s) (U.child s)) {T U : Tree}
    (h : R T U) : T = U := by
  funext path
  induction path generalizing T U with
  | nil => exact (hR T U h).1
  | cons s path ih => exact ih ((hR T U h).2 s)

/-- one node of a subtyping: objects may have properties to spare, functions turn the order of
their parameters around -/
inductive SubNode (R : Tree → Tree → Prop) (T U : Tree) : Prop
  | boolean (hT : T.root = some .boolean) (hU : U.root = some .boolean)
  | number (hT : T.root = some .number) (hU : U.root = some .number)
  | unguarded (hT : T.root = some .unguarded) (hU : U.root = some .unguarded)
  | func {n : Nat} (hT : T.root = some (.func n)) (hU : U.root = some (.func n))
      (params : ∀ i < n, R (U.child (.param i)) (T.child (.param i)))
      (result : R (T.child .result) (U.child .result))
  | object {names wanted : Finset Name} (hT : T.root = some (.object names))
      (hU : U.root = some (.object wanted)) (sub : wanted ⊆ names)
      (props : ∀ x ∈ wanted, R (T.child (.prop x)) (U.child (.prop x)))

theorem SubNode.mono {R R' : Tree → Tree → Prop} (hR : ∀ T U, R T U → R' T U) {T U : Tree}
    (h : SubNode R T U) : SubNode R' T U := by
  cases h with
  | boolean hT hU => exact .boolean hT hU
  | number hT hU => exact .number hT hU
  | unguarded hT hU => exact .unguarded hT hU
  | func hT hU params result =>
    exact .func hT hU (fun i hi => hR _ _ (params i hi)) (hR _ _ result)
  | object hT hU sub props => exact .object hT hU sub fun x hx => hR _ _ (props x hx)

/-- the largest relation that asks `SubNode` of every pair of nodes it relates -/
def Sub (T U : Tree) : Prop :=
  ∃ R : Tree → Tree → Prop, (∀ T U, R T U → SubNode R T U) ∧ R T U

theorem Sub.node {T U : Tree} (h : Sub T U) : SubNode Sub T U := by
  obtain ⟨R, hR, h⟩ := h
  exact (hR T U h).mono fun T U h => ⟨R, hR, h⟩

end Tree

/-- as many names, all distinct and all in the other row, are the names of the other row -/
theorem Row.toFinset_names_eq {ps qs : Row} (hn : (Row.names ps).Nodup)
    (hlen : ps.length = qs.length) (h : ∀ p ∈ ps, p.1 ∈ Row.names qs) :
    (Row.names ps).toFinset = (Row.names qs).toFinset := by
  have hsub : (Row.names ps).toFinset ⊆ (Row.names qs).toFinset := by
    intro x hx
    obtain ⟨p, hp, rfl⟩ := List.mem_map.mp (List.mem_toFinset.mp hx)
    exact List.mem_toFinset.mpr (h p hp)
  have hcount : (Row.names qs).length = (Row.names ps).length := by
    rw [Row.names, Row.names, List.length_map, List.length_map, hlen]
  refine Finset.eq_of_subset_of_card_le hsub ?_
  rw [List.toFinset_card_of_nodup hn, ← hcount]
  exact List.toFinset_card_le _

/-- two rows of distinct names have the same names: as many, and all of one are in the other -/
theorem Row.toFinset_names_eq_iff {ps qs : Row} (hps : (Row.names ps).Nodup)
    (hqs : (Row.names qs).Nodup) :
    (Row.names ps).toFinset = (Row.names qs).toFinset ↔
      ps.length = qs.length ∧ ∀ p ∈ ps, p.1 ∈ Row.names qs := by
  constructor
  · intro h
    have hcard := congrArg Finset.card h
    rw [List.toFinset_card_of_nodup hps, List.toFinset_card_of_nodup hqs, Row.names, Row.names,
      List.length_map, List.length_map] at hcard
    refine ⟨hcard, fun p hp => ?_⟩
    rw [← List.mem_toFinset, ← h, List.mem_toFinset]
    exact List.mem_map.mpr ⟨p, hp, rfl⟩
  · exact fun h => Row.toFinset_names_eq hps h.1 h.2

namespace Ty

/-! ## the tree of a type -/

/-- the constructor of a head form -/
def shape : Ty → Label
  | boolean => .boolean
  | number => .number
  | func ps _ => .func ps.length
  | object ps => .object (Row.names ps).toFinset
  | var x => .free x
  | mu _ _ => .unguarded

/-- the part of a head form at a place -/
def member? : Ty → Place → Option Ty
  | func ps _, .param i => (ps[i]?).map Prod.snd
  | func _ r, .result => some r
  | object ps, .prop x => ps.lookup x
  | _, _ => none

def label (t : Ty) : Label := t.headForm.shape

def part? (t : Ty) (s : Place) : Option Ty := t.headForm.member? s

def treeAt : List Place → Ty → Option Label
  | [], t => some t.label
  | s :: path, t => (t.part? s).bind (treeAt path)

/-- the tree of all unfoldings -/
def tree (t : Ty) : Tree := fun path => treeAt path t

theorem root_tree (t : Ty) : t.tree.root = some t.label := rfl

theorem child_tree_of_some {t u : Ty} {s : Place} (h : t.part? s = some u) :
    t.tree.child s = u.tree := by
  funext path
  show (t.part? s).bind (treeAt path) = treeAt path u
  rw [h, Option.bind_some]

theorem child_tree_of_none {t : Ty} {s : Place} (h : t.part? s = none) :
    t.tree.child s = fun _ => none := by
  funext path
  show (t.part? s).bind (treeAt path) = none
  rw [h, Option.bind_none]

theorem label_eq_of_tree_eq {t u : Ty} (h : t.tree = u.tree) : t.label = u.label :=
  Option.some.inj (congrFun h [])

/-- there are members at the places that the constructor has -/
theorem member?_isSome_iff (t : Ty) (s : Place) : (t.member? s).isSome ↔ t.shape.Has s := by
  cases t with
  | func ps r => cases s <;> simp [member?, shape, Label.Has]
  | object ps =>
    cases s with
    | prop x => exact Row.lookup_isSome_iff.trans List.mem_toFinset.symm
    | _ => simp [member?, shape, Label.Has]
  | _ => cases s <;> simp [member?, shape, Label.Has]

/-- types of the same shape have members at the same places -/
theorem member?_cases {t u : Ty} (h : t.shape = u.shape) (s : Place) :
    (∃ a b, t.member? s = some a ∧ u.member? s = some b) ∨
      t.member? s = none ∧ u.member? s = none := by
  have hsome : (t.member? s).isSome ↔ (u.member? s).isSome := by
    rw [member?_isSome_iff, member?_isSome_iff, h]
  cases ha : t.member? s with
  | some a =>
    obtain ⟨b, hb⟩ := Option.isSome_iff_exists.mp (hsome.mp (Option.isSome_iff_exists.mpr ⟨a, ha⟩))
    exact .inl ⟨a, b, rfl, hb⟩
  | none =>
    refine .inr ⟨rfl, Option.not_isSome_iff_eq_none.mp fun hb => ?_⟩
    exact absurd (ha ▸ hsome.mpr hb) (by simp)

theorem exists_part?_of_has {t : Ty} {s : Place} (h : t.label.Has s) : ∃ u, t.part? s = some u :=
  Option.isSome_iff_exists.mp ((member?_isSome_iff t.headForm s).mpr h)

theorem has_of_part? {t u : Ty} {s : Place} (h : t.part? s = some u) : t.label.Has s :=
  (member?_isSome_iff t.headForm s).mp (Option.isSome_iff_exists.mpr ⟨u, h⟩)

theorem part?_cases {t u : Ty} (h : t.label = u.label) (s : Place) :
    (∃ a b, t.part? s = some a ∧ u.part? s = some b) ∨ t.part? s = none ∧ u.part? s = none :=
  member?_cases h s

/-- trees are equal if their roots and their parts are -/
theorem tree_eq_of_parts {t u : Ty} (hl : t.label = u.label)
    (hp : ∀ s a b, t.part? s = some a → u.part? s = some b → a.tree = b.tree) :
    t.tree = u.tree := by
  funext path
  cases path with
  | nil => exact congrArg some hl
  | cons s path =>
    show (t.part? s).bind (treeAt path) = (u.part? s).bind (treeAt path)
    rcases part?_cases hl s with ⟨a, b, ha, hb⟩ | ⟨ha, hb⟩
    · rw [ha, hb]
      exact congrFun (hp s a b ha hb) path
    · rw [ha, hb]

/-- equal trees have equal parts -/
theorem part_tree_eq {t t' u u' : Ty} {s : Place} (h : t.tree = t'.tree) (hu : t.part? s = some u)
    (hu' : t'.part? s = some u') : u.tree = u'.tree := by
  rw [← child_tree_of_some hu, ← child_tree_of_some hu', h]

/-! ## head forms -/

theorem shape_eq_unguarded {t : Ty} : t.shape = .unguarded ↔ t.isMu = true := by
  cases t <;> simp [shape, isMu]

theorem label_eq_unguarded {t : Ty} : t.label = .unguarded ↔ t.isUnguarded = true :=
  shape_eq_unguarded

theorem part?_eq_none_of_isUnguarded {t : Ty} (h : t.isUnguarded = true) (s : Place) :
    t.part? s = none := by
  cases ha : t.part? s with
  | none => rfl
  | some a =>
    have hs := has_of_part? ha
    rw [label_eq_unguarded.mpr h] at hs
    exact absurd hs id

theorem tree_eq_leaf {t : Ty} (h : t.isUnguarded = true) :
    t.tree = .node .unguarded fun _ => none := by
  funext path
  cases path with
  | nil => exact congrArg some (label_eq_unguarded.mpr h)
  | cons s path =>
    show (t.part? s).bind (treeAt path) = none
    rw [part?_eq_none_of_isUnguarded h, Option.bind_none]

theorem tree_eq_of_isUnguarded {t u : Ty} (ht : t.isUnguarded = true)
    (hu : u.isUnguarded = true) : t.tree = u.tree :=
  (tree_eq_leaf ht).trans (tree_eq_leaf hu).symm

/-- a turn of a `mu` leaves no trace in the tree -/
theorem tree_unfold (t : Ty) : t.unfold.tree = t.tree := by
  cases h : spins [] t with
  | true =>
    refine tree_eq_of_isUnguarded ?_ ?_
    · rw [isUnguarded_eq_spins]
      exact spins_unfold h
    · rw [isUnguarded_eq_spins, h]
  | false =>
    have hh := headForm_unfold_of_not_spins h
    refine tree_eq_of_parts (congrArg shape hh) fun s a b ha hb => ?_
    have hpart : t.unfold.part? s = t.part? s := congrArg (fun v => v.member? s) hh
    rw [Option.some.inj ((ha.symm.trans hpart).trans hb)]

theorem tree_headForm (t : Ty) : t.headForm.tree = t.tree :=
  headForm_induction (P := fun s => s.tree = t.tree) (fun s hs => (tree_unfold s).trans hs) rfl

/-! ## one unfolding after the other -/

theorem tree_eq_node {t : Ty} (h : t.isMu = false) :
    t.tree = .node t.shape fun s => (t.member? s).map tree := by
  have hh := headForm_of_not_isMu h
  funext path
  cases path with
  | nil => exact congrArg (fun v : Ty => some v.shape) hh
  | cons s path =>
    show (t.headForm.member? s).bind (treeAt path) = ((t.member? s).map tree).bind fun T => T path
    rw [hh, Option.bind_map]
    rfl

theorem tree_iterate_unfold (n : Nat) (t : Ty) : (unfold^[n] t).tree = t.tree := by
  induction n generalizing t with
  | zero => rfl
  | succ n ih => rw [Function.iterate_succ_apply, ih, tree_unfold]

/-- a tree for each type, as single unfoldings tell it: a constructor that they come to is the root,
with the trees of its members below it, and where they never come to one there is a leaf -/
structure ReadsUnfoldings (T : Ty → Tree) : Prop where
  head (t : Ty) (n : Nat) (h : (unfold^[n] t).isMu = false) :
    T t = .node (unfold^[n] t).shape fun s => ((unfold^[n] t).member? s).map T
  leaf (t : Ty) (h : ∀ n, (unfold^[n] t).isMu = true) : T t = .node .unguarded fun _ => none

theorem readsUnfoldings_tree : ReadsUnfoldings tree :=
  ⟨fun t n h => (tree_iterate_unfold n t).symm.trans (tree_eq_node h),
    fun _ h => tree_eq_leaf (isUnguarded_iff.mpr h)⟩

/-- the root and the members below it are those of a constructor or of a leaf, whatever the trees of
the members are -/
theorem exists_node (t : Ty) : ∃ (l : Label) (members : Place → Option Ty),
    ∀ {T : Ty → Tree}, ReadsUnfoldings T → T t = .node l fun s => (members s).map T := by
  by_cases hex : ∃ n, (unfold^[n] t).isMu = false
  · obtain ⟨n, hn⟩ := hex
    exact ⟨_, _, fun hT => hT.head t n hn⟩
  · have hall : ∀ n, (unfold^[n] t).isMu = true := by simpa using hex
    exact ⟨.unguarded, fun _ => none, fun hT => hT.leaf t hall⟩

/-- single unfoldings determine the tree of every type -/
theorem readsUnfoldings_iff {T : Ty → Tree} : ReadsUnfoldings T ↔ T = tree := by
  refine ⟨fun h => ?_, fun e => e ▸ readsUnfoldings_tree⟩
  funext t path
  induction path generalizing t with
  | nil =>
    obtain ⟨l, members, hnode⟩ := exists_node t
    rw [hnode h, hnode readsUnfoldings_tree]
    rfl
  | cons s path ih =>
    obtain ⟨l, members, hnode⟩ := exists_node t
    rw [hnode h, hnode readsUnfoldings_tree]
    show ((members s).map T).bind _ = ((members s).map tree).bind _
    cases members s with
    | none => rfl
    | some u => exact ih u

/-! ## parts -/

theorem leads_of_member? {t u : Ty} {s : Place} (h : t.member? s = some u) : Leads t u := by
  cases t with
  | func ps r =>
    cases s with
    | param i =>
      obtain ⟨p, hp, rfl⟩ := Option.map_eq_some_iff.mp h
      exact .param (List.mem_of_getElem? hp)
    | result =>
      cases h
      exact .result
    | prop x => exact absurd h (by simp [member?])
  | object ps =>
    cases s with
    | prop x => exact .prop (p := (x, u)) (Row.mem_of_lookup h)
    | _ => exact absurd h (by simp [member?])
  | _ => exact absurd h (by simp [member?])

theorem WellFormed.of_leads {t u : Ty} (ht : t.WellFormed) (h : Leads t u) : u.WellFormed := by
  cases h with
  | param h => exact (wellFormed_func.mp ht).1 _ h
  | result => exact (wellFormed_func.mp ht).2
  | prop h => exact (wellFormed_object.mp ht).2 _ h
  | turn => exact ht.unfold

theorem WellFormed.part {t u : Ty} {s : Place} (ht : t.WellFormed) (h : t.part? s = some u) :
    u.WellFormed :=
  ht.headForm.of_leads (leads_of_member? h)

/-! ## the names of binders -/

/-- types that differ in the names of binders have the same properties -/
theorem names_eq_of_alphaEq {ps qs : Row} (hn : (Row.names ps).Nodup)
    (h : (object ps).alphaEq (object qs) = true) :
    (Row.names ps).toFinset = (Row.names qs).toFinset := by
  obtain ⟨hlen, hps⟩ := alphaUnder_object_iff.mp h
  refine Row.toFinset_names_eq hn hlen fun p hp => ?_
  obtain ⟨u, hu, _⟩ := hps p hp
  exact Row.lookup_isSome_iff.mp (Option.isSome_iff_exists.mpr ⟨u, hu⟩)

theorem shape_eq_of_alphaEq {t u : Ty} (ht : t.WellFormed) (h : t.alphaEq u = true) :
    t.shape = u.shape := by
  cases t with
  | func ps r =>
    cases u with
    | func qs s =>
      obtain ⟨⟨hlen, _⟩, _⟩ := alphaUnder_func_iff.mp h
      exact congrArg Label.func hlen
    | _ => exact absurd h Bool.false_ne_true
  | object ps =>
    cases u with
    | object qs => exact congrArg Label.object (names_eq_of_alphaEq (wellFormed_object.mp ht).1 h)
    | _ => exact absurd h Bool.false_ne_true
  | var x =>
    cases u with
    | var y => exact congrArg Label.free ((varsMatch_nil x y).mp h)
    | _ => exact absurd h Bool.false_ne_true
  | _ =>
    cases u <;> first | rfl | exact absurd h Bool.false_ne_true

theorem member_alphaEq {t u a b : Ty} {s : Place} (h : t.alphaEq u = true)
    (ha : t.member? s = some a) (hb : u.member? s = some b) : a.alphaEq b = true := by
  cases t with
  | func ps r =>
    cases u with
    | func qs r' =>
      obtain ⟨⟨_, hps⟩, hr⟩ := alphaUnder_func_iff.mp h
      cases s with
      | param i =>
        obtain ⟨p, hp, rfl⟩ := Option.map_eq_some_iff.mp ha
        obtain ⟨q, hq, rfl⟩ := Option.map_eq_some_iff.mp hb
        exact hps (p, q)
          (List.mem_of_getElem? (List.getElem?_zip_eq_some.mpr ⟨hp, hq⟩))
      | result =>
        cases ha
        cases hb
        exact hr
      | prop x => exact absurd ha (by simp [member?])
    | _ => exact absurd h Bool.false_ne_true
  | object ps =>
    cases u with
    | object qs =>
      obtain ⟨_, hps⟩ := alphaUnder_object_iff.mp h
      cases s with
      | prop x =>
        obtain ⟨v, hv, hav⟩ := hps (x, a) (Row.mem_of_lookup ha)
        rw [Option.some.inj (hb.symm.trans hv)]
        exact hav
      | _ => exact absurd ha (by simp [member?])
    | _ => exact absurd h Bool.false_ne_true
  | _ => exact absurd ha (by simp [member?])

theorem label_eq_of_alphaEq {t u : Ty} (ht : t.WellFormed) (h : t.alphaEq u = true) :
    t.label = u.label := by
  cases hg : t.isUnguarded with
  | true => rw [label_eq_unguarded.mpr hg, label_eq_unguarded.mpr (alphaEq_isUnguarded h ▸ hg)]
  | false => exact shape_eq_of_alphaEq ht.headForm (alphaEq_headForm ht.closed h hg)

theorem part_alphaEq {t u a b : Ty} {s : Place} (ht : t.WellFormed) (h : t.alphaEq u = true)
    (ha : t.part? s = some a) (hb : u.part? s = some b) : a.alphaEq b = true := by
  cases hg : t.isUnguarded with
  | true =>
    rw [part?_eq_none_of_isUnguarded hg] at ha
    exact absurd ha (by simp)
  | false => exact member_alphaEq (alphaEq_headForm ht.closed h hg) ha hb

/-- the names of binders leave no trace in the tree -/
theorem tree_eq_of_alphaEq {t u : Ty} (ht : t.WellFormed) (h : t.alphaEq u = true) :
    t.tree = u.tree := by
  funext path
  induction path generalizing t u with
  | nil => exact congrArg some (label_eq_of_alphaEq ht h)
  | cons s path ih =>
    show (t.part? s).bind (treeAt path) = (u.part? s).bind (treeAt path)
    rcases part?_cases (label_eq_of_alphaEq ht h) s with ⟨a, b, ha, hb⟩ | ⟨ha, hb⟩
    · rw [ha, hb]
      exact ih (ht.part ha) (part_alphaEq ht h ha hb)
    · rw [ha, hb]

end Ty

end Equirec
