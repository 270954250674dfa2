import Equirec.Proofs.Context
import Equirec.Proofs.Term.Scope

/-!
# Contexts as maps

A context shows a name with the type of its last binding in the innermost of the rows that bind it.
Within a row the last binding of a name counts, but at the place of the first; among the rows the
first one counts.

* `Name.distinct_append`      names that came up before are left out
* `Scope.get?_ofRow`, `Scope.names_ofRow`
                              the last binding of a name in a row, at the place of the first
* `Context.ofRows`            the rows of a context, each a new scope
* `Construction`              the ways in which a context is made, and the rows it is made of
* `Context.Shows`             the binding of a name that counts
* `Context.names_bindings`, `Context.lookup_bindings`
                              the visible bindings, in order and as a map
* `Construction.context_shows`
                              what a context binds, and that its visible bindings are all there is
                              to it
-/

namespace Equirec

/-! ## names without repeats -/

namespace Name

theorem mem_distinct {xs : List Name} {x : Name} : x ∈ distinct xs ↔ x ∈ xs := List.mem_eraseDups

theorem distinct_cons (x : Name) (xs : List Name) :
    distinct (x :: xs) = x :: distinct (xs.filter (· ≠ x)) := by
  rw [distinct, List.eraseDups_cons, distinct]
  congr 2
  exact List.filter_congr fun y _ => by by_cases e : y = x <;> simp [e]

/-- leaving names out and dropping repeats can be done in any order -/
theorem distinct_filter (p : Name → Bool) (xs : List Name) :
    distinct (xs.filter p) = (distinct xs).filter p := by
  -- a name at the front is dropped from the rest, which may be shorter by more than one name
  induction hn : xs.length using Nat.strong_induction_on generalizing xs with
  | _ n ih =>
    cases xs with
    | nil => rfl
    | cons x xs =>
      have hlt : (xs.filter (· ≠ x)).length < n := by
        have := List.length_filter_le (fun y => decide (y ≠ x)) xs
        rw [List.length_cons] at hn
        omega
      have hrest := ih _ hlt (xs.filter (· ≠ x)) rfl
      rw [distinct_cons]
      cases hp : p x with
      | true =>
        rw [List.filter_cons_of_pos hp, List.filter_cons_of_pos hp, distinct_cons, List.filter_comm,
          hrest]
      | false =>
        have hx : ¬ p x = true := by rw [hp]; exact Bool.false_ne_true
        have hsame : (xs.filter (· ≠ x)).filter p = xs.filter p := by
          rw [List.filter_filter]
          refine List.filter_congr fun y _ => ?_
          by_cases e : y = x
          · rw [e, hp, Bool.false_and]
          · rw [decide_eq_true e, Bool.and_true]
        rw [List.filter_cons_of_neg hx, List.filter_cons_of_neg hx, ← hrest, hsame]

theorem distinct_append (xs ys : List Name) :
    distinct (xs ++ ys) = distinct xs ++ (distinct ys).filter (· ∉ xs) := by
  rw [← distinct_filter, distinct, List.eraseDups_append, List.removeAll, distinct, distinct]
  congr 2
  exact List.filter_congr fun y _ => by simp

theorem distinct_of_nodup {xs : List Name} (h : xs.Nodup) : distinct xs = xs := by
  induction xs with
  | nil => rfl
  | cons x xs ih =>
    obtain ⟨hx, hxs⟩ := List.nodup_cons.mp h
    have hfilter : xs.filter (· ≠ x) = xs := List.filter_eq_self.mpr fun y hy =>
      decide_eq_true fun e => hx (e ▸ hy)
    rw [distinct_cons, hfilter, ih hxs]

end Name

/-! ## one row -/

/-- the last binding of a name in a row -/
def Row.BindsLast (row : Row) (x : Name) (t : Ty) : Prop :=
  ∃ before after, row = before ++ (x, t) :: after ∧ x ∉ names after

theorem Row.lookup_reverse_iff {row : Row} {x : Name} {t : Ty} :
    row.reverse.lookup x = some t ↔ row.BindsLast x t := by
  rw [List.lookup_eq_some_iff]
  constructor
  · rintro ⟨after, before, hrow, hafter⟩
    refine ⟨before.reverse, after.reverse, ?_, fun hx => ?_⟩
    · have hrev := congrArg List.reverse hrow
      rw [List.reverse_reverse] at hrev
      rw [hrev]
      simp
    · obtain ⟨p, hp, rfl⟩ := List.mem_map.mp hx
      have := hafter p (List.mem_reverse.mp hp)
      simp at this
  · rintro ⟨before, after, rfl, hx⟩
    refine ⟨after.reverse, before.reverse, by simp, fun p hp => ?_⟩
    refine bne_iff_ne.mpr fun e => hx ?_
    exact e ▸ List.mem_map_of_mem (List.mem_reverse.mp hp)

theorem Row.lookup_reverse_eq_none_iff {row : Row} {x : Name} :
    row.reverse.lookup x = none ↔ x ∉ names row := by
  rw [← Option.not_isSome_iff_eq_none, Row.lookup_isSome_iff, List.map_reverse, List.mem_reverse]
  exact Iff.rfl

theorem Row.names_insert (row : Row) (x : Name) (t : Ty) :
    names (insert row x t) = if x ∈ names row then names row else names row ++ [x] := by
  by_cases h : x ∈ names row
  · rw [if_pos h]
    induction row with
    | nil => exact absurd h List.not_mem_nil
    | cons p row ih =>
      by_cases e : p.1 = x
      · rw [insert, if_pos e, ← e]
        rfl
      · rw [insert, if_neg e]
        exact congrArg (p.1 :: ·) (ih ((List.mem_cons.mp h).resolve_left (Ne.symm e)))
  · rw [if_neg h, insert_of_not_mem h, names, List.map_append]
    rfl

theorem Scope.ofRow_append_singleton (row : Row) (p : Name × Ty) :
    ofRow (row ++ [p]) = (ofRow row).insert p.1 p.2 :=
  List.foldl_append

/-- a scope shows the last binding of a name in its row -/
theorem Scope.get?_ofRow (row : Row) (x : Name) : (ofRow row).get? x = row.reverse.lookup x := by
  induction row using List.reverseRecOn with
  | nil => rfl
  | append_singleton row p ih =>
    rw [ofRow_append_singleton, get?_insert, List.reverse_append, ih]
    exact (lookup_cons_ite ..).symm

/-- in the places of the first -/
theorem Scope.names_ofRow (row : Row) :
    Row.names (ofRow row).bindings = Name.distinct (Row.names row) := by
  induction row using List.reverseRecOn with
  | nil => rfl
  | append_singleton row p ih =>
    have hinsert : Row.names ((ofRow row).insert p.1 p.2).bindings =
        if p.1 ∈ Row.names row then Name.distinct (Row.names row)
        else Name.distinct (Row.names row) ++ [p.1] := by
      have h := Row.names_insert (ofRow row).bindings p.1 p.2
      rw [ih] at h
      simp only [Name.mem_distinct] at h
      exact h
    have happend : Row.names (row ++ [p]) = Row.names row ++ [p.1] := List.map_append
    rw [ofRow_append_singleton, hinsert, happend, Name.distinct_append]
    by_cases hp : p.1 ∈ Row.names row
    · rw [if_pos hp, Name.distinct_of_nodup (List.nodup_singleton _),
        List.filter_cons_of_neg (by simpa using hp)]
      exact (List.append_nil _).symm
    · rw [if_neg hp, Name.distinct_of_nodup (List.nodup_singleton _),
        List.filter_cons_of_pos (by simpa using hp)]
      rfl

/-! ## rows of a context -/

namespace Context

/-- a scope for each of the rows, the innermost first -/
def ofRows (rows : List Row) : Context := rows.foldr (fun row c => c.extend row) empty

theorem ofRows_cons (row : Row) (rows : List Row) :
    ofRows (row :: rows) = (ofRows rows).extend row := rfl

/-- the binding of a name that counts: the last one in the first of the rows that bind the name -/
def Shows (rows : List Row) (x : Name) (t : Ty) : Prop :=
  ∃ inner row outer, rows = inner ++ row :: outer ∧ (∀ r ∈ inner, x ∉ Row.names r) ∧
    row.BindsLast x t

theorem get?_ofRows (rows : List Row) (x : Name) :
    (ofRows rows).get? x = rows.findSome? fun row => row.reverse.lookup x := by
  induction rows with
  | nil => rfl
  | cons row rows ih =>
    rw [ofRows_cons, get?_extend, ih, Scope.get?_ofRow, List.findSome?_cons]
    cases row.reverse.lookup x <;> rfl

theorem get?_ofRows_iff {rows : List Row} {x : Name} {t : Ty} :
    (ofRows rows).get? x = some t ↔ Shows rows x t := by
  rw [get?_ofRows, List.findSome?_eq_some_iff]
  simp only [Row.lookup_reverse_iff, Row.lookup_reverse_eq_none_iff]
  exact exists_congr fun _ => exists_congr fun _ => exists_congr fun _ =>
    and_congr_right fun _ => and_comm

theorem get?_ofRows_eq_none_iff {rows : List Row} {x : Name} :
    (ofRows rows).get? x = none ↔ ∀ row ∈ rows, x ∉ Row.names row := by
  rw [get?_ofRows, List.findSome?_eq_none_iff]
  simp only [Row.lookup_reverse_eq_none_iff]

/-! ## visible bindings -/

theorem names_visible_cons (s : Scope) (outer : List Scope) :
    Row.names (visible (s :: outer)) =
      Row.names s.bindings ++ (Row.names (visible outer)).filter (· ∉ Row.names s.bindings) := by
  rw [visible, Row.names, List.map_append, Row.names, Row.names, List.filter_map]
  congr 2
  refine List.filter_congr fun p _ => ?_
  show (s.bindings.lookup p.1).isNone = decide (p.1 ∉ Row.names s.bindings)
  rw [Bool.eq_iff_iff, decide_eq_true_iff, Option.isNone_iff_eq_none,
    ← Option.not_isSome_iff_eq_none, Row.lookup_isSome_iff]
  exact Iff.rfl

/-- each visible name once, in the order in which the rows bring them up -/
theorem names_bindings (rows : List Row) :
    Row.names (ofRows rows).bindings = Name.distinct (rows.flatMap Row.names) := by
  induction rows with
  | nil => rfl
  | cons row rows ih =>
    show Row.names (visible (Scope.ofRow row :: (ofRows rows).scopes)) = _
    rw [names_visible_cons, Scope.names_ofRow, List.flatMap_cons, Name.distinct_append]
    simp only [Name.mem_distinct]
    rw [show Row.names (visible (ofRows rows).scopes) = _ from ih]

theorem nodup_names_visible (scopes : List Scope) : (Row.names (visible scopes)).Nodup := by
  induction scopes with
  | nil => exact List.nodup_nil
  | cons s outer ih =>
    rw [names_visible_cons]
    refine List.nodup_append.mpr ⟨s.nodup, ih.filter _, fun x hx y hy e => ?_⟩
    have hnot := List.of_mem_filter hy
    rw [decide_eq_true_iff] at hnot
    exact hnot (e ▸ hx)

theorem lookup_filter_names (p : Name → Bool) (row : Row) (x : Name) :
    (row.filter fun q => p q.1).lookup x = if p x then row.lookup x else none := by
  induction row with
  | nil => exact (ite_self none).symm
  | cons q row ih =>
    rw [lookup_cons_ite]
    by_cases hq : p q.1 = true
    · rw [List.filter_cons, if_pos hq, lookup_cons_ite, ih]
      by_cases e : x = q.1
      · rw [if_pos e, if_pos e, e, if_pos hq]
      · rw [if_neg e, if_neg e]
    · rw [List.filter_cons, if_neg hq, ih]
      by_cases e : x = q.1
      · rw [e, if_neg hq, if_neg hq]
      · rw [if_neg e]

/-- as a map the visible bindings are the context -/
theorem lookup_bindings (c : Context) (x : Name) : c.bindings.lookup x = c.get? x := by
  obtain ⟨scopes⟩ := c
  show (visible scopes).lookup x = scopes.findSome? fun s => s.get? x
  induction scopes with
  | nil => rfl
  | cons s outer ih =>
    rw [visible, List.lookup_append, lookup_filter_names fun y => (s.get? y).isNone, ih,
      List.findSome?_cons]
    show (s.get? x).or _ = _
    cases s.get? x <;> rfl

theorem mem_bindings_iff {c : Context} {x : Name} {t : Ty} :
    (x, t) ∈ c.bindings ↔ c.get? x = some t := by
  rw [← lookup_bindings]
  exact ⟨Row.lookup_of_mem (nodup_names_visible c.scopes), Row.mem_of_lookup⟩

/-- the visible bindings make a context that shows the same -/
theorem get?_ofRow_bindings (c : Context) (x : Name) : (ofRow c.bindings).get? x = c.get? x := by
  have hscope : (Scope.ofRow c.bindings).bindings = c.bindings :=
    Scope.bindings_ofRow (nodup_names_visible c.scopes)
  have hget : (Scope.ofRow c.bindings).get? x = c.get? x := by
    rw [Scope.get?, hscope, lookup_bindings]
  rw [ofRow, get?_extend, hget, get?_empty]
  cases c.get? x <;> rfl

end Context

/-! ## how contexts are made -/

/-- a context is the empty one, one made from a row, or another one with a new scope -/
inductive Construction where
  | empty
  | ofRow (row : Row)
  | extend (base : Construction) (row : Row)
  | bind (base : Construction) (name : Name) (type : Ty)

namespace Construction

def context : Construction → Context
  | empty => .empty
  | ofRow row => .ofRow row
  | extend base row => base.context.extend row
  | bind base x t => base.context.bind x t

/-- the rows that a context is made of, the latest first -/
def rows : Construction → List Row
  | empty => []
  | ofRow row => [row]
  | extend base row => row :: base.rows
  | bind base x t => [(x, t)] :: base.rows

theorem context_eq_ofRows (k : Construction) : k.context = .ofRows k.rows := by
  induction k with
  | empty => rfl
  | ofRow row => rfl
  | extend base row ih => exact congrArg (Context.extend · row) ih
  | bind base x t ih => exact congrArg (Context.bind · x t) ih

/-- A context binds a name to the type of its last binding in the latest of its rows that binds the
name, and binds no others.  Its visible bindings are these, each name once, in the order in which
the names first come up, from the latest row on.  A context made from them binds the same names to
the same types, and every term is checked in it as in the first one. -/
theorem context_shows (k : Construction) :
    (∀ x t, k.context.get? x = some t ↔ Context.Shows k.rows x t) ∧
    (∀ x, k.context.get? x = none ↔ ∀ row ∈ k.rows, x ∉ Row.names row) ∧
    (∀ x, k.context.contains x = true ↔ ∃ t, k.context.get? x = some t) ∧
    (Row.names k.context.bindings).Nodup ∧
    Row.names k.context.bindings = Name.distinct (k.rows.flatMap Row.names) ∧
    (∀ x t, (x, t) ∈ k.context.bindings ↔ k.context.get? x = some t) ∧
    (∀ x, (Context.ofRow k.context.bindings).get? x = k.context.get? x) ∧
    ∀ m : Term, m.check (Context.ofRow k.context.bindings) = m.check k.context := by
  have hget := Context.get?_ofRow_bindings k.context
  refine ⟨fun x t => ?_, fun x => ?_, fun x => Option.isSome_iff_exists,
    Context.nodup_names_visible k.context.scopes, ?_, fun x t => Context.mem_bindings_iff, hget,
    fun m => Term.check_congr fun x _ => hget x⟩
  · rw [context_eq_ofRows]
    exact Context.get?_ofRows_iff
  · rw [context_eq_ofRows]
    exact Context.get?_ofRows_eq_none_iff
  · rw [context_eq_ofRows]
    exact Context.names_bindings k.rows

/-- a name that is bound again keeps its place in its row, and a name of a later row goes in
front -/
theorem context_shows_layers :
    let k := ((ofRow [("x", .number), ("y", .number), ("x", .boolean)]).bind "z" .number).extend
      [("w", .number), ("y", .boolean), ("w", .boolean)]
    let m := Term.ite (.var "y") (.var "z") (.var "x")
    k.context.bindings = [("w", .boolean), ("y", .boolean), ("z", .number), ("x", .boolean)] ∧
      Context.Shows k.rows "x" .boolean ∧ k.context.get? "v" = none ∧
      m.check (Context.ofRow k.context.bindings) = m.check k.context ∧
      (m.check k.context).outcome = .error (.branchMismatch .number .boolean) := by
  intro k m
  obtain ⟨hshows, hnone, _, _, _, _, _, hcheck⟩ := context_shows k
  have hx : k.context.get? "x" = some .boolean := by decide
  have hv : ∀ row ∈ k.rows, "v" ∉ Row.names row := by decide
  exact ⟨by decide, (hshows "x" .boolean).mp hx, (hnone "v").mpr hv, hcheck m, by decide⟩

end Construction

end Equirec
