import Equirec.Ty.Basic

/-!
# Contexts

A context is a stack of scopes.  A scope binds each of its names once; binding a name again gives
it the new type at its old place.  Inner scopes hide the names of outer ones.

* `Scope`             the bindings of one scope, their names distinct
* `Scope.ofRow`       the bindings of a row one after the other
* `Context.extend`    a new innermost scope; the context extended stays as it was
* `Context.get?`      the type of a name, from the innermost scope that binds it
* `Context.bindings`  the visible bindings, innermost scope first
-/

namespace Equirec

namespace Row

def names (row : Row) : List Name := row.map Prod.fst

/-- the row with a type for a name: at the first place of that name, or at the end -/
def insert : Row → Name → Ty → Row
  | [], x, t => [(x, t)]
  | (y, u) :: row, x, t => if y = x then (x, t) :: row else (y, u) :: insert row x t

theorem mem_names_insert {row : Row} {x y : Name} {t : Ty} :
    y ∈ names (insert row x t) ↔ y = x ∨ y ∈ names row := by
  induction row with
  | nil => simp [insert, names]
  | cons p row ih =>
    obtain ⟨z, u⟩ := p
    simp only [names, List.map_cons, List.mem_cons] at ih ⊢
    by_cases h : z = x
    · subst h
      simp [insert]
    · simp only [insert, if_neg h, List.map_cons, List.mem_cons, ih]
      constructor
      · rintro (h | h | h)
        · exact .inr (.inl h)
        · exact .inl h
        · exact .inr (.inr h)
      · rintro (h | h | h)
        · exact .inr (.inl h)
        · exact .inl h
        · exact .inr (.inr h)

theorem nodup_names_insert {row : Row} (h : (names row).Nodup) (x : Name) (t : Ty) :
    (names (insert row x t)).Nodup := by
  induction row with
  | nil => simp [insert, names]
  | cons p row ih =>
    obtain ⟨z, u⟩ := p
    have hz := List.nodup_cons.mp (show (z :: names row).Nodup from h)
    by_cases e : z = x
    · subst e
      rw [insert, if_pos rfl]
      exact h
    · simp only [insert, if_neg e]
      refine List.nodup_cons.mpr ⟨fun hm => ?_, ih hz.2⟩
      rcases mem_names_insert.mp hm with rfl | hm
      · exact e rfl
      · exact hz.1 hm

theorem lookup_insert (row : Row) (x y : Name) (t : Ty) :
    (insert row x t).lookup y = if y = x then some t else row.lookup y := by
  induction row with
  | nil => simp only [insert, lookup_cons_ite]
  | cons p row ih =>
    obtain ⟨z, u⟩ := p
    by_cases e : z = x
    · subst e
      simp only [insert, if_pos, lookup_cons_ite]
      split <;> rfl
    · simp only [insert, if_neg e, lookup_cons_ite, ih]
      by_cases h : y = z
      · subst h
        simp [e]
      · simp [h]

end Row

/-! ## scopes -/

structure Scope where
  bindings : Row
  nodup : (Row.names bindings).Nodup
  deriving DecidableEq

namespace Scope

def empty : Scope := ⟨[], List.nodup_nil⟩

def insert (s : Scope) (x : Name) (t : Ty) : Scope :=
  ⟨Row.insert s.bindings x t, Row.nodup_names_insert s.nodup x t⟩

def ofRow (row : Row) : Scope := row.foldl (fun s p => s.insert p.1 p.2) empty

def get? (s : Scope) (x : Name) : Option Ty := s.bindings.lookup x

theorem get?_empty (x : Name) : empty.get? x = none := rfl

theorem get?_insert (s : Scope) (x y : Name) (t : Ty) :
    (s.insert x t).get? y = if y = x then some t else s.get? y :=
  Row.lookup_insert s.bindings x y t

end Scope

/-! ## stacks of scopes -/

/-- scopes, the innermost first -/
structure Context where
  scopes : List Scope
  deriving DecidableEq

namespace Context

def empty : Context := ⟨[]⟩

def extend (c : Context) (row : Row) : Context := ⟨Scope.ofRow row :: c.scopes⟩

def bind (c : Context) (x : Name) (t : Ty) : Context := c.extend [(x, t)]

def ofRow (row : Row) : Context := empty.extend row

def get? (c : Context) (x : Name) : Option Ty := c.scopes.findSome? fun s => s.get? x

def contains (c : Context) (x : Name) : Bool := (c.get? x).isSome

/-- the bindings of the first scope, then those behind it that it does not hide -/
def visible : List Scope → Row
  | [] => []
  | s :: outer => s.bindings ++ (visible outer).filter fun p => (s.get? p.1).isNone

def bindings (c : Context) : Row := visible c.scopes

theorem get?_empty (x : Name) : empty.get? x = none := rfl

theorem get?_extend (c : Context) (row : Row) (x : Name) :
    (c.extend row).get? x = ((Scope.ofRow row).get? x <|> c.get? x) := by
  simp only [get?, extend, List.findSome?_cons]
  cases (Scope.ofRow row).get? x <;> rfl

theorem get?_bind (c : Context) (x y : Name) (t : Ty) :
    (c.bind x t).get? y = if y = x then some t else c.get? y := by
  rw [bind, get?_extend]
  show ((Scope.empty.insert x t).get? y <|> c.get? y) = _
  rw [Scope.get?_insert, Scope.get?_empty]
  by_cases h : y = x <;> simp [h]

end Context

end Equirec
