import Equirec.Context

/-!
# Scopes made of rows

* `Row.insert_of_not_mem`  a new name is bound behind all others
* `Scope.bindings_ofRow`   a row of distinct names is the bindings of its scope
* `Scope.ofRow_bindings`   a scope is made again from its bindings
-/

namespace Equirec

theorem Row.insert_of_not_mem {row : Row} {x : Name} (h : x ∉ names row) (t : Ty) :
    insert row x t = row ++ [(x, t)] := by
  induction row with
  | nil => rfl
  | cons p row ih =>
    obtain ⟨hx, hrow⟩ := not_or.mp (mt List.mem_cons.mpr h)
    rw [insert, if_neg (Ne.symm hx), ih hrow]
    rfl

namespace Scope

theorem bindings_foldl_insert {row : Row} {s : Scope}
    (h : (Row.names (s.bindings ++ row)).Nodup) :
    (row.foldl (fun s p => s.insert p.1 p.2) s).bindings = s.bindings ++ row := by
  induction row generalizing s with
  | nil => exact (List.append_nil _).symm
  | cons p row ih =>
    have hp : p.1 ∉ Row.names s.bindings := by
      rw [Row.names, List.map_append, List.nodup_append] at h
      exact fun hmem => h.2.2 p.1 hmem p.1 (List.mem_cons_self ..) rfl
    have hinsert : (s.insert p.1 p.2).bindings = s.bindings ++ [p] := Row.insert_of_not_mem hp p.2
    have happend : s.bindings ++ p :: row = (s.insert p.1 p.2).bindings ++ row := by
      rw [hinsert, List.append_assoc, List.singleton_append]
    rw [List.foldl_cons, happend, ih (happend ▸ h)]

theorem bindings_ofRow {row : Row} (h : (Row.names row).Nodup) : (ofRow row).bindings = row :=
  bindings_foldl_insert (s := empty) h

theorem ofRow_bindings (s : Scope) : ofRow s.bindings = s := by
  have h := bindings_ofRow s.nodup
  generalize ofRow s.bindings = s' at h
  cases s
  cases s'
  cases h
  rfl

end Scope

end Equirec
