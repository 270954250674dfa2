import Mathlib.Data.List.Basic
import Equirec.Ty.Display

/-!
# Reading a printed type

Nothing closes the result of a printed function or the body of a printed `mu`.  Still there is one
way only to read a printed type: a name reaches up to the next mark, and after a type stands a mark
or nothing.  So the first name or mark tells the constructor, and a row goes on as long as its
separator follows.

* `Name.marks`, `Name.Legible`  the characters that end a name, and the names without them
* `Ty.Legible`                  types with such names
* `Name.append_inj`             a name and what follows it are told apart
* `Ty.lead`, `Ty.trail`         the first word of a printed type, and the rest
* `Ty.Readable`                 the type and what follows it are told apart
* `Ty.members_append_inj`       so are the members of a row and what follows them
* `Ty.readable`                 legible types are readable
* `Ty.display_eq_iff`           legible types with the same printed form are the same
* `Name.Spelled`, `Ty.eq_of_display_eq_of_spelled`
                                so are those whose names are of letters, digits and underscores
-/

namespace Equirec

/-! ## names -/

namespace Name

/-- the characters between the words of a printed type -/
def marks : List Char := [' ', ',', ';', ':', '.', '(', ')', '\x7b', '\x7d', '=', '>']

/-- no mark is in the name -/
def Plain (x : Name) : Prop := ∀ c ∈ x.toList, c ∉ marks

/-- the words of a printed type that are no names -/
def words : List Name := ["boolean", "number", "rec"]

/-- a name that is told from everything else that is printed -/
structure Legible (x : Name) : Prop where
  nonempty : x ≠ ""
  plain : x.Plain
  not_word : x ∉ words

/-- a name of letters, digits and underscores that is no word of a printed type; the letters and
digits of other alphabets are beyond the first 128 characters -/
structure Spelled (x : Name) : Prop where
  nonempty : x ≠ ""
  chars : ∀ c ∈ x.toList, c.isAlphanum = true ∨ c = '_' ∨ 128 ≤ c.toNat
  not_word : x ∉ words

theorem Spelled.legible {x : Name} (h : x.Spelled) : x.Legible := by
  refine ⟨h.nonempty, fun c hc hm => ?_, h.not_word⟩
  have hmarks : (marks.all fun c => ¬ (c.isAlphanum = true ∨ c = '_' ∨ 128 ≤ c.toNat)) = true := by
    decide
  exact of_decide_eq_true (List.all_eq_true.mp hmarks c hm) (h.chars c hc)

-- one character of the name after the other, and not all characters that there are
instance (x : Name) : Decidable x.Plain := List.decidableBAll (· ∉ marks) x.toList

instance (x : Name) : Decidable x.Legible :=
  decidable_of_iff (x ≠ "" ∧ x.Plain ∧ x ∉ words)
    ⟨fun h => ⟨h.1, h.2.1, h.2.2⟩, fun h => ⟨h.nonempty, h.plain, h.not_word⟩⟩

/-- the text is at an end, or goes on with a mark -/
def Stops (s : List Char) : Prop := ∀ c ∈ s.head?, c ∈ marks

theorem stops_nil : Stops [] := by simp [Stops]

theorem stops_cons {c : Char} (h : c ∈ marks) (s : List Char) : Stops (c :: s) := by
  simpa [Stops] using h

theorem takeWhile_append {x : Name} (hx : x.Plain) {s : List Char} (hs : Stops s) :
    (x.toList ++ s).takeWhile (· ∉ marks) = x.toList := by
  rw [List.takeWhile_append_of_pos fun c hc => decide_eq_true (hx c hc)]
  cases s with
  | nil => exact List.append_nil _
  | cons c s =>
    have hc : c ∈ marks := hs c rfl
    rw [List.takeWhile_cons_of_neg (by simpa using hc), List.append_nil]

theorem append_inj {x y : Name} (hx : x.Plain) (hy : y.Plain) {s s' : List Char} (hs : Stops s)
    (hs' : Stops s') (h : x.toList ++ s = y.toList ++ s') : x = y ∧ s = s' := by
  have hlist : x.toList = y.toList := by
    rw [← takeWhile_append hx hs, h, takeWhile_append hy hs']
  rw [hlist] at h
  exact ⟨String.toList_inj.mp hlist, List.append_cancel_left h⟩

theorem Legible.ne_word {x w : Name} (hx : x.Legible) (hw : w ∈ words) : x ≠ w :=
  fun e => hx.not_word (e ▸ hw)

/-- a name does not begin with a mark -/
theorem Legible.append_ne {x : Name} (hx : x.Legible) {c : Char} (hc : c ∈ marks)
    (s s' : List Char) : x.toList ++ s ≠ c :: s' := by
  intro h
  cases hl : x.toList with
  | nil => exact hx.nonempty (String.toList_eq_nil_iff.mp hl)
  | cons d l =>
    rw [hl] at h
    have hd : d ∉ marks := hx.plain d (by rw [hl]; exact List.mem_cons_self ..)
    exact hd ((List.cons.inj h).1 ▸ hc)

end Name

namespace Ty

open Name

mutual
/-- all names in a type: of variables, binders, parameters and properties -/
def names : Ty → List Name
  | boolean => []
  | number => []
  | func ps r => namesRow ps ++ r.names
  | object ps => namesRow ps
  | var x => [x]
  | mu x b => x :: b.names
def namesRow : Row → List Name
  | [] => []
  | (x, t) :: ps => x :: (t.names ++ namesRow ps)
end

def Legible (t : Ty) : Prop := ∀ x ∈ t.names, x.Legible

instance (t : Ty) : Decidable t.Legible := inferInstanceAs (Decidable (∀ x ∈ t.names, x.Legible))

theorem legible_row {ps : Row} (h : ∀ x ∈ namesRow ps, x.Legible) :
    ∀ p ∈ ps, p.1.Legible ∧ p.2.Legible := by
  induction ps with
  | nil => exact List.forall_mem_nil _
  | cons p ps ih =>
    obtain ⟨hx, h⟩ := List.forall_mem_cons.mp (show ∀ x ∈ p.1 :: (p.2.names ++ _), _ from h)
    obtain ⟨ht, h⟩ := List.forall_mem_append.mp h
    exact List.forall_mem_cons.mpr ⟨⟨hx, ht⟩, ih h⟩

theorem Legible.func {ps : Row} {r : Ty} (h : (func ps r).Legible) :
    (∀ p ∈ ps, p.1.Legible ∧ p.2.Legible) ∧ r.Legible :=
  (List.forall_mem_append.mp h).imp_left legible_row

theorem Legible.object {ps : Row} (h : (object ps).Legible) :
    ∀ p ∈ ps, p.1.Legible ∧ p.2.Legible :=
  legible_row h

theorem Legible.var {x : Name} (h : (var x).Legible) : x.Legible :=
  h x (List.mem_singleton_self x)

theorem Legible.mu {x : Name} {b : Ty} (h : (mu x b).Legible) : x.Legible ∧ b.Legible :=
  List.forall_mem_cons.mp h

/-! ## printed rows -/

/-- a printed member of a row -/
def member (p : Name × Ty) : List Char := p.1.toList ++ ':' :: ' ' :: p.2.display.toList

/-- printed members behind others -/
def further (sep : List Char) (ps : Row) : List Char := ps.flatMap fun p => sep ++ member p

def members (sep : List Char) : Row → List Char
  | [] => []
  | p :: ps => member p ++ further sep ps

theorem member_append (p : Name × Ty) (s : List Char) :
    member p ++ s = p.1.toList ++ ':' :: ' ' :: (p.2.display.toList ++ s) := by
  rw [member, List.append_assoc]
  rfl

theorem further_cons_append (sep : List Char) (p : Name × Ty) (ps : Row) (s : List Char) :
    further sep (p :: ps) ++ s = sep ++ (member p ++ (further sep ps ++ s)) := by
  rw [further, List.flatMap_cons, List.append_assoc, List.append_assoc]
  rfl

theorem members_cons_append (sep : List Char) (p : Name × Ty) (ps : Row) (s : List Char) :
    members sep (p :: ps) ++ s = member p ++ (further sep ps ++ s) :=
  List.append_assoc ..

theorem intercalate_map_member (sep : List Char) (ps : Row) :
    sep.intercalate (ps.map member) = members sep ps := by
  cases ps with
  | nil => rfl
  | cons p ps =>
    induction ps generalizing p with
    | nil => simp [members, further]
    | cons q ps ih =>
      rw [List.map_cons, List.map_cons, List.intercalate_cons_cons, ← List.map_cons, ih q,
        List.append_assoc, members, members, further, further, List.flatMap_cons,
        List.append_assoc]

theorem toList_intercalate_displayRow (sep : String) (ps : Row) :
    (sep.intercalate (displayRow ps)).toList = members sep.toList ps := by
  rw [String.toList_intercalate, ← intercalate_map_member, displayRow_eq_map, List.map_map]
  congr 1
  refine List.map_congr_left fun p _ => ?_
  show (p.1 ++ ": " ++ p.2.display).toList = member p
  rw [String.toList_append, String.toList_append, List.append_assoc]
  rfl

/-! ## printed types -/

/-- the first word of a printed type; there is none in front of a parenthesis or a brace -/
def lead : Ty → Name
  | boolean => "boolean"
  | number => "number"
  | func _ _ => ""
  | object _ => ""
  | var x => x
  | mu _ _ => "rec"

/-- what is printed behind the first word -/
def trail : Ty → List Char
  | boolean => []
  | number => []
  | func ps r =>
    '(' :: (members [',', ' '] ps ++ ')' :: ' ' :: '=' :: '>' :: ' ' :: r.display.toList)
  | object [] => ['\x7b', '\x7d']
  | object (p :: ps) => '\x7b' :: ' ' :: (members [';', ' '] (p :: ps) ++ [' ', '\x7d'])
  | var _ => []
  | mu x b => ' ' :: (x.toList ++ '.' :: ' ' :: b.display.toList)

theorem toList_display (t : Ty) : t.display.toList = t.lead.toList ++ t.trail := by
  cases t with
  | boolean | number | var x => exact (List.append_nil _).symm
  | func ps r =>
    show ("(" ++ ", ".intercalate (displayRow ps) ++ ") => " ++ r.display).toList = _
    simp only [String.toList_append, toList_intercalate_displayRow, List.append_assoc]
    rfl
  | object ps =>
    cases ps with
    | nil => rfl
    | cons p ps =>
      show ("\x7b " ++ "; ".intercalate (displayRow (p :: ps)) ++ " \x7d").toList = _
      simp only [String.toList_append, toList_intercalate_displayRow, List.append_assoc]
      rfl
  | mu x b =>
    show ("rec " ++ x ++ ". " ++ b.display).toList = "rec".toList ++ _
    rw [String.toList_append, String.toList_append, String.toList_append, List.append_assoc,
      List.append_assoc]
    rfl

theorem Legible.plain_lead {t : Ty} (h : t.Legible) : t.lead.Plain := by
  cases t with
  | var x => exact h.var.plain
  | boolean | number => decide
  | func ps r | object ps => exact (by decide : Name.Plain "")
  | mu x b => exact (by decide : Name.Plain "rec")

theorem stops_trail (t : Ty) {s : List Char} (hs : Stops s) : Stops (t.trail ++ s) := by
  cases t with
  | boolean | number | var x => exact hs
  | func ps r => exact stops_cons (by decide) _
  | object ps => cases ps <;> exact stops_cons (by decide) _
  | mu x b => exact stops_cons (by decide) _

/-- the type and what follows it can be told apart -/
def Readable (t : Ty) : Prop :=
  ∀ ⦃u : Ty⦄ ⦃s s' : List Char⦄, u.Legible → Stops s → Stops s' →
    t.display.toList ++ s = u.display.toList ++ s' → t = u ∧ s = s'

/-- the first words of the printed types are the same, and so is the rest -/
theorem lead_eq {t u : Ty} (ht : t.Legible) (hu : u.Legible) {s s' : List Char} (hs : Stops s)
    (hs' : Stops s') (h : t.display.toList ++ s = u.display.toList ++ s') :
    t.lead = u.lead ∧ t.trail ++ s = u.trail ++ s' := by
  rw [toList_display, toList_display, List.append_assoc, List.append_assoc] at h
  exact append_inj ht.plain_lead hu.plain_lead (t.stops_trail hs) (u.stops_trail hs') h

/-! ## members of rows -/

section
variable {s s' : List Char}

theorem member_append_inj {p q : Name × Ty} (hx : p.1.Legible) (ht : p.2.Readable)
    (hq : q.1.Legible ∧ q.2.Legible) (hs : Stops s) (hs' : Stops s')
    (h : member p ++ s = member q ++ s') : p = q ∧ s = s' := by
  rw [member_append, member_append] at h
  obtain ⟨hname, h⟩ := append_inj hx.plain hq.1.plain (stops_cons (by decide) _)
    (stops_cons (by decide) _) h
  simp only [List.cons.injEq, true_and] at h
  obtain ⟨htype, hrest⟩ := ht hq.2 hs hs' h
  exact ⟨Prod.ext hname htype, hrest⟩

variable {c d : Char} (hc : c ∈ marks) (hd : d ∈ marks) (hne : c ≠ d)
include hc hd

theorem stops_further (ps : Row) (sep : List Char) : Stops (further (d :: sep) ps ++ c :: s) := by
  cases ps with
  | nil => exact stops_cons hc _
  | cons p ps => exact stops_cons hd _

include hne

/-- the members go on as long as their separator follows -/
theorem further_append_inj {ps qs : Row} {sep : List Char}
    (hps : ∀ p ∈ ps, p.1.Legible ∧ p.2.Readable) (hqs : ∀ q ∈ qs, q.1.Legible ∧ q.2.Legible)
    (h : further (d :: sep) ps ++ c :: s = further (d :: sep) qs ++ c :: s') :
    ps = qs ∧ s = s' := by
  induction ps generalizing qs with
  | nil =>
    cases qs with
    | nil => exact ⟨rfl, (List.cons.inj h).2⟩
    | cons q qs => exact absurd (List.cons.inj h).1 hne
  | cons p ps ih =>
    cases qs with
    | nil => exact absurd (List.cons.inj h).1.symm hne
    | cons q qs =>
      obtain ⟨hp, hps'⟩ := List.forall_mem_cons.mp hps
      obtain ⟨hq, hqs'⟩ := List.forall_mem_cons.mp hqs
      rw [further_cons_append, further_cons_append] at h
      obtain ⟨rfl, hmore⟩ := member_append_inj hp.1 hp.2 hq (stops_further hc hd ps sep)
        (stops_further hc hd qs sep) (List.append_cancel_left h)
      obtain ⟨rfl, hrest⟩ := ih hps' hqs' hmore
      exact ⟨rfl, hrest⟩

theorem members_append_inj {ps qs : Row} {sep : List Char}
    (hps : ∀ p ∈ ps, p.1.Legible ∧ p.2.Readable) (hqs : ∀ q ∈ qs, q.1.Legible ∧ q.2.Legible)
    (h : members (d :: sep) ps ++ c :: s = members (d :: sep) qs ++ c :: s') :
    ps = qs ∧ s = s' := by
  cases ps with
  | nil =>
    cases qs with
    | nil => exact ⟨rfl, (List.cons.inj h).2⟩
    | cons q qs =>
      -- a member begins with its name
      obtain ⟨hq, _⟩ := List.forall_mem_cons.mp hqs
      rw [members_cons_append, member_append] at h
      exact absurd h.symm (hq.1.append_ne hc _ _)
  | cons p ps =>
    cases qs with
    | nil =>
      obtain ⟨hp, _⟩ := List.forall_mem_cons.mp hps
      rw [members_cons_append, member_append] at h
      exact absurd h (hp.1.append_ne hc _ _)
    | cons q qs =>
      rw [members_cons_append, members_cons_append] at h
      have hmore : further (d :: sep) (p :: ps) ++ c :: s =
          further (d :: sep) (q :: qs) ++ c :: s' := by
        rw [further_cons_append, further_cons_append, h]
      exact further_append_inj hc hd hne hps hqs hmore

end

/-! ## types -/

section
variable {u : Ty}

theorem eq_boolean_of_lead (hu : u.Legible) (h : u.lead = "boolean") : u = boolean := by
  cases u with
  | boolean => rfl
  | var x => exact absurd h (hu.var.ne_word (by decide))
  | _ => exact absurd h (by simp [lead])

theorem eq_number_of_lead (hu : u.Legible) (h : u.lead = "number") : u = number := by
  cases u with
  | number => rfl
  | var x => exact absurd h (hu.var.ne_word (by decide))
  | _ => exact absurd h (by simp [lead])

theorem eq_mu_of_lead (hu : u.Legible) (h : u.lead = "rec") : ∃ x b, u = mu x b := by
  cases u with
  | mu x b => exact ⟨x, b, rfl⟩
  | var x => exact absurd h (hu.var.ne_word (by decide))
  | _ => exact absurd h (by simp [lead])

theorem eq_var_of_lead {x : Name} (hx : x.Legible) (h : u.lead = x) : u = var x := by
  cases u with
  | var y => exact congrArg var h
  | func | object => exact absurd h.symm hx.nonempty
  | boolean | number | mu => exact absurd h.symm (hx.ne_word (by simp [lead, words]))

theorem eq_row_of_lead (hu : u.Legible) (h : u.lead = "") :
    (∃ ps r, u = func ps r) ∨ ∃ ps, u = object ps := by
  cases u with
  | func ps r => exact .inl ⟨ps, r, rfl⟩
  | object ps => exact .inr ⟨ps, rfl⟩
  | var x => exact absurd h hu.var.nonempty
  | _ => exact absurd h (by simp [lead])

end

theorem readable_func {ps : Row} {r : Ty} (ht : (func ps r).Legible)
    (hps : ∀ p ∈ ps, p.2.Readable) (hr : r.Readable) : (func ps r).Readable := by
  intro u s s' hu hs hs' h
  obtain ⟨hlead, htrail⟩ := lead_eq ht hu hs hs' h
  obtain ⟨qs, v, rfl⟩ | ⟨qs, rfl⟩ := eq_row_of_lead hu hlead.symm
  · obtain ⟨hqs, hv⟩ := hu.func
    simp only [trail, List.cons_append, List.append_assoc, List.cons.injEq, true_and] at htrail
    have hrow : ∀ p ∈ ps, p.1.Legible ∧ p.2.Readable := fun p hp => ⟨(ht.func.1 p hp).1, hps p hp⟩
    obtain ⟨rfl, hresult⟩ := members_append_inj (by decide) (by decide) (by decide) hrow hqs htrail
    simp only [List.cons.injEq, true_and] at hresult
    obtain ⟨rfl, hrest⟩ := hr hv hs hs' hresult
    exact ⟨rfl, hrest⟩
  · cases qs <;> exact absurd (List.cons.inj htrail).1 (by decide)

theorem readable_object {ps : Row} (ht : (object ps).Legible) (hps : ∀ p ∈ ps, p.2.Readable) :
    (object ps).Readable := by
  intro u s s' hu hs hs' h
  obtain ⟨hlead, htrail⟩ := lead_eq ht hu hs hs' h
  obtain ⟨qs, v, rfl⟩ | ⟨qs, rfl⟩ := eq_row_of_lead hu hlead.symm
  · cases ps <;> exact absurd (List.cons.inj htrail).1 (by decide)
  have hrow : ∀ p ∈ ps, p.1.Legible ∧ p.2.Readable := fun p hp => ⟨(ht.object p hp).1, hps p hp⟩
  cases ps with
  | nil =>
    cases qs with
    | nil => exact ⟨rfl, List.append_cancel_left htrail⟩
    | cons q qs => exact absurd (List.cons.inj (List.cons.inj htrail).2).1 (by decide)
  | cons p ps =>
    cases qs with
    | nil => exact absurd (List.cons.inj (List.cons.inj htrail).2).1 (by decide)
    | cons q qs =>
      simp only [trail, List.cons_append, List.append_assoc, List.cons.injEq, true_and] at htrail
      obtain ⟨hsame, hrest⟩ := members_append_inj (by decide) (by decide) (by decide) hrow
        hu.object htrail
      exact ⟨congrArg object hsame, (List.cons.inj hrest).2⟩

theorem readable_mu {x : Name} {b : Ty} (ht : (mu x b).Legible) (hb : b.Readable) :
    (mu x b).Readable := by
  intro u s s' hu hs hs' h
  obtain ⟨hlead, htrail⟩ := lead_eq ht hu hs hs' h
  obtain ⟨y, c, rfl⟩ := eq_mu_of_lead hu hlead.symm
  simp only [trail, List.cons_append, List.append_assoc, List.cons.injEq, true_and] at htrail
  obtain ⟨rfl, hbody⟩ := append_inj ht.mu.1.plain hu.mu.1.plain (stops_cons (by decide) _)
    (stops_cons (by decide) _) htrail
  simp only [List.cons.injEq, true_and] at hbody
  obtain ⟨rfl, hrest⟩ := hb hu.mu.2 hs hs' hbody
  exact ⟨rfl, hrest⟩

theorem readable {t : Ty} (ht : t.Legible) : t.Readable := by
  induction t with
  | boolean =>
    intro u s s' hu hs hs' h
    obtain ⟨hlead, htrail⟩ := lead_eq ht hu hs hs' h
    obtain rfl := eq_boolean_of_lead hu hlead.symm
    exact ⟨rfl, htrail⟩
  | number =>
    intro u s s' hu hs hs' h
    obtain ⟨hlead, htrail⟩ := lead_eq ht hu hs hs' h
    obtain rfl := eq_number_of_lead hu hlead.symm
    exact ⟨rfl, htrail⟩
  | func ps r hps hr =>
    exact readable_func ht (fun p hp => hps p hp (ht.func.1 p hp).2) (hr ht.func.2)
  | object ps hps => exact readable_object ht fun p hp => hps p hp (ht.object p hp).2
  | var x =>
    intro u s s' hu hs hs' h
    obtain ⟨hlead, htrail⟩ := lead_eq ht hu hs hs' h
    obtain rfl := eq_var_of_lead ht.var hlead.symm
    exact ⟨rfl, htrail⟩
  | mu x b hb => exact readable_mu ht (hb ht.mu.2)

theorem eq_of_display_eq {t u : Ty} (ht : t.Legible) (hu : u.Legible)
    (h : t.display = u.display) : t = u := by
  have hchars : t.display.toList ++ [] = u.display.toList ++ [] := by rw [h]
  exact (readable ht hu stops_nil stops_nil hchars).1

/-- types whose names are spelled with letters, digits and underscores -/
theorem eq_of_display_eq_of_spelled {t u : Ty} (ht : ∀ x ∈ t.names, x.Spelled)
    (hu : ∀ x ∈ u.names, x.Spelled) (h : t.display = u.display) : t = u :=
  eq_of_display_eq (fun x hx => (ht x hx).legible) (fun x hx => (hu x hx).legible) h

/-- the printed form of a type determines it: every name, order and shape -/
theorem display_eq_iff {t u : Ty} (ht : t.Legible) (hu : u.Legible) :
    t.display = u.display ↔ t = u :=
  ⟨eq_of_display_eq ht hu, congrArg display⟩

/-- a property of the inner object, and one of the outer object behind a function -/
theorem display_eq_iff_nested :
    let f (props : Row) : Ty := func [("x", mu "a" (func [] (var "a")))] (object props)
    let t := object [("f", f [("y", boolean)]), ("z_1", number)]
    let u := object [("f", f [("y", boolean), ("z_1", number)])]
    t.Legible ∧ u.Legible ∧ t.display ≠ u.display := by
  intro f t u
  have ht : t.Legible := by decide
  have hu : u.Legible := by decide
  exact ⟨ht, hu, (display_eq_iff ht hu).not.mpr (by decide)⟩

/-- a name with marks in it is not told from what it spells -/
example : (var "rec a. a").display = (mu "a" (var "a")).display := rfl

end Ty

end Equirec
