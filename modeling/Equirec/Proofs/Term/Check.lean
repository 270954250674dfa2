import Equirec.Term.Typing
import Equirec.Proofs.Run
import Equirec.Proofs.Comparison.Decision
import Equirec.Proofs.Term.Rules

/-!
# The check follows the rules

* `Term.Checked`         the check of a term agrees with `HasType` and `Fault`
* `Term.checked_ite`, `Term.checked_call` and so on
                         it does if the checks of its parts do
* `Term.checked`         it does for well-formed terms in well-formed contexts
* `Term.check_agrees`    such a term has one type, or none and one fault
-/

namespace Equirec

/-! ## heads -/

namespace Ty

theorem unfoldsTo_headForm (t : Ty) : t.UnfoldsTo t.headForm := settles_headForm t

theorem UnfoldsTo.root {t h : Ty} (hh : t.UnfoldsTo h) : t.tree.root = some h.shape := by
  rw [settles_iff.mp hh]
  rfl

theorem UnfoldsTo.root_eq_boolean {t h : Ty} (hh : t.UnfoldsTo h) :
    t.tree.root = some .boolean ↔ h = boolean := by
  rw [hh.root]
  cases h <;> simp [shape]

theorem UnfoldsTo.root_eq_number {t h : Ty} (hh : t.UnfoldsTo h) :
    t.tree.root = some .number ↔ h = number := by
  rw [hh.root]
  cases h <;> simp [shape]

/-- what comes after the head form -/
theorem agrees_normalize {α : Type} {t : Ty} {f : Ty → Run α} {Q : Ty → α → Prop}
    {G : Ty → TypeError → Prop} (hf : ∀ h, t.UnfoldsTo h → (f h).Agrees (Q h) (G h)) :
    (t.normalize >>= f).Agrees (fun a => ∃ h, t.UnfoldsTo h ∧ Q h a)
      fun e => ∃ h, t.UnfoldsTo h ∧ G h e := by
  have hhead : t.normalize.Agrees t.UnfoldsTo fun _ => False := by
    refine ⟨fun h => ?_, fun e => ?_, ?_⟩
    · rw [outcome_normalize, Outcome.ok.injEq]
      exact eq_comm.trans settles_iff.symm
    · simp [outcome_normalize]
    · simp [outcome_normalize]
  exact (hhead.bind hf).congr (fun _ => Iff.rfl) fun _ => by rw [false_or]

end Ty

namespace Term

/-- the check of the term ends in its types and its faults by the rules -/
def Checked (m : Term) (Γ : Context) : Prop :=
  (m.check Γ).Agrees (HasType Γ.get? m) (Fault Γ.get? m)

variable {Γ : Context}

theorem checked_bool (b : Bool) : (bool b).Checked Γ := by
  show (pure .boolean : Run Ty).Agrees _ _
  refine (Run.Agrees.pure _).congr (fun T => ⟨?_, ?_⟩) (fun e => ⟨False.elim, fun h => ?_⟩)
  · rintro rfl
    exact .bool
  · intro h
    cases h
    rfl
  · cases h

theorem checked_number (n : Float) : (number n).Checked Γ := by
  show (pure .number : Run Ty).Agrees _ _
  refine (Run.Agrees.pure _).congr (fun T => ⟨?_, ?_⟩) (fun e => ⟨False.elim, fun h => ?_⟩)
  · rintro rfl
    exact .number
  · intro h
    cases h
    rfl
  · cases h

theorem checked_ite {c a b : Term} (hc : c.Checked Γ) (ha : a.Checked Γ) (hb : b.Checked Γ)
    (hwa : ∀ T, HasType Γ.get? a T → T.WellFormed) (hwb : ∀ U, HasType Γ.get? b U → U.WellFormed) :
    (ite c a b).Checked Γ := by
  show (c.check Γ >>= _).Agrees _ _
  refine (hc.bind fun C _ => Ty.agrees_normalize fun H _ => Run.Agrees.ite
    (fun _ => ha.bind fun T hT => hb.bind fun U hU =>
      .test (Comparison.holds_decides (hwa T hT) (hwb U hU)) (fun _ => .pure T) fun _ => .fail _)
    fun _ => .fail _).congr (fun T => ⟨?_, ?_⟩) (fun e => ⟨?_, ?_⟩)
  · intro h
    rcases h with ⟨C, hC, H, hH, ⟨hbool, T, hT, U, hU, ⟨he, rfl⟩ | ⟨_, hf⟩⟩ | ⟨_, hf⟩⟩
    · exact .ite hC (hH.root_eq_boolean.mpr hbool) hT hU he
    · exact hf.elim
    · exact hf.elim
  · intro h
    have hH := fun C : Ty => C.unfoldsTo_headForm
    cases h with
    | ite hC hbool hT hU he =>
      exact ⟨_, hC, _, hH _,
        .inl ⟨(hH _).root_eq_boolean.mp hbool, _, hT, _, hU, .inl ⟨he, rfl⟩⟩⟩
  · intro h
    rcases h with hC | ⟨C, hC, H, hH, ⟨hbool, hT | ⟨T, hT, hU | ⟨U, hU, ⟨_, hf⟩ | ⟨he, rfl⟩⟩⟩⟩ |
      ⟨hbool, rfl⟩⟩
    · exact .iteTest hC
    · exact .iteThen hC (hH.root_eq_boolean.mpr hbool) hT
    · exact .iteElse hC (hH.root_eq_boolean.mpr hbool) hT hU
    · exact hf.elim
    · exact .iteBranches hC (hH.root_eq_boolean.mpr hbool) hT hU he
    · exact .iteCondition hC (fun h => hbool (hH.root_eq_boolean.mp h)) hH
  · intro h
    have hH := fun C : Ty => C.unfoldsTo_headForm
    cases h with
    | iteTest hC => exact .inl hC
    | iteCondition hC hbool head =>
      exact .inr ⟨_, hC, _, head, .inr ⟨fun h => hbool (head.root_eq_boolean.mpr h), rfl⟩⟩
    | iteThen hC hbool hT =>
      exact .inr ⟨_, hC, _, hH _, .inl ⟨(hH _).root_eq_boolean.mp hbool, .inl hT⟩⟩
    | iteElse hC hbool hT hU =>
      exact .inr ⟨_, hC, _, hH _, .inl ⟨(hH _).root_eq_boolean.mp hbool, .inr ⟨_, hT, .inl hU⟩⟩⟩
    | iteBranches hC hbool hT hU he =>
      exact .inr ⟨_, hC, _, hH _, .inl ⟨(hH _).root_eq_boolean.mp hbool,
        .inr ⟨_, hT, .inr ⟨_, hU, .inr ⟨he, rfl⟩⟩⟩⟩⟩

theorem checked_add {l r : Term} (hl : l.Checked Γ) (hr : r.Checked Γ) :
    (add l r).Checked Γ := by
  show (l.check Γ >>= _).Agrees _ _
  refine (hl.bind fun L _ => Ty.agrees_normalize fun H _ => hr.bind fun R _ =>
    Ty.agrees_normalize fun K _ => Run.Agrees.ite (fun _ => .pure _) fun _ => .fail _).congr
    (fun T => ⟨?_, ?_⟩) (fun e => ⟨?_, ?_⟩)
  · intro h
    rcases h with ⟨L, hL, H, hH, R, hR, K, hK, ⟨⟨hn, hn'⟩, rfl⟩ | ⟨_, hf⟩⟩
    · exact .add hL hR ⟨hH.root_eq_number.mpr hn, hK.root_eq_number.mpr hn'⟩
    · exact hf.elim
  · intro h
    have hH := fun L : Ty => L.unfoldsTo_headForm
    cases h with
    | add hL hR hn =>
      exact ⟨_, hL, _, hH _, _, hR, _, hH _,
        .inl ⟨⟨(hH _).root_eq_number.mp hn.1, (hH _).root_eq_number.mp hn.2⟩, rfl⟩⟩
  · intro h
    rcases h with hL | ⟨L, hL, H, hH, hR | ⟨R, hR, K, hK, ⟨_, hf⟩ | ⟨hn, rfl⟩⟩⟩
    · exact .addLeft hL
    · exact .addRight hL hR
    · exact hf.elim
    · refine .addOperands hL hR ?_ hH hK
      rwa [hH.root_eq_number, hK.root_eq_number]
  · intro h
    have hH := fun L : Ty => L.unfoldsTo_headForm
    cases h with
    | addLeft hL => exact .inl hL
    | addRight hL hR => exact .inr ⟨_, hL, _, hH _, .inl hR⟩
    | addOperands hL hR hn head head' =>
      rw [head.root_eq_number, head'.root_eq_number] at hn
      exact .inr ⟨_, hL, _, head, .inr ⟨_, hR, _, head', .inr ⟨hn, rfl⟩⟩⟩

theorem checked_var (x : Name) : (var x).Checked Γ := by
  rw [Checked, check]
  cases hx : Γ.get? x with
  | some t =>
    refine (Run.Agrees.pure t).congr (fun T => ⟨?_, ?_⟩) (fun e => ⟨False.elim, fun h => ?_⟩)
    · rintro rfl
      exact .var hx
    · intro h
      cases h with
      | var bound => exact Option.some.inj (hx.symm.trans bound)
    · cases h with
      | var bound => exact absurd (hx.symm.trans bound) (by simp)
  | none =>
    refine (Run.Agrees.fail _).congr (fun T => ⟨False.elim, fun h => ?_⟩) (fun e => ⟨?_, ?_⟩)
    · cases h with
      | var bound => exact absurd (hx.symm.trans bound) (by simp)
    · rintro rfl
      exact .var hx
    · intro h
      cases h
      rfl

theorem checked_func {ps : Row} {b : Term} (hb : b.Checked (Γ.extend ps)) :
    (func ps b).Checked Γ := by
  show (b.check (Γ.extend ps) >>= _).Agrees _ _
  rw [Checked, Context.get?_extend_eq] at hb
  refine (hb.bind fun R _ => .pure _).congr (fun T => ⟨?_, ?_⟩) (fun e => ⟨?_, ?_⟩)
  · intro h
    obtain ⟨R, hR, rfl⟩ := h
    exact .func hR
  · intro h
    cases h with
    | func body => exact ⟨_, body, rfl⟩
  · intro h
    rcases h with hR | ⟨_, _, hf⟩
    · exact .func hR
    · exact hf.elim
  · intro h
    cases h with
    | func body => exact .inl body

theorem checked_seq {a r : Term} (ha : a.Checked Γ) (hr : r.Checked Γ) : (seq a r).Checked Γ := by
  show (a.check Γ >>= fun _ => r.check Γ).Agrees _ _
  refine (ha.bind fun A _ => hr).congr (fun T => ⟨?_, ?_⟩) (fun e => ⟨?_, ?_⟩)
  · intro h
    obtain ⟨A, hA, hT⟩ := h
    exact .seq hA hT
  · intro h
    cases h with
    | seq first rest => exact ⟨_, first, rest⟩
  · intro h
    rcases h with hA | ⟨A, hA, hT⟩
    · exact .seqFirst hA
    · exact .seqRest hA hT
  · intro h
    cases h with
    | seqFirst first => exact .inl first
    | seqRest first rest => exact .inr ⟨_, first, rest⟩

theorem checked_const {x : Name} {a r : Term} (ha : a.Checked Γ)
    (hr : ∀ A, HasType Γ.get? a A → r.Checked (Γ.bind x A)) : (const x a r).Checked Γ := by
  show (a.check Γ >>= fun A => r.check (Γ.bind x A)).Agrees _ _
  simp only [Checked, Context.get?_bind_eq] at hr
  refine (ha.bind hr).congr (fun T => ⟨?_, ?_⟩) (fun e => ⟨?_, ?_⟩)
  · intro h
    obtain ⟨A, hA, hT⟩ := h
    exact .const hA hT
  · intro h
    cases h with
    | const value rest => exact ⟨_, value, rest⟩
  · intro h
    rcases h with hA | ⟨A, hA, hT⟩
    · exact .constValue hA
    · exact .constRest hA hT
  · intro h
    cases h with
    | constValue value => exact .inl value
    | constRest value rest => exact .inr ⟨_, value, rest⟩

theorem agrees_checkArgs {as : List Term} (has : ∀ a ∈ as, a.Checked Γ)
    (hwas : ∀ a ∈ as, ∀ A, HasType Γ.get? a A → A.WellFormed) {ps : Row}
    (hps : ∀ p ∈ ps, p.2.WellFormed) (hlen : ps.length = as.length) :
    (checkArgs as ps Γ).Agrees (fun _ => ArgsFit Γ.get? as ps) (ArgsFault Γ.get? as ps) := by
  induction as generalizing ps with
  | nil =>
    obtain rfl := List.length_eq_zero_iff.mp hlen
    show (pure () : Run Unit).Agrees _ _
    refine (Run.Agrees.pure ()).congr (fun _ => iff_of_true rfl .nil)
      (fun e => ⟨False.elim, fun h => ?_⟩)
    cases h
  | cons a as ih =>
    cases ps with
    | nil => exact absurd hlen (by simp)
    | cons p ps =>
      obtain ⟨x, P⟩ := p
      obtain ⟨ha, has⟩ := List.forall_mem_cons.mp has
      obtain ⟨hwa, hwas⟩ := List.forall_mem_cons.mp hwas
      obtain ⟨hP, hps⟩ := List.forall_mem_cons.mp hps
      have hrest := ih has hwas hps (Nat.succ.inj hlen)
      show (a.check Γ >>= _).Agrees _ _
      refine (ha.bind fun A hA => .test (Comparison.holds_decides (hwa A hA) hP)
        (fun _ => hrest) fun _ => .fail _).congr (fun _ => ⟨?_, ?_⟩) (fun e => ⟨?_, ?_⟩)
      · intro h
        rcases h with ⟨A, hA, ⟨hsub, h⟩ | ⟨_, hf⟩⟩
        · exact .cons hA hsub h
        · exact hf.elim
      · intro h
        cases h with
        | cons hA hsub h => exact ⟨_, hA, .inl ⟨hsub, h⟩⟩
      · intro h
        rcases h with hA | ⟨A, hA, ⟨hsub, h⟩ | ⟨hsub, rfl⟩⟩
        · exact .arg hA
        · exact .rest hA hsub h
        · exact .fits hA hsub
      · intro h
        cases h with
        | arg hA => exact .inl hA
        | fits hA hsub => exact .inr ⟨_, hA, .inr ⟨hsub, rfl⟩⟩
        | rest hA hsub h => exact .inr ⟨_, hA, .inl ⟨hsub, h⟩⟩

theorem checked_call {f : Term} {as : List Term} (hf : f.Checked Γ)
    (hwf : ∀ F, HasType Γ.get? f F → F.WellFormed) (has : ∀ a ∈ as, a.Checked Γ)
    (hwas : ∀ a ∈ as, ∀ A, HasType Γ.get? a A → A.WellFormed) : (call f as).Checked Γ := by
  show (f.check Γ >>= _).Agrees _ _
  refine (hf.bind fun F hF => Ty.agrees_normalize
    (Q := fun H T => ∃ ps, H = .func ps T ∧ ps.length = as.length ∧ ArgsFit Γ.get? as ps)
    (G := fun H e => (∃ ps R, H = .func ps R ∧ (ps.length = as.length ∧ ArgsFault Γ.get? as ps e ∨
      ps.length ≠ as.length ∧ .arityMismatch ps.length as.length = e)) ∨
      (∀ n, H.shape ≠ .func n) ∧ .notAFunction H = e) fun H hH => ?_).congr
    (fun T => ⟨?_, ?_⟩) (fun e => ⟨?_, ?_⟩)
  · cases H with
    | func ps R =>
      have hps := (Ty.wellFormed_func.mp (hH.wellFormed (hwf F hF))).1
      refine (Run.Agrees.ite (fun hlen => (agrees_checkArgs has hwas hps hlen).bind
        fun _ _ => .pure R) fun _ => .fail _).congr (fun T => ⟨?_, ?_⟩) fun e => ⟨?_, ?_⟩
      · intro h
        rcases h with ⟨hlen, _, hargs, rfl⟩ | ⟨_, h⟩
        · exact ⟨ps, rfl, hlen, hargs⟩
        · exact h.elim
      · intro h
        obtain ⟨_, h, hlen, hargs⟩ := h
        cases h
        exact .inl ⟨hlen, (), hargs, rfl⟩
      · intro h
        rcases h with ⟨hlen, h | ⟨_, _, h⟩⟩ | h
        · exact .inl ⟨ps, R, rfl, .inl ⟨hlen, h⟩⟩
        · exact h.elim
        · exact .inl ⟨ps, R, rfl, .inr h⟩
      · intro h
        rcases h with ⟨_, _, h, ⟨hlen, hargs⟩ | harity⟩ | ⟨h, _⟩
        · cases h
          exact .inl ⟨hlen, .inl hargs⟩
        · cases h
          exact .inr harity
        · exact absurd rfl (h ps.length)
    | _ => exact (Run.Agrees.fail _).congr (fun T => by simp) fun e => by simp [Ty.shape]
  · intro h
    obtain ⟨F, hF, H, hH, ps, rfl, hlen, hargs⟩ := h
    exact .call hF hH hlen hargs
  · intro h
    cases h with
    | call hF hH hlen hargs => exact ⟨_, hF, _, hH, _, rfl, hlen, hargs⟩
  · intro h
    rcases h with hF | ⟨F, hF, H, hH, ⟨ps, R, rfl, ⟨hlen, h⟩ | ⟨hlen, rfl⟩⟩ | ⟨hn, rfl⟩⟩
    · exact .callCallee hF
    · exact .callArgs hF hH hlen h
    · exact .callArity hF hH hlen
    · refine .callHead hF (fun n h => hn n ?_) hH
      rw [hH.root] at h
      exact Option.some.inj h
  · intro h
    cases h with
    | callCallee callee => exact .inl callee
    | callHead callee func head =>
      refine .inr ⟨_, callee, _, head, .inr ⟨fun n h => func n ?_, rfl⟩⟩
      rw [head.root, h]
    | callArity callee head arity =>
      exact .inr ⟨_, callee, _, head, .inl ⟨_, _, rfl, .inr ⟨arity, rfl⟩⟩⟩
    | callArgs callee head arity args =>
      exact .inr ⟨_, callee, _, head, .inl ⟨_, _, rfl, .inl ⟨arity, args⟩⟩⟩

theorem agrees_checkProps {ps : List (Name × Term)} (hps : ∀ p ∈ ps, p.2.Checked Γ) :
    (checkProps ps Γ).Agrees (PropsHave Γ.get? ps) (PropsFault Γ.get? ps) := by
  induction ps with
  | nil =>
    show (pure [] : Run Row).Agrees _ _
    refine (Run.Agrees.pure []).congr (fun row => ⟨?_, ?_⟩) (fun e => ⟨False.elim, fun h => ?_⟩)
    · rintro rfl
      exact .nil
    · intro h
      cases h
      rfl
    · cases h
  | cons p ps ih =>
    obtain ⟨x, a⟩ := p
    obtain ⟨ha, hps⟩ := List.forall_mem_cons.mp hps
    show (a.check Γ >>= _).Agrees _ _
    refine (ha.bind fun A _ => (ih hps).bind fun row _ => .pure _).congr (fun row => ⟨?_, ?_⟩)
      (fun e => ⟨?_, ?_⟩)
    · intro h
      obtain ⟨A, hA, row, hrow, rfl⟩ := h
      exact .cons hA hrow
    · intro h
      cases h with
      | cons hA hrow => exact ⟨_, hA, _, hrow, rfl⟩
    · intro h
      rcases h with hA | ⟨A, hA, hrow | ⟨_, _, hf⟩⟩
      · exact .prop hA
      · exact .rest hA hrow
      · exact hf.elim
    · intro h
      cases h with
      | prop hA => exact .inl hA
      | rest hA hrow => exact .inr ⟨_, hA, .inl hrow⟩

theorem checked_object {ps : List (Name × Term)} (hps : ∀ p ∈ ps, p.2.Checked Γ) :
    (object ps).Checked Γ := by
  show (checkProps ps Γ >>= _).Agrees _ _
  refine ((agrees_checkProps hps).bind fun row _ => .pure _).congr (fun T => ⟨?_, ?_⟩)
    (fun e => ⟨?_, ?_⟩)
  · intro h
    obtain ⟨row, hrow, rfl⟩ := h
    exact .object hrow
  · intro h
    cases h with
    | object props => exact ⟨_, props, rfl⟩
  · intro h
    rcases h with h | ⟨_, _, hf⟩
    · exact .object h
    · exact hf.elim
  · intro h
    cases h with
    | object props => exact .inl props

theorem checked_get {o : Term} {x : Name} (ho : o.Checked Γ)
    (hwo : ∀ O, HasType Γ.get? o O → O.WellFormed) : (get o x).Checked Γ := by
  show (o.check Γ >>= _).Agrees _ _
  refine (ho.bind fun O hO => Ty.agrees_normalize
    (Q := fun H T => ∃ row, H = .object row ∧ (x, T) ∈ row)
    (G := fun H e => (∃ row, H = .object row ∧ x ∉ Row.names row ∧
      .unknownProperty x (.object row) = e) ∨
      (∀ names, H.shape ≠ .object names) ∧ .notAnObject H = e) fun H hH => ?_).congr
    (fun T => ⟨?_, ?_⟩) (fun e => ⟨?_, ?_⟩)
  · cases H with
    | object row =>
      have hn := (Ty.wellFormed_object.mp (hH.wellFormed (hwo O hO))).1
      dsimp only
      cases hx : row.lookup x with
      | some t =>
        have hmem : x ∈ Row.names row :=
          Row.lookup_isSome_iff.mp (Option.isSome_iff_exists.mpr ⟨t, hx⟩)
        refine (Run.Agrees.pure t).congr (fun T => ⟨?_, ?_⟩) fun e => ⟨False.elim, ?_⟩
        · rintro rfl
          exact ⟨row, rfl, Row.mem_of_lookup hx⟩
        · intro h
          obtain ⟨_, h, hT⟩ := h
          cases h
          exact Option.some.inj (hx.symm.trans (Row.lookup_of_mem hn hT))
        · intro h
          rcases h with ⟨_, h, hnot, _⟩ | ⟨h, _⟩
          · cases h
            exact hnot hmem
          · exact h _ rfl
      | none =>
        have hnot : x ∉ Row.names row := fun hmem => by
          simpa [hx] using Row.lookup_isSome_iff.mpr hmem
        refine (Run.Agrees.fail _).congr (fun T => ⟨False.elim, ?_⟩) fun e => ⟨?_, ?_⟩
        · intro h
          obtain ⟨_, h, hT⟩ := h
          cases h
          exact hnot (List.mem_map.mpr ⟨(x, T), hT, rfl⟩)
        · rintro rfl
          exact .inl ⟨row, rfl, hnot, rfl⟩
        · intro h
          rcases h with ⟨_, h, _, he⟩ | ⟨h, _⟩
          · cases h
            exact he
          · exact absurd rfl (h _)
    | _ => exact (Run.Agrees.fail _).congr (fun T => by simp) fun e => by simp [Ty.shape]
  · intro h
    obtain ⟨O, hO, H, hH, row, rfl, hx⟩ := h
    exact .get hO hH hx
  · intro h
    cases h with
    | get hO hH hx => exact ⟨_, hO, _, hH, _, rfl, hx⟩
  · intro h
    rcases h with hO | ⟨O, hO, H, hH, ⟨row, rfl, hx, rfl⟩ | ⟨hn, rfl⟩⟩
    · exact .getTarget hO
    · exact .getProp hO hH hx
    · refine .getHead hO (fun names h => hn names ?_) hH
      rw [hH.root] at h
      exact Option.some.inj h
  · intro h
    cases h with
    | getTarget target => exact .inl target
    | getHead target object head =>
      refine .inr ⟨_, target, _, head, .inr ⟨fun names h => object names ?_, rfl⟩⟩
      rw [head.root, h]
    | getProp target head prop => exact .inr ⟨_, target, _, head, .inl ⟨_, rfl, prop, rfl⟩⟩

theorem checked_recFunc {f : Name} {ps : Row} {R : Ty} {b r : Term}
    (hb : b.Checked (Γ.extend ((f, .func ps R) :: ps)))
    (hwb : ∀ B, HasType ((Bindings.set Γ.get? f (.func ps R)).setAll ps) b B → B.WellFormed)
    (hR : R.WellFormed) (hr : r.Checked (Γ.bind f (.func ps R))) :
    (recFunc f ps R b r).Checked Γ := by
  show (b.check (Γ.extend ((f, .func ps R) :: ps)) >>= _).Agrees _ _
  rw [Checked, Context.get?_extend_eq] at hb
  rw [Checked, Context.get?_bind_eq] at hr
  refine (hb.bind fun B hB => .test (Comparison.holds_decides (hwb B hB) hR)
    (fun _ => hr.log) fun _ => .fail _).congr (fun T => ⟨?_, ?_⟩) (fun e => ⟨?_, ?_⟩)
  · intro h
    rcases h with ⟨B, hB, ⟨he, hT⟩ | ⟨_, hf⟩⟩
    · exact .recFunc hB he hT
    · exact hf.elim
  · intro h
    cases h with
    | recFunc body result rest => exact ⟨_, body, .inl ⟨result, rest⟩⟩
  · intro h
    rcases h with hB | ⟨B, hB, ⟨he, hT⟩ | ⟨he, rfl⟩⟩
    · exact .recFuncBody hB
    · exact .recFuncRest hB he hT
    · exact .recFuncResult hB he
  · intro h
    cases h with
    | recFuncBody body => exact .inl body
    | recFuncResult body result => exact .inr ⟨_, body, .inr ⟨result, rfl⟩⟩
    | recFuncRest body result rest => exact .inr ⟨_, body, .inl ⟨result, rest⟩⟩

/-! ## the whole term -/

theorem checked {m : Term} (hm : m.WellFormed) (hΓ : Bindings.WellFormed Γ.get?) :
    m.Checked Γ := by
  induction m generalizing Γ with
  | bool b => exact checked_bool b
  | number n => exact checked_number n
  | ite c a b hc ha hb =>
    obtain ⟨hmc, hma, hmb⟩ := wellFormed_ite.mp hm
    exact checked_ite (hc hmc hΓ) (ha hma hΓ) (hb hmb hΓ) (fun T h => h.wellFormed hΓ hma)
      fun U h => h.wellFormed hΓ hmb
  | add l r hl hr =>
    obtain ⟨hml, hmr⟩ := wellFormed_add.mp hm
    exact checked_add (hl hml hΓ) (hr hmr hΓ)
  | var x => exact checked_var x
  | func ps b hb =>
    obtain ⟨hps, hmb⟩ := wellFormed_func.mp hm
    exact checked_func (hb hmb (by rw [Context.get?_extend_eq]; exact hΓ.setAll hps))
  | call f as hf has =>
    obtain ⟨hmf, hmas⟩ := wellFormed_call.mp hm
    exact checked_call (hf hmf hΓ) (fun F h => h.wellFormed hΓ hmf)
      (fun a ha => has a ha (hmas a ha) hΓ) fun a ha A h => h.wellFormed hΓ (hmas a ha)
  | seq a r ha hr =>
    obtain ⟨hma, hmr⟩ := wellFormed_seq.mp hm
    exact checked_seq (ha hma hΓ) (hr hmr hΓ)
  | const x a r ha hr =>
    obtain ⟨hma, hmr⟩ := wellFormed_const.mp hm
    refine checked_const (ha hma hΓ) fun A hA => hr hmr ?_
    rw [Context.get?_bind_eq]
    exact hΓ.set (hA.wellFormed hΓ hma)
  | object ps hps =>
    exact checked_object fun p hp => hps p hp ((wellFormed_object.mp hm).2 p hp) hΓ
  | get o x ho =>
    have hmo := wellFormed_get.mp hm
    exact checked_get (ho hmo hΓ) fun O h => h.wellFormed hΓ hmo
  | recFunc f ps R b r hb hr =>
    obtain ⟨hps, hR, hmb, hmr⟩ := wellFormed_recFunc.mp hm
    have hset := hΓ.set (x := f) (Ty.wellFormed_func.mpr ⟨hps, hR⟩)
    refine checked_recFunc (hb hmb ?_) (fun B h => h.wellFormed (hset.setAll hps) hmb) hR
      (hr hmr ?_)
    · rw [Context.get?_extend_eq]
      exact hset.setAll hps
    · rw [Context.get?_bind_eq]
      exact hset

/-- the check of a well-formed term in a context of well-formed types ends in a type exactly if
that is its type by the rules, and in an error exactly if that is its fault; the term has one type,
or none and one fault -/
theorem check_agrees {m : Term} {Γ : Context} (hm : m.WellFormed)
    (hΓ : ∀ x t, Γ.get? x = some t → t.WellFormed) :
    (∀ T, (m.check Γ).outcome = .ok T ↔ HasType Γ.get? m T) ∧
    (∀ e, (m.check Γ).outcome = .error e ↔ Fault Γ.get? m e) ∧
    ((∃! T, HasType Γ.get? m T) ∨ (¬ ∃ T, HasType Γ.get? m T) ∧ ∃! e, Fault Γ.get? m e) := by
  have h := checked hm hΓ
  refine ⟨h.ok, h.error, ?_⟩
  cases ho : (m.check Γ).outcome with
  | ok T =>
    refine .inl ⟨T, (h.ok T).mp ho, fun U hU => ?_⟩
    exact Outcome.ok.inj (((h.ok U).mpr hU).symm.trans ho)
  | error e =>
    refine .inr ⟨fun ⟨T, hT⟩ => ?_, e, (h.error e).mp ho, fun e' he => ?_⟩
    · exact absurd (((h.ok T).mpr hT).symm.trans ho) (by simp)
    · exact Outcome.error.inj (((h.error e').mpr he).symm.trans ho)
  | exhausted => exact absurd ho h.ends

/-- a parameter hides the function it belongs to, and the function is called after it -/
theorem hasType_hidden :
    HasType (Context.empty.bind "n" .number).get?
      (recFunc "f" [("f", .number)] .number (add (var "f") (var "n")) (call (var "f") [var "n"]))
      .number := by
  have hΓ : ∀ x t, (Context.empty.bind "n" .number).get? x = some t → t.WellFormed := by
    intro x t h
    rw [Context.get?_bind, Context.get?_empty] at h
    by_cases e : x = "n"
    · rw [if_pos e] at h
      rw [← Option.some.inj h]
      decide
    · rw [if_neg e] at h
      exact absurd h (by simp)
  refine ((check_agrees (by decide) hΓ).1 _).mp ?_
  decide

end Term

end Equirec
