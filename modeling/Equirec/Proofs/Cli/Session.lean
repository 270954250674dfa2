import Mathlib.Data.List.Basic
import Equirec.Cli.Session
import Equirec.Proofs.Context
import Equirec.Proofs.Cli.Arguments

/-!
# What a command finds out

* `Cli.Coloured`           a text with the codes of colours put in
* `Cli.Holds`              what stands in a file
* `Cli.Collects`           the context that an environment stands for
* `Cli.Yields`             what a command finds out from its files
* `Cli.perform_eq_ok_iff`  the session of a command ends in what it finds out, or in a failure
* `Cli.Tells`              a response says what a command finds out, or fails and says nothing
* `Cli.respond_agrees`     the response to arguments tells what the command they ask for finds out
-/

namespace Equirec.Cli

/-! ## colours -/

/-- the second text is the first one with codes put in that switch colours on and off -/
inductive Coloured : List Char → List Char → Prop
  | nil : Coloured [] []
  | char (c : Char) {s t : List Char} (rest : Coloured s t) : Coloured (c :: s) (c :: t)
  | start (c : Colour) {s t : List Char} (rest : Coloured s t) : Coloured s (c.start.toList ++ t)
  | stop {s t : List Char} (rest : Coloured s t) : Coloured s (Colour.stop.toList ++ t)

theorem coloured_self (s : List Char) : Coloured s s := by
  induction s with
  | nil => exact .nil
  | cons c s ih => exact .char c ih

theorem Coloured.append {s t s' t' : List Char} (h : Coloured s t) (h' : Coloured s' t') :
    Coloured (s ++ s') (t ++ t') := by
  induction h with
  | nil => exact h'
  | char c _ ih => exact .char c ih
  | start c _ ih =>
    rw [List.append_assoc]
    exact .start c ih
  | stop _ ih =>
    rw [List.append_assoc]
    exact .stop ih

theorem coloured_resumed (c : Colour) (s : List Char) :
    Coloured s (Colour.resumed c.start.toList s) := by
  induction s using Colour.resumed.induct with
  | case1 rest ih => exact .char _ (.char _ (.char _ (.char _ (.start c ih))))
  | case2 d rest h ih =>
    rw [Colour.resumed]
    · exact .char d ih
    · exact h
  | case3 => exact .nil

theorem coloured_paint (c : Colour) (colours : Bool) (text : String) :
    Coloured text.toList (c.paint colours text).toList := by
  rw [Colour.paint]
  split
  · rw [String.toList_append, String.toList_append, String.toList_ofList, List.append_assoc]
    have h := (coloured_resumed c text.toList).append (.stop .nil)
    rw [List.append_nil, List.append_nil] at h
    exact .start c h
  · exact coloured_self _

/-! ## files -/

/-- the file can be read, and stands for `a` -/
def Holds {α : Type} (files : Files) (parse : String → Except Json.Failure α) (file : String)
    (a : α) : Prop :=
  ∃ text, files file = .ok text ∧ parse text = .ok a

/-- the context that an environment stands for: without a file that of no names, and with one that
of its types, if each of them is valid -/
inductive Collects (files : Files) : Option String → Context → Prop
  | none : Collects files none Context.empty
  | some {file : String} {s : Scope} (holds : Holds files Scope.parse file s)
      (valid : ∀ p ∈ s.bindings, p.2.validate = .ok ()) :
      Collects files (some file) (Context.ofRow s.bindings)

/-- what a command finds out from its files, if all of them can be read and are valid, and the
types of what they stand for have an answer -/
inductive Yields (files : Files) : Command → Answer → Prop
  | check {term : String} {env : Option String} {m : Term} {Γ : Context} {t : Ty}
      (term_holds : Holds files Term.parse term m) (collects : Collects files env Γ)
      (answers : (m.check Γ).outcome = .ok t) : Yields files (.check term env) (.typed t)
  | compare {c : Comparison} {left right : String} {t u : Ty} {b : Bool}
      (left_holds : Holds files Ty.parse left t) (left_valid : t.validate = .ok ())
      (right_holds : Holds files Ty.parse right u) (right_valid : u.validate = .ok ())
      (answers : (c.holds t u).outcome = .ok b) : Yields files (.compare c left right) (.verdict b)

variable {files : Files}

theorem readFile_eq_ok_iff {α : Type} {parse : String → Except Json.Failure α} {file : String}
    {a : α} : readFile files parse file = .ok a ↔ Holds files parse file a := by
  constructor
  · intro h
    rw [readFile] at h
    split at h
    · exact absurd h nofun
    · next text htext =>
      split at h
      · next ha =>
        cases h
        exact ⟨text, htext, ha⟩
      · exact absurd h nofun
  · rintro ⟨text, htext, ha⟩
    simp only [readFile, htext, ha]

theorem validateBindings_eq_ok_iff {row : Row} :
    validateBindings row = .ok () ↔ ∀ p ∈ row, p.2.validate = .ok () := by
  induction row with
  | nil => exact iff_of_true rfl (List.forall_mem_nil _)
  | cons p row ih =>
    rw [List.forall_mem_cons, ← ih, validateBindings]
    cases p.2.validate with
    | error e => exact iff_of_false nofun fun h => absurd h.1 nofun
    | ok _ => exact (and_iff_right rfl).symm

theorem readContext_eq_ok_iff {env : Option String} {Γ : Context} :
    readContext files env = .ok Γ ↔ Collects files env Γ := by
  cases env with
  | none =>
    constructor
    · rintro ⟨⟩
      exact .none
    · rintro ⟨⟩
      rfl
  | some file =>
    have hofRow (s : Scope) : Context.ofRow s.bindings = ⟨[s]⟩ :=
      congrArg (fun s => (⟨[s]⟩ : Context)) (Scope.ofRow_bindings s)
    constructor
    · intro h
      obtain ⟨s, hs, h⟩ := bind_eq_ok_iff.mp h
      obtain ⟨_, hvalid, h⟩ := bind_eq_ok_iff.mp h
      cases h
      rw [← hofRow s]
      exact .some (readFile_eq_ok_iff.mp hs) (validateBindings_eq_ok_iff.mp hvalid)
    · rintro (_ | ⟨hs, hvalid⟩)
      rw [hofRow]
      exact bind_eq_ok_iff.mpr ⟨_, readFile_eq_ok_iff.mpr hs,
        bind_eq_ok_iff.mpr ⟨(), validateBindings_eq_ok_iff.mpr hvalid, rfl⟩⟩

theorem readType_eq_ok_iff {file : String} {t : Ty} :
    readType files file = .ok t ↔ Holds files Ty.parse file t ∧ t.validate = .ok () := by
  rw [readType, bind_eq_ok_iff]
  constructor
  · rintro ⟨u, hu, h⟩
    split at h
    · next hvalid =>
      cases h
      exact ⟨readFile_eq_ok_iff.mp hu, hvalid⟩
    · exact absurd h nofun
  · rintro ⟨ht, hvalid⟩
    exact ⟨t, readFile_eq_ok_iff.mpr ht, by rw [hvalid]⟩

/-! ## sessions -/

theorem resultOf_eq_ok_iff {α : Type} {answer : α → Answer} {o : Outcome α} {a : Answer} :
    resultOf answer o = .ok a ↔ ∃ b, o = .ok b ∧ a = answer b := by
  cases o with
  | ok b =>
    constructor
    · rintro ⟨⟩
      exact ⟨b, rfl, rfl⟩
    · rintro ⟨_, ⟨⟩, rfl⟩
      rfl
  | error e => exact iff_of_false nofun nofun
  | exhausted => exact iff_of_false nofun nofun

theorem result_perform_check (files : Files) (term : String) (env : Option String) :
    (perform files (.check term env)).result = (do
      let m ← readFile files Term.parse term
      let Γ ← readContext files env
      resultOf .typed (m.check Γ).outcome) := by
  rw [perform]
  cases readFile files Term.parse term with
  | error f => rfl
  | ok m => cases readContext files env <;> rfl

theorem result_perform_compare (files : Files) (c : Comparison) (left right : String) :
    (perform files (.compare c left right)).result = (do
      let t ← readType files left
      let u ← readType files right
      resultOf .verdict (c.holds t u).outcome) := by
  rw [perform]
  cases readType files left with
  | error f => rfl
  | ok t => cases readType files right <;> rfl

/-- the session of a command ends in what the command finds out, or in a failure -/
theorem perform_eq_ok_iff {command : Command} {a : Answer} :
    (perform files command).result = .ok a ↔ Yields files command a := by
  constructor
  · intro h
    cases command with
    | check term env =>
      rw [result_perform_check] at h
      obtain ⟨m, hm, h⟩ := bind_eq_ok_iff.mp h
      obtain ⟨Γ, hΓ, h⟩ := bind_eq_ok_iff.mp h
      obtain ⟨t, ht, rfl⟩ := resultOf_eq_ok_iff.mp h
      exact .check (readFile_eq_ok_iff.mp hm) (readContext_eq_ok_iff.mp hΓ) ht
    | compare c left right =>
      rw [result_perform_compare] at h
      obtain ⟨t, ht, h⟩ := bind_eq_ok_iff.mp h
      obtain ⟨u, hu, h⟩ := bind_eq_ok_iff.mp h
      obtain ⟨b, hb, rfl⟩ := resultOf_eq_ok_iff.mp h
      obtain ⟨ht, htvalid⟩ := readType_eq_ok_iff.mp ht
      obtain ⟨hu, huvalid⟩ := readType_eq_ok_iff.mp hu
      exact .compare ht htvalid hu huvalid hb
  · intro h
    cases h with
    | check hm hΓ ht =>
      rw [result_perform_check]
      exact bind_eq_ok_iff.mpr ⟨_, readFile_eq_ok_iff.mpr hm,
        bind_eq_ok_iff.mpr ⟨_, readContext_eq_ok_iff.mpr hΓ, resultOf_eq_ok_iff.mpr ⟨_, ht, rfl⟩⟩⟩
    | compare ht htvalid hu huvalid hb =>
      rw [result_perform_compare]
      exact bind_eq_ok_iff.mpr ⟨_, readType_eq_ok_iff.mpr ⟨ht, htvalid⟩,
        bind_eq_ok_iff.mpr ⟨_, readType_eq_ok_iff.mpr ⟨hu, huvalid⟩,
          resultOf_eq_ok_iff.mpr ⟨_, hb, rfl⟩⟩⟩

/-! ## responses -/

/-- a response tells what a command finds out from its files: if that is an answer, then the answer
stands on a line of its own, and if there is none, then nothing is written out -/
structure Tells (files : Files) (colours : Bool) (command : Command) (r : Response) : Prop where
  found : r.exitCode = 0 ↔ ∃ a, Yields files command a
  answer (a : Answer) (h : Yields files command a) :
    Coloured (a.text ++ "\n").toList r.output.toList ∧
      (colours = false → r.output = a.text ++ "\n")
  nothing (h : r.exitCode ≠ 0) : r.exitCode = 1 ∧ r.output = ""

theorem lines_singleton (text : String) : lines [text] = text ++ "\n" := by
  rw [lines]
  exact String.empty_append

theorem tells_respond (files : Files) (colours : Bool) (v : Nat) (command : Command) :
    Tells files colours command ((perform files command).respond colours v) := by
  cases h : (perform files command).result with
  | ok a =>
    have hyields := perform_eq_ok_iff.mp h
    rw [Session.respond, h]
    refine ⟨iff_of_true rfl ⟨a, hyields⟩, fun b hb => ?_, fun hne => absurd rfl hne⟩
    cases h.symm.trans (perform_eq_ok_iff.mpr hb)
    show Coloured _ (lines [_]).toList ∧ (_ → lines [_] = _)
    rw [lines_singleton]
    refine ⟨?_, ?_⟩
    · rw [String.toList_append, String.toList_append]
      exact (coloured_paint _ colours _).append (coloured_self _)
    · rintro rfl
      rw [Colour.paint_plain]
  | error f =>
    have hnone (a : Answer) (ha : Yields files command a) : False :=
      absurd (h.symm.trans (perform_eq_ok_iff.mpr ha)) nofun
    rw [Session.respond, h]
    exact ⟨iff_of_false nofun fun ⟨a, ha⟩ => hnone a ha, fun a ha => (hnone a ha).elim,
      fun _ => ⟨rfl, rfl⟩⟩

/-- the log is no part of what is written out, and does not change the exit code -/
theorem respond_logged (s : Session) (colours : Bool) (v v' : Nat) :
    (s.respond colours v).exitCode = (s.respond colours v').exitCode ∧
      (s.respond colours v).output = (s.respond colours v').output := by
  cases h : s.result <;> simp only [Session.respond, h, and_self]

theorem respond_of_parse {files : Files} {colours : Bool} {args : List String} {v : Nat}
    {command : Command} (h : parse args = .ok ⟨v, command⟩) :
    respond files colours args = (perform files command).respond colours v := by
  rw [respond, h]

/-- The response to arguments tells what the command that they ask for finds out.  Any number of
flags can be put in front of them, and all arguments that are read as this command have the same exit
code and write out the same. -/
theorem respond_agrees {files : Files} {colours : Bool} {args : List String} {v : Nat}
    {command : Command} (h : parse args = .ok ⟨v, command⟩) :
    let r := respond files colours args
    Asks args command ∧ Tells files colours command r ∧
      (∀ n, parse (List.replicate n "-v" ++ args) = .ok ⟨v + n, command⟩) ∧
      ∀ args' v', parse args' = .ok ⟨v', command⟩ →
        (respond files colours args').exitCode = r.exitCode ∧
          (respond files colours args').output = r.output := by
  refine ⟨asks_of_parse h, ?_, parse_replicate h, fun args' v' h' => ?_⟩
  · rw [respond_of_parse h]
    exact tells_respond files colours v command
  · rw [respond_of_parse h, respond_of_parse h']
    exact respond_logged _ colours v' v

/-- two files with a type each -/
def shapes : Files := fun file =>
  if file = "wide.json" then
    .ok ("\x7b\"tag\": \"Object\", \"props\": " ++
      "[\x7b\"name\": \"x\", \"type\": \x7b\"tag\": \"Number\"\x7d\x7d]\x7d")
  else if file = "narrow.json" then
    .ok "\x7b\"tag\": \"Object\", \"props\": []\x7d"
  else
    .error noSuchFile

theorem yields_shapes :
    Yields shapes (.compare .subtyping "wide.json" "narrow.json") (.verdict true) := by
  have hwide : Holds shapes Ty.parse "wide.json" (.object [("x", .number)]) :=
    ⟨_, rfl, by decide +kernel⟩
  have hnarrow : Holds shapes Ty.parse "narrow.json" (.object []) := ⟨_, rfl, by decide +kernel⟩
  exact .compare hwide rfl hnarrow rfl (by decide)

/-- an object with more is a subtype of one with less, whatever stands in front of the question -/
theorem respond_agrees_shapes :
    parse ["-v", "subtype", "wide.json", "narrow.json"] =
        .ok ⟨1, .compare .subtyping "wide.json" "narrow.json"⟩ ∧
      let r := respond shapes false ["-v", "subtype", "wide.json", "narrow.json"]
      r.exitCode = 0 ∧ r.output = "true\n" := by
  have hparse : parse ["-v", "subtype", "wide.json", "narrow.json"] =
      .ok ⟨1, .compare .subtyping "wide.json" "narrow.json"⟩ := rfl
  have htells : Tells shapes false _ (respond _ _ _) := (respond_agrees hparse).2.1
  exact ⟨hparse, htells.found.mpr ⟨_, yields_shapes⟩, (htells.answer _ yields_shapes).2 rfl⟩

end Equirec.Cli
