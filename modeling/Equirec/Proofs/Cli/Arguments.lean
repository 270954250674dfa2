import Equirec.Cli.Arguments
import Equirec.Proofs.Except

/-!
# What arguments ask for

Behind the word of a command its files stand in their order, with options among them; what stands in
front of it counts flags.

* `Cli.operands`, `Cli.environments`
                         the files named behind the word of a command, as operands and by `--env`
* `Cli.Operands.Adds`    what reading some arguments adds to the operands read before
* `Cli.word`             the words of the commands that compare
* `Cli.Asks`             what command some arguments ask for
* `Cli.parseFrom_cases`  what stands in front of the arguments that are understood
* `Cli.asks_of_parse`    the command that arguments are read as is the one that they ask for
* `Cli.parse_replicate`  each further `-v` in front counts, and changes nothing else
-/

namespace Equirec.Cli

/-! ## behind a command -/

/-- the files that are operands, in order -/
def operands : List String → List String
  | [] => []
  | "--" :: rest => rest
  | "--env" :: _ :: rest => operands rest
  | arg :: rest => if isOption arg then operands rest else arg :: operands rest

/-- the files that are given as environments, in order -/
def environments : List String → List String
  | [] => []
  | "--" :: _ => []
  | "--env" :: file :: rest => file :: environments rest
  | arg :: rest => (Operands.envFile? arg).toList ++ environments rest

theorem operands_cons {arg : String} (h : arg ≠ "--") (h' : arg ≠ "--env") (rest : List String) :
    operands (arg :: rest) = (if isOption arg then [] else [arg]) ++ operands rest := by
  rw [operands]
  · split <;> rfl
  all_goals simp [h, h']

theorem environments_cons {arg : String} (h : arg ≠ "--") (h' : arg ≠ "--env")
    (rest : List String) :
    environments (arg :: rest) = (Operands.envFile? arg).toList ++ environments rest := by
  rw [environments]
  all_goals simp [h, h']

theorem isOption_of_envFile? {arg file : String} (h : Operands.envFile? arg = some file) :
    isOption arg = true := by
  rw [Operands.envFile?] at h
  split at h
  · next hfront =>
    obtain ⟨rest, hrest⟩ := List.isPrefixOf_iff_prefix.mp hfront
    rw [isOption, ← hrest]
    rfl
  · exact absurd h nofun

namespace Operands

/-- the second operands are the first ones with some more files and environments behind them -/
structure Adds (ops ops' : Operands) (files envs : List String) : Prop where
  files : ops'.files.reverse = ops.files.reverse ++ files
  envs : ops'.env.toList = ops.env.toList ++ envs

theorem Adds.none (ops : Operands) : Adds ops ops [] [] :=
  ⟨(List.append_nil _).symm, (List.append_nil _).symm⟩

theorem Adds.trans {ops ops' ops'' : Operands} {files files' envs envs' : List String}
    (h : Adds ops ops' files envs) (h' : Adds ops' ops'' files' envs') :
    Adds ops ops'' (files ++ files') (envs ++ envs') :=
  ⟨by rw [h'.files, h.files, List.append_assoc], by rw [h'.envs, h.envs, List.append_assoc]⟩

variable {limit : Nat} {hasEnv : Bool} {ops ops' : Operands}

theorem adds_addFile {file : String} (h : addFile limit ops file = .ok ops') :
    Adds ops ops' [file] [] := by
  rw [addFile] at h
  split at h
  · cases h
    exact ⟨List.reverse_cons, (List.append_nil _).symm⟩
  · exact absurd h nofun

theorem adds_setEnv {file : String} (h : ops.setEnv file = .ok ops') : Adds ops ops' [] [file] := by
  rw [setEnv] at h
  split at h
  · next hnone =>
    cases h
    refine ⟨(List.append_nil _).symm, ?_⟩
    rw [Option.isNone_iff_eq_none.mp hnone.1]
    rfl
  · exact absurd h nofun

theorem adds_addFiles {files : List String} (h : ops.addFiles limit files = .ok ops') :
    Adds ops ops' files [] := by
  induction files generalizing ops with
  | nil =>
    cases h
    exact .none _
  | cons file files ih =>
    obtain ⟨mid, hmid, h⟩ := bind_eq_ok_iff.mp (show addFile limit ops file >>= _ = _ from h)
    exact (adds_addFile hmid).trans (ih h)

theorem adds_readOne {arg : String} (h : ops.readOne limit hasEnv arg = .ok ops') :
    Adds ops ops' (if isOption arg then [] else [arg]) (envFile? arg).toList := by
  rw [readOne] at h
  split at h
  · exact absurd h nofun
  · split at h
    · next hopt =>
      rw [if_pos hopt]
      split at h
      · next file hfile =>
        rw [hfile]
        split at h
        · exact adds_setEnv h
        · exact absurd h nofun
      · exact absurd h nofun
    · next hopt =>
      have henv : envFile? arg = none :=
        Option.eq_none_iff_forall_ne_some.mpr fun file hfile => hopt (isOption_of_envFile? hfile)
      rw [if_neg hopt, henv]
      exact adds_addFile h

theorem adds_read {args : List String} (h : read limit hasEnv ops args = .ok ops') :
    Adds ops ops' (operands args) (environments args) := by
  induction ops, args using read.induct hasEnv with
  | case1 =>
    cases h
    exact .none _
  | case2 ops rest => exact adds_addFiles h
  | case3 ops => exact absurd h nofun
  | case4 ops file rest hfile ih =>
    rw [read, if_pos hfile] at h
    obtain ⟨mid, hmid, h⟩ := bind_eq_ok_iff.mp h
    exact (adds_setEnv hmid).trans (ih mid h)
  | case5 ops file rest hfile =>
    rw [read, if_neg hfile] at h
    exact absurd h nofun
  | case6 ops arg rest hstop hlast henv ih =>
    have hne : arg ≠ "--env" := fun e => by
      cases rest with
      | nil => exact hlast e rfl
      | cons file rest => exact henv file rest e rfl
    rw [read] at h
    · obtain ⟨mid, hmid, h⟩ := bind_eq_ok_iff.mp h
      rw [operands_cons hstop hne, environments_cons hstop hne]
      exact (adds_readOne hmid).trans (ih mid h)
    all_goals assumption

end Operands

/-! ## commands -/

/-- the word of the command that compares two types -/
def word : Comparison → String
  | .equality => "equal"
  | .subtyping => "subtype"

/-- what command some arguments ask for: behind options stands its word, and behind that its files
in their order -/
inductive Asks : List String → Command → Prop
  | check (flags : List String) {rest : List String} {term : String} {env : Option String}
      (options : ∀ arg ∈ flags, isOption arg = true) (files : operands rest = [term])
      (envs : environments rest = env.toList) : Asks (flags ++ "check" :: rest) (.check term env)
  | compare (flags : List String) {rest : List String} {c : Comparison} {left right : String}
      (options : ∀ arg ∈ flags, isOption arg = true) (files : operands rest = [left, right]) :
      Asks (flags ++ word c :: rest) (.compare c left right)

theorem Asks.cons {args : List String} {command : Command} (h : Asks args command) {arg : String}
    (harg : isOption arg = true) : Asks (arg :: args) command := by
  cases h with
  | check flags options files envs =>
    exact .check (arg :: flags) (List.forall_mem_cons.mpr ⟨harg, options⟩) files envs
  | compare flags options files =>
    exact .compare (arg :: flags) (List.forall_mem_cons.mpr ⟨harg, options⟩) files

theorem parseCheck_eq_ok {args : List String} {command : Command}
    (h : parseCheck args = .ok command) :
    ∃ term env, command = .check term env ∧ operands args = [term] ∧
      environments args = Option.toList env := by
  obtain ⟨ops, hops, h⟩ := bind_eq_ok_iff.mp h
  obtain ⟨hfiles, henvs⟩ := Operands.adds_read hops
  split at h
  · next term hterm =>
    cases h
    rw [hterm] at hfiles
    exact ⟨term, ops.env, rfl, hfiles.symm, henvs.symm⟩
  · exact absurd h nofun

theorem parseCompare_eq_ok {c : Comparison} {args : List String} {command : Command}
    (h : parseCompare c args = .ok command) :
    ∃ left right, command = .compare c left right ∧ operands args = [left, right] := by
  obtain ⟨ops, hops, h⟩ := bind_eq_ok_iff.mp h
  obtain ⟨hfiles, _⟩ := Operands.adds_read hops
  split at h
  · next right left hboth =>
    cases h
    rw [hboth] at hfiles
    exact ⟨left, right, rfl, hfiles.symm⟩
  · exact absurd h nofun

/-! ## flags in front of a command -/

theorem readLetters_eq_ok {n m : Nat} {letters : List Char} (h : readLetters n letters = .ok m) :
    ∀ n', readLetters n' letters = .ok (n' + letters.length) := by
  induction letters generalizing n with
  | nil => exact fun n' => rfl
  | cons c letters ih =>
    intro n'
    have hc : c = 'v' := by
      rw [readLetters.eq_def] at h
      split at h <;> simp_all
    subst hc
    show readLetters (n' + 1) letters = _
    rw [ih h, List.length_cons]
    congr 1
    omega

/-- what stands in front is the word of a command, or an option that counts flags -/
theorem parseFrom_cases {n : Nat} {arg : String} {rest : List String} {inv : Invocation}
    (h : parseFrom n (arg :: rest) = .ok inv) :
    (arg = "check" ∧ ∃ command, parseCheck rest = .ok command ∧ inv = ⟨n, command⟩) ∨
      (∃ c, arg = word c ∧ ∃ command, parseCompare c rest = .ok command ∧ inv = ⟨n, command⟩) ∨
      (isOption arg = true ∧ ∃ k, ∀ m, parseFrom m (arg :: rest) = parseFrom (m + k) rest) := by
  rw [parseFrom.eq_def] at h
  split at h
  · next e => cases e
  · next e =>
    cases e
    obtain ⟨command, hcommand, h⟩ := bind_eq_ok_iff.mp h
    exact .inl ⟨rfl, command, hcommand, (Except.ok.inj h).symm⟩
  · next e =>
    cases e
    obtain ⟨command, hcommand, h⟩ := bind_eq_ok_iff.mp h
    exact .inr (.inl ⟨.equality, rfl, command, hcommand, (Except.ok.inj h).symm⟩)
  · next e =>
    cases e
    obtain ⟨command, hcommand, h⟩ := bind_eq_ok_iff.mp h
    exact .inr (.inl ⟨.subtyping, rfl, command, hcommand, (Except.ok.inj h).symm⟩)
  · exact absurd h nofun
  · next e =>
    cases e
    exact .inr (.inr ⟨rfl, 1, fun m => rfl⟩)
  · exact absurd h nofun
  · exact absurd h nofun
  · next h1 h2 h3 h4 h5 h6 h7 e =>
    cases e
    split at h
    · next c letters hletters =>
      obtain ⟨m, hm, h⟩ := bind_eq_ok_iff.mp h
      have hopt : isOption arg = true := by
        rw [isOption, hletters]
        rfl
      refine .inr (.inr ⟨hopt, (c :: letters).length, fun m => ?_⟩)
      rw [parseFrom]
      · rw [hletters]
        exact congrArg (· >>= fun k => parseFrom k rest) (readLetters_eq_ok hm m)
      all_goals assumption
    · exact absurd h nofun

theorem parseFrom_word (c : Comparison) (n : Nat) (rest : List String) :
    parseFrom n (word c :: rest) = parseCompare c rest >>= fun command => .ok ⟨n, command⟩ := by
  cases c <;> rfl

theorem asks_of_parseFrom {n v : Nat} {args : List String} {command : Command}
    (h : parseFrom n args = .ok ⟨v, command⟩) : Asks args command := by
  induction args generalizing n with
  | nil => exact absurd h nofun
  | cons arg rest ih =>
    rcases parseFrom_cases h with ⟨rfl, _, hcommand, e⟩ | ⟨c, rfl, _, hcommand, e⟩ | ⟨hopt, k, hk⟩
    · cases e
      obtain ⟨term, env, rfl, hfiles, henvs⟩ := parseCheck_eq_ok hcommand
      exact .check [] (List.forall_mem_nil _) hfiles henvs
    · cases e
      obtain ⟨left, right, rfl, hfiles⟩ := parseCompare_eq_ok hcommand
      exact .compare [] (List.forall_mem_nil _) hfiles
    · exact (ih ((hk n).symm.trans h)).cons hopt

theorem parseFrom_add {n v : Nat} {args : List String} {command : Command}
    (h : parseFrom n args = .ok ⟨v, command⟩) (k : Nat) :
    parseFrom (n + k) args = .ok ⟨v + k, command⟩ := by
  induction args generalizing n with
  | nil => exact absurd h nofun
  | cons arg rest ih =>
    rcases parseFrom_cases h with ⟨rfl, _, hcommand, e⟩ | ⟨c, rfl, _, hcommand, e⟩ | ⟨hopt, j, hj⟩
    · cases e
      exact bind_eq_ok_iff.mpr ⟨_, hcommand, rfl⟩
    · cases e
      rw [parseFrom_word]
      exact bind_eq_ok_iff.mpr ⟨_, hcommand, rfl⟩
    · rw [hj, Nat.add_right_comm]
      exact ih ((hj n).symm.trans h)

theorem asks_of_parse {v : Nat} {args : List String} {command : Command}
    (h : parse args = .ok ⟨v, command⟩) : Asks args command :=
  asks_of_parseFrom h

/-- each further `-v` counts, and changes nothing else -/
theorem parse_replicate {v : Nat} {args : List String} {command : Command}
    (h : parse args = .ok ⟨v, command⟩) (n : Nat) :
    parse (List.replicate n "-v" ++ args) = .ok ⟨v + n, command⟩ := by
  induction n with
  | zero => exact h
  | succ n ih => exact parseFrom_add ih 1

end Equirec.Cli
