-- The grammar of the command line. It begins with options that name files of settings, as many as
-- there are, and what comes after them decides: a call for help, or the name of what is called and its
-- literals. Only the last of the files counts, and it is read before any literal is.
import Builtins.CommandLine

namespace Builtins.CommandLine

/-! ## Options -/

/-- Options as they are written, each before its path. -/
def spell (options : List (String × String)) : List String :=
  options.flatMap fun (option, path) => [option, path]

/-- Whether arguments begin with options, each with any path after it, and go on with `rest`. -/
structure Begins (args : List String) (options : List (String × String)) (rest : List String) :
    Prop where
  spelled : args = spell options ++ rest
  isOption : ∀ o ∈ options, isConfigOption o.1 = true

/-- Whether arguments begin with these options, and with no more of them. -/
structure BeginsLongest (args : List String) (options : List (String × String))
    (rest : List String) : Prop extends Begins args options rest where
  longest : ∀ options' rest', Begins args options' rest' → options'.length ≤ options.length

/-- The path of the last option. -/
def lastPath (options : List (String × String)) : Option String := options.getLast?.map Prod.snd

variable {args rest rest' : List String} {options options' : List (String × String)}
  {option path : String}

theorem Begins.cons (h : Begins args options rest) (hoption : isConfigOption option = true)
    (path : String) : Begins (option :: path :: args) ((option, path) :: options) rest where
  spelled := congrArg (option :: path :: ·) h.spelled
  isOption o ho := by
    rcases List.mem_cons.mp ho with rfl | ho
    · exact hoption
    · exact h.isOption o ho

theorem Begins.of_cons (h : Begins args ((option, path) :: options) rest) :
    ∃ more, args = option :: path :: more ∧ isConfigOption option = true ∧
      Begins more options rest :=
  ⟨spell options ++ rest, h.spelled, h.isOption _ List.mem_cons_self, rfl,
    fun o ho => h.isOption o (List.mem_cons_of_mem _ ho)⟩

/-- One option more can be read where there is another pair. -/
theorem Begins.concat (h : Begins args options (option :: path :: rest))
    (hoption : isConfigOption option = true) :
    Begins args (options ++ [(option, path)]) rest where
  spelled := by
    rw [h.spelled]
    unfold spell
    simp
  isOption o ho := by
    rcases List.mem_append.mp ho with ho | ho
    · exact h.isOption o ho
    · rw [List.mem_singleton.mp ho]
      exact hoption

/-- Options are as many as there can be if no other pair follows. -/
theorem Begins.longest (h : Begins args options rest)
    (hend : ∀ option path more, rest = option :: path :: more → isConfigOption option = false) :
    BeginsLongest args options rest := by
  refine ⟨h, fun options' rest' h' => ?_⟩
  induction options generalizing args options' with
  | nil =>
    cases options' with
    | nil => exact Nat.le_refl _
    | cons o options' =>
      obtain ⟨more, hargs, hoption, -⟩ := h'.of_cons
      rw [hend o.1 o.2 more (h.spelled.symm.trans hargs)] at hoption
      cases hoption
  | cons o options ih =>
    cases options' with
    | nil => exact Nat.zero_le _
    | cons o' options' =>
      obtain ⟨more, hargs, -, hmore⟩ := h.of_cons
      obtain ⟨more', hargs', -, hmore'⟩ := h'.of_cons
      rw [hargs] at hargs'
      obtain ⟨-, -, rfl⟩ : o.1 = o'.1 ∧ o.2 = o'.2 ∧ more = more' := by simpa using hargs'
      exact Nat.succ_le_succ (ih hmore options' hmore')

theorem BeginsLongest.isConfigOption_eq_false
    (h : BeginsLongest args options (option :: path :: rest)) : isConfigOption option = false := by
  cases hoption : isConfigOption option with
  | false => rfl
  | true =>
    have hmore := h.longest _ _ (h.toBegins.concat hoption)
    rw [List.length_append, List.length_singleton] at hmore
    omega

theorem exists_beginsLongest : ∀ args, ∃ options rest, BeginsLongest args options rest
  | [] => ⟨[], [], Begins.longest ⟨rfl, by simp⟩ (by simp)⟩
  | [arg] => ⟨[], [arg], Begins.longest ⟨rfl, by simp⟩ (by simp)⟩
  | option :: path :: args => by
    cases hoption : isConfigOption option with
    | false => exact ⟨[], _, Begins.longest ⟨rfl, by simp⟩ (by rintro _ _ _ ⟨⟩; exact hoption)⟩
    | true =>
      obtain ⟨options, rest, h⟩ := exists_beginsLongest args
      refine ⟨(option, path) :: options, rest, (h.toBegins.cons hoption path).longest ?_⟩
      rintro _ _ _ rfl
      exact h.isConfigOption_eq_false

/-! ## Reading the arguments -/

theorem lastPath_cons (options : List (String × String)) (config : Option String) :
    (lastPath ((option, path) :: options)).or config = (lastPath options).or (some path) := by
  unfold lastPath
  rw [List.getLast?_cons]
  cases options.getLast? <;> rfl

theorem Begins.parseAfter_eq (h : Begins args options rest) (config : Option String) :
    parseAfter config args = parseAfter ((lastPath options).or config) rest := by
  induction options generalizing args config with
  | nil =>
    rw [h.spelled]
    rfl
  | cons o options ih =>
    obtain ⟨more, rfl, hoption, hmore⟩ := h.of_cons
    rw [parseAfter, if_pos hoption, lastPath_cons]
    exact ih hmore (some o.2)

theorem Begins.parse_eq (h : Begins args options rest) :
    parse args = parseAfter (lastPath options) rest := by
  unfold parse
  rw [h.parseAfter_eq, Option.or_none]

theorem parseAfter_help {config : Option String} (hhelp : isHelpOption option = true) :
    parseAfter config (option :: rest) = .ok .help := by
  have hoption : isConfigOption option = false := by
    unfold isHelpOption at hhelp
    unfold isConfigOption
    grind
  unfold parseAfter
  simp [hoption, hhelp]

theorem parseAfter_name {config : Option String} {name : String} {literals : List String}
    (hoption : isConfigOption name = false) (hhelp : isHelpOption name = false) :
    parseAfter config (name :: literals) = .ok (.call config name literals) := by
  unfold parseAfter
  simp [hoption, hhelp]

/-! ## What a run does -/

/-- Whether a run has failed with nothing written, and says so by its exit status. -/
def FailedAtOnce (outcome : Option Outcome) (failure : Failure) : Prop :=
  ∃ o, outcome = some o ∧ o.lines = [] ∧ o.failure = some failure ∧ o.exitCode = 1

/-- Whether arguments are refused, whatever the files hold. -/
def Refused [Yaml.Reader] (args : List String) (failure : Failure) : Prop :=
  ∀ fuel readFile, FailedAtOnce (run fuel readFile args) failure

/-- Whether arguments ask for help: no file is read, and whatever the files hold, the usage is all that
is written. -/
structure ShowsUsage [Yaml.Reader] (args : List String) : Prop where
  readsNothing : configPath? args = none
  outcome : ∀ fuel readFile, ∃ o, run fuel readFile args = some o ∧ o.lines = [usage] ∧
    o.failure = none ∧ o.exitCode = 0

/-- Whether arguments ask for a call with literals, under the settings of the file at a path. -/
structure CallsUnder [Yaml.Reader] (args : List String) (path : Option String) (name : String)
    (literals : List String) : Prop where
  parsed : parse args = .ok (.call path name literals)
  /-- Only the file at the path is read, and none without a path. -/
  reads : configPath? args = path
  /-- Without a path the settings are the usual ones. -/
  usual : path = none → ∀ fuel readFile, run fuel readFile args = runCall fuel {} name literals
  /-- A file that cannot be read is a failure, whatever the literals are. -/
  unreadable : ∀ p fuel readFile, path = some p → readFile p = none →
    FailedAtOnce (run fuel readFile args) (.unreadable p)
  /-- So is one that holds no settings. -/
  malformed : ∀ p fuel readFile source e, path = some p → readFile p = some source →
    Config.ofSource source = .error e → FailedAtOnce (run fuel readFile args) (.malformed p)
  loaded : ∀ p fuel readFile source config, path = some p → readFile p = some source →
    Config.ofSource source = .ok config →
      run fuel readFile args = runCall fuel config name literals

section Parsed

variable [Yaml.Reader]

theorem refused_of_parse {failure : Failure} (hparse : parse args = .error failure) :
    Refused args failure := by
  intro fuel readFile
  unfold run
  rw [hparse]
  exact ⟨_, rfl, rfl, rfl, rfl⟩

theorem showsUsage_of_parse (hparse : parse args = .ok .help) : ShowsUsage args where
  readsNothing := by
    unfold configPath?
    rw [hparse]
  outcome fuel readFile := by
    unfold run
    rw [hparse]
    exact ⟨_, rfl, rfl, rfl, rfl⟩

theorem callsUnder_of_parse {path : Option String} {name : String} {literals : List String}
    (hparse : parse args = .ok (.call path name literals)) : CallsUnder args path name literals where
  parsed := hparse
  reads := by
    unfold configPath?
    rw [hparse]
  usual := by
    rintro rfl fuel readFile
    unfold run
    rw [hparse]
    rfl
  unreadable := by
    rintro p fuel readFile rfl hread
    have hload : loadConfig readFile (some p) = .error (.unreadable p) := by simp [loadConfig, hread]
    unfold run
    simp only [hparse, hload]
    exact ⟨_, rfl, rfl, rfl, rfl⟩
  malformed := by
    rintro p fuel readFile source e rfl hread hsource
    have hload : loadConfig readFile (some p) = .error (.malformed p) := by
      simp [loadConfig, hread, hsource]
    unfold run
    simp only [hparse, hload]
    exact ⟨_, rfl, rfl, rfl, rfl⟩
  loaded := by
    rintro p fuel readFile source config rfl hread hsource
    have hload : loadConfig readFile (some p) = .ok config := by simp [loadConfig, hread, hsource]
    unfold run
    simp only [hparse, hload]

end Parsed

/-! ## The law of the grammar -/

/-- All arguments begin with some options, as many as there can be, and what follows these decides.
Nothing at all, or an option without a path, is refused. A help option shows the usage, and no path
before it matters. Any other argument is the name of what is called, and all that comes after it are
literals, in their order and as they are written, even those spelled like options. The last path is
the only one that counts. Nothing else can follow: no pair of an option and a path does. -/
theorem what_follows_the_options_decides [Yaml.Reader] (args : List String) :
    (∃ options rest, BeginsLongest args options rest) ∧
      ∀ options rest, BeginsLongest args options rest →
        (rest = [] → Refused args .missingName) ∧
        (∀ option, rest = [option] → isConfigOption option = true →
          Refused args (.missingPath option)) ∧
        (∀ option more, rest = option :: more → isHelpOption option = true → ShowsUsage args) ∧
        (∀ name literals, rest = name :: literals → isConfigOption name = false →
          isHelpOption name = false → CallsUnder args (lastPath options) name literals) ∧
        ∀ option path more, rest = option :: path :: more → isConfigOption option = false := by
  refine ⟨exists_beginsLongest args, fun options rest h => ?_⟩
  have hparse := h.toBegins.parse_eq
  refine ⟨?_, ?_, ?_, ?_, ?_⟩
  · rintro rfl
    exact refused_of_parse hparse
  · rintro option rfl hoption
    apply refused_of_parse
    rw [hparse, parseAfter, if_pos hoption]
  · rintro option more rfl hhelp
    apply showsUsage_of_parse
    rw [hparse, parseAfter_help hhelp]
  · rintro name literals rfl hoption hhelp
    apply callsUnder_of_parse
    rw [hparse, parseAfter_name hoption hhelp]
  · rintro option path more rfl
    exact h.isConfigOption_eq_false

/-- Paths may be spelled like options, and so may literals. -/
theorem a_path_may_be_spelled_like_an_option :
    CallsUnder ["-c", "--help", "--config", "-c", "print", "--help", "-c"] (some "-c") "print"
        ["--help", "-c"] ∧
      ShowsUsage ["-c", "nowhere.yaml", "-h", "print"] := by
  constructor
  · have hlongest : BeginsLongest ["-c", "--help", "--config", "-c", "print", "--help", "-c"]
        [("-c", "--help"), ("--config", "-c")] ["print", "--help", "-c"] :=
      Begins.longest ⟨rfl, by decide⟩ (by rintro _ _ _ ⟨⟩; rfl)
    obtain ⟨-, -, -, hcalls, -⟩ := (what_follows_the_options_decides _).2 _ _ hlongest
    exact hcalls _ _ rfl rfl rfl
  · have hlongest : BeginsLongest ["-c", "nowhere.yaml", "-h", "print"] [("-c", "nowhere.yaml")]
        ["-h", "print"] := Begins.longest ⟨rfl, by decide⟩ (by rintro _ _ _ ⟨⟩; rfl)
    obtain ⟨-, -, hhelp, -⟩ := (what_follows_the_options_decides _).2 _ _ hlongest
    exact hhelp _ _ rfl rfl

end Builtins.CommandLine
