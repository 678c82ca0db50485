-- Runs of the command line. A literal that is rejected is the end; else there is one call, in a new
-- session, and what it has written stands before what is written of its result. The call always comes
-- to an end, and no exception is ever what it ends with.
import Builtins.Proofs.CommandLine.Result
import Builtins.Proofs.Literal.Outcome
import Builtins.Proofs.Literal.ReadBack
import Builtins.Proofs.Session.Frame

namespace Builtins.CommandLine

/-! ## Literals -/

section Literals

variable [Yaml.Reader] {g : Globals}

/-- The values of literals are inert, and to make them changes no list. -/
theorem inert_of_values (hg : g.Standard) {sources : List String} {h h' : Heap} {vs : List Value}
    (hvs : values g sources h = (.ok vs, h')) : h.Extends h' ∧ ∀ v ∈ vs, h'.Inert v := by
  induction sources generalizing h vs with
  | nil =>
    cases hvs
    exact ⟨Heap.extends_refl _, by simp⟩
  | cons source sources ih =>
    rw [values] at hvs
    rcases hsource : (Literal.ofSource g source).run.run h with ⟨e | v, h₁⟩
    · simp [hsource] at hvs
    · rcases hrest : values g sources h₁ with ⟨failure | ws, h₂⟩
      · simp [hsource, hrest] at hvs
      · simp only [hsource, hrest, Prod.mk.injEq, Except.ok.injEq] at hvs
        obtain ⟨rfl, rfl⟩ := hvs
        obtain ⟨hmore, hv⟩ := Literal.answers_ofSource hg source h v h₁ hsource
        obtain ⟨hmore', hws⟩ := ih hrest
        refine ⟨hmore.trans hmore', fun x hx => ?_⟩
        rcases List.mem_cons.mp hx with rfl | hx
        · exact hv.extends hmore'
        · exact hws x hx

/-- Literals of which none is rejected have values. -/
theorem exists_values {sources : List String} (hall : ∀ s ∈ sources, ¬ Literal.Rejected g s)
    (h : Heap) : ∃ vs h', values g sources h = (.ok vs, h') := by
  induction sources generalizing h with
  | nil => exact ⟨[], h, rfl⟩
  | cons source sources ih =>
    obtain ⟨v, h₁, hsource⟩ := Literal.run_of_not_rejected (hall source List.mem_cons_self) h
    obtain ⟨vs, h₂, hrest⟩ := ih (fun s hs => hall s (List.mem_cons_of_mem source hs)) h₁
    exact ⟨v :: vs, h₂, by simp [values, hsource, hrest]⟩

/-- The first literal that is rejected is the failure. -/
theorem values_of_rejected {before : List String} {source : String}
    (hbefore : ∀ s ∈ before, ¬ Literal.Rejected g s) (hr : Literal.Rejected g source)
    (after : List String) (h : Heap) :
    ∃ h', values g (before ++ source :: after) h = (.error (.literal source), h') := by
  induction before generalizing h with
  | nil =>
    obtain ⟨e, h', hsource⟩ := hr.run h
    exact ⟨h', by simp [values, hsource]⟩
  | cons first before ih =>
    obtain ⟨v, h₁, hfirst⟩ := Literal.run_of_not_rejected (hbefore first List.mem_cons_self) h
    obtain ⟨h₂, hrest⟩ := ih (fun s hs => hbefore s (List.mem_cons_of_mem first hs)) h₁
    exact ⟨h₂, by simp [values, hfirst, hrest]⟩

/-- Among literals of which one is rejected there is a first one. -/
theorem exists_first_rejected {sources : List String}
    (h : ∃ s ∈ sources, Literal.Rejected g s) :
    ∃ before source after, sources = before ++ source :: after ∧
      (∀ s ∈ before, ¬ Literal.Rejected g s) ∧ Literal.Rejected g source := by
  induction sources with
  | nil => simp at h
  | cons first sources ih =>
    by_cases hfirst : Literal.Rejected g first
    · exact ⟨[], first, sources, rfl, by simp, hfirst⟩
    · have hrest : ∃ s ∈ sources, Literal.Rejected g s := by
        obtain ⟨s, hs, hr⟩ := h
        rcases List.mem_cons.mp hs with rfl | hs
        · exact absurd hr hfirst
        · exact ⟨s, hs, hr⟩
      obtain ⟨before, source, after, rfl, hbefore, hr⟩ := ih hrest
      refine ⟨first :: before, source, after, rfl, fun s hs => ?_, hr⟩
      rcases List.mem_cons.mp hs with rfl | hs
      · exact hfirst
      · exact hbefore s hs

end Literals

/-! ## The call -/

/-- The session in which the command line makes its call. Only the lists of the literals are there
before it. -/
def callSession (config : Config) (heap : Heap) : Session :=
  { Session.new config with world := { heap } }

/-- The call always comes to an end, and the only name that it can miss is that of what is called. -/
theorem exists_callGlobal (config : Config) (name : String) {args : List Value} {heap : Heap}
    (hargs : ∀ v ∈ args, heap.Inert v) :
    ∃ fuel answer w', (∀ n, fuel ≤ n → (callSession config heap).callGlobal n name args =
        some (answer, { callSession config heap with world := w' })) ∧
      ∀ fault, answer = .error fault → fault.Ordinary ∨
        fault = .undefined name ∧ (callSession config heap).global? name = none := by
  unfold Session.callGlobal
  cases hf : (callSession config heap).global? name with
  | none =>
    refine ⟨0, _, _, fun n _ => rfl, fun fault hfault => ?_⟩
    cases hfault
    exact Or.inr ⟨rfl, rfl⟩
  | some f =>
    have hinert : heap.Inert f := Globals.standard_initial.inert hf heap
    have hnone : (callSession config heap).host.functions = #[] := rfl
    obtain ⟨answer, w', fuel, hends⟩ := Host.exists_ends hnone f args { heap }
    refine ⟨fuel, answer, w', fun n hn => ?_, fun fault hfault => Or.inl ?_⟩
    · exact Session.perform_eq_some_iff.mpr ⟨w', Host.call_eq_some_of_le hn hends, rfl⟩
    · subst hfault
      exact Host.ordinary_of_inert hnone hinert hargs ⟨fuel, hends⟩

/-- What is left of a run once its call has ended. -/
theorem exists_callAndWrite (config : Config) (name : String) {args : List Value} {heap : Heap}
    (hargs : ∀ v ∈ args, heap.Inert v) :
    ∃ fuel answer w' h', ∀ n, fuel ≤ n →
      (callSession config heap).callGlobal n name args =
        some (answer, { callSession config heap with world := w' }) ∧
      (∀ fault, answer = .error fault → fault.Ordinary ∨
        fault = .undefined name ∧ (callSession config heap).global? name = none) ∧
      callAndWrite (callSession config heap) n name args =
        match answer with
        | .ok v => some (.ok (), { callSession config heap with
            world := ⟨h', w'.output ++ (resultLines w'.heap v).toArray⟩ })
        | .error fault => some (.error fault, { callSession config heap with world := w' }) := by
  obtain ⟨fuel, answer, w', hcall, hfault⟩ := exists_callGlobal config name hargs
  cases answer with
  | error fault =>
    refine ⟨fuel, .error fault, w', w'.heap, fun n hn => ⟨hcall n hn, hfault, ?_⟩⟩
    simp [callAndWrite, hcall n hn]
  | ok v =>
    obtain ⟨more, h', hwrites⟩ := ends_writeResult v w'
    refine ⟨max fuel more, .ok v, w', h', fun n hn => ?_⟩
    have hn' := hcall n (by omega)
    refine ⟨hn', hfault, ?_⟩
    have hwritten := Session.perform_eq_some_iff
      (s := { callSession config heap with world := w' }) |>.mpr ⟨_, hwrites n (by omega), rfl⟩
    simp only [callAndWrite, hn']
    exact hwritten

/-! ## The laws of the command line -/

/-- Whatever is called with literals, no generator and no iterator is handed to any function by the
call, so nothing raises the end of one: the call and the writing of its result end, never with an
exception, and with a name that is not defined only if that is what was to be called. -/
theorem no_run_ends_in_an_exception [Yaml.Reader] (config : Config) (name : String)
    {literals : List String} {args : List Value} {heap : Heap}
    (hvalues : values Globals.initial literals {} = (.ok args, heap)) :
    (∀ v ∈ args, heap.Inert v) ∧
      (∀ fuel, ((callSession config heap).globalJournal fuel name args).HandsOnNone) ∧
      ∃ fuel result s', (∀ n, fuel ≤ n →
          callAndWrite (callSession config heap) n name args = some (result, s')) ∧
        (∀ e, result ≠ .error (.raised e)) ∧
        ∀ missing, result = .error (.undefined missing) →
          missing = name ∧ (callSession config heap).global? name = none := by
  have hargs := (inert_of_values Globals.standard_initial hvalues).2
  refine ⟨hargs, fun fuel => ?_, ?_⟩
  · unfold Session.globalJournal
    split
    · exact Host.handsOnNone_journal rfl fuel _ hargs
    · exact Journal.handsOnNone_nil
  · obtain ⟨fuel, answer, w', h', hruns⟩ := exists_callAndWrite config name hargs
    cases answer with
    | ok v => exact ⟨fuel, _, _, fun n hn => (hruns n hn).2.2, by simp, by simp⟩
    | error fault =>
      refine ⟨fuel, _, _, fun n hn => (hruns n hn).2.2, ?_, ?_⟩
      · rintro e ⟨⟩
        rcases (hruns fuel (Nat.le_refl fuel)).2.1 _ rfl with hordinary | ⟨hraised, -⟩
        · exact hordinary
        · cases hraised
      · rintro missing ⟨⟩
        rcases (hruns fuel (Nat.le_refl fuel)).2.1 _ rfl with hordinary | ⟨hmissing, hnone⟩
        · exact hordinary.elim
        · cases hmissing
          exact ⟨rfl, hnone⟩

/-- `next` is called with a list, which is no iterator. -/
theorem next_of_a_list_is_refused :
    let h : Heap := { lists := #[#[.int 7], #[.list ⟨0⟩]] }
    values Globals.initial ["@next", "[[7]]"] {} = (.ok [.builtin .next, .list ⟨1⟩], h) ∧
      ∃ fuel result s', (∀ n, fuel ≤ n → callAndWrite (callSession {} h) n "map"
          [.builtin .next, .list ⟨1⟩] = some (result, s')) ∧
        ∀ e, result ≠ .error (.raised e) := by
  intro h
  have hinner : Yaml.Flow.Fits 127 (.sequence [.int 7]) := .sequence (by simpa using .int 126 7)
  have houter : Yaml.Flow.Fits Yaml.Tree.maxDepth (.sequence [.sequence [.int 7]]) :=
    .sequence (by simpa using hinner)
  have hnext : (Literal.ofSource Globals.initial "@next").run.run {} =
      (.ok (.builtin .next), {}) := rfl
  have hlist : (Literal.ofSource Globals.initial "[[7]]").run.run {} = (.ok (.list ⟨1⟩), h) := by
    have hmeans := Literal.ofSource_text Yaml.nodeReader_readsFlow Globals.initial houter
    exact congrArg (fun step : Literal.Step Value => step.run.run {}) hmeans
  have hvalues : values Globals.initial ["@next", "[[7]]"] {} =
      (.ok [.builtin .next, .list ⟨1⟩], h) := by
    simp only [values, hnext, hlist]
  obtain ⟨-, -, fuel, result, s', hruns, hraised, -⟩ :=
    no_run_ends_in_an_exception {} "map" hvalues
  exact ⟨hvalues, fuel, result, s', hruns, hraised⟩

theorem run_of_loaded [Yaml.Reader] {fuel : Nat} {readFile : String → Option String}
    {args : List String} {path : Option String} {name : String} {literals : List String}
    {config : Config}
    (hparse : parse args = .ok (.call path name literals))
    (hconfig : loadConfig readFile path = .ok config) :
    run fuel readFile args =
      match values Globals.initial literals {} with
      | (.error failure, _) => some { failure := some failure }
      | (.ok vs, heap) =>
        (callAndWrite (callSession config heap) fuel name vs).map fun (result, s) =>
          conclude name result s := by
  simp only [run, hparse, hconfig]
  unfold runCall
  change (match values Globals.initial literals {} with
    | (.error failure, _) => some ({ failure := some failure } : Outcome)
    | (.ok vs, heap) =>
      (callAndWrite (callSession config heap) fuel name vs).bind fun (result, s) =>
        some (conclude name result s)) = _
  rcases values Globals.initial literals {} with ⟨failure | vs, heap⟩
  · rfl
  · dsimp only
    cases callAndWrite (callSession config heap) fuel name vs <;> rfl

/-- How a run ends whose call has ended. -/
def Outcome.Reports (o : Outcome) (name : String) (answer : Except Fault Value) (w : World) : Prop :=
  match answer with
  | .ok v => o.lines = w.output.toList ++ resultLines w.heap v ∧ o.failure = none ∧ o.exitCode = 0
  | .error fault => o.lines = w.output.toList ∧
      o.failure = some (.call name (fault.message w.heap)) ∧ o.exitCode = 1

/-- If a literal is rejected, a run fails with the first such literal and writes nothing; it needs no
fuel, so it makes no call. Else it makes one call, in a new session, which ends and raises nothing.
The run writes the lines of the call, each once and in their order, and after a success those of the
result; it fails exactly if the call does. -/
theorem a_run_writes_what_its_call_writes [Yaml.Reader] (readFile : String → Option String)
    {args : List String} {path : Option String} {name : String} {literals : List String}
    {config : Config}
    (hparse : parse args = .ok (.call path name literals))
    (hconfig : loadConfig readFile path = .ok config) :
    ((∃ s ∈ literals, Literal.Rejected Globals.initial s) →
      ∃ before source after, literals = before ++ source :: after ∧
        (∀ s ∈ before, ¬ Literal.Rejected Globals.initial s) ∧
        Literal.Rejected Globals.initial source ∧
        ∀ fuel, ∃ o, run fuel readFile args = some o ∧ o.lines = [] ∧
          o.failure = some (.literal source) ∧ o.exitCode = 1) ∧
      ((∀ s ∈ literals, ¬ Literal.Rejected Globals.initial s) →
        ∃ vs heap fuel answer w', values Globals.initial literals {} = (.ok vs, heap) ∧
          (∀ e, answer ≠ .error (.raised e)) ∧
          ∀ n, fuel ≤ n →
            (callSession config heap).callGlobal n name vs =
              some (answer, { callSession config heap with world := w' }) ∧
            w'.output.toList = ((callSession config heap).globalJournal n name vs).lines ∧
            ∃ o, run n readFile args = some o ∧ o.Reports name answer w') := by
  constructor
  · intro hrejected
    obtain ⟨before, source, after, rfl, hbefore, hr⟩ := exists_first_rejected hrejected
    refine ⟨before, source, after, rfl, hbefore, hr, fun fuel => ?_⟩
    obtain ⟨h', hvalues⟩ := values_of_rejected hbefore hr after {}
    refine ⟨{ failure := some (.literal source) }, ?_, rfl, rfl, rfl⟩
    rw [run_of_loaded hparse hconfig, hvalues]
  · intro hall
    obtain ⟨vs, heap, hvalues⟩ := exists_values hall {}
    have hargs := (inert_of_values Globals.standard_initial hvalues).2
    obtain ⟨fuel, answer, w', h', hruns⟩ := exists_callAndWrite config name hargs
    have hraised : ∀ e, answer ≠ .error (.raised e) := by
      rintro e rfl
      rcases (hruns fuel (Nat.le_refl fuel)).2.1 _ rfl with hordinary | ⟨hmissing, -⟩
      · exact hordinary
      · cases hmissing
    refine ⟨vs, heap, fuel, answer, w', hvalues, hraised, fun n hn => ?_⟩
    obtain ⟨hcall, -, hwrite⟩ := hruns n hn
    have houtput := congrArg Array.toList (Session.framed_callGlobal hcall).output
    refine ⟨hcall, by simpa [callSession, Session.new] using houtput, ?_⟩
    rw [run_of_loaded hparse hconfig, hvalues]
    simp only [hwrite]
    cases answer with
    | ok v =>
      refine ⟨_, rfl, ?_, rfl, rfl⟩
      simp [conclude, Session.takeOutput]
    | error fault =>
      refine ⟨_, rfl, ?_⟩
      cases fault with
      | raised e => exact absurd rfl (hraised e)
      | _ => exact ⟨rfl, rfl, rfl⟩

/-- Each item of a list is printed before the list of the results is written. A literal without a
value is the end before it is found that there is nothing to call. -/
theorem print_is_mapped_over_a_list :
    let readFile : String → Option String := fun _ => none
    (∃ fuel, ∀ n, fuel ≤ n → ∃ o, run n readFile ["map", "@print", "[7, 8]"] = some o ∧
        o.lines = ["7", "8", "[None, None]"] ∧ o.exitCode = 0) ∧
      ∀ fuel, ∃ o, run fuel readFile ["nobody", "@nothing"] = some o ∧
        o.lines = [] ∧ o.exitCode = 1 := by
  intro readFile
  let h : Heap := { lists := #[#[.int 7, .int 8]] }
  have hdata : Yaml.Flow.Fits Yaml.Tree.maxDepth (.sequence [.int 7, .int 8]) :=
    .sequence (by simpa using ⟨.int 127 7, .int 127 8⟩)
  have hprint : (Literal.ofSource Globals.initial "@print").run.run {} =
      (.ok (.builtin .print), {}) := rfl
  have hlist : (Literal.ofSource Globals.initial "[7, 8]").run.run {} = (.ok (.list ⟨0⟩), h) := by
    have hmeans := Literal.ofSource_text Yaml.nodeReader_readsFlow Globals.initial hdata
    exact congrArg (fun step : Literal.Step Value => step.run.run {}) hmeans
  have hvalues : values Globals.initial ["@print", "[7, 8]"] {} =
      (.ok [.builtin .print, .list ⟨0⟩], h) := by
    simp only [values, hprint, hlist]
  constructor
  · have hall : ∀ s ∈ ["@print", "[7, 8]"], ¬ Literal.Rejected Globals.initial s := by
      have hnone : ∀ {s v h'}, (Literal.ofSource Globals.initial s).run.run {} = (.ok v, h') →
          ¬ Literal.Rejected Globals.initial s := by
        rintro s v h' hrun ⟨e, h₁, hrejected⟩
        rw [hrun] at hrejected
        cases hrejected
      simpa using ⟨hnone hprint, hnone hlist⟩
    have hparse : parse ["map", "@print", "[7, 8]"] =
        .ok (.call none "map" ["@print", "[7, 8]"]) := rfl
    obtain ⟨vs, heap, fuel, answer, w', hvs, -, hruns⟩ :=
      (a_run_writes_what_its_call_writes readFile hparse rfl).2 hall
    obtain ⟨rfl, rfl⟩ : [.builtin .print, .list ⟨0⟩] = vs ∧ h = heap := by
      simpa using hvalues.symm.trans hvs
    -- The call is one of `map`, which four of fuel are enough for.
    have hmapped : (callSession {} h).host.Ends { heap := h } (.builtin .map)
        [.builtin .print, .list ⟨0⟩] (.ok (.list ⟨1⟩))
        ⟨{ lists := #[#[.int 7, .int 8], #[.null, .null]] }, #["7", "8"]⟩ := ⟨4, rfl⟩
    refine ⟨fuel, fun n hn => ?_⟩
    obtain ⟨hcall, -, o, hrun, hreports⟩ := hruns n hn
    have hperformed : (callSession {} h).call n (.builtin .map) [.builtin .print, .list ⟨0⟩] =
        some (answer, { callSession {} h with world := w' }) := hcall
    obtain ⟨w₁, hends, hworld⟩ := Session.perform_eq_some_iff.mp hperformed
    obtain rfl : w' = w₁ := congrArg Session.world hworld
    obtain ⟨rfl, rfl⟩ := Host.Ends.unique ⟨n, hends⟩ hmapped
    exact ⟨o, hrun, hreports.1, hreports.2.2⟩
  · have hrejected : Literal.Rejected Globals.initial "@nothing" := ⟨_, _, rfl⟩
    have hparse : parse ["nobody", "@nothing"] = .ok (.call none "nobody" ["@nothing"]) := rfl
    obtain ⟨before, source, after, -, -, -, hruns⟩ :=
      (a_run_writes_what_its_call_writes readFile hparse rfl).1 ⟨_, by simp, hrejected⟩
    intro fuel
    obtain ⟨o, hrun, hlines, -, hexit⟩ := hruns fuel
    exact ⟨o, hrun, hlines, hexit⟩

end Builtins.CommandLine
