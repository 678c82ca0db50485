-- The journal of a call: every deed and every line of a host function, and every call of a built-in
-- function with the line that it prints. It goes as deep as the calls go.
import Builtins.Call
import Builtins.Proofs.Progression.Values

namespace Builtins

/-- One thing that a journal notes. -/
inductive Entry where
  /-- A host function does something to the heap. -/
  | deed (d : Deed)
  /-- A host function prints a line. -/
  | wrote (line : String)
  /-- A built-in function is called, and prints the line, if any. -/
  | builtin (b : Builtin) (args : List Value) (line? : Option String)

abbrev Journal := List Entry

/-- The line that an entry adds to the output. -/
def Entry.line? : Entry → Option String
  | deed _ => none
  | wrote line => some line
  | builtin _ _ line? => line?

/-- The item that an entry adds to a list. -/
def Entry.appended? (id : ListId) : Entry → Option Value
  | deed (.append other item) => if other = id then some item else none
  | _ => none

namespace Journal

/-- All lines of a journal, oldest first. -/
def lines (journal : Journal) : List String := journal.filterMap Entry.line?

/-- All that host functions have appended to a list, oldest first. -/
def appended (id : ListId) (journal : Journal) : List Value :=
  journal.filterMap (Entry.appended? id)

@[simp] theorem lines_append (j k : Journal) : lines (j ++ k) = lines j ++ lines k :=
  List.filterMap_append

@[simp] theorem appended_append (id : ListId) (j k : Journal) :
    appended id (j ++ k) = appended id j ++ appended id k :=
  List.filterMap_append

/-- A list to which nothing is appended by any deed has nothing appended to it. -/
theorem appended_eq_nil {id : ListId} {journal : Journal}
    (h : ∀ item, Entry.deed (.append id item) ∉ journal) : appended id journal = [] := by
  unfold appended
  rw [List.filterMap_eq_nil_iff]
  rintro (⟨⟨⟩ | ⟨⟩ | ⟨other, item⟩ | _⟩ | _ | _) he <;> try rfl
  by_cases hother : other = id
  · subst hother
    exact absurd he (h item)
  · simp [Entry.appended?, hother]

end Journal

/-! ## The journal of a call -/

/-- What a call is going to note, in the world in which it begins. -/
abbrev Log := Value → List Value → World → Journal

/-- The line that a built-in function prints itself: what `print` is for, and the diagnostic of
`range` where there is nothing to go over. -/
def Builtin.line? (config : Config) (h : Heap) (b : Builtin) (args : List Value) : Option String :=
  match b with
  | .print => some (h.displayAll args)
  | .range =>
    match Progression.ofArgs "range" args with
    | .ok p => if p.iterates then none else some config.rangeDiagnostic
    | .error _ => none
  | _ => none

/-- The journal of a loop that calls `f` with each item until a call fails. -/
def loopJournal (invoke : Caller) (log : Log) (f : Value) : Source → Nat → World → Journal
  | _, 0, _ => []
  | source, fuel + 1, w =>
    match w.heap.takeFrom source with
    | ((none, _), _) => []
    | ((some item, source), h) =>
      log f [item] { w with heap := h } ++
        match (invoke f [item]).run { w with heap := h } with
        | some (.ok _, w) => loopJournal invoke log f source fuel w
        | _ => []

/-- The journal of the calls of `f` with the items of a value. -/
def itemsJournal (invoke : Caller) (log : Log) (fuel : Nat) (f v : Value) (w : World) : Journal :=
  match Source.of v with
  | .ok source => loopJournal invoke log f source fuel w
  | .error _ => []

/-- The journal of the calls that a built-in function makes: those of `map`, and those of `filter`
if it has a predicate. -/
def Builtin.callsJournal (invoke : Caller) (log : Log) (fuel : Nat) (b : Builtin)
    (args : List Value) (w : World) : Journal :=
  match b, args with
  | .map, [f, v] => itemsJournal invoke log fuel f v w
  | .filter, [f, v] =>
    match f with
    | .null => []
    | f => itemsJournal invoke log fuel f v w
  | _, _ => []

/-- The journal of a script, step by step. -/
def Script.journal {α : Type} (settings : Config) (invoke : Caller) (log : Log) :
    Script α → World → Journal
  | done _, _ | fail _, _ => []
  | call callee args rest, w =>
    log callee args w ++
      match (invoke callee args).run w with
      | some (answer, w) => (rest answer).journal settings invoke log w
      | none => []
  | write line rest, w =>
    .wrote line :: rest.journal settings invoke log { w with output := w.output.push line }
  | config rest, w => (rest settings).journal settings invoke log w
  | look rest, w => (rest w.heap).journal settings invoke log w
  | act d rest, w =>
    .deed d ::
      (rest (d.perform w.heap).1).journal settings invoke log
        { w with heap := (d.perform w.heap).2 }

/-- The journal of a call with fuel: the call of a built-in function before the calls that it makes,
and the steps of a host function in their order. -/
def Host.journal (host : Host) : Nat → Log
  | 0, _, _, _ => []
  | fuel + 1, callee, args, w =>
    match callee with
    | .builtin b =>
      .builtin b args (b.line? host.config w.heap args) ::
        b.callsJournal (host.call fuel) (host.journal fuel) fuel args w
    | .function id _ =>
      match host.function? id with
      | some f => (f args).journal host.config (host.call fuel) (host.journal fuel) w
      | none => []
    | _ => []

/-! ## Which built-in functions print -/

/-- Whether a built-in function prints a line of its own: `print` always, and `range` where there is
nothing to go over. -/
def Builtin.Prints (b : Builtin) (args : List Value) : Prop :=
  b = .print ∨ b = .range ∧ ∃ p, Progression.ofArgs "range" args = .ok p ∧ p.values = []

theorem Builtin.isSome_line?_iff (config : Config) (h : Heap) (b : Builtin) (args : List Value) :
    (b.line? config h args).isSome ↔ b.Prints args := by
  cases b with
  | range =>
    unfold line? Prints
    cases Progression.ofArgs "range" args with
    | error fault => simp
    | ok p => cases hi : p.iterates <;> simp [Progression.values_eq_nil_iff, hi]
  | _ => simp [line?, Prints]

/-- In a journal exactly those calls of built-in functions have a line that are to print one. -/
def Journal.Sound (journal : Journal) : Prop :=
  ∀ b args line?, Entry.builtin b args line? ∈ journal → (line?.isSome ↔ b.Prints args)

namespace Journal

theorem sound_nil : Sound [] := by simp [Sound]

theorem Sound.append {j k : Journal} (hj : j.Sound) (hk : k.Sound) : Sound (j ++ k) := by
  intro b args line? hmem
  rcases List.mem_append.mp hmem with hmem | hmem
  · exact hj b args line? hmem
  · exact hk b args line? hmem

theorem sound_wrote (line : String) : Sound [.wrote line] := by simp [Sound]

theorem sound_deed (d : Deed) : Sound [.deed d] := by simp [Sound]

theorem sound_builtin (config : Config) (h : Heap) (b : Builtin) (args : List Value) :
    Sound [.builtin b args (b.line? config h args)] := by
  intro b' args' line? hmem
  obtain ⟨rfl, rfl, rfl⟩ : b' = b ∧ args' = args ∧ line? = b.line? config h args := by
    simpa using hmem
  exact b'.isSome_line?_iff config h args'

variable {invoke : Caller} {log : Log} (hlog : ∀ f args w, Sound (log f args w))
include hlog

theorem sound_loop (f : Value) (source : Source) (fuel : Nat) (w : World) :
    Sound (loopJournal invoke log f source fuel w) := by
  induction fuel generalizing source w with
  | zero => exact sound_nil
  | succ fuel ih =>
    rw [loopJournal]
    rcases w.heap.takeFrom source with ⟨⟨_ | item, source'⟩, heap⟩
    · exact sound_nil
    · refine (hlog _ _ _).append ?_
      split
      · exact ih _ _
      · exact sound_nil

theorem sound_items (fuel : Nat) (f v : Value) (w : World) :
    Sound (itemsJournal invoke log fuel f v w) := by
  unfold itemsJournal
  split
  · exact sound_loop hlog f _ fuel w
  · exact sound_nil

theorem sound_calls (fuel : Nat) (b : Builtin) (args : List Value) (w : World) :
    Sound (b.callsJournal invoke log fuel args w) := by
  unfold Builtin.callsJournal
  split
  · exact sound_items hlog fuel _ _ w
  · split
    · exact sound_nil
    · exact sound_items hlog fuel _ _ w
  · exact sound_nil

theorem sound_script {α : Type} (settings : Config) (script : Script α) (w : World) :
    Sound (script.journal settings invoke log w) := by
  induction script generalizing w with
  | done result => exact sound_nil
  | fail fault => exact sound_nil
  | call callee args rest ih =>
    rw [Script.journal]
    refine (hlog callee args w).append ?_
    split
    · exact ih _ _
    · exact sound_nil
  | write line rest ih => exact (sound_wrote line).append (ih _)
  | config rest ih => exact ih settings w
  | look rest ih => exact ih w.heap w
  | act d rest ih => exact (sound_deed d).append (ih _ _)

end Journal

theorem Host.sound_journal (host : Host) (fuel : Nat) (f : Value) (args : List Value) (w : World) :
    Journal.Sound (host.journal fuel f args w) := by
  induction fuel generalizing f args w with
  | zero => exact Journal.sound_nil
  | succ fuel ih =>
    cases f with
    | builtin b =>
      exact (Journal.sound_builtin host.config w.heap b args).append
        (Journal.sound_calls ih fuel b args w)
    | function id name =>
      unfold Host.journal
      cases hf : host.function? id with
      | none => simpa only [hf] using Journal.sound_nil
      | some f => simpa only [hf] using Journal.sound_script ih host.config (f args) w
    | _ => exact Journal.sound_nil

end Builtins
