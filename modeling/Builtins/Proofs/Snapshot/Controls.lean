-- Values in repr form take one line each. Texts are the only part of a value that can have any
-- character in it, and they are written between quotes; a function of the host is shown by its name
-- as that stands.
import Builtins.Proofs.CommandLine.Runs
import Builtins.Proofs.Text.Lines

namespace Builtins

open Text (Clear)
open Builtins.Action

namespace Snapshot

/-! ## Texts of parts -/

variable {items : List String}

theorem clear_separated (hitems : ∀ s ∈ items, Clear s) : Clear (", ".intercalate items) :=
  Text.clear_intercalate (by decide) hitems

theorem clear_between {before after text : String} (hbefore : Clear before) (hafter : Clear after)
    (htext : Clear text) : Clear (between before after text) :=
  (hbefore.append htext).append hafter

theorem clear_listText (hitems : ∀ s ∈ items, Clear s) : Clear (listText items) :=
  clear_between (by decide) (by decide) (clear_separated hitems)

theorem clear_tupleText (hitems : ∀ s ∈ items, Clear s) : Clear (tupleText items) := by
  unfold tupleText
  split
  · exact clear_between (by decide) (by decide) (hitems _ List.mem_cons_self)
  · exact clear_between (by decide) (by decide) (clear_separated hitems)

theorem clear_exceptionText {name : String} (hname : Clear name) (hitems : ∀ s ∈ items, Clear s) :
    Clear (exceptionText name items) := by
  have hnamed : Clear (name ++ ": ") := hname.append (by decide)
  unfold exceptionText
  split
  · exact hname
  · exact hnamed.append (hitems _ List.mem_cons_self)
  · exact hnamed.append (clear_tupleText hitems)

end Snapshot

namespace Heap

variable {h : Heap} {v x : Value}

/-- Whether a value holds neither itself nor a function of the host. -/
structure Tame (h : Heap) (v : Value) : Prop where
  acyclic : h.Acyclic v
  functionless : ∀ id name, ¬ h.Holds v (.function id name)

theorem Tame.part (hv : h.Tame v) (hx : x ∈ h.parts v) : h.Tame x :=
  ⟨hv.acyclic.part hx, fun id name hholds => hv.functionless id name (.part hx hholds)⟩

theorem repr_list {id : ListId} (hv : h.Acyclic (.list id)) :
    h.repr (.list id) = Snapshot.listText ((h.list id).toList.map h.repr) := by
  rw [repr, hv.snapshot_list, Snapshot.render, Snapshot.renderAll_eq_map, List.map_map]
  rfl

theorem repr_tuple (h : Heap) (items : List Value) :
    h.repr (.tuple items) = Snapshot.tupleText (items.map h.repr) := by
  rw [repr, snapshot_tuple, Snapshot.render, Snapshot.renderAll_eq_map, List.map_map]
  rfl

theorem clear_displayName (kind : ExceptionKind) : Clear kind.displayName := by
  cases kind <;> decide

/-- The text of a value that holds no function of the host has no control character in it. -/
theorem Tame.clear_repr (hv : h.Tame v) : Clear (h.repr v) := by
  obtain ⟨hacyclic, hnot⟩ := hv
  induction hacyclic with
  | @intro v known parts ih =>
    have hparts : ∀ s ∈ (h.parts v).map h.repr, Clear s := by
      rw [List.forall_mem_map]
      exact fun x hx => ih x hx fun id name hx' => hnot id name (.part hx hx')
    cases v with
    | null => exact (by decide : Clear "None")
    | bool b =>
      have htext : Clear (Snapshot.boolText b) := by cases b <;> decide
      exact htext
    | int n =>
      intro c hc
      rcases Snapshot.isNumeral_of_mem_chars hc with hdigit | rfl
      · exact Text.isClear_of_isDigit hdigit
      · decide
    | text s => exact Text.clear_ofString s
    | list id =>
      rw [repr_list (.intro known parts)]
      exact Snapshot.clear_listText hparts
    | tuple items =>
      rw [repr_tuple]
      exact Snapshot.clear_tupleText hparts
    | exception id kind payload =>
      have htext := h.repr_toValue ⟨id, kind, payload⟩
      rw [ExceptionInstance.toValue] at htext
      rw [htext]
      exact Snapshot.clear_exceptionText (clear_displayName kind) hparts
    | exceptionType kind =>
      have hname : Clear kind.name := by cases kind <;> decide
      exact Snapshot.clear_between (by decide) (by decide) hname
    | generator id => exact (by decide : Clear "<generator object xrange>")
    | iterator it =>
      have hname : Clear it.kind.typeName := by cases it.kind <;> decide
      exact Snapshot.clear_between (by decide) (by decide) hname
    | builtin b =>
      have hname : Clear b.name := by cases b <;> decide
      exact Snapshot.clear_between (by decide) (by decide) hname
    | function id name => exact absurd (.self _) (hnot id name)

/-- A value that is made of such parts, and is no function of the host itself, is one. -/
theorem tame_of_parts (hknown : ∀ id, v = .list id → id.index < h.lists.size)
    (hparts : ∀ x ∈ h.parts v, h.Tame x) (hv : ∀ id name, v ≠ .function id name) : h.Tame v := by
  refine ⟨.intro hknown fun x hx => (hparts x hx).acyclic, fun id name hholds => ?_⟩
  cases hholds with
  | self => exact hv id name rfl
  | part hx hholds => exact (hparts _ hx).functionless id name hholds

/-- Values without a text among them are printed in repr form. -/
theorem displayAll_eq {args : List Value} (hargs : ∀ x ∈ args, ∀ s, x ≠ .text s) :
    h.displayAll args = " ".intercalate (args.map h.repr) := by
  refine congrArg (" ".intercalate) (List.map_congr_left fun x hx => ?_)
  cases x with
  | text s => exact absurd rfl (hargs _ hx s)
  | _ => rfl

end Heap

/-! ## Lines -/

/-- The lines that are seen of what has been printed. -/
def World.seen (w : World) : List String := Text.seen w.output.toList

theorem World.seen_of_clear (w : World) (h' : Heap) {lines : List String}
    (hlines : ∀ s ∈ lines, Clear s) :
    World.seen ⟨h', w.output ++ lines.toArray⟩ = w.seen ++ lines := by
  rw [seen, Array.toList_append, Text.seen_append, Text.seen_of_clear hlines]
  rfl

/-- To write a text without control characters adds one line to what is seen. -/
theorem World.exists_seen_write (w : World) {line : String} (hline : Clear line) :
    ∃ w', (Action.write line).Ends w (.ok ()) w' ∧ w'.seen = w.seen ++ [line] := by
  refine ⟨_, ends_write_iff.mpr ⟨rfl, rfl⟩, ?_⟩
  have hseen := w.seen_of_clear w.heap (List.forall_mem_singleton.mpr hline)
  simpa using hseen

namespace CommandLine

/-- The values that are written of the result of a call, one to a line. -/
def results (h : Heap) : Value → List Value
  | .generator id => h.ahead (.generator id)
  | .iterator it => h.ahead (h.cursor it.id)
  | .null => []
  | v => [v]

theorem resultLines_eq (h : Heap) (v : Value) : resultLines h v = (results h v).map h.repr := by
  cases v <;> rfl

/-- A run whose call has a result shows what the call has printed, and then each value of the result
on a line of its own. -/
theorem exists_seen_run [Yaml.Reader] (readFile : String → Option String) {args : List String}
    {path : Option String} {name : String} {literals : List String} {config : Config}
    (hparse : parse args = .ok (.call path name literals))
    (hconfig : loadConfig readFile path = .ok config) {vs : List Value} {heap : Heap}
    (hvalues : values Globals.initial literals {} = (.ok vs, heap)) :
    ∃ fuel answer w, ∀ n, fuel ≤ n →
      (callSession config heap).callGlobal n name vs =
        some (answer, { callSession config heap with world := w }) ∧
      ∃ o, run n readFile args = some o ∧
        ∀ v, answer = .ok v → (∀ x ∈ results w.heap v, w.heap.Tame x) →
          Text.seen o.lines = w.seen ++ (results w.heap v).map w.heap.repr := by
  have hargs := (inert_of_values Globals.standard_initial hvalues).2
  obtain ⟨fuel, answer, w, h', hruns⟩ := exists_callAndWrite config name hargs
  refine ⟨fuel, answer, w, fun n hn => ?_⟩
  obtain ⟨hcall, -, hwrite⟩ := hruns n hn
  refine ⟨hcall, ?_⟩
  rw [run_of_loaded hparse hconfig, hvalues]
  simp only [hwrite]
  cases answer with
  | ok v =>
    refine ⟨_, rfl, ?_⟩
    rintro _ ⟨⟩ htame
    have hclear : ∀ s ∈ resultLines w.heap v, Clear s := by
      rw [resultLines_eq, List.forall_mem_map]
      exact fun x hx => (htame x hx).clear_repr
    have hseen := w.seen_of_clear h' hclear
    rwa [resultLines_eq] at hseen ⊢
  | error fault => exact ⟨_, rfl, nofun⟩

end CommandLine

/-- A script that prints a value in repr form adds one line to what is seen. -/
theorem Script.exists_seen_print (config : Config) (invoke : Caller) {w : World} {v : Value}
    (hv : w.heap.Tame v) :
    ∃ w', (Script.run config invoke do Script.print ((← Script.heap).repr v)).Ends w (.ok ()) w' ∧
      w'.seen = w.seen ++ [w.heap.repr v] := by
  obtain ⟨w', hw', hseen⟩ := w.exists_seen_write hv.clear_repr
  refine ⟨w', (ends_bind_of_ends (ends_heap_iff.mpr ⟨rfl, rfl⟩)).mpr ?_, hseen⟩
  exact (ends_bind_of_ends hw').mpr (ends_pure_iff.mpr ⟨rfl, rfl⟩)

/-- Values without texts among them are printed on one line. -/
theorem Host.exists_seen_print (host : Host) (fuel : Nat) {w : World} {args : List Value}
    (hargs : ∀ x ∈ args, w.heap.Tame x ∧ ∀ s, x ≠ .text s) :
    ∃ w', (host.call (fuel + 1) (.builtin .print) args).Ends w (.ok .null) w' ∧
      w'.seen = w.seen ++ [" ".intercalate (args.map w.heap.repr)] := by
  have hreprs : ∀ s ∈ args.map w.heap.repr, Clear s := by
    rw [List.forall_mem_map]
    exact fun x hx => (hargs x hx).1.clear_repr
  have hblank : Clear " " := by decide
  obtain ⟨w', hw', hseen⟩ := w.exists_seen_write (Text.clear_intercalate hblank hreprs)
  rw [← Heap.displayAll_eq fun x hx => (hargs x hx).2] at hw'
  refine ⟨w', (ends_bind_of_ends (ends_heap_iff.mpr ⟨rfl, rfl⟩)).mpr ?_, hseen⟩
  exact (ends_bind_of_ends hw').mpr (ends_pure_iff.mpr ⟨rfl, rfl⟩)

/-- The text of a value that holds neither itself nor a function of the host has no control
character in it. So such a value takes exactly one line where a function of the host prints it in
repr form. Several of them, if none is a text, take one line where they are printed together. A run
of the command line whose call has such a result shows it on one line, or each item of a generator
or an iterator on one, behind what the call has printed. -/
theorem a_value_in_repr_form_takes_one_line [Yaml.Reader] :
    (∀ (h : Heap) (v : Value), h.Tame v → Clear (h.repr v)) ∧
      (∀ (config : Config) (invoke : Caller) (w : World) (v : Value), w.heap.Tame v →
        ∃ w',
          (Script.run config invoke do Script.print ((← Script.heap).repr v)).Ends w (.ok ()) w' ∧
            w'.seen = w.seen ++ [w.heap.repr v]) ∧
      (∀ (host : Host) (fuel : Nat) (w : World) (args : List Value),
        (∀ x ∈ args, w.heap.Tame x ∧ ∀ s, x ≠ .text s) →
        ∃ w', (host.call (fuel + 1) (.builtin .print) args).Ends w (.ok .null) w' ∧
          w'.seen = w.seen ++ [" ".intercalate (args.map w.heap.repr)]) ∧
      ∀ (readFile : String → Option String) (args : List String) (path : Option String)
        (name : String) (literals : List String) (config : Config) (vs : List Value) (heap : Heap),
        CommandLine.parse args = .ok (.call path name literals) →
        CommandLine.loadConfig readFile path = .ok config →
        CommandLine.values Globals.initial literals {} = (.ok vs, heap) →
        ∃ fuel answer w, ∀ n, fuel ≤ n →
          (CommandLine.callSession config heap).callGlobal n name vs =
            some (answer, { CommandLine.callSession config heap with world := w }) ∧
          ∃ o, CommandLine.run n readFile args = some o ∧
            ∀ v, answer = .ok v → (∀ x ∈ CommandLine.results w.heap v, w.heap.Tame x) →
              Text.seen o.lines = w.seen ++ (CommandLine.results w.heap v).map w.heap.repr := by
  refine ⟨fun h v => Heap.Tame.clear_repr, ?script, ?print, ?run⟩
  case script => exact fun config invoke w v hv => Script.exists_seen_print config invoke hv
  case print => exact fun host fuel w args hargs => host.exists_seen_print fuel hargs
  case run =>
    intro readFile args path name literals config vs heap hparse hconfig hvalues
    exact CommandLine.exists_seen_run readFile hparse hconfig hvalues

/-- A line break and a zero deep in a value do not break its line. The text that `repr` gives is
shown in quotes. -/
theorem a_line_break_deep_inside_takes_no_line :
    let h : Heap := { lists := #[#[.text "a\nb"]] }
    let v : Value := .tuple [.exception ⟨0⟩ .assertionError [.list ⟨0⟩, .text "\x00"]]
    h.Tame v ∧ Clear (h.repr v) ∧
      (∃ w', (Host.call {} 1 (.builtin .print) [v]).Ends { heap := h } (.ok .null) w' ∧
        w'.seen = [h.repr v]) ∧
      ∃ fuel, ∀ n, fuel ≤ n → ∃ o, CommandLine.run n (fun _ => none) ["repr", "@print"] = some o ∧
        Text.seen o.lines = ["'<built-in function print>'"] := by
  intro h v
  have htext : ∀ (h : Heap) s, h.Tame (.text s) := fun h s =>
    Heap.tame_of_parts (by simp) (fun x hx => absurd hx List.not_mem_nil) (by simp)
  have hlist : h.Tame (.list ⟨0⟩) := by
    refine Heap.tame_of_parts ?_ (List.forall_mem_singleton.mpr (htext h _)) (by simp)
    rintro id ⟨⟩
    exact Nat.zero_lt_one
  have hpayload : ∀ x ∈ [.list ⟨0⟩, .text "\x00"], h.Tame x :=
    List.forall_mem_cons.mpr ⟨hlist, List.forall_mem_singleton.mpr (htext h _)⟩
  have hexception : h.Tame (.exception ⟨0⟩ .assertionError [.list ⟨0⟩, .text "\x00"]) :=
    Heap.tame_of_parts (by simp) hpayload (by simp)
  have hv : h.Tame v :=
    Heap.tame_of_parts (by simp) (List.forall_mem_singleton.mpr hexception) (by simp)
  obtain ⟨hclear, -, hprint, hrun⟩ := a_value_in_repr_form_takes_one_line
  refine ⟨hv, hclear h v hv, ?_, ?_⟩
  · obtain ⟨w', hends, hseen⟩ := hprint {} 0 { heap := h } [v] (by simpa [v] using hv)
    exact ⟨w', hends, by simpa [World.seen, Text.seen, Text.written] using hseen⟩
  · have hliteral : (Literal.ofSource Globals.initial "@print").run.run {} =
        (.ok (.builtin .print), {}) := rfl
    have hvalues : CommandLine.values Globals.initial ["@print"] {} =
        (.ok [.builtin .print], {}) := by
      simp only [CommandLine.values, hliteral]
    obtain ⟨fuel, answer, w, hruns⟩ := hrun (fun _ => none) ["repr", "@print"] none "repr"
      ["@print"] {} _ _ rfl rfl hvalues
    have hrepr : (Host.Ends {} {} (.builtin .repr) [.builtin .print]
        (.ok (.text "<built-in function print>")) {}) := ⟨1, rfl⟩
    refine ⟨fuel, fun n hn => ?_⟩
    obtain ⟨hcall, o, ho, hseen⟩ := hruns n hn
    have hperformed : (CommandLine.callSession {} {}).call n (.builtin .repr) [.builtin .print] =
        some (answer, { CommandLine.callSession {} {} with world := w }) := hcall
    obtain ⟨w₁, hends, hworld⟩ := Session.perform_eq_some_iff.mp hperformed
    obtain rfl : w = w₁ := congrArg Session.world hworld
    obtain ⟨rfl, rfl⟩ := Host.Ends.unique ⟨n, hends⟩ hrepr
    have hlines := hseen _ rfl (List.forall_mem_singleton.mpr (htext _ _))
    exact ⟨o, ho, hlines⟩

end Builtins
