-- The functions that a host defines. Whatever is called in between, they are numbered from one in the
-- order of their definitions, each value that was handed out runs the function that it was made for,
-- and a name stands for the last function that was defined under it.
import Builtins.Proofs.Call.Avoiding
import Builtins.Proofs.Globals.Bindings
import Builtins.Proofs.Literal.Reference
import Builtins.Proofs.Session.Frame

namespace Builtins

namespace Session

/-! ## Histories -/

/-- A function that was defined: the name, what it does, and the value that was handed out for it. -/
structure Definition where
  name : String
  function : HostFunction
  value : Value

/-- One thing that happens to a session. -/
inductive Event where
  | defined (d : Definition)
  | called (f : Value) (args : List Value)
  | calledGlobal (name : String) (args : List Value)
  | tookOutput
  /-- Between calls, objects of the host's own were made or changed. -/
  | touched

/-- What happens to a session, and the session after it. Of a call only that it has ended counts. -/
inductive Step : Session → Event → Session → Prop
  | define (s : Session) (name : String) (f : HostFunction) :
    Step s (.defined ⟨name, f, (s.define name f).1⟩) (s.define name f).2
  | call {s s' : Session} {fuel : Nat} {f : Value} {args : List Value}
    {answer : Except Fault Value} (h : s.call fuel f args = some (answer, s')) :
    Step s (.called f args) s'
  | callGlobal {s s' : Session} {fuel : Nat} {name : String} {args : List Value}
    {answer : Except Fault Value} (h : s.callGlobal fuel name args = some (answer, s')) :
    Step s (.calledGlobal name args) s'
  | takeOutput (s : Session) : Step s .tookOutput s.takeOutput.2
  | touch (s : Session) (heap : Heap) : Step s .touched { s with world := { s.world with heap } }

/-- What has happened to a session since it was new, oldest first. -/
inductive History (config : Config) : List Event → Session → Prop
  | new : History config [] (Session.new config)
  | step {events : List Event} {e : Event} {s s' : Session} (h : History config events s)
    (hs : Step s e s') : History config (events ++ [e]) s'

/-- The definition that an event is. -/
def Event.definition? : Event → Option Definition
  | defined d => some d
  | _ => none

/-- The definitions among what has happened, oldest first. -/
def definitions (events : List Event) : List Definition := events.filterMap Event.definition?

theorem definitions_append (events more : List Event) :
    definitions (events ++ more) = definitions events ++ definitions more :=
  List.filterMap_append

/-! ## What definitions leave behind -/

/-- The global names after definitions, each of which binds its name anew. -/
def bindAll (g : Globals) (ds : List Definition) : Globals :=
  ds.foldl (fun g d => g.insert d.name d.value) g

theorem getElem?_bindAll_of_ne {ds : List Definition} {name : String}
    (hne : ∀ d ∈ ds, d.name ≠ name) (g : Globals) : (bindAll g ds)[name]? = g[name]? := by
  induction ds generalizing g with
  | nil => rfl
  | cons d ds ih =>
    have hfirst : compare d.name name ≠ .eq := by
      simpa using hne d List.mem_cons_self
    have hstep : bindAll g (d :: ds) = bindAll (g.insert d.name d.value) ds := rfl
    rw [hstep, ih (fun e he => hne e (List.mem_cons_of_mem d he)),
      Std.TreeMap.getElem?_insert, if_neg hfirst]

/-- The last definition of a name counts. -/
theorem getElem?_bindAll_of_last {before after : List Definition} {d : Definition}
    (hlast : ∀ e ∈ after, e.name ≠ d.name) (g : Globals) :
    (bindAll g (before ++ d :: after))[d.name]? = some d.value := by
  have hsplit : bindAll g (before ++ d :: after) =
      bindAll ((bindAll g before).insert d.name d.value) after := by
    rw [bindAll, List.foldl_append]
    rfl
  rw [hsplit, getElem?_bindAll_of_ne hlast, Std.TreeMap.getElem?_insert_self]

/-- What a session holds of its settings, functions and names after definitions. -/
structure Holds (config : Config) (ds : List Definition) (s : Session) : Prop where
  host : s.host = ⟨config, (ds.map Definition.function).toArray⟩
  globals : s.globals = bindAll Globals.initial ds
  numbered : ∀ (k : Nat) d, ds[k]? = some d → d.value = .function ⟨k + 1⟩ d.name

theorem holds_new (config : Config) : Holds config [] (Session.new config) :=
  ⟨rfl, rfl, by simp⟩

/-- A definition takes the next number. -/
theorem Holds.define {config : Config} {ds : List Definition} {s : Session}
    (h : Holds config ds s) (name : String) (f : HostFunction) :
    Holds config (ds ++ [⟨name, f, (s.define name f).1⟩]) (s.define name f).2 := by
  have hvalue : (s.define name f).1 = .function ⟨ds.length + 1⟩ name := by
    simp [Session.define, Host.register, h.host]
  constructor
  case host => simp [Session.define, Host.register, h.host]
  case globals =>
    have hsplit : bindAll Globals.initial (ds ++ [⟨name, f, (s.define name f).1⟩]) =
        (bindAll Globals.initial ds).insert name (s.define name f).1 := List.foldl_append
    rw [hsplit, ← h.globals]
    rfl
  case numbered =>
    intro k d hd
    rcases Nat.lt_trichotomy k ds.length with hlt | rfl | hgt
    · rw [List.getElem?_append_left hlt] at hd
      exact h.numbered k d hd
    · obtain rfl : (⟨name, f, (s.define name f).1⟩ : Definition) = d := by simpa using hd
      exact hvalue
    · rw [List.getElem?_eq_none (by rw [List.length_append, List.length_singleton]; omega)] at hd
      cases hd

/-- Only definitions change what a session holds. -/
theorem Holds.step {config : Config} {ds : List Definition} {s s' : Session} {e : Event}
    (h : Holds config ds s) (hs : Step s e s') : Holds config (ds ++ definitions [e]) s' := by
  have hsame : ∀ {s' : Session}, s'.host = s.host → s'.globals = s.globals →
      Holds config (ds ++ []) s' := by
    intro s' hhost hglobals
    rw [List.append_nil]
    exact ⟨hhost.trans h.host, hglobals.trans h.globals, h.numbered⟩
  cases hs with
  | define name f => exact h.define name f
  | call hcall => exact hsame (framed_call hcall).host (framed_call hcall).globals
  | callGlobal hcall =>
    exact hsame (framed_callGlobal hcall).host (framed_callGlobal hcall).globals
  | takeOutput => exact hsame rfl rfl
  | touch => exact hsame rfl rfl

theorem History.holds {config : Config} {events : List Event} {s : Session}
    (h : History config events s) : Holds config (definitions events) s := by
  induction h with
  | new => exact holds_new config
  | step _ hs ih =>
    rw [definitions_append]
    exact ih.step hs

/-! ## What each function does -/

/-- What is the same of the functions of a session whatever has happened to it. -/
structure Stable (config : Config) (events : List Event) (s : Session) : Prop where
  /-- The values that were handed out are numbered from one, without a gap. -/
  numbered : ∀ (k : Nat) d, (definitions events)[k]? = some d → d.value = .function ⟨k + 1⟩ d.name
  /-- Each runs the function that it was made for, from the outside and within other calls. -/
  runs : ∀ d ∈ definitions events, ∀ fuel args,
    s.host.call (fuel + 1) d.value args = (d.function args).run config (s.host.call fuel)
  /-- A function with a number that was not handed out cannot be called. -/
  unknown : ∀ id : CallableId, (∀ d ∈ definitions events, ∀ name, d.value ≠ .function id name) →
    ∀ fuel name args w, (s.host.call (fuel + 1) (.function id name) args).Ends w
      (.error (.undefined ("<callable:" ++ toString id.index ++ ">"))) w
  /-- A name stands for the last function that was defined under it, -/
  last : ∀ before d after, definitions events = before ++ d :: after →
    (∀ e ∈ after, e.name ≠ d.name) → s.global? d.name = some d.value
  /-- or else for the built-in function of that name, -/
  builtin : ∀ b : Builtin, (∀ d ∈ definitions events, d.name ≠ b.name) →
    s.global? b.name = some (.builtin b)
  /-- or the exception type, -/
  exceptionType : ∀ kind : ExceptionKind, (∀ d ∈ definitions events, d.name ≠ kind.name) →
    s.global? kind.name = some (.exceptionType kind)
  /-- or else for nothing. -/
  absent : ∀ name, (∀ d ∈ definitions events, d.name ≠ name) → (∀ b : Builtin, b.name ≠ name) →
    (∀ kind : ExceptionKind, kind.name ≠ name) → s.global? name = none

namespace Holds

variable {config : Config} {ds : List Definition} {s : Session} (h : Holds config ds s)
include h

/-- The function with the number that was handed out for it. -/
theorem function?_eq_some {k : Nat} {d : Definition} (hd : ds[k]? = some d) :
    s.host.function? ⟨k + 1⟩ = some d.function := by
  rw [h.host]
  simp [Host.function?, hd]

theorem function?_eq_none {id : CallableId}
    (hid : ∀ d ∈ ds, ∀ name, d.value ≠ .function id name) : s.host.function? id = none := by
  obtain ⟨_ | k⟩ := id
  · rfl
  · rw [h.host]
    cases hd : ds[k]? with
    | none => simp [Host.function?, hd]
    | some d => exact absurd (h.numbered k d hd) (hid d (List.mem_of_getElem? hd) d.name)

theorem call_value {d : Definition} (hd : d ∈ ds) (fuel : Nat) (args : List Value) :
    s.host.call (fuel + 1) d.value args = (d.function args).run config (s.host.call fuel) := by
  obtain ⟨k, hk⟩ := List.mem_iff_getElem?.mp hd
  have hconfig : s.host.config = config := by rw [h.host]
  rw [h.numbered k d hk]
  simp only [Host.call, h.function?_eq_some hk, hconfig]

theorem call_unknown {id : CallableId} (hid : ∀ d ∈ ds, ∀ name, d.value ≠ .function id name)
    (fuel : Nat) (name : String) (args : List Value) (w : World) :
    (s.host.call (fuel + 1) (.function id name) args).Ends w (.error (.undefined id.text)) w := by
  simp only [Host.call, h.function?_eq_none hid]
  exact Action.ends_throw_iff.mpr ⟨rfl, rfl⟩

/-- A name that was not defined stands for what it stood for at the start. -/
theorem global?_of_undefined {name : String} (hname : ∀ d ∈ ds, d.name ≠ name) :
    s.global? name = Globals.standard.lookup name := by
  rw [global?, h.globals, getElem?_bindAll_of_ne hname, Globals.getElem?_initial]

end Holds

theorem History.stable {config : Config} {events : List Event} {s : Session}
    (h : History config events s) : Stable config events s := by
  have hholds := h.holds
  constructor
  case numbered => exact hholds.numbered
  case runs => exact fun d hd => hholds.call_value hd
  case unknown => exact fun id hid => hholds.call_unknown hid
  case last =>
    intro before d after hsplit hlast
    rw [global?, hholds.globals, hsplit, getElem?_bindAll_of_last hlast]
  case builtin =>
    intro b hb
    rw [hholds.global?_of_undefined hb, Globals.lookup_standard_builtin]
  case exceptionType =>
    intro kind hkind
    rw [hholds.global?_of_undefined hkind, Globals.lookup_standard_exceptionType]
  case absent =>
    intro name hname hbuiltin hkind
    rw [hholds.global?_of_undefined hname, Globals.lookup_standard_eq_none hbuiltin hkind]

/-! ## A function under the name of a built-in one -/

/-- The names of the built-in functions can be written as references. -/
theorem nameable_builtin (b : Builtin) : Literal.Nameable b.name := by
  cases b <;> exact ⟨by simp [Builtin.name, Yaml.Printable], by simp [Builtin.name]⟩

/-- What it makes of a session that a function is defined under the name of a built-in one. -/
structure Shadowed [Yaml.Reader] (s : Session) (b : Builtin) (f : HostFunction) (v : Value)
    (s' : Session) : Prop where
  /-- The name is called as the new function. -/
  global : ∀ fuel args, s'.callGlobal (fuel + 1) b.name args =
    s'.perform ((f args).run s.host.config (s'.host.call fuel))
  /-- References to the name are to the new function, alone or as a text within a literal. -/
  literal : ∀ h, (Literal.ofSource s'.globals ("@" ++ b.name)).run.run h = (.ok v, h)
  text : Literal.ofText s'.globals ("@" ++ b.name) = .ok v
  /-- The built-in functions, as values, run as themselves. -/
  itself : ∀ c : Builtin, ∀ fuel args, s'.host.call (fuel + 1) (.builtin c) args =
    c.run s.host.config (s'.host.call fuel) fuel args
  /-- One that makes no calls ends as before, -/
  alone : ∀ c : Builtin, c ≠ .map → c ≠ .filter → ∀ fuel args,
    s'.host.call fuel (.builtin c) args = s.host.call fuel (.builtin c) args
  /-- and the others do too, unless what they are given calls the new function. -/
  kept : ∀ fuel (c : Builtin) args w answer w',
    (s.host.callAvoiding ⟨s.host.functions.size + 1⟩ fuel (.builtin c) args).Ends w answer w' →
      (s.host.call fuel (.builtin c) args).Ends w answer w' ∧
        (s'.host.call fuel (.builtin c) args).Ends w answer w'

/-- A name stands for what was just defined under it. -/
theorem global?_define (s : Session) (name : String) (f : HostFunction) :
    (s.define name f).2.global? name = some (s.define name f).1 :=
  Std.TreeMap.getElem?_insert_self

theorem ofGlobal_define (s : Session) (name : String) (f : HostFunction) :
    Literal.ofGlobal (s.define name f).2.globals name = .ok (s.define name f).1 := by
  have hglobal : (s.define name f).2.globals[name]? = some (s.define name f).1 :=
    s.global?_define name f
  rw [Literal.ofGlobal, hglobal]

/-- The value that is handed out for a function runs it. -/
theorem call_define (s : Session) (name : String) (f : HostFunction) (fuel : Nat)
    (args : List Value) :
    (s.define name f).2.host.call (fuel + 1) (s.define name f).1 args =
      (f args).run s.host.config ((s.define name f).2.host.call fuel) := by
  simp only [define, Host.call, Host.function?_register]
  rfl

theorem shadowed_define [Yaml.Reader] (s : Session) (b : Builtin) (f : HostFunction) :
    Shadowed s b f (s.define b.name f).1 (s.define b.name f).2 := by
  have hname := s.ofGlobal_define b.name f
  have hagrees := s.host.agreesBut_register f
  constructor
  case global =>
    intro fuel args
    rw [callGlobal, s.global?_define b.name f, ← s.call_define b.name f]
    rfl
  case literal =>
    intro h
    rw [(nameable_builtin b).ofSource_alone, hname]
    rfl
  case text => rw [Literal.ofText_reference, hname]
  case itself => exact fun c fuel args => rfl
  case alone => exact fun c hmap hfilter => Host.call_builtin_of_config hagrees.config hmap hfilter
  case kept => exact fun fuel c args w answer w' => hagrees.ends_of_avoiding

/-! ## The law -/

/-- Whatever is defined and called, the functions of a session are numbered in the order of their
definitions, each value that was handed out runs its own function, and other numbers are undefined. A
name stands for its last definition, or for what it stood for at the start. A definition under the name
of a built-in function changes what the name and references to it find, and not the built-in function.
-/
theorem defined_functions_stay [Yaml.Reader] {config : Config} {events : List Event} {s : Session}
    (h : History config events s) :
    Stable config events s ∧
      ∀ (b : Builtin) f, Shadowed s b f (s.define b.name f).1 (s.define b.name f).2 :=
  ⟨h.stable, s.shadowed_define⟩

/-- A function under the name `len` is called and then replaced. Its value still shouts, the name stands
for the new one, and the built-in function counts as ever. -/
theorem a_replaced_function_still_shouts :
    let s₁ := ((Session.new {}).define "len" Stock.shout).2
    ∃ s₂, s₁.callGlobal 2 "len" [.int 3] = some (.ok .null, s₂) ∧
      let s := (s₂.define "len" Stock.identity).2
      s.global? "len" = some (.function ⟨2⟩ "len") ∧
      (s.host.call 2 (.function ⟨1⟩ "len") [.text "a"]).Ends s.world (.ok .null)
        { s.world with output := #["3!", "a!"] } ∧
      (s.host.call 2 (.function ⟨3⟩ "len") []).Ends s.world
        (.error (.undefined "<callable:3>")) s.world ∧
      (s.host.call 1 (.builtin .len) [.text "abc"]).Ends s.world (.ok (.int 3)) s.world := by
  intro s₁
  have hnew : History {} [] (Session.new {}) := .new
  have hdefined := hnew.step (.define _ "len" Stock.shout)
  have hshout := ((defined_functions_stay hnew).2 .len Stock.shout).global 1 [.int 3]
  refine ⟨{ s₁ with world := { output := #["3!"] } }, hshout.trans rfl, ?_⟩
  intro s
  have hcalled := hdefined.step (.callGlobal (hshout.trans rfl))
  have hreplaced := hcalled.step (.define _ "len" Stock.identity)
  obtain ⟨hstable, -⟩ := defined_functions_stay hreplaced
  refine ⟨?last, ?held, ?unknown, rfl⟩
  case last => exact hstable.last [_] _ [] rfl (by simp)
  case held =>
    have hruns := hstable.runs _ List.mem_cons_self 1 [.text "a"]
    change s.host.call 2 (.function ⟨1⟩ "len") [.text "a"] = _ at hruns
    rw [hruns]
    rfl
  case unknown =>
    refine hstable.unknown ⟨3⟩ ?_ 1 "len" [] s.world
    intro d hd name
    obtain ⟨k, hk⟩ := List.mem_iff_getElem?.mp hd
    rw [hstable.numbered k d hk]
    have hlt : k < 2 := (List.getElem?_eq_some_iff.mp hk).1
    simp only [ne_eq, Value.function.injEq, CallableId.mk.injEq]
    omega

end Session

end Builtins
