-- What comes of a literal. Its value is inert, since the names that it can refer to are those of
-- built-in functions and exception types; and whether it has one does not depend on the heap.
import Std.Data.TreeMap.Lemmas
import Builtins.Proofs.Call.Inert
import Builtins.Proofs.Literal.Encoding

namespace Builtins

/-! ## The standard names -/

namespace Globals

/-- Whether all names stand for built-in functions and exception types. -/
def Standard (g : Globals) : Prop :=
  ∀ (name : String) v, g[name]? = some v → (∃ b, v = .builtin b) ∨ ∃ kind, v = .exceptionType kind

theorem Standard.addMissing {g : Globals} (hg : g.Standard) {bindings : List (String × Value)}
    (hb : ∀ p ∈ bindings, (∃ b, p.2 = .builtin b) ∨ ∃ kind, p.2 = .exceptionType kind) :
    (g.addMissing bindings).Standard := by
  induction bindings generalizing g with
  | nil => exact hg
  | cons p bindings ih =>
    apply ih _ fun q hq => hb q (List.mem_cons_of_mem p hq)
    intro name v hv
    rw [Std.TreeMap.getElem?_insertIfNew] at hv
    split at hv
    · cases hv
      exact hb p List.mem_cons_self
    · exact hg name v hv

theorem standard_initial : initial.Standard := by
  refine Standard.addMissing (fun name v hv => ?_) fun p hp => ?_
  · rw [Std.TreeMap.getElem?_emptyc] at hv
    cases hv
  · rcases List.mem_append.mp hp with hp | hp
    · obtain ⟨b, -, rfl⟩ := List.mem_map.mp hp
      exact Or.inl ⟨b, rfl⟩
    · obtain ⟨kind, -, rfl⟩ := List.mem_map.mp hp
      exact Or.inr ⟨kind, rfl⟩

/-- What a standard name stands for is inert. -/
theorem Standard.inert {g : Globals} (hg : g.Standard) {name : String} {v : Value}
    (hv : g[name]? = some v) (h : Heap) : h.Inert v := by
  rcases hg name v hv with ⟨b, rfl⟩ | ⟨kind, rfl⟩
  · exact .builtin b
  · exact .exceptionType kind

end Globals

namespace Literal

variable {α β : Type}

/-- A step that fails is the end. -/
theorem run_bind_error {a : Step α} {f : α → Step β} {h h' : Heap} {e : LiteralError}
    (ha : a.run.run h = (.error e, h')) : (a >>= f).run.run h = (.error e, h') := by
  have hbind : (a >>= f).run.run h =
      StateT.run (ExceptT.bindCont f (a.run.run h).1) (a.run.run h).2 := rfl
  rw [hbind, ha]
  rfl

/-- A step that answers after another one answers with what that one has answered. -/
theorem exists_of_run_bind {a : Step α} {f : α → Step β} {h h' : Heap} {y : β}
    (hrun : (a >>= f).run.run h = (.ok y, h')) :
    ∃ x h₁, a.run.run h = (.ok x, h₁) ∧ (f x).run.run h₁ = (.ok y, h') := by
  rcases hx : a.run.run h with ⟨e | x, h₁⟩
  · rw [run_bind_error hx] at hrun
    cases hrun
  · rw [run_bind hx] at hrun
    exact ⟨x, h₁, rfl, hrun⟩

/-! ## Values -/

/-- Whatever a step answers, it leaves the lists as they are and answers with what has a property in
the heap that it leaves. -/
def Answers (P : Heap → α → Prop) (a : Step α) : Prop :=
  ∀ h x h', a.run.run h = (.ok x, h') → h.Extends h' ∧ P h' x

theorem answers_answer {P : Heap → α → Prop} {result : Except LiteralError α}
    (hP : ∀ h x, result = .ok x → P h x) : Answers P (answer result) := by
  intro h x h' hrun
  obtain ⟨hresult, rfl⟩ : result = .ok x ∧ h = h' := Prod.mk.inj hrun
  exact ⟨h.extends_refl, hP h x hresult⟩

theorem answers_pure {P : Heap → α → Prop} {x : α} (hP : ∀ h, P h x) :
    Answers P (pure x : Step α) := by
  intro h y h' hrun
  cases hrun
  exact ⟨h.extends_refl, hP h⟩

theorem answers_throw {P : Heap → α → Prop} (e : LiteralError) :
    Answers P (throw e : Step α) := by
  intro h x h' hrun
  cases hrun

theorem answers_bind {P : Heap → α → Prop} {Q : Heap → β → Prop} {a : Step α} {f : α → Step β}
    (ha : Answers P a) (hf : ∀ x, ∀ h y h', P h x → (f x).run.run h = (.ok y, h') →
      h.Extends h' ∧ Q h' y) : Answers Q (a >>= f) := by
  intro h y h' hrun
  obtain ⟨x, h₁, hx, hy⟩ := exists_of_run_bind hrun
  obtain ⟨hmore, hP⟩ := ha h x h₁ hx
  obtain ⟨hmore', hQ⟩ := hf x h₁ y h' hP hy
  exact ⟨hmore.trans hmore', hQ⟩

/-- A list of inert values is inert. -/
theorem inert_newList {h h' : Heap} {vs : List Value} {v : Value} (hvs : ∀ x ∈ vs, h.Inert x)
    (hrun : (newList vs).run.run h = (.ok v, h')) : h.Extends h' ∧ h'.Inert v := by
  obtain ⟨hv, rfl⟩ : Except.ok (Value.list (h.newList vs.toArray).1) = .ok v ∧
      (h.newList vs.toArray).2 = h' := Prod.mk.inj hrun
  cases hv
  have hmore := h.extends_newList vs.toArray
  refine ⟨hmore, .list (by simp [Heap.newList]) fun x hx => ?_⟩
  rw [Heap.list_newList] at hx
  exact (hvs x hx).extends hmore

variable {g : Globals}

theorem answers_ofGlobal (hg : g.Standard) (name : String) :
    Answers Heap.Inert (answer (ofGlobal g name)) := by
  apply answers_answer
  intro h v hv
  unfold ofGlobal at hv
  split at hv
  · next w hw =>
    cases hv
    exact hg.inert hw h
  · cases hv

theorem answers_ofText (hg : g.Standard) (s : String) :
    Answers Heap.Inert (answer (ofText g s)) := by
  unfold ofText
  split
  · exact answers_ofGlobal hg _
  · apply answers_answer
    rintro h v ⟨⟩
    exact .text s

mutual

/-- The value of a piece of data is inert. -/
theorem answers_ofTree (hg : g.Standard) : ∀ t : Yaml.Tree, Answers Heap.Inert (ofTree g t)
  | .null => answers_pure fun _ => .null
  | .bool b => answers_pure fun _ => .bool b
  | .int n => by
    rw [ofTree]
    apply answers_answer
    intro h v hv
    unfold ofInt at hv
    split at hv <;> cases hv
    exact .int _
  | .float x => answers_throw _
  | .text s => answers_ofText hg s
  | .sequence items => answers_bind (answers_ofTrees hg items) fun _ _ _ _ => inert_newList
  | .mapping _ => answers_throw _
  | .tagged tag (.sequence items) => by
    rw [ofTree]
    split
    · refine answers_bind (answers_ofTrees hg items) fun vs h v h' hvs hrun => ?_
      cases hrun
      exact ⟨h.extends_refl, .tuple hvs⟩
    · exact answers_throw _
  | .tagged _ .null | .tagged _ (.bool _) | .tagged _ (.int _) | .tagged _ (.float _)
  | .tagged _ (.text _) | .tagged _ (.mapping _) | .tagged _ (.tagged _ _) => answers_throw _

theorem answers_ofTrees (hg : g.Standard) : ∀ ts : List Yaml.Tree,
    Answers (fun h vs => ∀ v ∈ vs, h.Inert v) (ofTrees g ts)
  | [] => answers_pure fun _ => by simp
  | t :: ts => by
    refine answers_bind (answers_ofTree hg t) fun v h vs h' hv hrun => ?_
    obtain ⟨ws, h₁, hitems, hrow⟩ := exists_of_run_bind hrun
    cases hrow
    obtain ⟨hmore, hws⟩ := answers_ofTrees hg ts h _ _ hitems
    refine ⟨hmore, fun x hx => ?_⟩
    rcases List.mem_cons.mp hx with rfl | hx
    · exact hv.extends hmore
    · exact hws x hx

end

/-- The value of a literal is inert, and to make it changes no list. -/
theorem answers_ofSource [Yaml.Reader] (hg : g.Standard) (source : String) :
    Answers Heap.Inert (ofSource g source) := by
  unfold ofSource
  split
  · exact answers_ofGlobal hg _
  · split
    · exact answers_ofTree hg _
    · exact answers_throw _

/-! ## Rejections -/

/-- Whether two steps answer or fail alike, wherever they begin. -/
def Alike (a : Step α) (b : Step β) : Prop :=
  ∀ h h', (a.run.run h).1.map (fun _ => ()) = (b.run.run h').1.map fun _ => ()

theorem alike_answer (result : Except LiteralError α) : Alike (answer result) (answer result) :=
  fun _ _ => rfl

theorem alike_throw (e : LiteralError) : Alike (throw e : Step α) (throw e : Step α) :=
  fun _ _ => rfl

theorem alike_pure (x y : α) : Alike (pure x : Step α) (pure y : Step α) := fun _ _ => rfl

theorem alike_newList (vs ws : List Value) : Alike (newList vs) (newList ws) := fun _ _ => rfl

theorem alike_bind {α' β' : Type} {a : Step α} {a' : Step α'} {f : α → Step β} {f' : α' → Step β'}
    (ha : Alike a a') (hf : ∀ x y, Alike (f x) (f' y)) : Alike (a >>= f) (a' >>= f') := by
  intro h h'
  have hsame := ha h h'
  rcases hx : a.run.run h with ⟨e | x, h₁⟩ <;> rcases hy : a'.run.run h' with ⟨e' | y, h₂⟩ <;>
    rw [hx, hy] at hsame
  · rw [run_bind_error hx, run_bind_error hy]
    cases hsame
    rfl
  · cases hsame
  · cases hsame
  · rw [run_bind hx, run_bind hy]
    exact hf x y h₁ h₂

mutual

/-- Whether a piece of data has a value does not depend on the heap. -/
theorem alike_ofTree (g : Globals) : ∀ t : Yaml.Tree, Alike (ofTree g t) (ofTree g t)
  | .null => alike_pure _ _
  | .bool _ => alike_pure _ _
  | .int n => alike_answer (ofInt n)
  | .float x => alike_throw _
  | .text s => alike_answer (ofText g s)
  | .sequence items => alike_bind (alike_ofTrees g items) alike_newList
  | .mapping _ => alike_throw _
  | .tagged tag (.sequence items) => by
    rw [ofTree]
    split
    · exact alike_bind (alike_ofTrees g items) fun _ _ => alike_pure _ _
    · exact alike_throw _
  | .tagged _ .null | .tagged _ (.bool _) | .tagged _ (.int _) | .tagged _ (.float _)
  | .tagged _ (.text _) | .tagged _ (.mapping _) | .tagged _ (.tagged _ _) => alike_throw _

theorem alike_ofTrees (g : Globals) : ∀ ts : List Yaml.Tree, Alike (ofTrees g ts) (ofTrees g ts)
  | [] => alike_pure _ _
  | t :: ts => alike_bind (alike_ofTree g t) fun _ _ =>
    alike_bind (alike_ofTrees g ts) fun _ _ => alike_pure _ _

end

theorem alike_ofSource [Yaml.Reader] (g : Globals) (source : String) :
    Alike (ofSource g source) (ofSource g source) := by
  unfold ofSource
  split
  · exact alike_answer _
  · split
    · exact alike_ofTree g _
    · exact alike_throw _

/-- Whether a source is no literal. -/
def Rejected [Yaml.Reader] (g : Globals) (source : String) : Prop :=
  ∃ e h, (ofSource g source).run.run {} = (.error e, h)

/-- What is no literal is none in whatever heap. -/
theorem Rejected.run [Yaml.Reader] {source : String} (hr : Rejected g source) (h : Heap) :
    ∃ e h', (ofSource g source).run.run h = (.error e, h') := by
  obtain ⟨e, h₁, hempty⟩ := hr
  have hsame := alike_ofSource g source {} h
  rcases hrun : (ofSource g source).run.run h with ⟨e' | v, h'⟩
  · exact ⟨e', h', rfl⟩
  · rw [hempty, hrun] at hsame
    cases hsame

theorem run_of_not_rejected [Yaml.Reader] {source : String} (hr : ¬ Rejected g source) (h : Heap) :
    ∃ v h', (ofSource g source).run.run h = (.ok v, h') := by
  have hsame := alike_ofSource g source {} h
  rcases hrun : (ofSource g source).run.run h with ⟨e | v, h'⟩
  · rcases hempty : (ofSource g source).run.run {} with ⟨e' | v, h₁⟩
    · exact absurd ⟨e', h₁, hempty⟩ hr
    · rw [hempty, hrun] at hsame
      cases hsame
  · exact ⟨v, h', rfl⟩

end Literal

end Builtins
