-- How a computation ends: with an answer, and with the world that it leaves. A computation
-- made of parts ends when its parts do, each in the world that the one before it has left.
import Builtins.Fuel

namespace Builtins

theorem map_eq_error_iff {ε α β : Type} {f : α → β} {x : Except ε α} {e : ε} :
    x.map f = .error e ↔ x = .error e := by
  cases x <;> simp [Except.map]

theorem map_eq_ok_iff {ε α β : Type} {f : α → β} {x : Except ε α} {y : β} :
    (x.map f : Except ε β) = .ok y ↔ ∃ a, x = .ok a ∧ f a = y := by
  cases x <;> simp [Except.map]

namespace Action

/-- From the world `w` the computation ends with an answer and leaves the world `w'`. -/
def Ends {α : Type} (a : Action α) (w : World) (answer : Except Fault α) (w' : World) : Prop :=
  a.run w = some (answer, w')

/-- A computation ends in one way only. -/
theorem Ends.unique {α : Type} {a : Action α} {w w₁ w₂ : World} {x y : Except Fault α}
    (h₁ : a.Ends w x w₁) (h₂ : a.Ends w y w₂) : x = y ∧ w₁ = w₂ := by
  unfold Ends at h₁ h₂
  rw [h₁] at h₂
  simpa using h₂

section

variable {α β : Type} {w w' : World}

@[simp] theorem ends_pure_iff {x : α} {answer : Except Fault α} :
    (pure x : Action α).Ends w answer w' ↔ answer = .ok x ∧ w' = w := by
  unfold Ends
  change some (Except.ok x, w) = some (answer, w') ↔ _
  simp [eq_comm]

@[simp] theorem ends_throw_iff {fault : Fault} {answer : Except Fault α} :
    (throw fault : Action α).Ends w answer w' ↔ answer = .error fault ∧ w' = w := by
  unfold Ends
  change some (Except.error fault, w) = some (answer, w') ↔ _
  simp [eq_comm]

@[simp] theorem not_ends_outOfFuel {answer : Except Fault α} :
    ¬ (outOfFuel : Action α).Ends w answer w' := by
  unfold Ends
  change ¬ none = some (answer, w')
  simp

/-- One computation after another: a fault of the first is the answer, and its result goes
into the second. -/
theorem ends_bind_iff {a : Action α} {f : α → Action β} {answer : Except Fault β} :
    (a >>= f).Ends w answer w' ↔
      (∃ fault, a.Ends w (.error fault) w' ∧ answer = .error fault) ∨
        ∃ x w₁, a.Ends w (.ok x) w₁ ∧ (f x).Ends w₁ answer w' := by
  unfold Ends
  change ((a.run w).bind fun y => (ExceptT.bindCont f y.1 : Run (Except Fault β)) y.2)
    = some (answer, w') ↔ _
  cases ha : a.run w with
  | none => simp
  | some result =>
    obtain ⟨x, w₁⟩ := result
    cases x with
    | error fault =>
      change some (Except.error fault, w₁) = some (answer, w') ↔ _
      constructor
      · intro h
        cases h
        exact Or.inl ⟨fault, rfl, rfl⟩
      · rintro (⟨e, he, rfl⟩ | ⟨y, w₂, hy, -⟩)
        · cases he
          rfl
        · cases hy
    | ok x =>
      change (f x).run w₁ = some (answer, w') ↔ _
      constructor
      · intro h
        exact Or.inr ⟨x, w₁, rfl, h⟩
      · rintro (⟨e, he, -⟩ | ⟨y, w₂, hy, h⟩)
        · cases he
        · cases hy
          exact h

/-- What comes after a computation that has a result goes on from there. -/
theorem ends_bind_of_ends {a : Action α} {x : α} {w₁ : World} (ha : a.Ends w (.ok x) w₁)
    {f : α → Action β} {answer : Except Fault β} :
    (a >>= f).Ends w answer w' ↔ (f x).Ends w₁ answer w' := by
  rw [ends_bind_iff]
  constructor
  · rintro (⟨fault, hfault, -⟩ | ⟨y, w₂, hy, hf⟩)
    · cases (ha.unique hfault).1
    · obtain ⟨hxy, rfl⟩ := ha.unique hy
      cases hxy
      exact hf
  · intro hf
    exact Or.inr ⟨x, w₁, ha, hf⟩

@[simp] theorem ends_heap_iff {answer : Except Fault Heap} :
    Action.heap.Ends w answer w' ↔ answer = .ok w.heap ∧ w' = w := by
  unfold Ends
  change some (Except.ok w.heap, w) = some (answer, w') ↔ _
  simp [eq_comm]

@[simp] theorem ends_onHeap_iff {step : Heap → α × Heap} {answer : Except Fault α} :
    (onHeap step).Ends w answer w' ↔
      answer = .ok (step w.heap).1 ∧ w' = { w with heap := (step w.heap).2 } := by
  unfold Ends
  change some (Except.ok (step w.heap).1, World.mk (step w.heap).2 w.output)
    = some (answer, w') ↔ _
  simp [eq_comm]

/-- A step on the heap always has a result for what comes after it. -/
theorem ends_onHeap_bind_iff {step : Heap → α × Heap} {f : α → Action β}
    {answer : Except Fault β} :
    (onHeap step >>= f).Ends w answer w' ↔
      (f (step w.heap).1).Ends { w with heap := (step w.heap).2 } answer w' := by
  rw [ends_bind_iff]
  constructor
  · rintro (⟨fault, hs, -⟩ | ⟨x, w₁, hs, hf⟩)
    · simp at hs
    · obtain ⟨hx, rfl⟩ := ends_onHeap_iff.mp hs
      cases hx
      exact hf
  · intro hf
    exact Or.inr ⟨_, _, ends_onHeap_iff.mpr ⟨rfl, rfl⟩, hf⟩

@[simp] theorem ends_attempt_iff {step : Heap → Except Fault α × Heap}
    {answer : Except Fault α} :
    (attempt step).Ends w answer w' ↔
      answer = (step w.heap).1 ∧ w' = { w with heap := (step w.heap).2 } := by
  unfold Ends
  change some ((step w.heap).1, World.mk (step w.heap).2 w.output) = some (answer, w') ↔ _
  simp [eq_comm]

theorem ends_attempt_of_eq {step : Heap → Except Fault α × Heap} {answer : Except Fault α}
    {h : Heap} (hstep : step w.heap = (answer, h)) :
    (attempt step).Ends w answer { w with heap := h } :=
  ends_attempt_iff.mpr (by rw [hstep]; exact ⟨rfl, rfl⟩)

@[simp] theorem ends_ofExcept_iff {result answer : Except Fault α} :
    (ofExcept result).Ends w answer w' ↔ answer = result ∧ w' = w := by
  unfold Ends
  change some (result, w) = some (answer, w') ↔ _
  simp [eq_comm]

/-- A check that passes hands its result on. -/
theorem ends_ofExcept_bind_of_ok {result : Except Fault α} {x : α} {f : α → Action β}
    {answer : Except Fault β} (h : result = .ok x) :
    (ofExcept result >>= f).Ends w answer w' ↔ (f x).Ends w answer w' := by
  subst h
  exact Iff.rfl

/-- A check that does not pass is the end. -/
theorem ends_ofExcept_bind_of_error {result : Except Fault α} {fault : Fault}
    {f : α → Action β} {answer : Except Fault β} (h : result = .error fault) :
    (ofExcept result >>= f).Ends w answer w' ↔ answer = .error fault ∧ w' = w := by
  subst h
  exact ends_throw_iff

@[simp] theorem ends_write_iff {line : String} {answer : Except Fault Unit} :
    (write line).Ends w answer w' ↔
      answer = .ok () ∧ w' = { w with output := w.output.push line } := by
  unfold Ends
  change some (Except.ok (), World.mk w.heap (w.output.push line)) = some (answer, w') ↔ _
  simp [eq_comm]

@[simp] theorem ends_map_iff {a : Action α} {f : α → β} {answer : Except Fault β} :
    (f <$> a).Ends w answer w' ↔ ∃ x, a.Ends w x w' ∧ answer = x.map f := by
  rw [map_eq_pure_bind, ends_bind_iff]
  constructor
  · rintro (⟨fault, ha, rfl⟩ | ⟨x, w₁, ha, hp⟩)
    · exact ⟨_, ha, rfl⟩
    · obtain ⟨rfl, rfl⟩ := ends_pure_iff.mp hp
      exact ⟨_, ha, rfl⟩
  · rintro ⟨fault | x, ha, rfl⟩
    · exact Or.inl ⟨fault, ha, rfl⟩
    · exact Or.inr ⟨x, w', ha, ends_pure_iff.mpr ⟨rfl, rfl⟩⟩

/-- The answer of a computation, fault or not, as a result. -/
theorem ends_lift_run_iff {a : Action α} {answer : Except Fault (Except Fault α)} :
    Ends (ExceptT.lift a.run) w answer w' ↔ ∃ x, a.Ends w x w' ∧ answer = .ok x := by
  unfold Ends
  change ((a.run w).bind fun y => some (Except.ok y.1, y.2)) = some (answer, w') ↔ _
  cases ha : a.run w with
  | none => simp
  | some y =>
    constructor
    · intro h
      cases h
      exact ⟨_, rfl, rfl⟩
    · rintro ⟨x, hx, rfl⟩
      cases hx
      rfl

/-- A new list is the only trace of its making. -/
@[simp] theorem ends_newList_iff {items : Array Value} {answer : Except Fault Value} :
    (newList items).Ends w answer w' ↔
      answer = .ok (.list (w.heap.newList items).1) ∧
        w' = { w with heap := (w.heap.newList items).2 } := by
  unfold newList
  rw [bind_pure_comp, ends_map_iff]
  constructor
  · rintro ⟨x, hx, rfl⟩
    obtain ⟨rfl, rfl⟩ := ends_onHeap_iff.mp hx
    exact ⟨rfl, rfl⟩
  · rintro ⟨rfl, rfl⟩
    exact ⟨_, ends_onHeap_iff.mpr ⟨rfl, rfl⟩, rfl⟩

/-- Items that have come out are put into a new list, a fault is handed on. -/
theorem ends_bind_newList_iff {a : Action (Array Value)} {answer : Except Fault Value} :
    (a >>= newList).Ends w answer w' ↔ ∃ result w₁, a.Ends w result w₁ ∧
      match result with
      | .error fault => answer = .error fault ∧ w' = w₁
      | .ok items =>
        answer = .ok (.list (w₁.heap.newList items).1) ∧
          w' = { w₁ with heap := (w₁.heap.newList items).2 } := by
  rw [ends_bind_iff]
  constructor
  · rintro (⟨fault, ha, rfl⟩ | ⟨items, w₁, ha, hlist⟩)
    · exact ⟨_, _, ha, rfl, rfl⟩
    · exact ⟨_, _, ha, ends_newList_iff.mp hlist⟩
  · rintro ⟨fault | items, w₁, ha, hend⟩
    · obtain ⟨rfl, rfl⟩ := hend
      exact Or.inl ⟨fault, ha, rfl⟩
    · exact Or.inr ⟨items, w₁, ha, ends_newList_iff.mpr hend⟩

end

end Action

/-- With fuel enough, a call ends with an answer and leaves the world `w'`. -/
def Host.Ends (host : Host) (w : World) (f : Value) (args : List Value)
    (answer : Except Fault Value) (w' : World) : Prop :=
  ∃ fuel, (host.call fuel f args).Ends w answer w'

/-- A call that ends does so in one way only, whatever fuel it is given. -/
theorem Host.Ends.unique {host : Host} {w w₁ w₂ : World} {f : Value} {args : List Value}
    {x y : Except Fault Value} (h₁ : host.Ends w f args x w₁) (h₂ : host.Ends w f args y w₂) :
    x = y ∧ w₁ = w₂ := by
  obtain ⟨n, hn⟩ := h₁
  obtain ⟨m, hm⟩ := h₂
  have hn' : (host.call (max n m) f args).Ends w x w₁ :=
    host.call_eq_some_of_le (Nat.le_max_left n m) hn
  have hm' : (host.call (max n m) f args).Ends w y w₂ :=
    host.call_eq_some_of_le (Nat.le_max_right n m) hm
  exact hn'.unique hm'

end Builtins
