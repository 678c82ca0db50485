-- Fuel does not matter to a call that ends. More fuel gives the same answer and leaves the
-- same world, for loops, for scripts and for calls of any depth.
import Builtins.Call

namespace Builtins

namespace Run

/-- The second run answers whatever the first one answers, and leaves the same world. -/
def Within {α : Type} (r r' : Run α) : Prop := ∀ w x, r w = some x → r' w = some x

theorem within_refl {α : Type} (r : Run α) : Within r r := fun _ _ h => h

theorem within_bind {α β : Type} {r r' : Run α} {f f' : α → Run β} (hr : Within r r')
    (hf : ∀ a, Within (f a) (f' a)) : Within (r >>= f) (r' >>= f') := by
  intro w x hx
  simp only [Bind.bind, StateT.bind] at hx ⊢
  cases h : r w with
  | none => simp [h] at hx
  | some y =>
    rw [h] at hx
    rw [hr w y h]
    exact hf _ _ _ hx

theorem within_map {α β : Type} {r r' : Run α} (f : α → β) (hr : Within r r') :
    Within (f <$> r) (f <$> r') := by
  rw [map_eq_pure_bind, map_eq_pure_bind]
  exact within_bind hr fun _ => within_refl _

theorem within_bindExcept {α β ε : Type} {r r' : ExceptT ε Run α}
    {f f' : α → ExceptT ε Run β} (hr : Within r.run r'.run)
    (hf : ∀ a, Within (f a).run (f' a).run) : Within (r >>= f).run (r' >>= f').run := by
  refine within_bind hr ?_
  rintro (e | a)
  · exact within_refl _
  · exact hf a

theorem within_outOfFuel {α : Type} (r : Action α) :
    Within (Action.outOfFuel : Action α).run r.run :=
  fun _ _ h => absurd h (by
    simp [Action.outOfFuel, outOfFuel, ExceptT.lift, ExceptT.run, ExceptT.mk, Functor.map,
      StateT.map])

/-! ## Loops -/

theorem loop_within {β ε : Type} {body body' : β → Value → ExceptT ε Run β}
    (hb : ∀ acc v, Within (body acc v).run (body' acc v).run) (source : Source) {n m : Nat}
    (hnm : n ≤ m) (acc : β) :
    Within (loop body source n acc).run (loop body' source m acc).run := by
  induction n generalizing m source acc with
  | zero => exact fun _ _ h => absurd h (by simp [loop, outOfFuel, ExceptT.run, ExceptT.mk])
  | succ n ih =>
    obtain ⟨m, rfl⟩ : ∃ k, m = k + 1 := ⟨m - 1, by omega⟩
    rw [loop, loop]
    refine within_bindExcept (within_refl _) ?_
    rintro ⟨_ | item, source⟩
    · exact within_refl _
    · exact within_bindExcept (hb _ _) fun acc => ih source (by omega) acc

end Run

theorem Action.foldItems_within {β : Type} {body body' : β → Value → Action β}
    (hb : ∀ acc v, Run.Within (body acc v).run (body' acc v).run) {n m : Nat} (hnm : n ≤ m)
    (v : Value) (start : β) :
    Run.Within (foldItems n v start body).run (foldItems m v start body').run :=
  Run.within_bindExcept (Run.within_refl _) fun source => Run.loop_within hb source hnm start

/-! ## Built-in functions -/

/-- One way to call values answers whatever another answers. -/
def Caller.Within (c c' : Caller) : Prop := ∀ f args, Run.Within (c f args).run (c' f args).run

namespace Builtin

theorem keeps_within {c c' : Caller} (hc : Caller.Within c c') (f item : Value) :
    Run.Within (keeps c f item).run (keeps c' f item).run := by
  unfold keeps
  split
  · exact Run.within_refl _
  · exact Run.within_bindExcept (hc _ _) fun _ => Run.within_refl _

theorem mapItem_within {c c' : Caller} (hc : Caller.Within c c') (f : Value)
    (results : Array Value) (item : Value) :
    Run.Within (mapItem c f results item).run (mapItem c' f results item).run :=
  Run.within_bindExcept (hc _ _) fun _ => Run.within_refl _

theorem mapItems_within {c c' : Caller} (hc : Caller.Within c c') {n m : Nat} (hnm : n ≤ m)
    (f v : Value) : Run.Within (mapItems c n f v).run (mapItems c' m f v).run :=
  Run.within_bindExcept (Action.foldItems_within (mapItem_within hc f) hnm v #[]) fun _ =>
    Run.within_refl _

theorem filterItems_within {c c' : Caller} (hc : Caller.Within c c') {n m : Nat}
    (hnm : n ≤ m) (f v : Value) :
    Run.Within (filterItems c n f v).run (filterItems c' m f v).run := by
  refine Run.within_bindExcept (Action.foldItems_within ?_ hnm v #[]) fun _ =>
    Run.within_refl _
  exact fun _ _ => Run.within_bindExcept (keeps_within hc _ _) fun _ => Run.within_refl _

theorem run_within (config : Config) {c c' : Caller} (hc : Caller.Within c c') {n m : Nat}
    (hnm : n ≤ m) (b : Builtin) (args : List Value) :
    Run.Within (b.run config c n args).run (b.run config c' m args).run := by
  cases b
  case map =>
    exact Run.within_bindExcept (Run.within_refl _) fun _ => mapItems_within hc hnm _ _
  case filter =>
    exact Run.within_bindExcept (Run.within_refl _) fun _ => filterItems_within hc hnm _ _
  case sum =>
    refine Run.within_bindExcept (Run.within_refl _) fun _ => ?_
    exact Action.foldItems_within (fun _ _ => Run.within_refl _) hnm _ _
  all_goals exact Run.within_refl _

end Builtin

/-! ## Calls -/

theorem Script.run_within (settings : Config) {c c' : Caller} (hc : Caller.Within c c')
    {α : Type} (s : Script α) : Run.Within (s.run settings c).run (s.run settings c').run := by
  induction s with
  | done _ => exact Run.within_refl _
  | fail _ => exact Run.within_refl _
  | call callee args rest ih =>
    exact Run.within_bindExcept (Run.within_map _ (hc _ _)) ih
  | write line rest ih => exact Run.within_bindExcept (Run.within_refl _) fun _ => ih
  | config rest ih => exact ih settings
  | look rest ih => exact Run.within_bindExcept (Run.within_refl _) ih
  | act deed rest ih => exact Run.within_bindExcept (Run.within_refl _) ih

theorem Host.call_within (host : Host) {n m : Nat} (hnm : n ≤ m) :
    Caller.Within (host.call n) (host.call m) := by
  induction n generalizing m with
  | zero => exact fun _ _ => Run.within_outOfFuel _
  | succ n ih =>
    obtain ⟨m, rfl⟩ : ∃ k, m = k + 1 := ⟨m - 1, by omega⟩
    have hle : n ≤ m := by omega
    intro f args
    cases f with
    | builtin b => exact Builtin.run_within host.config (ih hle) hle b args
    | function id name =>
      simp only [call]
      split
      · exact Script.run_within host.config (ih hle) _
      · exact Run.within_refl _
    | _ => exact Run.within_refl _

/-- A call that ends gives the same answer and leaves the same world with more fuel. -/
theorem Host.call_eq_some_of_le {host : Host} {n m : Nat} {f : Value} {args : List Value}
    {w : World} {answer : Except Fault Value × World} (hnm : n ≤ m)
    (h : (host.call n f args).run w = some answer) :
    (host.call m f args).run w = some answer :=
  host.call_within hnm f args w answer h

end Builtins
