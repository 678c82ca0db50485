-- Calls that leave one function of the host uncalled. It makes no difference to such a call what that
-- function does, nor whether there is one: it ends as the same call does on any host that has the other
-- functions.
import Builtins.Proofs.Action.Ends

namespace Builtins

/-- Only `map` and `filter` make calls. -/
theorem Builtin.run_eq_of_no_calls {b : Builtin} (hmap : b ≠ .map) (hfilter : b ≠ .filter)
    (config : Config) (invoke invoke' : Caller) (fuel : Nat) (args : List Value) :
    b.run config invoke fuel args = b.run config invoke' fuel args := by
  cases b with
  | map => exact absurd rfl hmap
  | filter => exact absurd rfl hfilter
  | _ => rfl

namespace Host

/-- A call that comes to no answer where the avoided function is called. -/
def callAvoiding (host : Host) (avoided : CallableId) : Nat → Caller
  | 0, _, _ => Action.outOfFuel
  | fuel + 1, callee, args =>
    match callee with
    | .builtin b => b.run host.config (host.callAvoiding avoided fuel) fuel args
    | .function id name =>
      if id = avoided then Action.outOfFuel else
      match host.function? id with
      | some f => (f args).run host.config (host.callAvoiding avoided fuel)
      | none => host.call (fuel + 1) (.function id name) args
    | callee => host.call (fuel + 1) callee args

variable {host host' : Host}

/-- What a call answers that avoids a function, it answers. -/
theorem callAvoiding_within (host : Host) (avoided : CallableId) (n : Nat) :
    Caller.Within (host.callAvoiding avoided n) (host.call n) := by
  induction n with
  | zero => exact fun _ _ => Run.within_outOfFuel _
  | succ n ih =>
    intro callee args
    cases callee with
    | builtin b => exact Builtin.run_within host.config ih (Nat.le_refl n) b args
    | function id name =>
      simp only [callAvoiding]
      split
      · exact Run.within_outOfFuel _
      · cases hf : host.function? id with
        | some f =>
          simp only [call, hf]
          exact Script.run_within host.config ih (f args)
        | none => exact Run.within_refl _
    | _ => exact Run.within_refl _

/-- Whether two hosts have the same settings, and the same functions but for one. -/
structure AgreesBut (avoided : CallableId) (host host' : Host) : Prop where
  config : host'.config = host.config
  function? : ∀ id, id ≠ avoided → host'.function? id = host.function? id

/-- Where nothing has a number yet, a function that is registered is the one difference. -/
theorem agreesBut_register (host : Host) (f : HostFunction) :
    AgreesBut (host.register f).1 host (host.register f).2 := by
  refine ⟨rfl, fun id hid => ?_⟩
  obtain ⟨_ | n⟩ := id
  · rfl
  · have hn : n ≠ host.functions.size := fun h => hid (by rw [h]; rfl)
    simp [register, Host.function?, Array.getElem?_push, hn]

theorem AgreesBut.callAvoiding_eq {avoided : CallableId} (hagrees : AgreesBut avoided host host')
    (n : Nat) : host'.callAvoiding avoided n = host.callAvoiding avoided n := by
  induction n with
  | zero => rfl
  | succ n ih =>
    funext callee args
    cases callee with
    | builtin b => rw [callAvoiding, callAvoiding, hagrees.config, ih]
    | function id name =>
      rw [callAvoiding, callAvoiding]
      split
      · rfl
      · next hid =>
        rw [hagrees.function? id hid, hagrees.config, ih]
        cases hf : host.function? id with
        | some f => rfl
        | none => simp only [call, hagrees.function? id hid, hf]
    | _ => rfl

/-- A call that avoids the one function in which two hosts differ ends in the same way on both. -/
theorem AgreesBut.ends_of_avoiding {avoided : CallableId} (hagrees : AgreesBut avoided host host')
    {fuel : Nat} {callee : Value} {args : List Value} {w w' : World} {answer : Except Fault Value}
    (h : (host.callAvoiding avoided fuel callee args).Ends w answer w') :
    (host.call fuel callee args).Ends w answer w' ∧
      (host'.call fuel callee args).Ends w answer w' := by
  constructor
  · exact host.callAvoiding_within avoided fuel callee args w _ h
  · rw [← hagrees.callAvoiding_eq] at h
    exact host'.callAvoiding_within avoided fuel callee args w _ h

/-- What makes no calls depends on the settings of the host alone. -/
theorem call_builtin_of_config (hconfig : host'.config = host.config) {b : Builtin}
    (hmap : b ≠ .map) (hfilter : b ≠ .filter) (fuel : Nat) (args : List Value) :
    host'.call fuel (.builtin b) args = host.call fuel (.builtin b) args := by
  cases fuel with
  | zero => rfl
  | succ fuel =>
    simp only [call, hconfig]
    exact Builtin.run_eq_of_no_calls hmap hfilter host.config _ _ fuel args

end Host

end Builtins
