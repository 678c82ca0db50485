-- What names are bound to. A name that is added keeps the value that it has, or gets the first one that
-- it is given; so at the start exactly the names of the built-in functions and of the exception types
-- are bound.
import Std.Data.TreeMap.Lemmas
import Builtins.Globals

namespace Builtins

namespace Globals

variable {name : String}

/-- Bindings are added only where there are none. -/
theorem getElem?_addMissing (g : Globals) (bindings : List (String × Value)) (name : String) :
    (g.addMissing bindings)[name]? = g[name]?.or (bindings.lookup name) := by
  induction bindings generalizing g with
  | nil => simp [addMissing]
  | cons p bindings ih =>
    obtain ⟨other, v⟩ := p
    have hstep : g.addMissing ((other, v) :: bindings) =
        addMissing (g.insertIfNew other v) bindings := rfl
    rw [hstep, ih, Std.TreeMap.getElem?_insertIfNew, List.lookup_cons]
    by_cases hname : name = other
    · subst hname
      by_cases hmem : name ∈ g <;> simp [hmem]
    · have hcompare : compare other name ≠ .eq := by simpa using fun h => hname h.symm
      simp [hcompare, beq_eq_false_iff_ne.mpr hname]

/-! ## The standard names -/

theorem lookup_standard_builtin (b : Builtin) : standard.lookup b.name = some (.builtin b) := by
  cases b <;> rfl

theorem lookup_standard_exceptionType (kind : ExceptionKind) :
    standard.lookup kind.name = some (.exceptionType kind) := by
  cases kind <;> rfl

theorem lookup_standard_eq_none (hbuiltin : ∀ b : Builtin, b.name ≠ name)
    (hkind : ∀ kind : ExceptionKind, kind.name ≠ name) : standard.lookup name = none := by
  rw [List.lookup_eq_none_iff]
  intro p hp
  rcases List.mem_append.mp hp with hp | hp
  · obtain ⟨b, -, rfl⟩ := List.mem_map.mp hp
    simpa using (hbuiltin b).symm
  · obtain ⟨kind, -, rfl⟩ := List.mem_map.mp hp
    simpa using (hkind kind).symm

theorem getElem?_initial (name : String) : initial[name]? = standard.lookup name := by
  rw [initial, seed, getElem?_addMissing, Std.TreeMap.getElem?_emptyc]
  rfl

end Globals

end Builtins
