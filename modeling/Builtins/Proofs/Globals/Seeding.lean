-- Seeding a table of global names. Bindings that are there stay, so only standard names that are
-- missing are bound. It does not matter whether a table was seeded before, nor whether other names
-- are bound before or after that.
import Builtins.Proofs.Globals.Bindings

namespace Builtins

namespace Globals

/-! ## Bindings that are added where there are none -/

theorem addMissing_cons (g : Globals) (name : String) (v : Value) (bindings : List (String × Value)) :
    g.addMissing ((name, v) :: bindings) = addMissing (g.insertIfNew name v) bindings := rfl

/-- Nothing is missing after what was missing has been added. -/
theorem addMissing_addMissing (g : Globals) (bindings : List (String × Value)) :
    ((g.addMissing bindings).addMissing bindings).Equiv (g.addMissing bindings) := by
  apply Std.TreeMap.Equiv.of_forall_constGet?_eq
  intro name
  simp only [getElem?_addMissing, Option.or_assoc, Option.or_self]

/-- A binding that is inserted counts, and does so before and after others are added. -/
theorem addMissing_insertMany (g : Globals) (bindings inserted : List (String × Value)) :
    (addMissing (g.insertMany inserted) bindings).Equiv
      ((g.addMissing bindings).insertMany inserted) := by
  apply Std.TreeMap.Equiv.of_forall_constGet?_eq
  intro name
  simp only [getElem?_addMissing, Std.TreeMap.getElem?_insertMany_list, Option.or_assoc]

/-- Bindings of different names may be added in either order. -/
theorem addMissing_comm (g : Globals) {bindings more : List (String × Value)}
    (hnames : ∀ p ∈ more, bindings.lookup p.1 = none) :
    ((g.addMissing more).addMissing bindings).Equiv ((g.addMissing bindings).addMissing more) := by
  apply Std.TreeMap.Equiv.of_forall_constGet?_eq
  intro name
  simp only [getElem?_addMissing, Option.or_assoc]
  congr 1
  cases hmore : more.lookup name with
  | none => simp
  | some v =>
    obtain ⟨before, after, rfl, -⟩ := List.lookup_eq_some_iff.mp hmore
    have hname : bindings.lookup name = none := hnames (name, v) (by simp)
    simp [hname]

/-- Each name that is missing makes one more binding. -/
theorem size_addMissing (g : Globals) {bindings : List (String × Value)}
    (hnames : (bindings.map Prod.fst).Nodup) :
    (g.addMissing bindings).size = g.size + bindings.countP fun p => p.1 ∉ g := by
  induction bindings generalizing g with
  | nil => rfl
  | cons p bindings ih =>
    obtain ⟨name, v⟩ := p
    rw [List.map_cons, List.nodup_cons] at hnames
    obtain ⟨hnew, hnames⟩ := hnames
    have hothers : (bindings.countP fun p => p.1 ∉ g.insertIfNew name v) =
        bindings.countP fun p => p.1 ∉ g := by
      apply List.countP_congr
      intro p hp
      have hne : name ≠ p.1 := by
        rintro rfl
        exact hnew (List.mem_map.mpr ⟨p, hp, rfl⟩)
      simp [Std.TreeMap.mem_insertIfNew, hne]
    rw [addMissing_cons, ih _ hnames, hothers, Std.TreeMap.size_insertIfNew, List.countP_cons]
    by_cases hmem : name ∈ g
    · simp [hmem]
    · simp [hmem]
      omega

/-! ## The standard names -/

/-- Whether a name is that of a built-in function or of an exception type. -/
inductive IsStandard : String → Prop
  | builtin (b : Builtin) : IsStandard b.name
  | exceptionType (kind : ExceptionKind) : IsStandard kind.name

/-- No two of the standard names are the same. -/
theorem nodup_standard : (standard.map Prod.fst).Nodup := by decide

theorem lookup_standard_of_not {name : String} (hname : ¬ IsStandard name) :
    standard.lookup name = none := by
  apply lookup_standard_eq_none
  · rintro b rfl
    exact hname (.builtin b)
  · rintro kind rfl
    exact hname (.exceptionType kind)

theorem getElem?_seed (g : Globals) (name : String) :
    (seed g)[name]? = g[name]?.or (standard.lookup name) := getElem?_addMissing g standard name

/-- What a table comes to when it is seeded. -/
structure Seeded (g seeded : Globals) : Prop where
  /-- Every binding is kept. -/
  keeps : ∀ (name : String) v, g[name]? = some v → seeded[name]? = some v
  /-- The missing name of a built-in function is bound to that function, -/
  builtin : ∀ b : Builtin, g[b.name]? = none → seeded[b.name]? = some (.builtin b)
  /-- and that of an exception type to the type. -/
  exceptionType : ∀ kind : ExceptionKind, g[kind.name]? = none →
    seeded[kind.name]? = some (.exceptionType kind)
  /-- Any other name stands for what it stood for, if for anything. -/
  other : ∀ name : String, ¬ IsStandard name → seeded[name]? = g[name]?
  /-- There is one more binding for each of the standard names that was missing. -/
  size : seeded.size = g.size + standard.countP fun p => p.1 ∉ g

theorem seeded_seed (g : Globals) : Seeded g (seed g) := by
  constructor
  case keeps =>
    intro name v hv
    rw [getElem?_seed, hv, Option.some_or]
  case builtin =>
    intro b hb
    rw [getElem?_seed, hb, Option.none_or, lookup_standard_builtin]
  case exceptionType =>
    intro kind hkind
    rw [getElem?_seed, hkind, Option.none_or, lookup_standard_exceptionType]
  case other =>
    intro name hname
    rw [getElem?_seed, lookup_standard_of_not hname, Option.or_none]
  case size => exact size_addMissing g nodup_standard

/-! ## The law -/

/-- Seeding a table binds the standard names that it lacks to their values, and no more. A table that
is seeded again stays the same. Bindings may be inserted before or after that, and those of other
names may be added where they are missing. -/
theorem a_table_is_seeded_with_what_it_lacks (g : Globals) :
    Seeded g (seed g) ∧ (seed (seed g)).Equiv (seed g) ∧
      (∀ inserted : List (String × Value),
        (seed (g.insertMany inserted)).Equiv ((seed g).insertMany inserted)) ∧
      ∀ more : List (String × Value), (∀ p ∈ more, ¬ IsStandard p.1) →
        (seed (g.addMissing more)).Equiv ((seed g).addMissing more) := by
  refine ⟨seeded_seed g, addMissing_addMissing g standard, addMissing_insertMany g standard, ?_⟩
  intro more hmore
  exact addMissing_comm g fun p hp => lookup_standard_of_not (hmore p hp)

/-- A table that has a `len` of its own and lacks the other twelve names. -/
theorem a_len_of_its_own_is_kept :
    let g : Globals := addMissing ∅ [("len", .int 7), ("x", .null)]
    (seed g)["len"]? = some (.int 7) ∧ (seed g)["sum"]? = some (.builtin .sum) ∧
      (seed g)["StopIteration"]? = some (.exceptionType .stopIteration) ∧
      (seed g)["length"]? = none ∧ (seed g).size = 14 ∧
      ¬ IsStandard "y" ∧
      (seed (g.addMissing [("y", .bool true)])).Equiv ((seed g).addMissing [("y", .bool true)]) := by
  intro g
  obtain ⟨hseeded, -, -, hadded⟩ := a_table_is_seeded_with_what_it_lacks g
  have hother : ∀ name ∈ ["y", "length"], ¬ IsStandard name := by
    rintro name hname (b | kind)
    · cases b <;> simp [Builtin.name] at hname
    · cases kind <;> simp [ExceptionKind.name] at hname
  refine ⟨?len, ?sum, ?stop, ?length, ?size, hother "y" (by simp), ?added⟩
  case len => exact hseeded.keeps "len" (.int 7) rfl
  case sum => exact hseeded.builtin .sum rfl
  case stop => exact hseeded.exceptionType .stopIteration rfl
  case length => rw [hseeded.other "length" (hother "length" (by simp))]; rfl
  case size => rw [hseeded.size]; rfl
  case added => exact hadded [("y", .bool true)] (by simpa using hother "y" (by simp))

end Globals

end Builtins
