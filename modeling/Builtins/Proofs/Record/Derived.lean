-- How records are read, whatever derives it from their declarations. What is relied on is what
-- comes of one entry, and of the end of the entries. It follows for any number of entries that they
-- are read if all are of fields and none comes twice, and what the fields are then.
import Builtins.Record

namespace Builtins.Record

variable {r : Record} {given given' : Given} {name text : String}
  {entries : List (String × String)}

/-! ## What is relied on -/

/-- What comes of a record of which some fields are given, after the entries that are still to be
read. -/
abbrev Visitor := Record → Given → List (String × String) → Option (List String)

/-- What a derived visitor makes of an entry, and of the end of the entries. -/
structure Visitor.Derived (visitor : Visitor) : Prop where
  /-- A field is taken when it comes for the first time. -/
  takes : ∀ r given name text entries, name ∈ r.names → given name = none →
    visitor r given ((name, text) :: entries) = visitor r (given.put name text) entries
  refusesAgain : ∀ r given name text entries, name ∈ r.names → given name ≠ none →
    visitor r given ((name, text) :: entries) = none
  refusesOthers : ∀ r given name text entries, r.refusesOthers = true → name ∉ r.names →
    visitor r given ((name, text) :: entries) = none
  fillsIn : ∀ r given, r.fillsIn = true →
    visitor r given [] = some (r.fields.map fun field => (given field.1).getD field.2)

theorem complete?_of_fillsIn (hr : r.fillsIn = true) (given : Given) :
    r.complete? given = some (r.fields.map fun field => (given field.1).getD field.2) := by
  unfold complete?
  rw [hr]
  induction r.fields with
  | nil => rfl
  | cons field fields ih =>
    rw [List.mapM_cons, ih]
    obtain ⟨name, usual⟩ := field
    cases hgiven : given name <;> simp [hgiven]

/-- The visitor of this library is as it should be. -/
theorem derived_visit : Visitor.Derived visit where
  takes r given name text entries hname hnone := by
    rw [visit, if_pos hname, hnone]
    rfl
  refusesAgain r given name text entries hname hsome := by
    rw [visit, if_pos hname, if_pos (Option.isSome_iff_ne_none.mpr hsome)]
  refusesOthers r given name text entries hr hname := by
    rw [visit, if_neg hname, if_pos hr]
  fillsIn r given hr := complete?_of_fillsIn hr given

/-! ## One entry after the other -/

theorem given_put_self (given : Given) (name text : String) : given.put name text name = some text :=
  if_pos rfl

theorem given_put_of_ne {other : String} (hne : other ≠ name) (given : Given) (text : String) :
    given.put name text other = given other := if_neg hne

/-- Whether entries are of fields only, and of each field at most once. -/
structure Accepts (r : Record) (entries : List (String × String)) : Prop where
  known : ∀ e ∈ entries, e.1 ∈ r.names
  once : (entries.map Prod.fst).Nodup

theorem accepts_nil (r : Record) : r.Accepts [] := ⟨by simp, by simp⟩

theorem accepts_cons_iff : r.Accepts ((name, text) :: entries) ↔
    name ∈ r.names ∧ name ∉ entries.map Prod.fst ∧ r.Accepts entries := by
  constructor
  · rintro ⟨hknown, honce⟩
    obtain ⟨hnew, honce⟩ := List.nodup_cons.mp honce
    exact ⟨hknown _ List.mem_cons_self, hnew,
      fun e he => hknown e (List.mem_cons_of_mem _ he), honce⟩
  · rintro ⟨hname, hnew, hknown, honce⟩
    refine ⟨?_, List.nodup_cons.mpr ⟨hnew, honce⟩⟩
    intro e he
    rcases List.mem_cons.mp he with rfl | he
    · exact hname
    · exact hknown e he

/-- What is given once entries have been read as well. -/
structure Told (given : Given) (entries : List (String × String)) (given' : Given) : Prop where
  told : ∀ name text, (name, text) ∈ entries → given' name = some text
  kept : ∀ name, name ∉ entries.map Prod.fst → given' name = given name

/-- The entry in front is read first, and its field does not come again. -/
theorem Told.cons (h : Told (given.put name text) entries given')
    (hnew : name ∉ entries.map Prod.fst) : Told given ((name, text) :: entries) given' := by
  constructor
  case told =>
    intro other t ht
    rcases List.mem_cons.mp ht with ht | ht
    · obtain ⟨rfl, rfl⟩ := Prod.mk.inj ht
      rw [h.kept other hnew, given_put_self]
    · exact h.told other t ht
  case kept =>
    intro other hother
    rw [List.map_cons, List.mem_cons, not_or] at hother
    rw [h.kept other hother.2, given_put_of_ne hother.1]

namespace Visitor.Derived

variable {visitor : Visitor} (hvisitor : visitor.Derived)
include hvisitor

/-- Entries that are accepted are read to their end, where none of their fields is given before. -/
theorem exists_of_accepts (hentries : r.Accepts entries) (hnew : ∀ e ∈ entries, given e.1 = none) :
    ∃ given', Told given entries given' ∧ visitor r given entries = visitor r given' [] := by
  induction entries generalizing given with
  | nil => exact ⟨given, ⟨by simp, fun _ _ => rfl⟩, rfl⟩
  | cons e entries ih =>
    obtain ⟨name, text⟩ := e
    obtain ⟨hname, honce, hmore⟩ := accepts_cons_iff.mp hentries
    have hput : ∀ e ∈ entries, given.put name text e.1 = none := by
      intro e he
      have hne : e.1 ≠ name := fun h => honce (h ▸ List.mem_map_of_mem he)
      rw [given_put_of_ne hne]
      exact hnew e (List.mem_cons_of_mem _ he)
    obtain ⟨given', htold, hread⟩ := ih hmore hput
    refine ⟨given', htold.cons honce, ?_⟩
    rw [hvisitor.takes r given name text entries hname (hnew _ List.mem_cons_self), hread]

/-- If there are texts in the end, then the entries are accepted, and none of their fields was given
before. -/
theorem accepts_of_eq_some {texts : List String} (hr : r.refusesOthers = true)
    (h : visitor r given entries = some texts) :
    r.Accepts entries ∧ ∀ e ∈ entries, given e.1 = none := by
  induction entries generalizing given with
  | nil => exact ⟨accepts_nil r, by simp⟩
  | cons e entries ih =>
    obtain ⟨name, text⟩ := e
    by_cases hname : name ∈ r.names
    · by_cases hgiven : given name = none
      · rw [hvisitor.takes r given name text entries hname hgiven] at h
        obtain ⟨hmore, hput⟩ := ih h
        have honce : name ∉ entries.map Prod.fst := by
          intro hmem
          obtain ⟨e, he, rfl⟩ := List.mem_map.mp hmem
          have hnone := hput e he
          rw [given_put_self] at hnone
          cases hnone
        refine ⟨accepts_cons_iff.mpr ⟨hname, honce, hmore⟩, ?_⟩
        intro e he
        rcases List.mem_cons.mp he with rfl | he
        · exact hgiven
        · have hne : e.1 ≠ name := fun h => honce (h ▸ List.mem_map_of_mem he)
          rw [← given_put_of_ne hne given text]
          exact hput e he
      · rw [hvisitor.refusesAgain r given name text entries hname hgiven] at h
        cases h
    · rw [hvisitor.refusesOthers r given name text entries hr hname] at h
      cases h

end Visitor.Derived

end Builtins.Record
