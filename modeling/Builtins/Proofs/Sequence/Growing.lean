-- The law of sequences that grow while they are gone over. Iterators, loops and `map` hand out
-- what a sequence has when its turn comes, each item once and in order.
import Builtins.Proofs.Mapping.Calls
import Builtins.Proofs.Heap.Exceptions

namespace Builtins

namespace Heap

/-- How an iterator that has handed out some items stands to its sequence. -/
structure FollowsAt (h : Heap) (it : Iterator) (v : Value) (taken : List Value) : Prop where
  /-- What it has handed out is the beginning of the sequence as it is now. -/
  begins : taken <+: h.contents v
  advance : h.advance it.id =
    match (h.contents v)[taken.length]? with
    | some item => (some item, h.setCursor it.id (.along v (taken.length + 1)))
    | none => (none, h)
  /-- At the end a new signal is raised, and nothing else changes. -/
  next : h.next (.iterator it) =
    match (h.contents v)[taken.length]? with
    | some item => (.ok item, h.setCursor it.id (.along v (taken.length + 1)))
    | none =>
      (.error (.raised ⟨⟨h.exceptions⟩, .stopIteration, []⟩),
        { h with exceptions := h.exceptions + 1 })
  fails_iff : (h.advance it.id).1 = none ↔ taken.length = (h.contents v).length
  iter : h.iter (.iterator it) = (.ok (.iterator it), h)
  /-- The end of a list is not for good. -/
  append : ∀ l item, v = .list l → l.index < h.lists.size →
    taken.length = (h.contents v).length →
      ((h.append l item).next (.iterator it)).1 = .ok item

variable {h : Heap} {it : Iterator} {v : Value} {taken : List Value}

theorem contents_append {l : ListId} (hl : l.index < h.lists.size) (item : Value) :
    (h.append l item).contents (.list l) = h.contents (.list l) ++ [item] := by
  simp [contents, list_append_self h item hl]

/-- An iterator finds the end exactly when it has handed out as many items as there are. -/
theorem Stands.advance_eq_none_iff {id : IteratorId} (hst : h.Stands id v taken)
    (hv : v.isSequence = true) :
    (h.advance id).1 = none ↔ taken.length = (h.contents v).length := by
  have hle := hst.begins.length_le
  rw [advance_along hv (cursor_eq_of_getElem? hst.cursor)]
  cases hx : (h.contents v)[taken.length]? with
  | some item =>
    have hlt := (List.getElem?_eq_some_iff.mp hx).1
    simp
    omega
  | none =>
    have hge := List.getElem?_eq_none_iff.mp hx
    simp
    omega

/-- The end of a sequence that cannot grow is for good. -/
theorem Stands.advance_after_end {id : IteratorId} (hst : h.Stands id v taken)
    (hv : v.isSequence = true) (hlist : ∀ l, v ≠ .list l) (hend : (h.advance id).1 = none)
    (steps : List Step) : ((h.after steps).advance id).1 = none := by
  have hall := (hst.advance_eq_none_iff hv).mp hend
  have hlater := hst.after hv steps
  have hle := hlater.begins.length_le
  apply (hlater.advance_eq_none_iff hv).mpr
  rw [contents_eq_of_not_list hlist h, List.length_append] at hle ⊢
  omega

/-- Where an iterator stands decides what it does next. -/
theorem Stands.followsAt (hst : h.Stands it.id v taken) (hv : v.isSequence = true) :
    h.FollowsAt it v taken := by
  have hadvance := advance_along hv (cursor_eq_of_getElem? hst.cursor)
  constructor
  · exact hst.begins
  · exact hadvance
  · rw [next_iterator_eq, hadvance]
    cases (h.contents v)[taken.length]? <;> rfl
  · exact hst.advance_eq_none_iff hv
  · rfl
  · rintro l item rfl hl hlen
    have hst' : (h.append l item).Stands it.id (.list l) taken := by
      have hstep := hst.perform hv (.deed (.append l item))
      simpa [Step.perform, Deed.perform, Step.iterator?] using hstep
    have hitem : ((h.append l item).contents (.list l))[taken.length]? = some item := by
      rw [contents_append hl, hlen, List.getElem?_concat_length]
    rw [next_iterator_eq, advance_along hv (cursor_eq_of_getElem? hst'.cursor), hitem]

/-- To iterate over a sequence makes an iterator at its start. -/
theorem iterate_sequence (h : Heap) (hv : v.isSequence = true) :
    ∃ it made, h.iterate v = (.ok it, made) ∧ h.iter v = (.ok (.iterator it), made) ∧
      made.Stands it.id v [] ∧ made.contents v = h.contents v := by
  have hmade : h.iterate v = (.ok (h.newIterator (.along v 0)).1, (h.newIterator (.along v 0)).2) ∧
      h.iter v =
        (.ok (.iterator (h.newIterator (.along v 0)).1), (h.newIterator (.along v 0)).2) := by
    cases v with
    | list id => exact ⟨rfl, rfl⟩
    | tuple items => exact ⟨rfl, rfl⟩
    | text s => exact ⟨rfl, rfl⟩
    | _ => cases hv
  refine ⟨_, _, hmade.1, hmade.2, h.stands_newIterator v, ?_⟩
  cases v <;> rfl

end Heap

/-- A loop that goes by some source from some world on feeds its body the items of a sequence
behind those that were taken before: the first ones in any case, all of them if it comes to an end
without a fault. -/
def Feeds (w : World) (v u : Value) (source : Source) (taken : List Value) : Prop :=
  ∀ (β : Type) (body : β → Value → Action β), (∀ acc item, (body acc item).Stepwise) →
    ∀ (fuel : Nat) (start : β) (answer : Except Fault β) (w' : World),
      (Action.foldItems fuel u start body).Ends w answer w' →
        ∃ turns, Turns body source start w turns answer w' ∧
          (Undisturbed source turns →
            taken ++ turns.map (·.item) <+: w'.heap.contents v ∧
              ∀ result, answer = .ok result →
                taken ++ turns.map (·.item) = w'.heap.contents v)

theorem feeds_of_hasTaken (w : World) {v u : Value} {source : Source} {taken : List Value}
    (hu : Source.of u = .ok source) (hv : v.isSequence = true)
    (ht : w.heap.HasTaken v taken source) : Feeds w v u source taken := by
  intro β body hbody fuel start answer w' hends
  rcases Action.turns_of_foldItems hends with ⟨fault, hfault, -⟩ | ⟨source', turns, hof, hturns⟩
  · rw [hu] at hfault
    cases hfault
  · rw [hu] at hof
    cases hof
    exact ⟨turns, hturns, fun halone => hturns.items hbody hv halone ht⟩

/-- A call of `map` over a sequence that answers has called with all that the sequence has in the
end, and has made a list that is as long. -/
theorem Host.ends_map_of_isSequence {host : Host} {f v : Value} {w w' : World} {result : Value}
    (hv : v.isSequence = true) (hends : host.Ends w (.builtin .map) [f, v] (.ok result) w') :
    ∃ calls w₁ l results, CallsEach host f (.own (.along v 0)) w calls w₁ ∧
      calls.map (·.item) = w₁.heap.contents v ∧
      result = .list l ∧ (w'.heap.list l).toList = results ∧
      answers calls = .ok results ∧ results.length = (w₁.heap.contents v).length := by
  have hmap := Host.ends_map_iff.mp hends
  simp only [Source.of_sequence hv] at hmap
  obtain ⟨calls, w₁, hcalls, hresult⟩ := hmap
  cases ha : answers calls with
  | error fault => simp [ha] at hresult
  | ok results =>
    rw [ha] at hresult
    obtain ⟨hresult, rfl⟩ := hresult
    cases hresult
    have hitems := (hcalls.items hv).2 results ha
    refine ⟨calls, w₁, _, results, hcalls, hitems, rfl, ?_, ha, ?_⟩
    · rw [Heap.list_newList]
    · have hlen := congrArg List.length (map_answer_of_ok ha)
      rw [← hitems]
      simpa using hlen.symm

/-- Whatever is done in whatever order, each iterator over a sequence has handed out the beginning
of the sequence as it is by then, and hands out the next item or finds the end. A loop over the
sequence feeds its body each item once and in order, up to the end that the sequence has when the
loop does, and the list that `map` makes of them is as long. Tuples and texts stay as they are. -/
theorem an_iterator_follows_a_sequence_as_it_grows (h : Heap) {v : Value}
    (hv : v.isSequence = true) :
    ∃ it made, h.iterate v = (.ok it, made) ∧ h.iter v = (.ok (.iterator it), made) ∧
      made.contents v = h.contents v ∧
      (∀ steps, (made.after steps).FollowsAt it v (made.handedOut it.id steps)) ∧
      (∀ steps output, Feeds ⟨made.after steps, output⟩ v (.iterator it) (.shared it.id)
        (made.handedOut it.id steps)) ∧
      ((∀ l, v ≠ .list l) → ∀ steps, (made.after steps).contents v = h.contents v ∧
        (((made.after steps).advance it.id).1 = none →
          ∀ more, ((made.after (steps ++ more)).advance it.id).1 = none)) ∧
      (∀ output, Feeds ⟨h, output⟩ v v (.own (.along v 0)) []) ∧
      ∀ (host : Host) (f : Value) (output : Array String) (result : Value) (w' : World),
        host.Ends ⟨h, output⟩ (.builtin .map) [f, v] (.ok result) w' →
          ∃ calls w₁ l results, CallsEach host f (.own (.along v 0)) ⟨h, output⟩ calls w₁ ∧
            calls.map (·.item) = w₁.heap.contents v ∧
            result = .list l ∧ (w'.heap.list l).toList = results ∧
            answers calls = .ok results ∧ results.length = (w₁.heap.contents v).length := by
  obtain ⟨it, made, hiterate, hiter, hst, hsame⟩ := h.iterate_sequence hv
  have hafter : ∀ steps, (made.after steps).Stands it.id v (made.handedOut it.id steps) :=
    fun steps => hst.after hv steps
  refine ⟨it, made, hiterate, hiter, hsame, ?_, ?_, ?_, ?_, ?_⟩
  · intro steps
    exact (hafter steps).followsAt hv
  · intro steps output
    have ht : (made.after steps).HasTaken v (made.handedOut it.id steps) (.shared it.id) :=
      hafter steps
    have hu : Source.of (.iterator it) = .ok (.shared it.id) := rfl
    exact feeds_of_hasTaken ⟨made.after steps, output⟩ hu hv ht
  · intro hlist steps
    refine ⟨Heap.contents_eq_of_not_list hlist h _, fun hend more => ?_⟩
    rw [Heap.after_append]
    exact (hafter steps).advance_after_end hv hlist hend more
  · intro output
    exact feeds_of_hasTaken ⟨h, output⟩ (Source.of_sequence hv) hv (h.hasTaken_nil v)
  · intro host f output result w' hends
    exact Host.ends_map_of_isSequence hv hends

/-- An iterator that has found the end of a list finds what is appended afterwards. -/
theorem an_exhausted_list_iterator_goes_on :
    let h : Heap := { lists := #[#[.int 1]] }
    let it : Iterator := ⟨.list, ⟨0⟩⟩
    let steps : List Step := [.deed (.next (.iterator it)), .deed (.next (.iterator it)),
      .deed (.append ⟨0⟩ (.int 2))]
    (Value.list ⟨0⟩).isSequence = true ∧ ∃ made, h.iterate (.list ⟨0⟩) = (.ok it, made) ∧
      made.handedOut it.id steps = [.int 1] ∧
      ((made.after steps).next (.iterator it)).1 = .ok (.int 2) := by
  intro h it steps
  obtain ⟨it', made, hiterate, -, -, hfollows, -⟩ :=
    an_iterator_follows_a_sequence_as_it_grows h (v := .list ⟨0⟩) rfl
  cases hiterate
  refine ⟨rfl, _, rfl, rfl, ?_⟩
  have hnext := (hfollows steps).next
  exact congrArg Prod.fst hnext

end Builtins
