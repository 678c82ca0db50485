-- A generator that is shared. However many handles it has, and in whatever order they are used,
-- each of its values is handed out once and in its turn, and its end is found by every handle.
import Builtins.Proofs.Heap.Visits
import Builtins.Proofs.Heap.Cursors
import Builtins.Proofs.Heap.Exceptions
import Builtins.Proofs.Loop.Turns

namespace Builtins

namespace Heap

/-- What every handle finds of a generator that was visited `k` times. -/
structure SharedAt (h : Heap) (g : GeneratorId) (p : Progression) (k : Nat) : Prop where
  generator : h.generator g = p.after k
  resume : h.resume g = (p.resumption k, h.setGenerator g (p.after (k + 1)))
  /-- Values that are taken natively are visits as well. -/
  take : ∀ n, (h.generator g).take n =
    ((p.values.drop k).take n, p.after (k + min n (p.values.length - k + 1)))
  remaining : (h.generator g).remaining = p.values.drop k
  next : h.next (.generator g) = h.surfaced g p k
  iter : h.iter (.generator g) = (.ok (.generator g), h)
  /-- An iterator object is one more handle, and to make it is no visit. -/
  iterate : ∃ it h', h.iterate (.generator g) = (.ok it, h') ∧
    h'.cursor it.id = .generator g ∧ h'.generators = h.generators
  advance : ∀ id, h.cursor id = .generator g →
    h.advance id = (p.values[k]?.map .int, h.setGenerator g (p.after (k + 1)))
  next_iterator : ∀ it : Iterator, h.cursor it.id = .generator g →
    h.next (.iterator it) = h.surfaced g p k

variable {h : Heap} {g : GeneratorId} {p : Progression} {k : Nat}

/-- The number of visits decides what every handle finds. -/
theorem sharedAt_of_getElem? (hg : h.generators[g.index]? = some (p.after k)) :
    h.SharedAt g p k where
  generator := generator_eq_of_getElem? hg
  resume := resume_of_getElem? hg
  take n := by rw [generator_eq_of_getElem? hg, Progression.take_after]
  remaining := by rw [generator_eq_of_getElem? hg, Progression.remaining_after]
  next := resumeValue_of_getElem? hg
  iter := rfl
  iterate := h.iterate_generator g
  advance _ hid := advance_of_getElem? hg hid
  next_iterator _ hid := next_of_getElem? hg hid

/-! ## Loops -/

/-- A loop that draws from a generator does so wherever it has come to. -/
theorem generator?_turn_after {source : Source}
    (hs : (Step.turn source).generator? h = some g) (steps : List Step) :
    (Step.turn source).generator? (h.after steps) = some g := by
  cases source with
  | shared id =>
    change ((h.after steps).cursor id).generator? = some g
    rw [cursor_after_of_generator (Cursor.eq_generator hs) steps]
    rfl
  | own c => exact hs

theorem visits_turn {steps : List Step} {source : Source}
    (hs : (Step.turn source).generator? (h.after steps) = some g) :
    h.visits g (steps ++ [.turn source]) = h.visits g steps + 1 := by
  rw [visits_append, visits_singleton, if_pos hs]

/-- What a loop that draws from a generator takes next. -/
theorem takeFrom_after (hnew : h.generators[g.index]? = some (p.after 0)) {steps : List Step}
    {source : Source} (hs : (Step.turn source).generator? (h.after steps) = some g) :
    (h.after steps).takeFrom source =
      ((p.values[h.visits g steps]?.map .int, source), h.after (steps ++ [.turn source])) := by
  have hg := getElem?_generators_after hnew steps
  rw [Nat.zero_add] at hg
  have htake := takeFrom_of_getElem? hg hs
  rw [after_append]
  change _ = (_, ((h.after steps).takeFrom source).2)
  rw [htake]

/-- Each lap of a loop that draws from a generator gets the value whose number is that of the
visits before it, and leaves the loop with the same handle. -/
theorem items_of_laps {source last : Source} {w w' : World} {turns : List Turn}
    (hnew : h.generators[g.index]? = some (p.after 0)) (hlaps : Laps source w turns last w')
    {steps : List Step} (hw : w.heap = h.after steps)
    (hs : (Step.turn source).generator? w.heap = some g) :
    (∀ t ∈ turns, ∃ more, t.start.heap = h.after (steps ++ more ++ [.turn t.source]) ∧
        some t.item = p.values[h.visits g (steps ++ more)]?.map .int) ∧
      (Step.turn last).generator? w'.heap = some g ∧
      ∃ more, w'.heap = h.after (steps ++ more) := by
  induction hlaps generalizing steps with
  | done source w => exact ⟨by simp, hs, [], by simpa using hw⟩
  | @lap source source' last w w₁ w' _ item _ hsome hbody _ ih =>
    rw [hw] at hs hsome
    rw [takeFrom_after hnew hs] at hsome
    simp only [Prod.mk.injEq] at hsome
    obtain ⟨⟨hitem, hsame⟩, hheap⟩ := hsome
    obtain ⟨before, hbefore⟩ := hbody
    have hw₁ : w₁.heap = h.after (steps ++ .turn source :: before) := by
      rw [hbefore, ← hheap]
      simp
    -- The loop goes on from where its body has left it, by the same handle.
    have hs₁ : (Step.turn source').generator? w₁.heap = some g := by
      rw [← hsame, hw₁, after_append]
      exact generator?_turn_after hs _
    obtain ⟨hrest, hlast, more, hmore⟩ := ih hw₁ hs₁
    refine ⟨?_, hlast, .turn source :: before ++ more, by simpa using hmore⟩
    intro t ht
    rcases List.mem_cons.mp ht with rfl | ht
    · exact ⟨[], by simpa using hheap.symm, by simpa using hitem.symm⟩
    · obtain ⟨later, hstart, hlater⟩ := hrest t ht
      exact ⟨.turn source :: before ++ later, by simpa using hstart, by simpa using hlater⟩

/-- However a loop over a value is begun after some steps, it deals out a generator. -/
def DealsOut (h : Heap) (g : GeneratorId) (p : Progression) (steps : List Step) (v : Value) :
    Prop :=
  ∀ (β : Type) (body : β → Value → Action β), (∀ acc item, (body acc item).Stepwise) →
    ∀ (fuel : Nat) (start : β) (output : Array String) (answer : Except Fault β) (w' : World),
      (Action.foldItems fuel v start body).Ends ⟨h.after steps, output⟩ answer w' →
        ∃ source turns, Source.of v = .ok source ∧
          Turns body source start ⟨h.after steps, output⟩ turns answer w' ∧
          (∀ t ∈ turns, ∃ more, t.start.heap = h.after (steps ++ more ++ [.turn t.source]) ∧
            some t.item = p.values[h.visits g (steps ++ more)]?.map .int) ∧
          ∃ more, w'.heap = h.after (steps ++ more) ∧
            ∀ result, answer = .ok result → p.values.length < h.visits g (steps ++ more)

theorem dealsOut_of_getElem? (hnew : h.generators[g.index]? = some (p.after 0))
    (steps : List Step) {v : Value}
    (hv : v = .generator g ∨
      ∃ it : Iterator, v = .iterator it ∧ (h.after steps).cursor it.id = .generator g) :
    h.DealsOut g p steps v := by
  intro β body hbody fuel start output answer w' hends
  have hsource : ∃ source, Source.of v = .ok source ∧
      (Step.turn source).generator? (h.after steps) = some g := by
    rcases hv with rfl | ⟨it, rfl, hit⟩
    · exact ⟨_, rfl, rfl⟩
    · exact ⟨_, rfl, congrArg Cursor.generator? hit⟩
  obtain ⟨source, hof, hs⟩ := hsource
  rcases Action.turns_of_foldItems hends with ⟨fault, hfault, -⟩ | ⟨source', turns, hof', hturns⟩
  · rw [hof] at hfault
    cases hfault
  · rw [hof] at hof'
    cases hof'
    obtain ⟨last, w₁, hlaps, hover, hfailed⟩ := hturns.laps hbody
    obtain ⟨hitems, hlast, more, hmore⟩ := items_of_laps hnew hlaps rfl hs
    refine ⟨source, turns, hof, hturns, hitems, ?_⟩
    cases answer with
    | error fault => exact ⟨more, by rw [hfailed fault rfl]; exact hmore, by simp⟩
    | ok result =>
      obtain ⟨source', heap, hnone, rfl⟩ := hover result rfl
      rw [hmore] at hlast hnone
      rw [takeFrom_after hnew hlast] at hnone
      simp only [Prod.mk.injEq] at hnone
      obtain ⟨⟨hnil, -⟩, hheap⟩ := hnone
      have hlen : p.values.length ≤ h.visits g (steps ++ more) := by simpa using hnil
      have hcount := visits_turn hlast
      refine ⟨more ++ [.turn last], by rw [← List.append_assoc]; exact hheap.symm, fun _ _ => ?_⟩
      rw [← List.append_assoc, hcount]
      omega

end Heap

/-! ## The law of shared generators -/

/-- From where a generator is new, whatever is done in whatever order, its visits hand out its
values once each and in order, and whoever visits it next finds the next one or the end. What
visits others leaves it alone, and every signal of an end is an exception of its own. That is so
of loops, those of the built-in functions among them, and of calls of any kind. -/
theorem a_shared_generator_hands_out_each_value_once {h : Heap} {g : GeneratorId}
    {p : Progression} (hnew : h.generators[g.index]? = some { progression := p })
    (steps : List Step) :
    h.drawn g steps = (p.values.take (h.visits g steps)).map .int ∧
      (h.after steps).SharedAt g p (h.visits g steps) ∧
      (∀ s : Step, s.generator? (h.after steps) ≠ some g →
        (s.perform (h.after steps)).2.generator g = (h.after steps).generator g) ∧
      (∀ (s : Step) (e : ExceptionInstance),
        (s.perform (h.after steps)).1 = .error (.raised e) →
          e = ⟨⟨(h.after steps).exceptions⟩, .stopIteration, []⟩) ∧
      ((h.exceptionsMade steps).map (·.id.index) =
          List.range' h.exceptions (h.exceptionsMade steps).length ∧
        (h.after steps).exceptions = h.exceptions + (h.exceptionsMade steps).length) ∧
      (∀ v : Value, (v = .generator g ∨
          ∃ it : Iterator, v = .iterator it ∧ (h.after steps).cursor it.id = .generator g) →
        h.DealsOut g p steps v) ∧
      (∀ (host : Host) (fuel : Nat) (f item : Value) (items : Array Value) (total : Value),
        (Builtin.mapItem (host.call fuel) f items item).Stepwise ∧
          (Builtin.filterItem (host.call fuel) f items item).Stepwise ∧
          (Builtin.addItem total item).Stepwise) ∧
      ∀ (host : Host) (fuel : Nat) (f : Value) (args : List Value) (output : Array String)
        (answer : Except Fault Value) (w' : World),
        (host.call fuel f args).Ends ⟨h.after steps, output⟩ answer w' →
          ∃ more, w'.heap = h.after (steps ++ more) := by
  have hzero : h.generators[g.index]? = some (p.after 0) := hnew
  have hg : (h.after steps).generators[g.index]? = some (p.after (h.visits g steps)) := by
    rw [Heap.getElem?_generators_after hzero, Nat.zero_add]
  refine ⟨?_, Heap.sharedAt_of_getElem? hg, ?_, ?_, h.exceptionsMade_index steps, ?_, ?_, ?_⟩
  · rw [Heap.drawn_eq hzero, List.drop_zero]
  · intro s hs
    have hstep := Heap.getElem?_generators_perform hg s
    rw [if_neg hs, Nat.add_zero] at hstep
    rw [Heap.generator_eq_of_getElem? hstep, Heap.generator_eq_of_getElem? hg]
  · intro s e he
    exact (h.after steps).perform_raises s he
  · intro v hv
    exact Heap.dealsOut_of_getElem? hzero steps hv
  · intro host fuel f item items total
    have hcalls := host.stepwise_call fuel
    exact ⟨Builtin.stepwise_mapItem hcalls f items item,
      Builtin.stepwise_filterItem hcalls f items item, Builtin.stepwise_addItem total item⟩
  · intro host fuel f args output answer w' hends
    obtain ⟨more, hmore⟩ := (host.stepwise_call fuel f args _ _ _ hends).heap
    exact ⟨more, by rw [Heap.after_append]; exact hmore⟩

/-- A loop, a resumption and an iterator object take turns at one generator. -/
theorem three_handles_take_turns :
    let h : Heap := { generators := #[{ progression := ⟨0, 2, 1⟩ }] }
    let steps : List Step := [.deed (.iterate (.generator ⟨0⟩)), .turn (.shared ⟨0⟩),
      .deed (.resume ⟨0⟩), .deed (.next (.iterator ⟨.generator, ⟨0⟩⟩))]
    h.generators[0]? = some { progression := ⟨0, 2, 1⟩ } ∧
      h.drawn ⟨0⟩ steps = [.int 0, .int 1] ∧
      (h.after steps).generator ⟨0⟩ = ⟨⟨0, 2, 1⟩, .exhausted⟩ ∧
      h.DealsOut ⟨0⟩ ⟨0, 2, 1⟩ steps (.generator ⟨0⟩) := by
  intro h steps
  obtain ⟨hdrawn, hshared, -, -, -, hdeals, -⟩ :=
    a_shared_generator_hands_out_each_value_once (h := h) (g := ⟨0⟩) rfl steps
  have hvisits : h.visits ⟨0⟩ steps = 3 := by decide
  have hvalues : (⟨0, 2, 1⟩ : Progression).values = [0, 1] := by decide
  refine ⟨rfl, ?_, ?_, ?_⟩
  · rw [hdrawn, hvisits, hvalues]
    rfl
  · rw [hshared.generator, hvisits]
    simp [Progression.after, Progression.stageAfter, hvalues]
  · exact hdeals (.generator ⟨0⟩) (Or.inl rfl)

end Builtins
