-- The law of `map`. It calls its function with each item in turn, and the first call that fails
-- ends it with the very fault of that call; only its own source can end it without one.
import Builtins.Proofs.Mapping.Calls

namespace Builtins

theorem Heap.takeFrom_along (h : Heap) {v : Value} (hv : v.isSequence = true) (i : Nat) :
    (h.takeFrom (.own (.along v i))).2 = h ∧
      ∃ j, (h.takeFrom (.own (.along v i))).1.2 = .own (.along v j) := by
  simp only [takeFrom, draw_along h hv]
  cases (h.contents v)[i]? with
  | some item => exact ⟨rfl, i + 1, rfl⟩
  | none => exact ⟨rfl, i, rfl⟩

namespace CallsEach

variable {host : Host} {f v : Value} {source : Source} {w w' : World} {calls : List MapCall}

/-- Each call is one of the function, with its item alone. -/
theorem ends (hcalls : CallsEach host f source w calls w') :
    ∀ c ∈ calls, host.Ends c.start f [c.item] c.answer c.finish := by
  induction hcalls with
  | ended => simp
  | failed _ hcall => simpa using hcall
  | next _ hcall _ ih =>
    intro c hc
    rcases List.mem_cons.mp hc with rfl | hc
    · exact hcall
    · exact ih c hc

/-- If calls have ended with a fault, it is that of the last one, and all before have answered. -/
theorem last_of_error (hcalls : CallsEach host f source w calls w') {fault : Fault}
    (h : answers calls = .error fault) :
    ∃ before last, calls = before ++ [last] ∧ last.answer = .error fault ∧
      ∀ c ∈ before, ∃ y, c.answer = .ok y := by
  induction hcalls with
  | ended => cases h
  | failed =>
    cases h
    exact ⟨[], _, rfl, rfl, by simp⟩
  | next _ _ _ ih =>
    obtain ⟨before, last, rfl, hlast, hbefore⟩ :=
      ih (map_eq_error_iff.mp ((answers_cons _ _).symm.trans h))
    refine ⟨_ :: before, last, rfl, hlast, ?_⟩
    intro c hc
    rcases List.mem_cons.mp hc with rfl | hc
    · exact ⟨_, rfl⟩
    · exact hbefore c hc

/-- Over a sequence, each call begins in the world that the call before it has left. -/
theorem worlds {i : Nat} (hcalls : CallsEach host f (.own (.along v i)) w calls w')
    (hv : v.isSequence = true) :
    w :: calls.map (·.finish) = calls.map (·.start) ++ [w'] := by
  generalize hsource : Source.own (.along v i) = source at hcalls
  induction hcalls generalizing i with
  | @ended source _ w h hnone =>
    subst hsource
    have hsame := (w.heap.takeFrom_along hv i).1
    rw [hnone] at hsame
    simp [show h = w.heap from hsame]
  | @failed source _ w _ h _ _ hsome _ =>
    subst hsource
    have hsame := (w.heap.takeFrom_along hv i).1
    rw [hsome] at hsame
    simp [show h = w.heap from hsame]
  | @next source source' w _ _ h _ _ _ hsome _ _ ih =>
    subst hsource
    obtain ⟨hsame, j, hnext⟩ := w.heap.takeFrom_along hv i
    rw [hsome] at hsame hnext
    simp [show h = w.heap from hsame, ih hnext.symm]

end CallsEach

/-- A call of `map` ends exactly as its calls do: one call with each item that there is, in order,
as long as none fails. Of what they answer it makes a new list; the fault of a call, whatever it
is, is its own. Over a sequence the items are those of the sequence, and nothing is done between
two calls. -/
theorem map_calls_with_each_item_until_a_call_fails (host : Host) (f v : Value) (w : World) :
    (∀ answer w', host.Ends w (.builtin .map) [f, v] answer w' ↔
      match Source.of v with
      | .error fault => answer = .error fault ∧ w' = w
      | .ok source => ∃ calls w₁, CallsEach host f source w calls w₁ ∧
          match answers calls with
          | .error fault => answer = .error fault ∧ w' = w₁
          | .ok results =>
            answer = .ok (.list (w₁.heap.newList results.toArray).1) ∧
              w' = { w₁ with heap := (w₁.heap.newList results.toArray).2 }) ∧
      (∀ source calls w', CallsEach host f source w calls w' →
        (∀ c ∈ calls, host.Ends c.start f [c.item] c.answer c.finish) ∧
          (∀ results, answers calls = .ok results →
            calls.map (·.answer) = results.map .ok) ∧
          ∀ fault, answers calls = .error fault →
            ∃ before last, calls = before ++ [last] ∧ last.answer = .error fault ∧
              ∀ c ∈ before, ∃ y, c.answer = .ok y) ∧
      (v.isSequence = true → Source.of v = .ok (.own (.along v 0)) ∧
        ∀ calls w', CallsEach host f (.own (.along v 0)) w calls w' →
          w :: calls.map (·.finish) = calls.map (·.start) ++ [w'] ∧
            calls.map (·.item) <+: w'.heap.contents v ∧
            (w'.heap.contents v = [] → calls = []) ∧
            ∀ results, answers calls = .ok results →
              calls.map (·.item) = w'.heap.contents v) := by
  refine ⟨fun answer w' => Host.ends_map_iff, ?_, ?_⟩
  · intro source calls w' hcalls
    exact ⟨hcalls.ends, fun results h => map_answer_of_ok h, fun fault h => hcalls.last_of_error h⟩
  · intro hv
    refine ⟨Source.of_sequence hv, fun calls w' hcalls => ?_⟩
    obtain ⟨hbegins, hall⟩ := hcalls.items hv
    refine ⟨hcalls.worlds hv, hbegins, fun hnil => ?_, hall⟩
    rw [hnil] at hbegins
    simpa using hbegins

/-- A signal that the called function raises is not taken for the end of the items. -/
theorem map_hands_on_the_signal_of_its_function :
    let it : Iterator := ⟨.tuple, ⟨0⟩⟩
    let w : World := { heap := { cursors := #[.tuple []] } }
    let w' : World := { heap := { cursors := #[.tuple []], exceptions := 1 } }
    (Value.tuple [.iterator it]).isSequence = true ∧
      (∃ calls, CallsEach {} (.builtin .next) (.own (.tuple [.iterator it])) w calls w' ∧
        calls.map (·.item) <+: [.iterator it]) ∧
      Host.Ends {} w (.builtin .map) [.builtin .next, .tuple [.iterator it]]
        (.error (.raised ⟨⟨0⟩, .stopIteration, []⟩)) w' := by
  intro it w w'
  obtain ⟨hiff, -, hsequence⟩ :=
    map_calls_with_each_item_until_a_call_fails {} (.builtin .next) (.tuple [.iterator it]) w
  have hcalls : CallsEach {} (.builtin .next) (.own (.tuple [.iterator it])) w _ w' :=
    .failed rfl ⟨1, rfl⟩
  refine ⟨rfl, ⟨_, hcalls, ((hsequence rfl).2 _ w' hcalls).2.1⟩, ?_⟩
  exact (hiff _ w').mpr ⟨_, w', hcalls, rfl, rfl⟩

end Builtins
