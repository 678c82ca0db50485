-- The calls that `map` makes. Each one begins where the one before it has ended, and the first
-- one that fails is the last.
import Builtins.Proofs.Sequence.Followed

namespace Builtins

/-- A turn of `map`, and what the call in it has answered. -/
structure MapCall extends Turn where
  answer : Except Fault Value

/-- The calls of a value with one item after the other, as far as none fails. -/
inductive CallsEach (host : Host) (f : Value) : Source → World → List MapCall → World → Prop
  | ended {source source' : Source} {w : World} {h : Heap}
    (hnone : w.heap.takeFrom source = ((none, source'), h)) :
    CallsEach host f source w [] { w with heap := h }
  | failed {source source' : Source} {w w' : World} {h : Heap} {item : Value} {fault : Fault}
    (hsome : w.heap.takeFrom source = ((some item, source'), h))
    (hcall : host.Ends { w with heap := h } f [item] (.error fault) w') :
    CallsEach host f source w [⟨⟨source, item, { w with heap := h }, w'⟩, .error fault⟩] w'
  | next {source source' : Source} {w w₁ w' : World} {h : Heap} {item y : Value}
    {calls : List MapCall} (hsome : w.heap.takeFrom source = ((some item, source'), h))
    (hcall : host.Ends { w with heap := h } f [item] (.ok y) w₁)
    (hrest : CallsEach host f source' w₁ calls w') :
    CallsEach host f source w (⟨⟨source, item, { w with heap := h }, w₁⟩, .ok y⟩ :: calls) w'

/-- What a row of calls answers: all answers in order, or the fault of the first that failed. -/
def answers (calls : List MapCall) : Except Fault (List Value) := calls.mapM (·.answer)

@[simp] theorem answers_nil : answers [] = .ok [] := rfl

theorem answers_cons (c : MapCall) (calls : List MapCall) :
    answers (c :: calls) = c.answer.bind fun y => (answers calls).map (y :: ·) := by
  unfold answers
  rw [List.mapM_cons]
  cases c.answer with
  | error fault => rfl
  | ok y => cases calls.mapM (·.answer) <;> rfl

/-- All answers in order are the answers of all calls. -/
theorem map_answer_of_ok {calls : List MapCall} {results : List Value}
    (h : answers calls = .ok results) : calls.map (·.answer) = results.map .ok := by
  induction calls generalizing results with
  | nil =>
    cases h
    rfl
  | cons c calls ih =>
    rw [answers_cons] at h
    cases hc : c.answer with
    | error fault => simp [hc, Except.bind] at h
    | ok y =>
      rw [hc] at h
      obtain ⟨ys, hys, rfl⟩ := map_eq_ok_iff.mp h
      simp [hc, ih hys]

/-! ## Loops that call -/

section CallsItem

variable {β : Type} {host : Host} {f : Value} {put : Heap → β → Value → Value → β}

/-- Whether a body calls `f` with its item alone and then `put`s what has come of it to what has
come of the items before. -/
def CallsItem (invoke : Caller) (f : Value) (put : Heap → β → Value → Value → β)
    (body : β → Value → Action β) : Prop :=
  ∀ acc item w answer w', (body acc item).Ends w answer w' ↔
    ∃ y, (invoke f [item]).Ends w y w' ∧ answer = y.map (put w'.heap acc item)

/-- What has come of a row of calls, or the fault of the first that failed. -/
def gather (put : Heap → β → Value → Value → β) : β → List MapCall → Except Fault β
  | acc, [] => .ok acc
  | acc, c :: calls => c.answer.bind fun y => gather put (put c.finish.heap acc c.item y) calls

/-- With fuel enough, a loop whose body calls makes its calls one by one. -/
theorem CallsEach.of_turns {fuel : Nat} {body : β → Value → Action β} {source : Source} {acc : β}
    {w w' : World} {turns : List Turn} {answer : Except Fault β}
    (hbody : CallsItem (host.call fuel) f put body)
    (hturns : Turns body source acc w turns answer w') :
    ∃ calls, CallsEach host f source w calls w' ∧ answer = gather put acc calls := by
  induction hturns with
  | ended hnone => exact ⟨[], .ended hnone, rfl⟩
  | failed hsome hb =>
    obtain ⟨y, hcall, hy⟩ := (hbody _ _ _ _ _).mp hb
    cases y with
    | ok y => cases hy
    | error fault =>
      cases hy
      exact ⟨_, .failed hsome ⟨fuel, hcall⟩, rfl⟩
  | turn hsome hb _ ih =>
    obtain ⟨y, hcall, hy⟩ := (hbody _ _ _ _ _).mp hb
    obtain ⟨calls, hcalls, hanswer⟩ := ih
    cases y with
    | error fault => cases hy
    | ok y =>
      cases hy
      exact ⟨_, .next hsome ⟨fuel, hcall⟩ hcalls, hanswer⟩

variable {body : Nat → β → Value → Action β}

theorem CallsItem.within (hbody : ∀ fuel, CallsItem (host.call fuel) f put (body fuel))
    {n m : Nat} (hnm : n ≤ m) (acc : β) (item : Value) :
    Run.Within (body n acc item).run (body m acc item).run := by
  rintro w ⟨answer, w'⟩ hends
  obtain ⟨y, hcall, hy⟩ := (hbody n acc item w answer w').mp hends
  exact (hbody m acc item w answer w').mpr ⟨y, host.call_eq_some_of_le hnm hcall, hy⟩

/-- Calls that are made one by one are a loop whose body calls, with fuel enough. -/
theorem CallsEach.ends_loop {source : Source} {w w' : World} {calls : List MapCall}
    (hbody : ∀ fuel, CallsItem (host.call fuel) f put (body fuel))
    (hcalls : CallsEach host f source w calls w') (acc : β) :
    ∃ fuel, Action.Ends (Run.loop (body fuel) source fuel acc) w (gather put acc calls) w' := by
  induction hcalls generalizing acc with
  | ended hnone =>
    refine ⟨1, Action.ends_loop_succ_iff.mpr ?_⟩
    simp [hnone, gather]
  | failed hsome hcall =>
    obtain ⟨n, hn⟩ := hcall
    refine ⟨n + 1, Action.ends_loop_succ_iff.mpr ?_⟩
    rw [hsome]
    have hmore := host.call_eq_some_of_le (Nat.le_succ n) hn
    apply Action.ends_bind_iff.mpr
    exact Or.inl ⟨_, (hbody _ _ _ _ _ _).mpr ⟨_, hmore, rfl⟩, rfl⟩
  | @next source source' w w₁ w' h item y calls hsome hcall _ ih =>
    obtain ⟨n, hn⟩ := hcall
    obtain ⟨m, hm⟩ := ih (put w₁.heap acc item y)
    -- Fuel that is enough for the call and for the rest of the loop is enough for both.
    refine ⟨max n m + 1, Action.ends_loop_succ_iff.mpr ?_⟩
    rw [hsome]
    have hmore := host.call_eq_some_of_le (show n ≤ max n m + 1 by omega) hn
    have hbodies := CallsItem.within hbody (show m ≤ max n m + 1 by omega)
    have hrest := Run.loop_within hbodies source' (Nat.le_max_right n m) _ w₁ _ hm
    apply Action.ends_bind_iff.mpr
    exact Or.inr ⟨_, w₁, (hbody _ _ _ _ _ _).mpr ⟨_, hmore, rfl⟩, hrest⟩

/-- Given fuel enough, a loop whose body calls ends as its calls do. -/
theorem CallsItem.ends_foldItems_iff {v : Value} {start : β} {w w' : World}
    {answer : Except Fault β} (hbody : ∀ fuel, CallsItem (host.call fuel) f put (body fuel)) :
    (∃ fuel, (Action.foldItems fuel v start (body fuel)).Ends w answer w') ↔
      match Source.of v with
      | .error fault => answer = .error fault ∧ w' = w
      | .ok source => ∃ calls, CallsEach host f source w calls w' ∧
          answer = gather put start calls := by
  constructor
  · rintro ⟨fuel, hfold⟩
    rcases Action.turns_of_foldItems hfold with ⟨fault, hof, rfl, rfl⟩ | ⟨source, turns, hof, ht⟩
    · simp [hof]
    · simp only [hof]
      exact CallsEach.of_turns (hbody fuel) ht
  · intro h
    cases hof : Source.of v with
    | error fault =>
      simp only [hof] at h
      obtain ⟨rfl, rfl⟩ := h
      exact ⟨0, (Action.ends_ofExcept_bind_of_error hof).mpr ⟨rfl, rfl⟩⟩
    | ok source =>
      simp only [hof] at h
      obtain ⟨calls, hcalls, rfl⟩ := h
      obtain ⟨fuel, hloop⟩ := hcalls.ends_loop hbody start
      exact ⟨fuel, (Action.ends_ofExcept_bind_of_ok hof).mpr hloop⟩

end CallsItem

/-! ## Lists of what has come of calls -/

section Lists

variable {host : Host} {b : Builtin} {f v : Value} {w w' : World} {answer : Except Fault Value}

/-- A built-in function that loops over its second argument makes a new list of what comes out of
the loop. -/
theorem Host.ends_iff_loop {body : Nat → Array Value → Value → Action (Array Value)}
    (hrun : ∀ fuel, host.call (fuel + 1) (.builtin b) [f, v] =
      Action.foldItems fuel v #[] (body fuel) >>= Action.newList) :
    host.Ends w (.builtin b) [f, v] answer w' ↔ ∃ result w₁,
      (∃ fuel, (Action.foldItems fuel v #[] (body fuel)).Ends w result w₁) ∧
      match result with
      | .error fault => answer = .error fault ∧ w' = w₁
      | .ok items =>
        answer = .ok (.list (w₁.heap.newList items).1) ∧
          w' = { w₁ with heap := (w₁.heap.newList items).2 } := by
  constructor
  · rintro ⟨_ | fuel, hends⟩
    · exact absurd hends Action.not_ends_outOfFuel
    · rw [hrun] at hends
      obtain ⟨result, w₁, hfold, hend⟩ := Action.ends_bind_newList_iff.mp hends
      exact ⟨result, w₁, ⟨fuel, hfold⟩, hend⟩
  · rintro ⟨result, w₁, ⟨fuel, hfold⟩, hend⟩
    refine ⟨fuel + 1, ?_⟩
    rw [hrun]
    exact Action.ends_bind_newList_iff.mpr ⟨result, w₁, hfold, hend⟩

/-- It fails if its second argument cannot be iterated. If the loop calls, it makes its calls, and
fails with the first that fails, or ends with a new list of what has come of them. -/
theorem Host.ends_iff_calls {put : Heap → Array Value → Value → Value → Array Value}
    {body : Nat → Array Value → Value → Action (Array Value)}
    (hrun : ∀ fuel, host.call (fuel + 1) (.builtin b) [f, v] =
      Action.foldItems fuel v #[] (body fuel) >>= Action.newList)
    (hbody : ∀ fuel, CallsItem (host.call fuel) f put (body fuel)) :
    host.Ends w (.builtin b) [f, v] answer w' ↔
      match Source.of v with
      | .error fault => answer = .error fault ∧ w' = w
      | .ok source => ∃ calls w₁, CallsEach host f source w calls w₁ ∧
          match gather put #[] calls with
          | .error fault => answer = .error fault ∧ w' = w₁
          | .ok items =>
            answer = .ok (.list (w₁.heap.newList items).1) ∧
              w' = { w₁ with heap := (w₁.heap.newList items).2 } := by
  rw [ends_iff_loop hrun]
  simp only [CallsItem.ends_foldItems_iff hbody]
  cases hof : Source.of v with
  | error fault =>
    constructor
    · rintro ⟨_, _, ⟨rfl, rfl⟩, hend⟩
      exact hend
    · intro hend
      exact ⟨_, _, ⟨rfl, rfl⟩, hend⟩
  | ok source =>
    constructor
    · rintro ⟨_, w₁, ⟨calls, hcalls, rfl⟩, hend⟩
      exact ⟨calls, w₁, hcalls, hend⟩
    · rintro ⟨calls, w₁, hcalls, hend⟩
      exact ⟨_, w₁, ⟨calls, hcalls, rfl⟩, hend⟩

end Lists

/-! ## The calls of `map` -/

/-- The body of `map` ends when its call does, and puts the answer behind the others. -/
theorem Builtin.callsItem_mapItem (invoke : Caller) (f : Value) :
    CallsItem invoke f (fun _ results _ y => results.push y) (mapItem invoke f) := by
  intro results item w answer w'
  unfold mapItem
  rw [bind_pure_comp, Action.ends_map_iff]

/-- `map` puts the answers one behind the other. -/
theorem gather_push (results : Array Value) (calls : List MapCall) :
    gather (fun _ results _ y => results.push y) results calls =
      (answers calls).map fun ys => results ++ ys.toArray := by
  induction calls generalizing results with
  | nil => simp [gather, Except.map]
  | cons c calls ih =>
    rw [gather, answers_cons]
    cases c.answer with
    | error fault => rfl
    | ok y =>
      simp only [Except.bind]
      rw [ih]
      cases answers calls <;> simp [Except.map]

/-- A call of `map` fails if its second argument cannot be iterated. Else it makes its calls, and
fails with the first that fails, or ends with a new list of all answers. -/
theorem Host.ends_map_iff {host : Host} {f v : Value} {w w' : World}
    {answer : Except Fault Value} :
    host.Ends w (.builtin .map) [f, v] answer w' ↔
      match Source.of v with
      | .error fault => answer = .error fault ∧ w' = w
      | .ok source => ∃ calls w₁, CallsEach host f source w calls w₁ ∧
          match answers calls with
          | .error fault => answer = .error fault ∧ w' = w₁
          | .ok results =>
            answer = .ok (.list (w₁.heap.newList results.toArray).1) ∧
              w' = { w₁ with heap := (w₁.heap.newList results.toArray).2 } := by
  rw [ends_iff_calls (fun _ => rfl) fun fuel => Builtin.callsItem_mapItem (host.call fuel) f]
  cases Source.of v with
  | error fault => rfl
  | ok source =>
    simp only [gather_push]
    refine exists_congr fun calls => exists_congr fun w₁ => and_congr_right fun _ => ?_
    cases answers calls with
    | error fault => rfl
    | ok results => simp [Except.map]

/-- Calls that are made one by one are laps of a loop. -/
theorem CallsEach.laps {host : Host} {f : Value} {source : Source} {w w' : World}
    {calls : List MapCall} (hcalls : CallsEach host f source w calls w') :
    ∃ last w₁, Laps source w (calls.map (·.toTurn)) last w₁ ∧
      (∀ results, answers calls = .ok results → ∃ source' h,
        w₁.heap.takeFrom last = ((none, source'), h) ∧ w' = { w₁ with heap := h }) ∧
      ∀ fault, answers calls = .error fault → w' = w₁ := by
  induction hcalls with
  | ended hnone => exact ⟨_, _, .done _ _, fun _ _ => ⟨_, _, hnone, rfl⟩, by simp⟩
  | failed hsome hcall =>
    refine ⟨_, _, .lap hsome hcall.leads.heap (.done _ _), ?_, fun _ _ => rfl⟩
    simp [answers_cons, Except.bind]
  | next hsome hcall _ ih =>
    obtain ⟨last, w₂, hlaps, hok, herror⟩ := ih
    refine ⟨last, w₂, .lap hsome hcall.leads.heap hlaps, ?_, ?_⟩
    · intro results hresults
      obtain ⟨ys, hys, -⟩ := map_eq_ok_iff.mp ((answers_cons _ _).symm.trans hresults)
      exact hok ys hys
    · intro fault hfault
      exact herror fault (map_eq_error_iff.mp ((answers_cons _ _).symm.trans hfault))

/-! ## Calls over a sequence -/

theorem Heap.hasTaken_nil (h : Heap) (v : Value) : h.HasTaken v [] (.own (.along v 0)) :=
  ⟨rfl, List.nil_prefix⟩

namespace CallsEach

variable {host : Host} {f v : Value} {w w' : World} {calls : List MapCall}

/-- The calls over a sequence are made with its items in order, and if none fails with all that
it has in the end. -/
theorem items (hcalls : CallsEach host f (.own (.along v 0)) w calls w')
    (hv : v.isSequence = true) :
    calls.map (·.item) <+: w'.heap.contents v ∧
      ∀ results, answers calls = .ok results → calls.map (·.item) = w'.heap.contents v := by
  obtain ⟨last, w₁, hlaps, hover, hfailed⟩ := hcalls.laps
  have hitems := hlaps.items hv (undisturbed_own _ _) (w.heap.hasTaken_nil v)
  simp only [List.map_map, List.nil_append] at hitems
  obtain ⟨hbegins, hall⟩ := hitems
  cases ha : answers calls with
  | error fault =>
    rw [hfailed fault ha]
    exact ⟨hbegins, by simp⟩
  | ok results =>
    obtain ⟨source', h, hnone, rfl⟩ := hover results ha
    obtain ⟨rfl, heq⟩ := hall source' h hnone
    exact ⟨hbegins, fun _ _ => heq⟩

end CallsEach

end Builtins
