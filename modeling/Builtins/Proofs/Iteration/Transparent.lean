-- An iterator stands for the value that it is of. Whatever goes over the value does the same over an
-- iterator of it, and when some items have been taken with `next`, over those that are left.
import Builtins.Host.Stock
import Builtins.Proofs.Iteration.Order

namespace Builtins

open Builtins.Action

/-- Whether a consumer does the same over an iterator as over a value, but for that iterator, which is
new: it ends alike, and comes to the same items in the same worlds. -/
structure Consumer.SameOver (host : Host) (consumer : Consumer) (w : World) (v : Value) (w₀ : World)
    (u : Value) : Prop where
  ends : Corresponds w.heap.cursors.size
    (answerPast w.heap.cursors.size (Value.past w.heap.cursors.size))
    (consumer.Ends host w v · ·) (consumer.Ends host w₀ u · ·)
  comesTo : ∀ k, Corresponds w.heap.cursors.size (Value.past w.heap.cursors.size)
    (consumer.ComesTo host w v k · ·) (consumer.ComesTo host w₀ u k · ·)

/-- What an iterator of a value is good for in the world `w'`, when some items have been taken from
it: it has the other items left, in their order. -/
structure Consumer.Resumes (host : Host) (consumer : Consumer) (start v : Value) (w : World)
    (items : List Value) (u : Value) (taken : List Value) (w' : World) : Prop where
  first : taken = items.take taken.length
  next : ∀ x, items[taken.length]? = some x → ∃ w₁, host.Ends w' (.builtin .next) [u] (.ok x) w₁
  /-- The other items are collected. -/
  collected : ∃ w₁, collect.Ends host w' u (.ok (.tuple (items.drop taken.length))) w₁
  /-- A sum goes on from what the first items come to, and comes to what all items come to. -/
  summed : ∀ s w₁, (sum start).Ends host w' (.tuple taken) (.ok s) w₁ →
    ∃ answer whole w₂ w₃, (sum s).Ends host w₁ u answer w₂ ∧ (sum start).Ends host w v whole w₃ ∧
      w₂.heap.AnswersAgree w₃.heap answer whole
  /-- A consumer whose own calls spare the items comes to the others, one after the other. -/
  ordered : ∀ source, Source.of u = .ok source → consumer.Spares host source w' →
    (∀ k item w₁, consumer.ComesTo host w' u k item w₁ → items[taken.length + k]? = some item) ∧
      ∀ result w₁, consumer.Ends host w' u (.ok result) w₁ →
        ∀ k, taken.length + k < items.length → ∃ item w₂, consumer.ComesTo host w' u k item w₂

theorem Host.Takes.resumes {host : Host} (consumer : Consumer) {start v u : Value}
    {w w₀ w' : World} {items taken : List Value} {source source' : Source}
    (htakes : host.Takes u (start :: items) w₀ taken w') (hof : Source.of v = .ok source)
    (hitems : w.heap.ahead (w.heap.cursorOf source) = items)
    (hknown : ∀ l, .list l ∈ start :: items → l.index < w.heap.lists.size)
    (hiter : host.Iterates w v items u w₀ source') :
    consumer.Resumes host start v w items u taken w' := by
  obtain ⟨-, hsplit⟩ := htakes.ahead_eq hiter.isIterator hiter.of hiter.has
  rw [hiter.ahead] at hsplit
  have hrest : w'.heap.ahead (w'.heap.cursorOf source') = items.drop taken.length := by
    rw [hsplit, List.drop_left]
  refine ⟨?_, ?_, ?_, ?_, ?_⟩
  · rw [hsplit, List.take_left]
  · intro x hx
    obtain ⟨hlt, hx⟩ := List.getElem?_eq_some_iff.mp hx
    rw [List.drop_eq_getElem_cons hlt, hx] at hrest
    exact ⟨_, Host.ends_next_iff.mpr
      ⟨(Heap.next_of_ahead_eq_cons hiter.isIterator hiter.of hrest).symm, rfl⟩⟩
  · rw [← hrest]
    exact Consumer.exists_ends_collect host hiter.of
  · intro s w₁ hfold
    exact Consumer.exists_ends_sum_of_takes hof hitems hknown hiter htakes hfold
  · intro source'' hof' hspares
    obtain rfl := Except.ok.inj (hof'.symm.trans hiter.of)
    have hfixed := fun h => (Heap.next_eq_takeFrom hiter.isIterator hiter.of h).1
    constructor
    · intro k item w₁ hcomes
      have hplace := ((Consumer.comesTo_iff hiter.of).mp hcomes).getElem? hfixed hspares
      rwa [hrest, List.getElem?_drop] at hplace
    · intro result w₁ hends k hk
      have hlt : k < (w'.heap.ahead (w'.heap.cursorOf source'')).length := by
        rw [hrest, List.length_drop]
        omega
      obtain ⟨item, w₂, hhandles⟩ :=
        Consumer.exists_handles_of_ends hfixed hiter.of hspares hends hlt
      exact ⟨item, w₂, (Consumer.comesTo_iff hiter.of).mpr hhandles⟩

/-- An iterator stands for the value that it is of. What cannot be iterated over has no iterator, for
the reason for which no consumer goes over it. A generator and an iterator are their own iterators.
Over a new iterator of a list, a tuple or a text, a consumer ends as over the value itself: with the
same answer or fault, the same calls and lines, and all else that there is left the same. And when
the first items of any value have been taken from its iterator, whatever others do meanwhile that
spares the items, the iterator has the others left. The functions of the host may do anything but go
by the numbers of iterators, which are names: a new iterator shifts those of all later ones. -/
theorem an_iterator_stands_for_its_value (host : Host) (consumer : Consumer) (start v : Value)
    (w : World) (hw : w.heap.Closed) (hv : w.heap.Knows v) (hstart : w.heap.Knows start)
    (hconsumer : consumer.KnownTo w.heap) (hhost : host.Blind w.heap.cursors.size) :
    (∀ fault, Source.of v = .error fault → fault = .notIterable v.typeName ∧
      host.Ends w (.builtin .iter) [v] (.error fault) w ∧ consumer.Ends host w v (.error fault) w) ∧
    (v.isIterator = true → host.Ends w (.builtin .iter) [v] (.ok v) w) ∧
    (v.isSequence = true → ∃ u w₀, host.Ends w (.builtin .iter) [v] (.ok u) w₀ ∧
      host.Ends w₀ (.builtin .iter) [u] (.ok u) w₀ ∧ consumer.SameOver host w v w₀ u) ∧
    ∀ source items, Source.of v = .ok source → w.heap.ahead (w.heap.cursorOf source) = items →
      ∃ u w₀, host.Ends w (.builtin .iter) [v] (.ok u) w₀ ∧
        (∀ k ≤ items.length, ∃ w', host.Takes u (start :: items) w₀ (items.take k) w') ∧
        ∀ taken w', host.Takes u (start :: items) w₀ taken w' →
          consumer.Resumes host start v w items u taken w' := by
  refine ⟨?_, Host.ends_iter_self, ?_, ?_⟩
  · intro fault hof
    obtain ⟨hfault, hiter⟩ := host.ends_iter_of_error w hof
    exact ⟨hfault, hiter, consumer.ends_of_error host w hof⟩
  · intro hseq
    obtain ⟨c, hc, hof⟩ : ∃ c, Cursor.start? v = some c ∧ Source.of v = .ok (.own c) := by
      cases v with
      | list id => exact ⟨_, rfl, rfl⟩
      | tuple items => exact ⟨_, rfl, rfl⟩
      | text s => exact ⟨_, rfl, rfl⟩
      | _ => cases hseq
    have hpast := (hv.start hc).past_eq
    refine ⟨_, _, Host.ends_iter_of_start hw hseq hc, Host.ends_iter_self rfl, ?_, ?_⟩
    · have hsame := consumer.corresponds_ends hhost hconsumer c.kind hof
      rwa [hpast] at hsame
    · intro k
      have hsame := consumer.corresponds_comesTo hhost hconsumer c.kind hof k
      rwa [hpast] at hsame
  · rintro source items hof rfl
    obtain ⟨u, w₀, source', hiter⟩ := host.exists_iterates hw hv hof
    have hknown : ∀ l, .list l ∈ start :: w.heap.ahead (w.heap.cursorOf source) →
        l.index < w.heap.lists.size := by
      intro l hl
      rcases List.mem_cons.mp hl with rfl | hl
      · exact hstart
      · exact hw.knows_ahead (hw.knows_cursorOf hv hof).2 hl
    exact ⟨u, w₀, hiter.ends, fun k hk => Host.Takes.exists_of_le hiter.isIterator hiter.of hiter.ahead hk,
      fun taken w' htakes => htakes.resumes consumer hof rfl hknown hiter⟩

theorem Stock.alike_shout (n : Nat) (args : List Value) :
    Script.Alike n (Stock.shout args) (Stock.shout (args.map (Value.past n))) := by
  have hshout : ∀ args, Stock.shout args =
      .look fun h => .write (h.displayAll args ++ "!") (.done .null) := fun _ => rfl
  rw [hshout, hshout]
  apply Script.Alike.look
  intro h c _
  rw [Heap.displayAll_past]
  exact .write _ (.done .null)

/-- One number has been taken from an iterator of two, and the other one is collected. -/
theorem an_iterator_stands_for_a_list_of_two :
    let host : Host := { functions := #[Stock.shout] }
    let shout : Value := .function ⟨1⟩ "shout"
    let numbers : Value := .list ⟨0⟩
    let w : World := { heap := { lists := #[#[.int 7, .int 8]] } }
    ∃ u w₀ w₁ w₂, host.Ends w (.builtin .iter) [numbers] (.ok u) w₀ ∧
      (Consumer.map shout).SameOver host w numbers w₀ u ∧
      host.Takes u [.int 0, .int 7, .int 8] w₀ [.int 7] w₁ ∧
      Consumer.collect.Ends host w₁ u (.ok (.tuple [.int 8])) w₂ := by
  intro host shout numbers w
  have hw : w.heap.Closed := by
    constructor
    · intro items hitems v hv
      obtain rfl : items = #[.int 7, .int 8] := by simpa [w] using hitems
      rcases (by simpa using hv : v = .int 7 ∨ v = .int 8) with rfl | rfl <;> trivial
    · simp [w]
  have hhost : host.Blind w.heap.cursors.size := by
    intro f hf args
    obtain rfl : f = Stock.shout := by simpa [host] using hf
    exact Stock.alike_shout _ args
  have hv : w.heap.Knows numbers := Nat.zero_lt_one
  obtain ⟨-, -, hsame, hleft⟩ := an_iterator_stands_for_its_value host (.map shout) (.int 0) numbers w
    hw hv trivial trivial hhost
  obtain ⟨u, w₀, hiter, -, hsame⟩ := hsame rfl
  obtain ⟨u', w₀', hiter', htake, hresumes⟩ := hleft (.own (.list ⟨0⟩ 0)) [.int 7, .int 8] rfl rfl
  obtain ⟨hu, rfl⟩ := hiter.unique hiter'
  obtain rfl := Except.ok.inj hu
  obtain ⟨w₁, htaken⟩ := htake 1 (by decide)
  obtain ⟨w₂, hcollected⟩ := (hresumes _ _ htaken).collected
  exact ⟨u, w₀, w₁, w₂, hiter, hsame, htaken, hcollected⟩

end Builtins
