-- The numbers of iterators are mere names. When there is one more iterator, all behind it go by the
-- next number; here is what that makes of values, cursors and faults, and what does not see it.
import Builtins.Iteration
import Builtins.Arithmetic
import Builtins.Range
import Builtins.Repr

namespace Builtins

/-! ## One more iterator -/

/-- What an iterator is called when there is one more, with the number `n`. -/
def IteratorId.past (n : Nat) (id : IteratorId) : IteratorId :=
  if id.index < n then id else ⟨id.index + 1⟩

def Iterator.past (n : Nat) (it : Iterator) : Iterator := ⟨it.kind, it.id.past n⟩

mutual

/-- A value when there is one more iterator, with the number `n`. -/
def Value.past (n : Nat) : Value → Value
  | .null => .null
  | .bool b => .bool b
  | .int x => .int x
  | .text s => .text s
  | .list id => .list id
  | .tuple items => .tuple (Value.pastAll n items)
  | .exception id kind payload => .exception id kind (Value.pastAll n payload)
  | .exceptionType kind => .exceptionType kind
  | .generator id => .generator id
  | .iterator it => .iterator (it.past n)
  | .builtin b => .builtin b
  | .function id name => .function id name

def Value.pastAll (n : Nat) : List Value → List Value
  | [] => []
  | v :: vs => v.past n :: Value.pastAll n vs

end

theorem Value.pastAll_eq_map (n : Nat) (vs : List Value) :
    Value.pastAll n vs = vs.map (Value.past n) := by
  induction vs with
  | nil => rfl
  | cons v vs ih => rw [pastAll, ih, List.map_cons]

def ExceptionInstance.past (n : Nat) (e : ExceptionInstance) : ExceptionInstance :=
  ⟨e.id, e.kind, e.payload.map (Value.past n)⟩

def Fault.past (n : Nat) : Fault → Fault
  | .raised e => .raised (e.past n)
  | fault => fault

/-- An answer when there is one more iterator, given what that makes of a result. -/
def answerPast {α β : Type} (n : Nat) (ren : α → β) : Except Fault α → Except Fault β
  | .ok x => .ok (ren x)
  | .error fault => .error (fault.past n)

def Cursor.past (n : Nat) : Cursor → Cursor
  | .tuple rest => .tuple (rest.map (Value.past n))
  | c => c

def Source.past (n : Nat) : Source → Source
  | .shared id => .shared (id.past n)
  | .own c => .own (c.past n)

namespace IteratorId

variable {n : Nat}

theorem past_of_lt {id : IteratorId} (h : id.index < n) : id.past n = id := if_pos h

theorem index_past (id : IteratorId) :
    (id.past n).index = if id.index < n then id.index else id.index + 1 := by
  unfold past
  split <;> rfl

end IteratorId

namespace Value

variable (n : Nat)

@[simp] theorem past_tuple (items : List Value) :
    (tuple items).past n = .tuple (items.map (Value.past n)) := by
  rw [past, pastAll_eq_map]

@[simp] theorem past_exception (id : ExceptionId) (kind : ExceptionKind) (payload : List Value) :
    (exception id kind payload).past n = .exception id kind (payload.map (Value.past n)) := by
  rw [past, pastAll_eq_map]

@[simp] theorem past_null : null.past n = .null := rfl
@[simp] theorem past_bool (b : Bool) : (bool b).past n = .bool b := rfl
@[simp] theorem past_int (x : Word) : (int x).past n = .int x := rfl
@[simp] theorem past_text (s : String) : (text s).past n = .text s := rfl
@[simp] theorem past_list (id : ListId) : (list id).past n = .list id := rfl
@[simp] theorem past_exceptionType (kind : ExceptionKind) :
    (exceptionType kind).past n = .exceptionType kind := rfl
@[simp] theorem past_generator (id : GeneratorId) : (generator id).past n = .generator id := rfl
@[simp] theorem past_iterator (it : Iterator) : (iterator it).past n = .iterator (it.past n) := rfl
@[simp] theorem past_builtin (b : Builtin) : (builtin b).past n = .builtin b := rfl
@[simp] theorem past_function (id : CallableId) (name : String) :
    (function id name).past n = .function id name := rfl

@[simp] theorem past_toValue (e : ExceptionInstance) : e.toValue.past n = (e.past n).toValue := by
  simp [ExceptionInstance.toValue, ExceptionInstance.past]

/-! ## What does not see the numbers -/

@[simp] theorem typeName_past (v : Value) : (v.past n).typeName = v.typeName := by
  cases v <;> simp [typeName, Iterator.past]

@[simp] theorem toWord?_past (v : Value) : (v.past n).toWord? = v.toWord? := by
  cases v <;> simp [toWord?]

@[simp] theorem wordArgument_past (function argument : String) (v : Value) :
    (v.past n).wordArgument function argument = v.wordArgument function argument := by
  simp [wordArgument]

@[simp] theorem addWords_past (a b : Value) : addWords (a.past n) (b.past n) = addWords a b := by
  simp [addWords, mismatch]

theorem start?_past (v : Value) :
    Cursor.start? (v.past n) = (Cursor.start? v).map (Cursor.past n) := by
  cases v <;> simp [Cursor.start?, Cursor.past]

end Value

@[simp] theorem Cursor.kind_past (n : Nat) (c : Cursor) : (c.past n).kind = c.kind := by
  cases c <;> rfl

theorem Source.of_past (n : Nat) (v : Value) :
    Source.of (v.past n) = answerPast n (Source.past n) (Source.of v) := by
  cases v <;>
    simp [Source.of, Cursor.start?, answerPast, Source.past, Cursor.past, Iterator.past,
      Fault.past, Value.typeName]

theorem answerPast_bind {α β γ : Type} {n : Nat} {ren : β → γ} (x : Except Fault α)
    (f : α → Except Fault β) :
    answerPast n ren (x >>= f) = answerPast n id x >>= fun a => answerPast n ren (f a) := by
  cases x <;> rfl

/-- What is wrong with arguments tells no number, whatever there is of iterators. -/
theorem Progression.answerPast_ofArgs (n : Nat) (function : String) (args : List Value) :
    answerPast n id (Progression.ofArgs function args) = Progression.ofArgs function args := by
  have harity : ∀ found, answerPast n id (Fault.checkArityRange function 1 3 found) =
      Fault.checkArityRange function 1 3 found := by
    intro found
    unfold Fault.checkArityRange
    split <;> rfl
  have hword : ∀ argument (v : Value), answerPast n id (v.wordArgument function argument) =
      v.wordArgument function argument := by
    intro argument v
    unfold Value.wordArgument
    split <;> rfl
  have hpure : ∀ p : Progression, answerPast n id (pure p) = pure p := fun _ => rfl
  unfold Progression.ofArgs
  rw [answerPast_bind, harity]
  match args with
  | [] => rfl
  | [_] => simp only [answerPast_bind, hword, hpure]
  | [_, _] => simp only [answerPast_bind, hword, hpure]
  | _ :: _ :: _ :: _ => simp only [answerPast_bind, hword, hpure]

theorem Progression.ofArgs_past (n : Nat) (function : String) (args : List Value) :
    Progression.ofArgs function (args.map (Value.past n)) =
      answerPast n id (Progression.ofArgs function args) := by
  rw [answerPast_ofArgs]
  unfold Progression.ofArgs
  rw [List.length_map]
  match args with
  | [] => rfl
  | [_] => simp
  | [_, _] => simp
  | _ :: _ :: _ :: _ => simp

end Builtins
