import GuardedLisp.Proofs.Reachable

/-!
# Slots hold what they are declared for

A slot that is declared with a datatype is unset or has a value that the datatype admits.  A write
that is checked puts nothing else there, and a copy in a subclass has the datatype along with the
value, whatever becomes of the permission.

## Main definitions

* `Slot.Typed`: a slot has no value but one that its datatype admits

## Main results

* `Slot.lasts_typed`: nothing that is done to classes ends that
* `Store.Reachable.typed_slots`: it holds in every reachable store
-/

namespace GuardedLisp

/-- If a slot is declared with a datatype, it is unset or has a value that the datatype admits. -/
def Slot.Typed (slot : Slot) : Prop :=
  ∀ datatype, slot.datatype = some datatype →
    slot.value = none ∨ ∃ value, slot.value = some value ∧ datatype.admits value.kind = true

/-- Neither declarations nor checked writes nor changes of permissions make a slot hold what it is
not declared for. -/
theorem Slot.lasts_typed : Slot.Lasts Slot.Typed fun _ => True where
  declared _ _ _ := .inl rfl
  written _ _ admitted datatype declared := .inr ⟨_, rfl, admitted datatype declared⟩
  permitted _ typed := typed

/-- **Slots hold what they are declared for**: in every class of a reachable store, a slot that is
declared with a datatype is unset or has a value that the datatype admits. -/
theorem Store.Reachable.typed_slots {s : Store} (reachable : s.Reachable) (id : ClassId) :
    (s.slots id).Every Slot.Typed :=
  reachable.every_slots Slot.lasts_typed id

/-- The term `((lambda (c) (class-define! c x integer) (class-set! c x 1) (class-chmod! c x virtual)
(class (class c))) (class))`. -/
def copyTwice : Value :=
  let c : Value := .symbol ⟨35, "c"⟩
  let x : Value := .symbol ⟨36, "x"⟩
  let form (form : SpecialForm) : List Value → Value := .applied (.builtin (.form form))
  let copier := form .lambda [.applied c [],
    form .classDefine [c, x, .symbol ⟨37, "integer"⟩], form .classSet [c, x, .integer 1],
    form .classChmod [c, x, .symbol ⟨38, "virtual"⟩], form .newClass [form .newClass [c]]]
  .applied copier [form .newClass []]

theorem made_copyTwice : copyTwice.Made .initial := by
  simp [copyTwice, Value.applied, Vocabulary.Covers, Value.Every, Vocabulary.made]

/-- A slot that was made virtual is inherited open, two classes down, with its datatype and its
value. -/
theorem typed_slots_copyTwice :
    let table := (EvalM.after (Context.eval {} globalScope copyTwice) .initial).slots 3
    table.find? ⟨36, "x"⟩ = some { datatype := some .integer, value := some (.integer 1) } ∧
      table.Every Slot.Typed := by
  have moves := (Store.reachable_initial.moves_eval {} globalScope made_copyTwice).1
  exact ⟨by decide +kernel, Store.Reachable.typed_slots (Store.reachable_initial.moves moves) 3⟩

end GuardedLisp
