import GuardedLisp.Proofs.Reader.Stack
import GuardedLisp.Proofs.Renaming.Eval
import GuardedLisp.Proofs.Run

/-!
# Primitives

A primitive is registered with the number of arguments that it takes, and it also takes its
arguments apart itself.  Both say the same, so the check that evaluation makes before a call
refuses nothing that the primitive would take, and lets nothing pass that it would refuse.

Integers are words of 64 bits.  What is computed with them is what is computed with integers without
bounds, or nothing: no result is ever wrapped.

## Main definitions

* `Arithmetic.Exactly`: how an operation ends whose result is a given integer
* `Primitive.IsNumeric`: the primitives that take integers only

## Main results

* `Primitive.run_eq_check`, `Primitive.run_eq_arity_iff`: the number of arguments
* `Primitive.run_of_find?`: the first argument that is no integer is the one that is reported
* `Primitive.exactly_arithmetic`, `Primitive.outcome_comparison`: two integers
* `Primitive.checked_and_exact`: all of this for the registered primitives
-/

namespace GuardedLisp

/-! ## Integers -/

/-- How an operation ends whose result is a given integer: with that integer, or with an error if
no word has its value. -/
inductive Arithmetic.Exactly (operation : Arithmetic) (n : Int) : Except Error Value → Prop
  | fits {word : Int64} : word.toInt = n → Exactly operation n (.ok (.integer word))
  | beyond : ¬ (Int64.minValue.toInt ≤ n ∧ n ≤ Int64.maxValue.toInt) →
      Exactly operation n (.error (.overflow operation none))

theorem word?_eq_none_iff {n : Int} :
    word? n = none ↔ ¬ (Int64.minValue.toInt ≤ n ∧ n ≤ Int64.maxValue.toInt) := by
  unfold word?
  split
  · next fits => exact iff_of_false (Option.some_ne_none _) (not_not_intro fits)
  · next beyond => exact iff_of_true rfl beyond

theorem Comparison.holds_iff (comparison : Comparison) (a b : Int64) :
    comparison.holds a b = true ↔
      match comparison with
      | less => a.toInt < b.toInt
      | greater => a.toInt > b.toInt
      | equal => a.toInt = b.toInt
      | atMost => a.toInt ≤ b.toInt
      | atLeast => a.toInt ≥ b.toInt := by
  cases comparison with
  | less | greater => simp [holds, Int64.lt_iff_toInt_lt]
  | equal => simp [holds, Int64.toInt_inj]
  | atMost | atLeast => simp [holds, Int64.le_iff_toInt_le]

/-- Operations on two integers take them out of the arguments from left to right. -/
theorem EvalM.cases_of_integers (v w : Value) (k : Int64 → Int64 → EvalM Value) (s : Store) :
    (∃ a b, v = .integer a ∧ w = .integer b) ∨
    ∃ u, [v, w].find? (fun v => v.kind ≠ .integer) = some u ∧
      (do
        let a ← Machine.ofExcept v.toInteger
        let b ← Machine.ofExcept w.toInteger
        k a b : EvalM Value) s = .error (.type (.mismatch .integer u.kind) none) s := by
  have refused {v : Value} (other : v.kind ≠ .integer) :
      v.toInteger = .error (.type (.mismatch .integer v.kind) none) := by
    cases v with
    | integer n => exact absurd rfl other
    | _ => rfl
  have taken {v : Value} (same : v.kind = .integer) : ∃ n, v = .integer n := by
    cases v with
    | integer n => exact ⟨n, rfl⟩
    | closure _ kind => cases kind <;> cases same
    | _ => cases same
  by_cases first : v.kind = .integer
  · by_cases second : w.kind = .integer
    · obtain ⟨a, rfl⟩ := taken first
      obtain ⟨b, rfl⟩ := taken second
      exact .inl ⟨a, b, rfl, rfl⟩
    · refine .inr ⟨w, by simp [first, second], ?_⟩
      obtain ⟨a, rfl⟩ := taken first
      rw [refused second]
      rfl
  · refine .inr ⟨v, by simp [first], ?_⟩
    rw [refused first]
    rfl

namespace Primitive

variable {op : Primitive} {args : List Value} {s s' : Store} {e : Error}

theorem exactly_arithmetic (operation : Arithmetic) (a b : Int64) (s : Store) :
    operation.Exactly (operation.compute a.toInt b.toInt)
        (((arithmetic operation).run [.integer a, .integer b] : EvalM Value).outcome s) ∧
      ((arithmetic operation).run [.integer a, .integer b] : EvalM Value).after s = s := by
  have computed : (arithmetic operation).run [.integer a, .integer b] =
      (do return .integer (← Machine.ofExcept (operation.run a b)) : EvalM Value) := rfl
  rw [computed, Arithmetic.run]
  cases found : word? (operation.compute a.toInt b.toInt) with
  | some word => exact ⟨.fits (Reader.word?_eq_some_iff.mp found), rfl⟩
  | none => exact ⟨.beyond (word?_eq_none_iff.mp found), rfl⟩

theorem outcome_comparison {comparison : Comparison} {a b : Int64} {p : Prop} [Decidable p]
    (same : comparison.holds a b = true ↔ p) (s : Store) :
    ((Primitive.comparison comparison).run [.integer a, .integer b] : EvalM Value).outcome s =
      .ok (.bool p) := by
  have decided : comparison.holds a b = decide p := by
    rw [Bool.eq_iff_iff, same, decide_eq_true_iff]
  rw [← decided]
  rfl

/-- The primitives that take integers only. -/
def IsNumeric : Primitive → Prop
  | arithmetic _ | comparison _ => True
  | _ => False

theorem after_of_isNumeric (numeric : op.IsNumeric) (a b : Int64) (s : Store) :
    (op.run [.integer a, .integer b] : EvalM Value).after s = s := by
  cases op with
  | arithmetic operation => exact (exactly_arithmetic operation a b s).2
  | comparison comparison => rfl
  | _ => exact numeric.elim

/-- The first argument that is no integer is the one that is reported. -/
theorem run_of_find? (numeric : op.IsNumeric) (right : args.length = op.argumentCount) {v : Value}
    (found : args.find? (fun v => v.kind ≠ .integer) = some v) (s : Store) :
    (op.run args : EvalM Value) s = .error (.type (.mismatch .integer v.kind) none) s := by
  cases op with
  | arithmetic operation =>
    obtain ⟨a, b, rfl⟩ := List.length_eq_two.mp right
    obtain ⟨m, n, rfl, rfl⟩ | ⟨u, first, ran⟩ := EvalM.cases_of_integers a b
      (fun a b => do return .integer (← Machine.ofExcept (operation.run a b))) s
    · cases found
    · obtain rfl := Option.some.inj (first.symm.trans found)
      exact ran
  | comparison comparison =>
    obtain ⟨a, b, rfl⟩ := List.length_eq_two.mp right
    obtain ⟨m, n, rfl, rfl⟩ | ⟨u, first, ran⟩ := EvalM.cases_of_integers a b
      (fun a b => do return .bool (comparison.holds a b)) s
    · cases found
    · obtain rfl := Option.some.inj (first.symm.trans found)
      exact ran
  | _ => exact numeric.elim

/-! ## The number of arguments -/

theorem find?_name (op : Primitive) : Builtin.find? op.name = some (.primitive op) := by
  cases op with
  | part which => cases which <;> decide
  | arithmetic operation => cases operation <;> decide
  | comparison comparison => cases comparison <;> decide
  | _ => decide

theorem admits_iff : (Builtin.primitive op).arity.admits args.length = true ↔
    args.length = op.argumentCount := by
  simp [Builtin.arity, Arity.admits]

/-- The check before a call refuses nothing that the primitive would take. -/
theorem run_eq_check (op : Primitive) (args : List Value) :
    (op.run args : EvalM Value) =
      (do Machine.ofExcept ((Builtin.primitive op).arity.check args.length); op.run args) := by
  unfold Arity.check
  split
  · rfl
  · next refused =>
    have wrong : args.length ≠ op.argumentCount := fun right => refused (admits_iff.mpr right)
    rw [Primitive.run_of_length_ne wrong]
    rfl

/-- Arguments of the right number are refused for what they are, or for what comes of them. -/
theorem error_of_run (right : args.length = op.argumentCount)
    (failed : (op.run args : EvalM Value) s = .error e s') :
    (∃ fault, e = .type fault none) ∨ ∃ operation, e = .overflow operation none := by
  cases op with
  | display =>
    obtain ⟨v, rfl⟩ := List.length_eq_one_iff.mp right
    cases failed
  | newline =>
    obtain rfl := List.length_eq_zero_iff.mp right
    cases failed
  | part which =>
    obtain ⟨v, rfl⟩ := List.length_eq_one_iff.mp right
    cases v with
    | pair => cases failed
    | _ =>
      cases failed
      exact .inl ⟨_, rfl⟩
  | cons | same | alike =>
    obtain ⟨v, w, rfl⟩ := List.length_eq_two.mp right
    cases failed
  | arithmetic operation =>
    obtain ⟨v, w, rfl⟩ := List.length_eq_two.mp right
    obtain ⟨a, b, rfl, rfl⟩ | ⟨u, -, ran⟩ := EvalM.cases_of_integers v w
      (fun a b => do return .integer (← Machine.ofExcept (operation.run a b))) s
    · have exactly := (exactly_arithmetic operation a b s).1
      rw [EvalM.outcome, failed] at exactly
      generalize operation.compute a.toInt b.toInt = n at exactly
      cases exactly
      exact .inr ⟨operation, rfl⟩
    · cases ran.symm.trans failed
      exact .inl ⟨_, rfl⟩
  | comparison comparison =>
    obtain ⟨v, w, rfl⟩ := List.length_eq_two.mp right
    obtain ⟨a, b, rfl, rfl⟩ | ⟨u, -, ran⟩ := EvalM.cases_of_integers v w
      (fun a b => do return .bool (comparison.holds a b)) s
    · cases failed
    · cases ran.symm.trans failed
      exact .inl ⟨_, rfl⟩

/-- An arity is reported just if the number of arguments is wrong, and it is the registered one. -/
theorem run_eq_arity_iff {expected : Arity} {got : Nat} {shown : Option String} :
    (op.run args : EvalM Value) s = .error (.arity expected got shown) s' ↔
      (Builtin.primitive op).arity.admits args.length = false ∧
        expected = (Builtin.primitive op).arity ∧ got = args.length ∧ shown = none ∧ s' = s := by
  rw [← Bool.not_eq_true, admits_iff]
  by_cases right : args.length = op.argumentCount
  · refine iff_of_false (fun failed => ?_) fun wrong => wrong.1 right
    obtain ⟨fault, same⟩ | ⟨operation, same⟩ := error_of_run right failed <;> cases same
  · rw [Primitive.run_of_length_ne right]
    constructor
    · intro failed
      cases failed
      exact ⟨right, rfl, rfl, rfl, rfl⟩
    · rintro ⟨-, rfl, rfl, rfl, rfl⟩
      rfl

/-- **Primitives check their arguments and compute exactly.**

* Every primitive is registered under its name.  To call it is to check the number of its arguments
  first and to call it then, and the registered arity is reported just if that number is wrong.
* Arithmetic and comparisons report the kind of the first argument that is no integer.
* Sums, differences and products are those of the integers, or there is an error if they have no
  64-bit form; comparisons are those of the integers.  None of this changes the store. -/
theorem checked_and_exact :
    (∀ (op : Primitive) (args : List Value),
      Builtin.find? op.name = some (.primitive op) ∧
      (op.run args : EvalM Value) =
        (do Machine.ofExcept ((Builtin.primitive op).arity.check args.length); op.run args) ∧
      ∀ (s s' : Store) (expected : Arity) (got : Nat) (shown : Option String),
        (op.run args : EvalM Value) s = .error (.arity expected got shown) s' ↔
          (Builtin.primitive op).arity.admits args.length = false ∧
            expected = (Builtin.primitive op).arity ∧ got = args.length ∧ shown = none ∧ s' = s) ∧
    (∀ (op : Primitive) (args : List Value) (v : Value) (s : Store), op.IsNumeric →
      (Builtin.primitive op).arity.admits args.length = true →
      args.find? (fun v => v.kind ≠ .integer) = some v →
      (op.run args : EvalM Value) s = .error (.type (.mismatch .integer v.kind) none) s) ∧
    (∀ (a b : Int64) (s : Store),
      let ends (op : Primitive) := (op.run [.integer a, .integer b] : EvalM Value).outcome s
      Arithmetic.add.Exactly (a.toInt + b.toInt) (ends (arithmetic .add)) ∧
      Arithmetic.subtract.Exactly (a.toInt - b.toInt) (ends (arithmetic .subtract)) ∧
      Arithmetic.multiply.Exactly (a.toInt * b.toInt) (ends (arithmetic .multiply)) ∧
      ends (comparison .less) = .ok (.bool (a.toInt < b.toInt)) ∧
      ends (comparison .greater) = .ok (.bool (a.toInt > b.toInt)) ∧
      ends (comparison .equal) = .ok (.bool (a.toInt = b.toInt)) ∧
      ends (comparison .atMost) = .ok (.bool (a.toInt ≤ b.toInt)) ∧
      ends (comparison .atLeast) = .ok (.bool (a.toInt ≥ b.toInt)) ∧
      ∀ op : Primitive, op.IsNumeric →
        (op.run [.integer a, .integer b] : EvalM Value).after s = s) := by
  refine ⟨fun op args => ⟨find?_name op, run_eq_check op args, fun _ _ _ _ _ => run_eq_arity_iff⟩,
    fun op args v s numeric right found => run_of_find? numeric (admits_iff.mp right) found s,
    fun a b s => ?_⟩
  have compares (comparison : Comparison) := comparison.holds_iff a b
  exact ⟨(exactly_arithmetic .add a b s).1, (exactly_arithmetic .subtract a b s).1,
    (exactly_arithmetic .multiply a b s).1, outcome_comparison (compares .less) s,
    outcome_comparison (compares .greater) s, outcome_comparison (compares .equal) s,
    outcome_comparison (compares .atMost) s, outcome_comparison (compares .atLeast) s,
    fun op numeric => after_of_isNumeric numeric a b s⟩

end Primitive

end GuardedLisp
