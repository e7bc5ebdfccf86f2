import GuardedLisp.Proofs.Activation
import GuardedLisp.Proofs.Class.Capability

/-!
# Arguments of methods

A method is called under a grant for its class, and so are its arguments evaluated, although they
are terms of the caller.  They come to what they come to under the grants of the caller, with one
exception: where the caller would be refused a slot of the class that is open from inside only, the
argument is not.

## Main definitions

* `SlotTable.Withholds`: a table refuses from outside what it allows from inside
* `EvalM.SameUnlessWithheld`: computations of which one is refused what a class withholds, if they
  differ at all
* `EvalM.enterAs`: the frame that binds `self`

## Main results

* `SlotTable.get_inside`, `SlotTable.set_inside`: access from inside is access from outside, or else
  the table withholds the slot
* `Simulation.lending`: evaluation under a grant for a class is the same unless something of the
  class is withheld without it
* `Context.apply_method`: how the arguments of a method are evaluated
-/

namespace GuardedLisp

open Machine (bindParams)

/-! ## What a class withholds -/

/-- An error with which a table refuses from outside what it allows from inside. -/
inductive SlotTable.Withholds (table : SlotTable) : Error → Prop
  | read {name : Symbol} {slot : Slot} : table.find? name = some slot →
      slot.permission.allowsRead .outside = false → slot.permission.allowsRead .inside = true →
      Withholds table (.denied .read name.name)
  | write {name : Symbol} {slot : Slot} : table.find? name = some slot →
      slot.permission.allowsWrite .outside = false → slot.permission.allowsWrite .inside = true →
      Withholds table (.denied .write name.name)

namespace SlotTable

/-- A slot is read from inside as from outside, unless it is withheld. -/
theorem get_inside (table : SlotTable) (name : Symbol) :
    table.get name .inside = table.get name .outside ∨
      ∃ e, table.get name .outside = .error e ∧ table.Withholds e := by
  unfold get
  cases found : table.find? name with
  | none => exact .inl rfl
  | some slot =>
    cases outside : slot.permission.allowsRead .outside with
    | true =>
      have inside := Permission.allowsRead_inside_of_outside outside
      exact .inl (by simp only [outside, inside])
    | false =>
      cases inside : slot.permission.allowsRead .inside with
      | true =>
        exact .inr ⟨.denied .read name.name, by simp [outside], .read found outside inside⟩
      | false => exact .inl (by simp only [outside, inside])

/-- A slot is written from inside as from outside, unless it is withheld. -/
theorem set_inside (table : SlotTable) (name : Symbol) (value : Value) :
    table.set name value .inside = table.set name value .outside ∨
      ∃ e, table.set name value .outside = .error e ∧ table.Withholds e := by
  unfold set
  cases found : table.find? name with
  | none => exact .inl rfl
  | some slot =>
    cases outside : slot.permission.allowsWrite .outside with
    | true =>
      have inside := Permission.allowsWrite_inside_of_outside outside
      exact .inl (by simp only [outside, inside])
    | false =>
      cases inside : slot.permission.allowsWrite .inside with
      | true =>
        exact .inr ⟨.denied .write name.name, by simp [outside], .write found outside inside⟩
      | false => exact .inl (by simp only [outside, inside])

/-- What is withheld names no application. -/
theorem Withholds.during_eq {table : SlotTable} {e : Error} (withheld : table.Withholds e)
    (application : Thunk String) : e.during application = e := by
  cases withheld <;> rfl

end SlotTable

/-! ## Evaluation under a grant -/

/-- The grants `h` are those of `g` and one for a class. -/
def Grants.AddedTo (id : ClassId) (g h : Grants) : Prop :=
  ∀ other, other ∈ h ↔ other = id ∨ other ∈ g

/-- The second computation does what the first one does, unless the first one is refused what a
class withholds. -/
def EvalM.SameUnlessWithheld (id : ClassId) (x y : EvalM α) : Prop :=
  ∀ s, y s = x s ∨ ∃ e s', x s = .error e s' ∧ (s'.slots id).Withholds e

namespace Grants.AddedTo

variable {id : ClassId} {g h : Grants} (added : AddedTo id g h)

include added

theorem cons (other : ClassId) : AddedTo id (other :: g) (other :: h) := by
  intro third
  rw [List.mem_cons, List.mem_cons, added, or_left_comm]

/-- No other class is accessed otherwise. -/
theorem access (target : ClassId) :
    h.access target = g.access target ∨
      target = id ∧ g.access target = .outside ∧ h.access target = .inside := by
  rcases access_of_subset (fun other mem => (added other).mpr (.inr mem)) target with
    same | ⟨outside, inside⟩
  · exact .inl same
  · have granted : target ∈ h := by
      by_contra absent
      rw [access_of_not_mem absent] at inside
      cases inside
    rcases (added target).mp granted with same | mem
    · exact .inr ⟨same, outside, inside⟩
    · rw [Grants.access, if_pos mem] at outside
      cases outside

end Grants.AddedTo

namespace EvalM.SameUnlessWithheld

variable {id : ClassId}

theorem refl (x : EvalM α) : x.SameUnlessWithheld id x := fun _ => .inl rfl

theorem bind {x y : EvalM α} {f g : α → EvalM β} (first : x.SameUnlessWithheld id y)
    (rest : ∀ a, (f a).SameUnlessWithheld id (g a)) :
    SameUnlessWithheld id (x >>= f) (y >>= g) := by
  intro s
  rcases first s with same | ⟨e, s', refused, withheld⟩
  · cases ran : x s with
    | ok a s' =>
      rw [bind_of_ok ran, bind_of_ok (same.trans ran)]
      exact rest a s'
    | error e s' =>
      rw [bind_of_error ran, bind_of_error (same.trans ran)]
      exact .inl rfl
  · exact .inr ⟨e, s', bind_of_error refused f, withheld⟩

theorem during (application : Value) {x y : EvalM α} (same : x.SameUnlessWithheld id y) :
    (x.during application).SameUnlessWithheld id (y.during application) := by
  intro s
  rcases same s with same | ⟨e, s', refused, withheld⟩
  · exact .inl (by simp only [EvalM.during, same])
  · exact .inr ⟨e, s', by simp only [EvalM.during, refused, withheld.during_eq], withheld⟩

variable {g h : Grants} (added : Grants.AddedTo id g h) (target : ClassId) (name : Symbol)

include added

theorem getSlot : (EvalM.getSlot target name (g.access target)).SameUnlessWithheld id
    (EvalM.getSlot target name (h.access target)) := by
  intro s
  rcases added.access target with same | ⟨rfl, outside, inside⟩
  · rw [same]
    exact .inl rfl
  · rw [outside, inside]
    simp only [EvalM.getSlot, EvalM.ask]
    rcases (s.slots target).get_inside name with same | ⟨e, refused, withheld⟩
    · exact .inl (by rw [same])
    · exact .inr ⟨e, s, by rw [refused], withheld⟩

theorem writeSlot (value : Value) :
    (Action.run (.writeSlot target name value (g.access target))).SameUnlessWithheld id
      (Action.run (.writeSlot target name value (h.access target))) := by
  intro s
  rcases added.access target with same | ⟨rfl, outside, inside⟩
  · rw [same]
    exact .inl rfl
  · rw [outside, inside]
    simp only [Action.run, EvalM.editSlots, EvalM.edit]
    rcases (s.slots target).set_inside name value with same | ⟨e, refused, withheld⟩
    · exact .inl (by rw [same])
    · exact .inr ⟨e, s, by rw [refused], withheld⟩

end EvalM.SameUnlessWithheld

/-- Computations that are the same unless a class withholds something from the first of them,
compared under grants and the same grants with one for the class. -/
def Simulation.lending (id : ClassId) : Simulation EvalM EvalM where
  under := Grants.AddedTo id
  rel := EvalM.SameUnlessWithheld id
  rel_pure _ := .refl _
  rel_fail _ := .refl _
  rel_bind := .bind
  rel_during := .during
  rel_calling _ _ _ _ _ same := same
  rel_act _ _ := .refl _
  rel_write target name value added := .writeSlot added target name value
  rel_read target name _ _ added rest :=
    .bind (.getSlot added target name) (rest (added.cons target))

/-! ## Calls of methods -/

/-- Enters a frame in which `self` is a class. -/
def EvalM.enterAs (scope : Scope) (id : ClassId) : EvalM Scope := do
  let inside ← EvalM.enter scope
  EvalM.define inside .self (.classObject id)
  return inside

/-- The frame with `self` is always made. -/
theorem EvalM.exists_enterAs (scope : Scope) (id : ClassId) (s : Store) :
    ∃ inside entered, enterAs scope id s = .ok inside entered := by
  obtain ⟨inside, between, entered, made, defined, -⟩ := Activation.enter_define_self scope id s
  exact ⟨inside, entered, (bind_of_ok made _).trans (bind_of_ok defined _)⟩

namespace Context

/-- A method is applied in a frame with `self` and under a grant for its class. -/
theorem call_eq_bind (ctx : Context) (scope : Scope) (id : ClassId) (callable : Value)
    (args : List Value) :
    (ctx.call scope id callable args : EvalM Value) =
      EvalM.enterAs scope id >>= fun inside => (ctx.grant id).apply inside callable args := by
  simp only [EvalM.enterAs, bind_assoc, pure_bind]
  rfl

/-- What a slot holds is called as a method of its class. -/
theorem apply_of_readable {ctx : Context} {scope : Scope} {id : ClassId} {name : Symbol}
    {s : Store} {callable : Value} {args : List Value}
    (readable : (s.slots id).get name (ctx.access id) = .ok callable)
    (called : callable.isCalledWith args = true) :
    (ctx.apply scope (.classObject id) (.symbol name :: args) : EvalM Value) s =
      (ctx.call scope id callable args : EvalM Value) s := by
  have read : EvalM.getSlot id name (ctx.access id) s = .ok callable s := by
    simp only [EvalM.getSlot, EvalM.ask, readable]
  rw [apply_eq_body]
  refine (EvalM.bind_of_ok read _).trans ?_
  rw [if_pos called]
  rfl

/-- Terms are evaluated under a grant as without it, unless what they need is withheld. -/
theorem sameUnlessWithheld_evalAll (ctx : Context) (id : ClassId) (scope : Scope)
    (terms : List Value) :
    EvalM.SameUnlessWithheld id (ctx.evalAll scope terms) ((ctx.grant id).evalAll scope terms) :=
  have added : Grants.AddedTo id ctx.grants (ctx.grant id).grants := fun _ => List.mem_cons
  Simulation.rel_evalAll ((Simulation.lending id).levels_evalAt ctx.limit _) added scope terms

/-- **The arguments of a method are evaluated under the grant for its class.**  If a slot of a class
can be read from outside and holds a function, a call of it without a grant for the class enters a
frame with `self`, evaluates the arguments there from left to right, and then the body, all under a
grant for the class.  The arguments come to the same values or the same error, in the same store and
with the same output, as under the grants of the caller, unless under these the class refuses a slot
that is open from inside only. -/
theorem apply_method {ctx : Context} {scope home : Scope} {id : ClassId} {name : Symbol}
    {s : Store} {address : Address} {params : Params} {body : Value} (outside : id ∉ ctx.grants)
    (readable : (s.slots id).get name .outside =
      .ok (.closure address .function params body home)) (args : List Value) :
    ∃ inside entered, EvalM.enterAs scope id s = .ok inside entered ∧
      (ctx.apply scope (.classObject id) (.symbol name :: args) : EvalM Value) s =
        (do
          let values ← (ctx.grant id).evalAll inside args
          let frame ← EvalM.enter home
          bindParams params values frame
          (ctx.grant id).eval frame body : EvalM Value) entered ∧
      (((ctx.grant id).evalAll inside args : EvalM _) entered =
          (ctx.evalAll inside args : EvalM _) entered ∨
        ∃ e s', (ctx.evalAll inside args : EvalM _) entered = .error e s' ∧
          (s'.slots id).Withholds e) := by
  obtain ⟨inside, entered, framed⟩ := EvalM.exists_enterAs scope id s
  have access : ctx.access id = .outside := Grants.access_of_not_mem outside
  refine ⟨inside, entered, framed, ?_, ctx.sameUnlessWithheld_evalAll id inside args entered⟩
  rw [apply_of_readable (access ▸ readable) rfl, call_eq_bind, EvalM.bind_of_ok framed,
    apply_eq_body]
  rfl

end Context

/-- A store with a class that has a private slot and a method that returns its argument. -/
def lender : Store :=
  let identity : Value :=
    .closure 0 .function ⟨[⟨35, "x"⟩], none⟩ (.applied (.symbol .begin) [.symbol ⟨35, "x"⟩])
      globalScope
  let slots : SlotTable :=
    { entries := [
        (⟨36, "secret"⟩, { permission := { anyRead := false, anyWrite := false },
                           value := some (.integer 41) }),
        (⟨37, "same"⟩, { value := some identity })] }
  { Store.initial with classes := #[{}, ⟨[baseClass], [baseClass], slots⟩], nextAddress := 1 }

/-- The term `(lender secret)`. -/
def askLender : Value := .applied (.classObject 1) [.symbol ⟨36, "secret"⟩]

theorem apply_method_lender :
    EvalM.outcome (Context.apply {} globalScope (.classObject 1) [.symbol ⟨37, "same"⟩, askLender])
      lender = .ok (.integer 41) ∧
    ∃ inside entered, EvalM.enterAs globalScope 1 lender = .ok inside entered ∧
      ((Context.evalAll { grants := [1] } inside [askLender] : EvalM _) entered =
          (Context.evalAll {} inside [askLender] : EvalM _) entered ∨
        ∃ e s', (Context.evalAll {} inside [askLender] : EvalM _) entered = .error e s' ∧
          (s'.slots 1).Withholds e) := by
  have outside : 1 ∉ ({} : Context).grants := List.not_mem_nil
  have readable :
      (lender.slots 1).get ⟨37, "same"⟩ .outside = .ok (.closure _ .function _ _ _) := rfl
  obtain ⟨inside, entered, framed, -, arguments⟩ :=
    Context.apply_method outside readable [askLender]
  exact ⟨by decide +kernel, inside, entered, framed, arguments⟩

/-- A caller that may not read the private slot passes its value as an argument. -/
theorem evalAll_askLender :
    EvalM.outcome (Context.apply {} globalScope (.classObject 1) [.symbol ⟨37, "same"⟩, askLender])
      lender = .ok (.integer 41) ∧
    EvalM.outcome (EvalM.enterAs globalScope 1 >>= fun inside =>
      Context.evalAll { grants := [1] } inside [askLender]) lender = .ok [.integer 41] ∧
    EvalM.outcome (EvalM.enterAs globalScope 1 >>= fun inside =>
      Context.evalAll {} inside [askLender]) lender = .error (.denied .read "secret") := by
  refine ⟨?_, ?_, ?_⟩ <;> decide +kernel

end GuardedLisp
