import GuardedLisp.Proofs.Class.Secret

/-!
# What a sealed class gives away

A slot of a sealed class cannot be read without a grant.  But a subclass has a copy of the slot,
the subclass is not finalised, and so the copy can be opened and read.  There is no other way out:
of two evaluations that start without a grant, in stores that differ in one integer of a sealed
class, the second ends as the first does, unless the first reads that integer from a copy.

## Main definitions

* `Secret.Conceals`: a record in which the secret has not been read from a copy
* `Secret.Concealed`: computations that end alike if the secret is not read from a copy

## Main results

* `secret_read_from_copy`: a copy of a slot of a sealed class gives its value away
* `Context.eval_of_concealed`: evaluation does not depend on a secret that no copy gives away
-/

namespace GuardedLisp

/-! ## Records that go on -/

/-- A record that has been carried on, while a class has kept its slots. -/
structure Record.Continues (id : ClassId) (r r' : Record) : Prop where
  events : r.events <:+ r'.events
  store : r.store.Reaches r'.store
  slots : r'.store.slots id = r.store.slots id

namespace Record.Continues

variable {id : ClassId}

theorem refl (r : Record) : r.Continues id r := ⟨List.suffix_rfl, .refl, rfl⟩

theorem trans {r r' r'' : Record} (first : r.Continues id r') (second : r'.Continues id r'') :
    r.Continues id r'' :=
  ⟨first.events.trans second.events, first.store.trans second.store, second.slots.trans first.slots⟩

/-- One more event is written down. -/
theorem note (r : Record) (event : Event) :
    r.Continues id { r with events := event :: r.events } :=
  ⟨List.suffix_cons _ _, .refl, rfl⟩

theorem bind {m : Recorder α} {f : α → Recorder β} {r : Record}
    (first : r.Continues id (m.after r))
    (rest : ∀ a r', m r = .ok a r' → r'.Continues id ((f a).after r')) :
    r.Continues id (Recorder.after (m >>= f) r) := by
  rw [Recorder.after_bind]
  unfold Recorder.after at first
  cases outcome : m r with
  | ok a r' =>
    rw [outcome] at first
    exact first.trans (rest a r' outcome)
  | error e r' =>
    rw [outcome] at first
    exact first

end Record.Continues

namespace Secret

variable {x : Secret}

/-- The secret has not been read from a class that has been made below its own. -/
def Conceals (x : Secret) (r : Record) : Prop :=
  ∀ copy access, x.old ≤ copy → r.store.Descends copy x.id →
    .read copy x.name access (.ok (.integer x.value)) ∉ r.events

theorem Conceals.of_continues {r r' : Record} (continues : r.Continues x.id r')
    (conceals : x.Conceals r') : x.Conceals r := by
  intro copy access later descends member
  -- What is below the class goes on to be, and what has been read goes on to be in the record.
  have extended : r.store.Extends r'.store := Store.extends_of_reaches continues.store
  exact conceals copy access later (descends.of_extends extended) (continues.events.subset member)

/-! ## Concealed computations -/

/-- A computation, and one without a record that ends alike in an alike store unless the first
reads the secret from a copy. -/
structure Concealed (x : Secret) (m : Recorder α) (n : EvalM α) : Prop where
  continues (r : Record) : (r.store.slots x.id).Sealed → r.Continues x.id (m.after r)
  alike {r : Record} {s : Store} :
    x.Alike r.store s → x.Conceals (m.after r) → x.AlikeEnds (m.erase r) (n s)

namespace Concealed

theorem pure (a : α) : x.Concealed (Pure.pure a) (Pure.pure a) := by
  refine ⟨fun r _ => .refl r, fun alike _ => ?_⟩
  exact .ok a alike

theorem fail (e : Error) : x.Concealed (throw e : Recorder α) (throw e) := by
  refine ⟨fun r _ => .refl r, fun alike _ => ?_⟩
  exact .error e alike

/-- What follows a computation has to be concealed for the values only that it gives while the
class is sealed. -/
theorem bind {m : Recorder α} {n : EvalM α} {f : α → Recorder β} {g : α → EvalM β}
    (first : x.Concealed m n)
    (rest : ∀ a, (∃ r r', (r.store.slots x.id).Sealed ∧ m r = .ok a r') →
      x.Concealed (f a) (g a)) :
    x.Concealed (m >>= f) (n >>= g) := by
  constructor
  · intro r sealed
    refine Record.Continues.bind (first.continues r sealed) ?_
    intro a r' outcome
    have slots := (first.continues r sealed).slots
    simp only [Recorder.after, outcome] at slots
    exact (rest a ⟨r, r', sealed, outcome⟩).continues r' (slots ▸ sealed)
  · intro r s alike conceals
    rw [Recorder.after_bind] at conceals
    have begun := @first.alike r s alike
    simp only [Recorder.after, Recorder.erase, Bind.bind, EStateM.bind] at begun ⊢
    have slots := (first.continues r alike.sealed).slots
    generalize n s = ended at begun ⊢
    cases outcome : m r with
    | ok a r' =>
      -- Nothing has been given away in the end, so nothing was after the first computation.
      simp only [Recorder.after, outcome] at begun conceals slots
      have further := rest a ⟨r, r', alike.sealed, outcome⟩
      have ends := begun (conceals.of_continues (further.continues r' (slots ▸ alike.sealed)))
      cases ends with
      | ok _ alike' => exact further.alike alike' conceals
    | error e r' =>
      simp only [outcome] at begun conceals
      have ends := begun conceals
      cases ends with
      | error _ alike' => exact .error e alike'

theorem during (application : Value) {m : Recorder α} {n : EvalM α} (same : x.Concealed m n) :
    x.Concealed (m.during application) (n.during application) := by
  constructor
  · intro r sealed
    rw [Recorder.after_during]
    exact same.continues r sealed
  · intro r s alike conceals
    rw [Recorder.after_during] at conceals
    have ends := same.alike alike conceals
    simp only [Recorder.erase, Recorder.during, EvalM.during] at ends ⊢
    generalize n s = ended at ends ⊢
    cases outcome : m r with
    | ok a r' =>
      rw [outcome] at ends
      cases ends with
      | ok _ alike' => exact .ok a alike'
    | error e r' =>
      rw [outcome] at ends
      cases ends with
      | error _ alike' => exact .error _ alike'

theorem calling (call : Call) {m : Recorder α} {n : EvalM α} (same : x.Concealed m n) :
    x.Concealed (m.calling call) n := by
  constructor
  · intro r sealed
    exact (Record.Continues.note r (.call call)).trans (same.continues _ sealed)
  · intro r s alike conceals
    exact same.alike (r := { r with events := .call call :: r.events }) alike conceals

/-- A step that keeps stores alike and a sealed class as it is gives nothing away. -/
theorem act (action : Action α)
    (kept : ∀ s : Store, (s.slots x.id).Sealed →
      (action.run.after s).slots x.id = s.slots x.id)
    (alike : ∀ s s', x.Alike s s' → x.AlikeEnds (action.run s) (action.run s')) :
    x.Concealed (Recorder.act action) action.run := by
  constructor
  · intro r sealed
    rw [Recorder.after_act]
    exact ⟨List.suffix_append _ _, Store.reaches_act action r.store, kept r.store sealed⟩
  · intro r s same _
    rw [Recorder.erase_act]
    exact alike r.store s same

/-- A step that does not depend on the grants gives nothing away. -/
theorem act_unguarded (action : Action α) (unguarded : action.isGuarded = false) :
    x.Concealed (Recorder.act action) action.run := by
  refine act action ?_ fun s s' alike => alike.act_unguarded action unguarded
  intro s sealed
  exact action.slots_after_of_kept sealed fun _ => sealed.changed_eq action unguarded

variable {grants : Grants} (outside : x.id ∉ grants) (id : ClassId) (name : Symbol)

include outside

/-- A write without a grant gives nothing away. -/
theorem act_write (value : Value) :
    x.Concealed (Recorder.act (.writeSlot id name value (grants.access id)))
      (Action.run (.writeSlot id name value (grants.access id))) := by
  refine act _ ?_ fun s s' alike => alike.act_write outside id name value
  intro s sealed
  refine Action.slots_after_of_kept _ sealed ?_
  intro own
  obtain rfl : id = x.id := Option.some.inj own
  obtain ⟨e, refused⟩ := sealed.set_outside name value
  rw [Action.change, Grants.access_of_not_mem outside, refused]
  rfl

/-- A read without a grant gives the secret or nothing away. -/
theorem act_read :
    x.Concealed (Recorder.act (.readSlot id name (grants.access id)))
      (Action.run (.readSlot id name (grants.access id))) := by
  constructor
  · intro r sealed
    rw [Recorder.after_act]
    refine ⟨List.suffix_append _ _, Store.reaches_act _ r.store, ?_⟩
    exact Action.slots_after_of_kept _ sealed nofun
  · intro r s alike conceals
    rw [Recorder.erase_act]
    simp only [Action.run, EvalM.getSlot]
    refine alike.ask ?_
    rcases (alike.slots id).get name (grants.access id) with same | ⟨tainted, rfl, leaked⟩
    · exact same
    · -- The secret has been read: from its own class, which is refused, or from a copy.
      rcases tainted with own | ⟨later, descends⟩
      · subst own
        obtain ⟨e, refused⟩ := alike.sealed.get_outside x.name
        rw [Grants.access_of_not_mem outside, refused] at leaked
        cases leaked
      · simp only [Recorder.after, Recorder.act_readSlot, leaked] at conceals
        exact absurd List.mem_cons_self (conceals id _ later descends)

/-- What follows a read is concealed if it is so under the new grant: the class of the secret does
not get one, since no slot of it is read. -/
theorem bind_read {f : Value → Recorder β} {g : Value → EvalM β}
    (rest : x.id ∉ id :: grants → ∀ v, x.Concealed (f v) (g v)) :
    x.Concealed (Recorder.act (.readSlot id name (grants.access id)) >>= f)
      (Action.run (.readSlot id name (grants.access id)) >>= g) := by
  refine bind (act_read outside id name) ?_
  rintro v ⟨r, r', sealed, outcome⟩
  refine rest ?_ v
  rw [List.mem_cons, not_or]
  refine ⟨?_, outside⟩
  intro own
  subst own
  obtain ⟨e, refused⟩ := sealed.get_outside name
  rw [Recorder.act_readSlot, Grants.access_of_not_mem outside, refused] at outcome
  cases outcome

end Concealed

/-- Computations that end alike if the secret is not read from a copy, compared under grants that
leave out its class. -/
def concealing (x : Secret) : Simulation Recorder EvalM where
  under g h := g = h ∧ x.id ∉ g
  rel := x.Concealed
  rel_pure := .pure
  rel_fail := .fail
  rel_bind first rest := .bind first fun a _ => rest a
  rel_during application _ _ same := same.during application
  rel_calling _ _ _ _ _ same := same.calling _
  rel_act := .act_unguarded
  rel_write id name value under := by
    obtain ⟨rfl, outside⟩ := under
    exact .act_write outside id name value
  rel_read id name _ _ under rest := by
    obtain ⟨rfl, outside⟩ := under
    exact .bind_read outside id name fun granted => rest ⟨rfl, granted⟩

end Secret

/-! ## Evaluation -/

/-- Two stores that differ in one integer of a sealed class can be told apart without a grant: a
copy of its slot gives the value away once the copy is opened. -/
theorem secret_read_from_copy :
    ((vault 41).slots 1).Sealed ∧ 1 ∉ ({} : Context).grants ∧
    vault 42 = (vault 41).setSlots 1 (((vault 41).slots 1).store ⟨35, "secret"⟩ (.integer 42)) ∧
    EvalM.outcome (Context.eval {} globalScope openCopy) (vault 41) = .ok (.integer 41) ∧
    EvalM.outcome (Context.eval {} globalScope openCopy) (vault 42) = .ok (.integer 42) :=
  ⟨sealed_vault 41, List.not_mem_nil, by decide +kernel, by decide +kernel, by decide +kernel⟩

/-- **A sealed class gives nothing away but by copies.**  An evaluation that starts without a grant
for a sealed class ends with the same value or error and the same output, whichever integer a slot
of the class holds, provided that it does not read that integer from the slot of a class that it
has made below the sealed one. -/
theorem Context.eval_of_concealed (ctx : Context) (scope : Scope) (term : Value) {s : Store}
    {id : ClassId} {name : Symbol} {slot : Slot} {secret : Int64} (other : Int64)
    (sealed : (s.slots id).Sealed) (outside : id ∉ ctx.grants)
    (found : (s.slots id).find? name = some slot) (holds : slot.value = some (.integer secret))
    (concealed : ∀ copy access, s.classes.size ≤ copy →
      (EvalM.after (ctx.eval scope term) s).Descends copy id →
        .read copy name access (.ok (.integer secret)) ∉ ctx.events scope term s) :
    let s' := s.setSlots id ((s.slots id).store name (.integer other))
    EvalM.outcome (ctx.eval scope term) s' = EvalM.outcome (ctx.eval scope term) s ∧
      (EvalM.after (ctx.eval scope term) s').output =
        (EvalM.after (ctx.eval scope term) s).output := by
  intro s'
  let x : Secret := ⟨id, name, secret, other, s.classes.size⟩
  let start : Record := { store := s }
  have alike : x.Alike s s' := x.alike_setSlots sealed found holds (Nat.le_refl _)
  have erased := ctx.erase_eval scope term start
  have conceals : x.Conceals (Recorder.after (ctx.eval scope term) start) := by
    intro copy access later descends
    rw [Recorder.store_after _ _ start erased] at descends
    exact concealed copy access later descends
  have ends := (x.concealing.rel_eval ctx ⟨rfl, outside⟩ scope term).alike alike conceals
  rw [erased] at ends
  unfold EvalM.outcome EvalM.after
  generalize (ctx.eval scope term : EvalM Value) s = first at ends ⊢
  generalize (ctx.eval scope term : EvalM Value) s' = second at ends ⊢
  cases ends with
  | ok v same => exact ⟨rfl, same.output⟩
  | error e same => exact ⟨rfl, same.output⟩

/-- The term `((lambda (copy) (copy secret)) (class vault))`. -/
def askCopy : Value :=
  let copy : Value := .symbol ⟨36, "copy"⟩
  let asker : Value :=
    .applied (.builtin (.form .lambda)) [.applied copy [], .applied copy [.symbol ⟨35, "secret"⟩]]
  .applied asker [.applied (.builtin (.form .newClass)) [.classObject 1]]

theorem eval_askCopy_of_concealed :
    EvalM.outcome (Context.eval {} globalScope askCopy) (vault 41) =
      .error (.denied .read "secret") ∧
    EvalM.outcome (Context.eval {} globalScope askCopy) (vault 42) =
      EvalM.outcome (Context.eval {} globalScope askCopy) (vault 41) := by
  have found : ((vault 41).slots 1).find? ⟨35, "secret"⟩ =
      some ⟨{ anyRead := false, anyWrite := false }, none, some (.integer 41)⟩ := by
    decide +kernel
  have quiet : (Context.events {} globalScope askCopy (vault 41)).all (·.value?.isNone) = true := by
    decide +kernel
  have changed : vault 42 =
      (vault 41).setSlots 1 (((vault 41).slots 1).store ⟨35, "secret"⟩ (.integer 42)) := by
    decide +kernel
  refine ⟨by decide +kernel, ?_⟩
  rw [changed]
  refine And.left (Context.eval_of_concealed {} globalScope askCopy 42 (sealed_vault 41)
    List.not_mem_nil found rfl fun copy access _ _ member => ?_)
  cases List.all_eq_true.mp quiet _ member

end GuardedLisp
