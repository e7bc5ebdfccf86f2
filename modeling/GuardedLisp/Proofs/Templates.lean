import GuardedLisp.Proofs.Activation
import GuardedLisp.Proofs.Depth

/-!
# Templates

Expansion walks along a template and takes a level only to go into an element, so the two parts of
a pair are not treated alike, and a long list takes no more levels than a short one.  What comes of
it does not show any of this.  A template can be filled by recursion on both parts of a pair, as if
the rest of a list were one more element; the parts to be filled in are evaluated in the same order
and the same errors come first.

## Main definitions

* `Value.fill`: a template filled by recursion on both parts of a pair
* `Value.levels`: the levels that expansion takes
* `Value.copy`: a value with new pairs

## Main results

* `Level.expandChain_filling`: to fill a template is to expand it with the elements filled
* `Context.expand_eq_fill`: to expand a template is to fill it, and to copy it if there is nothing
  to fill in
-/

namespace GuardedLisp

open Machine (act fail ofExcept)

namespace Value

/-- A template filled by recursion on both parts of a pair, given the values of the parts to be
filled in. -/
def fill (value : Value → EvalM Value) : Value → EvalM Value
  | pair address first rest =>
    if first = .symbol .unquote then
      match rest.elements? with
      | some [term] => value term
      | some terms => throw (.arity (.exactly 1) terms.length (some (pair address first rest).text))
      | none => throw (.form (.improperList rest.text))
    else if first = .symbol .quasiquote then return .pair address first rest
    else if first = .symbol .unquoteSplicing then
      throw (.form (.splicing (pair address first rest).text))
    else do
      let first ← first.fill value
      let rest ← rest.fill value
      EvalM.alloc (Alloc.pair first rest)
  | v => return v

/-- The levels that the expansion of a template takes: one for a pair, and one more for each
element than the element takes. -/
def levels : Value → Nat
  | pair _ first rest => max (first.levels + 1) rest.levels
  | _ => 0

/-- A value of which all pairs in chains and elements are made anew. -/
def copy : Value → Alloc Value
  | pair _ first rest => do
    let first ← first.copy
    let rest ← rest.copy
    Alloc.pair first rest
  | v => pure v

/-- A value without the addresses of its pairs. -/
def contents : Value → Value
  | pair _ first rest => pair 0 first.contents rest.contents
  | v => v

/-- Whether a symbol occurs in a term. -/
def mentions (name : Symbol) : Value → Bool
  | symbol other => other = name
  | pair _ first rest => first.mentions name || rest.mentions name
  | _ => false

/-- A template in which there is no symbol that has a meaning in templates. -/
def Plain (template : Value) : Prop :=
  ∀ name ∈ [Symbol.unquote, .quasiquote, .unquoteSplicing], template.mentions name = false

instance (template : Value) : Decidable template.Plain :=
  inferInstanceAs (Decidable (∀ name ∈ _, _))

end Value

theorem TemplateMark.ofHead?_eq (head : Value) :
    ofHead? head =
      if head = .symbol .unquote then some .unquote
      else if head = .symbol .quasiquote then some .quasiquote
      else if head = .symbol .unquoteSplicing then some .splicing
      else none := by
  cases head <;> simp [ofHead?]

/-! ## Filling is expansion with the elements filled -/

namespace Level

/-- The evaluator with which templates are filled. -/
def filling (eval : Grants → Scope → Value → EvalM Value) : Level EvalM where
  eval
  expand grants scope template := template.fill (eval grants scope)

/-- To fill a template is to expand it with the elements filled. -/
theorem expandChain_filling (eval : Grants → Scope → Value → EvalM Value) (grants : Grants)
    (scope : Scope) (template : Value) :
    (filling eval).expandChain grants scope template = template.fill (eval grants scope) := by
  induction template with
  | pair address first rest _ ih =>
    rw [Value.fill, expandChain, TemplateMark.ofHead?_eq]
    by_cases unquoted : first = .symbol .unquote
    · rw [if_pos unquoted, if_pos unquoted]
      simp only [unquote, Value.elements]
      rcases rest.elements? with - | - | ⟨term, - | ⟨next, terms⟩⟩ <;> rfl
    · rw [if_neg unquoted, if_neg unquoted]
      by_cases quoted : first = .symbol .quasiquote
      · rw [if_pos quoted, if_pos quoted]
      · rw [if_neg quoted, if_neg quoted]
        by_cases spliced : first = .symbol .unquoteSplicing
        · rw [if_pos spliced, if_pos spliced]
          rfl
        · rw [if_neg spliced, if_neg spliced]
          simp only [ih]
          rfl
  | _ => rfl

end Level

/-! ## Expansion fills templates -/

/-- Expansion does what filling does with at least as many levels, if that is settled. -/
theorem Simulation.levels_filling (limit limit' : Nat) {left left' : Nat} (le : left ≤ left') :
    settling.Levels (⟨evalAt limit left, expandAt limit left⟩ : Level EvalM)
      (Level.filling (evalAt limit' left')) := by
  induction left generalizing left' with
  | zero =>
    constructor
    · exact (levels_of_le limit limit' le).eval
    · intro g h scope template _
      cases template with
      | pair address first rest =>
        intro s settled
        exact absurd rfl (settled limit)
      | _ => exact fun s settled => rfl
  | succ left ih =>
    constructor
    · exact (levels_of_le limit limit' le).eval
    · intro g h scope template under
      show EvalM.SettledBy _ (template.fill (evalAt limit' left' h scope))
      rw [← Level.expandChain_filling]
      -- An element has one level less, and is filled with as many as before.
      exact rel_expandChain (ih (Nat.le_of_succ_le le)) under scope template

/-- What is done along a chain is the same on two levels if what is done with terms and with
elements is, as far as that is settled. -/
theorem Level.settledBy_expandChain {inner other : Level EvalM} {grants : Grants} {scope : Scope}
    (bound : Nat)
    (evals : ∀ term, (inner.eval grants scope term).SettledBy (other.eval grants scope term))
    (expands : ∀ part : Value, part.levels < bound →
      (inner.expand grants scope part).SettledBy (other.expand grants scope part))
    {template : Value} (low : template.levels ≤ bound) :
    EvalM.SettledBy (inner.expandChain grants scope template)
      (other.expandChain grants scope template) := by
  induction template with
  | pair address first rest _ ih =>
    obtain ⟨lowFirst, lowRest⟩ := Nat.max_le.mp low
    simp only [expandChain]
    split
    · refine .bind (fun s settled => rfl) fun terms => ?_
      split
      · exact evals _
      · exact fun s settled => rfl
    · exact fun s settled => rfl
    · exact fun s settled => rfl
    · refine .bind (expands first lowFirst) fun _ => ?_
      exact .bind (ih lowRest) fun _ s settled => rfl
  | _ => exact fun s settled => rfl

/-- With the levels that a template takes, expansion does what filling does, if that is settled. -/
theorem fill_settledBy (limit limit' left : Nat) {left' : Nat} (grants : Grants) (scope : Scope)
    {template : Value} (room : left + template.levels ≤ left') :
    EvalM.SettledBy (template.fill (evalAt limit left grants scope))
      (expandAt limit' left' grants scope template) := by
  induction left' generalizing template with
  | zero =>
    cases template with
    | pair address first rest =>
      simp only [Value.levels] at room
      omega
    | _ => exact fun s settled => rfl
  | succ left' ih =>
    by_cases atom : template.levels = 0
    · cases template with
      | pair address first rest =>
        simp only [Value.levels] at atom
        omega
      | _ => exact fun s settled => rfl
    · have less : left ≤ left' := by omega
      rw [← Level.expandChain_filling]
      refine Level.settledBy_expandChain (left' + 1 - left) ?_ ?_ (by omega)
      · exact fun term => (Simulation.levels_of_le limit limit' less).eval scope term rfl
      · exact fun part low => ih (by omega)

/-! ## Templates with nothing to fill in -/

namespace Value

theorem Plain.first {address : Address} {first rest : Value}
    (plain : (pair address first rest).Plain) : first.Plain :=
  fun name mem => (Bool.or_eq_false_iff.mp (plain name mem)).1

theorem Plain.rest {address : Address} {first rest : Value}
    (plain : (pair address first rest).Plain) : rest.Plain :=
  fun name mem => (Bool.or_eq_false_iff.mp (plain name mem)).2

theorem Plain.ne_symbol {template : Value} (plain : template.Plain) {name : Symbol}
    (mem : name ∈ [Symbol.unquote, .quasiquote, .unquoteSplicing]) : template ≠ .symbol name := by
  rintro rfl
  simpa [mentions] using plain name mem

/-- If there is nothing to fill in, a template is copied, whatever the values of terms are. -/
theorem Plain.fill_eq_copy {template : Value} (plain : template.Plain)
    (value : Value → EvalM Value) : template.fill value = EvalM.alloc template.copy := by
  induction template with
  | pair address first rest ihFirst ihRest =>
    have head := plain.first
    rw [fill, if_neg (head.ne_symbol (by simp)), if_neg (head.ne_symbol (by simp)),
      if_neg (head.ne_symbol (by simp)), ihFirst head, ihRest plain.rest]
    rfl
  | _ => rfl

/-- A copy has the same contents. -/
theorem contents_copy (v : Value) (next : Address) :
    (v.copy.run next).1.contents = v.contents := by
  induction v generalizing next with
  | pair address first rest ihFirst ihRest =>
    show pair 0 (first.copy.run next).1.contents _ = pair 0 _ _
    rw [ihFirst]
    exact congrArg _ (ihRest _)
  | _ => rfl

/-- Values with the same contents are alike. -/
theorem alike_of_contents_eq {v w : Value} (same : v.contents = w.contents) :
    v.alike w = true := by
  induction v generalizing w with
  | pair address first rest ihFirst ihRest =>
    cases w with
    | pair address' first' rest' =>
      injection same with _ sameFirst sameRest
      simp [alike, ihFirst sameFirst, ihRest sameRest]
    | _ => cases same
  | _ =>
    cases w <;> cases same
    simp [alike, Value.same]

end Value

/-- **To expand a template is to fill it.**  Unless it ends with the error that the limit has been
reached, expansion ends as recursion on both parts of every pair does, in which a part headed by
`unquote` gives way to the value of its operand: with the same value or error, in the same store and
with the same output.  Conversely, a context with as many more levels as the template takes expands
it to what it is filled to.  A template without the symbols that have a meaning in templates is
copied: nothing is evaluated and the store has nothing new but the copy, whose contents are those of
the template. -/
theorem Context.expand_eq_fill :
    (∀ (ctx : Context) (scope : Scope) (template : Value) (s : Store),
      Settled (EvalM.outcome (ctx.expand scope template) s) →
        (ctx.expand scope template : EvalM Value) s = template.fill (ctx.eval scope) s) ∧
    (∀ (ctx ctx' : Context) (scope : Scope) (template : Value) (s : Store),
      ctx.grants = ctx'.grants → ctx.left + template.levels ≤ ctx'.left →
        Settled (EvalM.outcome (template.fill (ctx.eval scope)) s) →
          (ctx'.expand scope template : EvalM Value) s = template.fill (ctx.eval scope) s) ∧
    (∀ (ctx : Context) (scope : Scope) (template : Value) (s : Store),
      template.Plain → template.levels ≤ ctx.left →
        (ctx.expand scope template : EvalM Value) s = EvalM.alloc template.copy s ∧
        ∀ next, (template.copy.run next).1.contents = template.contents ∧
          (template.copy.run next).1.alike template = true) := by
  refine ⟨?_, ?_, ?_⟩
  · intro ctx scope template s settled
    have levels := Simulation.levels_filling ctx.limit ctx.limit (Nat.le_refl ctx.left)
    exact (levels.expand scope template rfl s settled).symm
  · intro ctx ctx' scope template s grants room settled
    have filled :=
      fill_settledBy ctx.limit ctx'.limit ctx.left ctx.grants scope room
    rw [Context.expand, ← grants]
    exact filled s settled
  · intro ctx scope template s plain room
    -- Nothing is evaluated, so it does not matter that no level is left for it.
    have none : 0 + template.levels ≤ ctx.left := Nat.le_trans (Nat.le_of_eq (Nat.zero_add _)) room
    have filled := fill_settledBy ctx.limit ctx.limit 0 ctx.grants scope none s
    rw [plain.fill_eq_copy] at filled
    refine ⟨filled (settled_ok _), fun next => ?_⟩
    have same := template.contents_copy next
    exact ⟨same, Value.alike_of_contents_eq same⟩

/-- The template `(a (unquote (+ 1 2)) (b) unquote (+ 1 2))`, whose tail is filled in too. -/
def openTemplate : Value :=
  .applied (.symbol ⟨35, "a"⟩) [.applied (.symbol .unquote) [sumTerm],
    .applied (.symbol ⟨36, "b"⟩) [], .symbol .unquote, sumTerm]

/-- The value `(a 3 (b) . 3)`, with addresses in the order in which pairs are made. -/
def filledTemplate : Value :=
  .pair 3 (.symbol ⟨35, "a"⟩) (.pair 2 (.integer 3)
    (.pair 1 (.pair 0 (.symbol ⟨36, "b"⟩) .nil) (.integer 3)))

theorem expand_eq_fill_openTemplate :
    (Context.expand {} globalScope openTemplate : EvalM Value) .initial =
      openTemplate.fill (Context.eval {} globalScope) .initial ∧
    EvalM.outcome (Context.expand {} globalScope openTemplate) .initial = .ok filledTemplate ∧
    (Context.expand { limit := 7 } globalScope openTemplate : EvalM Value) .initial =
      openTemplate.fill (Context.eval { limit := 4 } globalScope) .initial ∧
    (Context.expand { limit := 2 } globalScope filledTemplate : EvalM Value) .initial =
      EvalM.alloc filledTemplate.copy .initial := by
  obtain ⟨expansion, converse, copied⟩ := Context.expand_eq_fill
  have expanded : EvalM.outcome (Context.expand {} globalScope openTemplate) .initial =
      .ok filledTemplate := by rfl
  have filled : EvalM.outcome (openTemplate.fill (Context.eval { limit := 4 } globalScope))
      .initial = .ok filledTemplate := by rfl
  refine ⟨?_, expanded, ?_, ?_⟩
  · exact expansion {} globalScope openTemplate .initial (expanded ▸ settled_ok _)
  · exact converse { limit := 4 } { limit := 7 } globalScope openTemplate .initial rfl (by decide)
      (filled ▸ settled_ok _)
  · exact (copied { limit := 2 } globalScope filledTemplate .initial (by decide) (by decide)).1

end GuardedLisp
