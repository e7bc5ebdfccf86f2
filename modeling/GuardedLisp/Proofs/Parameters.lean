import GuardedLisp.Proofs.Scopes
import Mathlib.Data.List.Nodup

/-!
# Parameter lists and what they bind

A term is a parameter list if it lists symbols, no two of which are the same.  This is what makes
binding simple: in a new frame no parameter is in the way of another one, so arguments are refused
for their number and for nothing else, and before any of them is bound.

## Main definitions

* `Value.Lists`: how a term lists symbols
* `SlotTable.ofBindings`: the table in which given names have given values
* `Params.bindings`: the parameters with what they are bound to

## Main results

* `Params.ofTerm_eq_ok_iff`: which terms are parameter lists
* `Params.run_bind`: what is bound in a new frame
* `Params.reads_and_binds`: parameter lists are read and bound without loss
-/

namespace GuardedLisp

open Machine (bindParams)

/-! ## Parameter lists -/

/-- How a term lists symbols: those of a chain, and the one that may stand at its end. -/
inductive Value.Lists : Value → List Symbol → Option Symbol → Prop
  | nil : Lists .nil [] none
  | last (name : Symbol) : Lists (.symbol name) [] (some name)
  | pair {address : Address} {name : Symbol} {rest : Value} {names : List Symbol}
      {last : Option Symbol} :
      Lists rest names last → Lists (.pair address (.symbol name) rest) (name :: names) last

namespace Params

/-- A name that comes after those before it is new if no name comes twice. -/
theorem not_mem_of_nodup {fixed more : List Symbol} {name : Symbol} {last : Option Symbol}
    (distinct : (Params.mk (fixed ++ more) last).names.Nodup) (later : name ∈ more ++ last.toList) :
    name ∉ fixed := by
  rw [names, List.append_assoc] at distinct
  intro known
  exact List.disjoint_of_nodup_append distinct known later

/-- What is left of a parameter list is read if it lists symbols, each of which is new. -/
theorem ofTermAfter_eq_ok_iff {fixed : List Symbol} {term : Value} {params : Params}
    (nodup : fixed.Nodup) :
    ofTermAfter fixed term = .ok params ↔
      ∃ names, term.Lists names params.rest ∧ params.fixed = fixed ++ names ∧
        params.names.Nodup := by
  obtain ⟨all, last⟩ := params
  -- Induction on the reader; no name comes twice among those that have been read.
  fun_induction ofTermAfter fixed term with
  | case1 fixed =>
    constructor
    · intro read
      cases read
      exact ⟨[], .nil, by simp, by simpa [names] using nodup⟩
    · rintro ⟨_, ⟨⟩, rfl, -⟩
      simp
  | case2 fixed name known =>
    constructor
    · intro read
      cases read
    · rintro ⟨_, ⟨⟩, rfl, distinct⟩
      exact absurd known (not_mem_of_nodup distinct (by simp))
  | case3 fixed name new =>
    constructor
    · intro read
      cases read
      refine ⟨[], .last name, by simp, ?_⟩
      simpa [names] using (nodup.concat new)
    · rintro ⟨_, ⟨⟩, rfl, -⟩
      simp
  | case4 fixed address name more known =>
    constructor
    · intro read
      cases read
    · rintro ⟨_, ⟨⟩, rfl, distinct⟩
      exact absurd known (not_mem_of_nodup distinct (by simp))
  | case5 fixed address name more new ih =>
    rw [ih (by simpa using nodup.concat new)]
    constructor
    · rintro ⟨names, lists, rfl, distinct⟩
      exact ⟨name :: names, .pair lists, by simp, distinct⟩
    · rintro ⟨_, ⟨⟩, rfl, distinct⟩
      next names lists => exact ⟨names, lists, by simp, distinct⟩
  | case6 fixed address first more other =>
    constructor
    · intro read
      cases read
    · rintro ⟨_, ⟨⟩, -, -⟩
      exact absurd rfl (other _)
  | case7 fixed term noNil noSymbol noPair =>
    constructor
    · intro read
      cases read
    · rintro ⟨_, lists, -, -⟩
      cases lists with
      | nil => exact absurd rfl noNil
      | last name => exact absurd rfl (noSymbol name)
      | pair => exact absurd rfl (noPair _ _ _)

/-- **A term is a parameter list** if it lists symbols, no two of which are the same. -/
theorem ofTerm_eq_ok_iff {term : Value} {params : Params} :
    ofTerm term = .ok params ↔ term.Lists params.fixed params.rest ∧ params.names.Nodup := by
  rw [ofTerm, ofTermAfter_eq_ok_iff List.nodup_nil]
  constructor
  · rintro ⟨_, lists, rfl, distinct⟩
    exact ⟨lists, distinct⟩
  · rintro ⟨lists, distinct⟩
    exact ⟨_, lists, rfl, distinct⟩

end Params

/-! ## Bindings in a new frame -/

namespace SlotTable

/-- The table in which given names have given values, and which is open to all. -/
def ofBindings (bindings : List (Symbol × Value)) : SlotTable where
  entries := bindings.map fun binding => (binding.1, { value := some binding.2 })

theorem names_ofBindings (bindings : List (Symbol × Value)) :
    (ofBindings bindings).names = bindings.map Prod.fst := by
  simp [ofBindings, names, Function.comp_def]

theorem find?_ofBindings_of_not_mem {bindings : List (Symbol × Value)} {name : Symbol}
    (new : name ∉ bindings.map Prod.fst) : (ofBindings bindings).find? name = none := by
  rw [← names_ofBindings, mem_names_iff, Option.not_isSome_iff_eq_none] at new
  exact new

/-- A name that comes once has the value that is given to it. -/
theorem find?_ofBindings {bindings : List (Symbol × Value)}
    (distinct : (bindings.map Prod.fst).Nodup) {binding : Symbol × Value}
    (mem : binding ∈ bindings) :
    (ofBindings bindings).find? binding.1 = some { value := some binding.2 } := by
  induction bindings with
  | nil => cases mem
  | cons first bindings ih =>
    obtain ⟨new, distinct⟩ := List.nodup_cons.mp distinct
    simp only [find?, ofBindings, List.map_cons, List.lookup_cons] at ih ⊢
    rcases List.mem_cons.mp mem with rfl | mem
    · simp
    · have other : binding.1 ≠ first.1 := by
        rintro same
        exact new (same ▸ List.mem_map_of_mem mem)
      rw [beq_false_of_ne other]
      exact ih distinct mem

/-- A new binding comes last. -/
theorem insert_ofBindings {bindings : List (Symbol × Value)} {name : Symbol}
    (new : name ∉ bindings.map Prod.fst) (value : Value) :
    (ofBindings bindings).insert name { value := some value } =
      ofBindings (bindings ++ [(name, value)]) := by
  simp only [insert, ofBindings, mk.injEq, and_true]
  induction bindings with
  | nil => rfl
  | cons first bindings ih =>
    rw [List.map_cons, List.mem_cons, not_or] at new
    simp only [List.map_cons, List.cons_append, insertEntry, if_neg (Ne.symm new.1), ih new.2]

end SlotTable

namespace Store

theorem setFrame_setFrame (s : Store) (id : FrameId) (first second : SlotTable) :
    (s.setFrame id first).setFrame id second = s.setFrame id second := by
  simp only [setFrame, Array.setIfInBounds_setIfInBounds]

/-- Nothing changes if a frame is given the slots that it has. -/
theorem setFrame_eq_self {s : Store} {id : FrameId} {table : SlotTable}
    (has : s.frame id = table) : s.setFrame id table = s := by
  subst has
  unfold setFrame
  congr 1
  apply Array.ext_getElem?
  intro other
  rw [Array.getElem?_setIfInBounds]
  split
  · next same =>
    subst same
    split
    · next made => simp [frame, made]
    · next absent => simp [absent]
  · rfl

/-- Names that are bound in the nearest frame of a scope are seen from there. -/
theorem lookup_ofBindings {s : Store} {frame : Scope} {bindings : List (Symbol × Value)}
    (has : s.frame frame.frame = .ofBindings bindings) (distinct : (bindings.map Prod.fst).Nodup)
    {binding : Symbol × Value} (mem : binding ∈ bindings) :
    s.lookup frame binding.1 = .ok binding.2 := by
  have found := SlotTable.find?_ofBindings distinct mem
  have nearest : s.nearest? frame binding.1 = some frame.frame := by
    simp only [nearest?, Scope.chain, List.find?_cons, has, SlotTable.contains, found]
    rfl
  rw [lookup_of_nearest? nearest, has, SlotTable.get, found]
  rfl

end Store

namespace EvalM

variable {s : Store} {frame : Scope} {bindings : List (Symbol × Value)}

/-- A new name is bound after those that are bound already. -/
theorem define_ofBindings (has : s.frame frame.frame = .ofBindings bindings) {name : Symbol}
    (new : name ∉ bindings.map Prod.fst) (value : Value) :
    define frame name value s =
      .ok () (s.setFrame frame.frame (.ofBindings (bindings ++ [(name, value)]))) := by
  have absent : (SlotTable.ofBindings bindings).contains name = false := by
    rw [SlotTable.contains, SlotTable.find?_ofBindings_of_not_mem new]
    rfl
  simp only [define, edit, Store.define, has, SlotTable.defineValue_eq, absent,
    SlotTable.insert_ofBindings new]
  rfl

/-- New names are bound one after another. -/
theorem forM_define_ofBindings (made : frame.frame < s.frames.size)
    (has : s.frame frame.frame = .ofBindings bindings) {more : List (Symbol × Value)}
    (distinct : ((bindings ++ more).map Prod.fst).Nodup) :
    (more.forM fun binding => define frame binding.1 binding.2 : EvalM PUnit) s =
      .ok () (s.setFrame frame.frame (.ofBindings (bindings ++ more))) := by
  induction more generalizing s bindings with
  | nil =>
    rw [List.append_nil, Store.setFrame_eq_self has]
    rfl
  | cons binding more ih =>
    rw [List.append_cons] at distinct ⊢
    have new : binding.1 ∉ bindings.map Prod.fst := by
      rw [List.map_append, List.map_append, List.append_assoc] at distinct
      intro known
      exact List.disjoint_of_nodup_append distinct known (by simp)
    have bound := define_ofBindings has new binding.2
    refine (bind_of_ok bound _).trans ?_
    rw [ih (by simpa [Store.setFrame] using made) (Store.frame_setFrame_self made _) distinct,
      Store.setFrame_setFrame]

end EvalM

namespace Params

/-- The parameters with what they are bound to: the fixed ones to the leading values, and the other
one to a value for what is left. -/
def bindings (params : Params) (values : List Value) (surplus : Value) : List (Symbol × Value) :=
  params.fixed.zip values ++ params.rest.toList.map fun name => (name, surplus)

variable {params : Params} {values : List Value}

theorem length_le_of_admits (admitted : params.arity.admits values.length = true) :
    params.fixed.length ≤ values.length := by
  unfold arity at admitted
  split at admitted
  · exact of_decide_eq_true admitted
  · exact Nat.le_of_eq (of_decide_eq_true admitted).symm

/-- Nothing is left over if no parameter takes it. -/
theorem drop_eq_nil_of_admits (admitted : params.arity.admits values.length = true)
    (none : params.rest = none) : values.drop params.fixed.length = [] := by
  simp only [arity, none] at admitted
  exact List.drop_eq_nil_of_le (Nat.le_of_eq (of_decide_eq_true admitted))

theorem fst_bindings (enough : params.fixed.length ≤ values.length) (surplus : Value) :
    (params.bindings values surplus).map Prod.fst = params.names := by
  rw [bindings, names, List.map_append, List.map_fst_zip enough, List.map_map]
  simp [Function.comp_def]

/-- The fixed parameters take the leading values, and what is left comes after those. -/
theorem snd_zip_append_drop (enough : params.fixed.length ≤ values.length) :
    (params.fixed.zip values).map Prod.snd ++ values.drop params.fixed.length = values := by
  rw [List.zip_eq_zip_take_min, Nat.min_eq_left enough, List.take_length,
    List.map_snd_zip (List.length_take_le ..), List.take_append_drop]

/-- **Parameters are bound in a new frame**, the fixed ones to the leading values and the other one
to a new list of what is left.  Nothing else changes but the next address. -/
theorem run_bind (distinct : params.names.Nodup)
    (admitted : params.arity.admits values.length = true) {s : Store} {frame : Scope}
    (made : frame.frame < s.frames.size) (empty : s.frame frame.frame = {}) :
    ∃ surplus next, surplus.elements? = some (values.drop params.fixed.length) ∧
      params.bind values frame s =
        .ok () { s.setFrame frame.frame (.ofBindings (params.bindings values surplus)) with
          nextAddress := next } := by
  have enough := length_le_of_admits admitted
  have fixed : ((params.fixed.zip values).map Prod.fst).Nodup := by
    rw [List.map_fst_zip enough]
    exact (List.nodup_append.mp distinct).1
  have begun : s.frame frame.frame = .ofBindings [] := empty
  have bound : (((params.fixed.zip values).forM fun binding =>
      EvalM.define frame binding.1 binding.2 : EvalM PUnit) s) =
        .ok () (s.setFrame frame.frame (.ofBindings (params.fixed.zip values))) :=
    EvalM.forM_define_ofBindings made begun fixed
  cases rest : params.rest with
  | none =>
    refine ⟨.nil, s.nextAddress, ?_, ?_⟩
    · rw [drop_eq_nil_of_admits admitted rest]
      rfl
    · simp only [Params.bind, bindings, rest, Option.toList_none, List.map_nil, List.append_nil]
      exact (EvalM.bind_of_ok bound _).trans rfl
  | some name =>
    let listed := (Alloc.list (values.drop params.fixed.length)).run s.nextAddress
    refine ⟨listed.1, listed.2, Alloc.elements?_list _ _, ?_⟩
    simp only [Params.bind, bindings, rest, Option.toList_some, List.map_cons, List.map_nil]
    refine (EvalM.bind_of_ok bound _).trans ?_
    let later := { s.setFrame frame.frame (.ofBindings (params.fixed.zip values)) with
      nextAddress := listed.2 }
    have ran : EvalM.alloc (Alloc.list (values.drop params.fixed.length))
        (s.setFrame frame.frame (.ofBindings (params.fixed.zip values))) =
          .ok listed.1 later := rfl
    have has : later.frame frame.frame = .ofBindings (params.fixed.zip values) :=
      Store.frame_setFrame_self made _
    have new : name ∉ (params.fixed.zip values).map Prod.fst := by
      rw [List.map_fst_zip enough]
      rw [names, rest] at distinct
      intro known
      exact List.disjoint_of_nodup_append distinct known (List.mem_singleton_self name)
    refine (EvalM.bind_of_ok ran _).trans ((EvalM.define_ofBindings has new listed.1).trans ?_)
    have same := s.setFrame_setFrame frame.frame (.ofBindings (params.fixed.zip values))
      (.ofBindings (params.fixed.zip values ++ [(name, listed.1)]))
    exact congrArg (fun t : Store => EStateM.Result.ok () { t with nextAddress := listed.2 }) same

/-- **Parameter lists are read and bound without loss.**  A term is read if it lists symbols, no two
of which are the same, and is refused for its shape otherwise.  Parameters that have been read are
bound in any new frame if there are as many arguments as they take; otherwise the arguments are
refused for their number, and nothing is bound.  So no parameter is ever in the way of another, and
there are at least as many arguments as fixed parameters when they are bound.

Then the frame has the parameters and no other name, in their order, each open to all and seen from
the frame with its argument.  The fixed ones have the leading arguments and the other one has a list
of those that are left, which together are all arguments.  Nothing else in the store changes but the
next address. -/
theorem reads_and_binds (term : Value) :
    (∀ params, ofTerm term = .ok params ↔
      term.Lists params.fixed params.rest ∧ params.names.Nodup) ∧
    (∀ e, ofTerm term = .error e → ∃ fault, e = .form fault) ∧
    ∀ params, ofTerm term = .ok params →
      ∀ (values : List Value) (s : Store) (frame : Scope),
        frame.frame < s.frames.size → s.frame frame.frame = {} →
        (params.arity.admits values.length = false →
          (bindParams params values frame : EvalM Unit) s =
            .error (.arity params.arity values.length none) s) ∧
        (params.arity.admits values.length = true →
          params.fixed.length ≤ values.length ∧
          ∃ surplus more next s',
            (bindParams params values frame : EvalM Unit) s = .ok () s' ∧
            s' = { s.setFrame frame.frame (.ofBindings (params.bindings values surplus)) with
              nextAddress := next } ∧
            s'.frame frame.frame = .ofBindings (params.bindings values surplus) ∧
            (s'.frame frame.frame).names = params.names ∧
            (∀ binding ∈ params.bindings values surplus,
              s'.lookup frame binding.1 = .ok binding.2) ∧
            surplus.elements? = some more ∧
            (params.rest = none → more = []) ∧
            (params.fixed.zip values).map Prod.snd ++ more = values) := by
  refine ⟨fun params => ofTerm_eq_ok_iff, fun e => exists_fault_of_ofTerm, ?_⟩
  intro params read values s frame made empty
  obtain ⟨-, distinct⟩ := ofTerm_eq_ok_iff.mp read
  constructor
  · intro refused
    unfold bindParams
    simp only [Arity.check, refused]
    rfl
  · intro admitted
    have enough := length_le_of_admits admitted
    obtain ⟨surplus, next, listed, bound⟩ := run_bind distinct admitted made empty
    have table := s.frame_setFrame_self made (.ofBindings (params.bindings values surplus))
    refine ⟨enough, surplus, _, next, _, ?_, rfl, ?_, ?_, ?_, listed, ?_, ?_⟩
    · rw [bindParams_eq_bind admitted, bound]
    · exact table
    · rw [← fst_bindings enough surplus, ← SlotTable.names_ofBindings]
      exact congrArg SlotTable.names table
    · intro binding mem
      have distinct : ((params.bindings values surplus).map Prod.fst).Nodup := by
        rwa [fst_bindings enough]
      exact Store.lookup_ofBindings table distinct mem
    · exact drop_eq_nil_of_admits admitted
    · exact snd_zip_append_drop enough

/-- The parameter list `(a . all)`. -/
def dottedList : Value := .pair 0 (.symbol ⟨35, "a"⟩) (.symbol ⟨36, "all"⟩)

/-- With three arguments the second and the third are left for the last parameter, and without any
nothing is bound. -/
theorem reads_and_binds_dottedList :
    ofTerm dottedList = .ok ⟨[⟨35, "a"⟩], some ⟨36, "all"⟩⟩ ∧
      ((bindParams ⟨[⟨35, "a"⟩], some ⟨36, "all"⟩⟩ [] ⟨1, [0]⟩ : EvalM Unit)
        (Store.initial.newFrame [0]).2 =
          .error (.arity (.atLeast 1) 0 none) (Store.initial.newFrame [0]).2) ∧
      ∃ surplus s', (bindParams ⟨[⟨35, "a"⟩], some ⟨36, "all"⟩⟩ [.integer 1, .integer 2, .integer 3]
          ⟨1, [0]⟩ : EvalM Unit) (Store.initial.newFrame [0]).2 = .ok () s' ∧
        (s'.frame 1).names = [⟨35, "a"⟩, ⟨36, "all"⟩] ∧
        s'.lookup ⟨1, [0]⟩ ⟨35, "a"⟩ = .ok (.integer 1) ∧
        s'.lookup ⟨1, [0]⟩ ⟨36, "all"⟩ = .ok surplus ∧
        surplus.elements? = some [.integer 2, .integer 3] := by
  obtain ⟨-, -, binds⟩ := reads_and_binds dottedList
  have binds := binds ⟨[⟨35, "a"⟩], some ⟨36, "all"⟩⟩ rfl
  have none := (binds [] (Store.initial.newFrame [0]).2 ⟨1, [0]⟩ (by decide) rfl).1 rfl
  obtain ⟨-, surplus, more, next, s', bound, -, -, named, seen, listed, -, all⟩ :=
    (binds [.integer 1, .integer 2, .integer 3] (Store.initial.newFrame [0]).2 ⟨1, [0]⟩ (by decide)
      rfl).2 rfl
  obtain rfl : [.integer 2, .integer 3] = more := (List.cons.inj all).2.symm
  have last := seen (⟨36, "all"⟩, surplus) (by simp [bindings])
  exact ⟨rfl, none, surplus, s', bound, named, seen _ List.mem_cons_self, last, listed⟩

end Params

end GuardedLisp
