import GuardedLisp.Eval.Basic

/-!
# Renaming addresses and symbols

Addresses tell values apart that are built alike, and nothing else is ever done with them.  The
numbers of symbols tell symbols apart, and beyond that only keywords are recognised by theirs.  So a
value may be given other addresses and other numbers: if no two of them become the same and keywords
stay as they are, neither its text nor any question that evaluation asks about it tells the
difference.

## Main definitions

* `Renaming`: other addresses for values and other numbers for symbols
* `Renaming.moving`, `skipping`: a renaming of addresses only, and the one that fixes the addresses
  below a bound and no others
* `Symbol.rename`, `Params.rename`, `Value.rename`: renaming everywhere
* `Value.Within`, `Value.Below`: a value whose addresses and numbers are of a kind, or whose
  addresses are below a bound

## Main results

* `Value.same_rename`, `Value.alike_rename`: sameness and likeness survive an injective renaming
* `Value.text_rename`: so does the text, whatever the renaming is
* `Value.rename_congr`: a renaming matters only at the addresses and numbers that a value has
* `Value.within_of_rename`: a value that is left as it is has no address and no number that changes
-/

namespace GuardedLisp

/-- Other addresses for values, and other numbers for symbols. -/
structure Renaming where
  address : Address → Address
  number : Nat → Nat
  /-- No two symbols become the same. -/
  number_injective : Function.Injective number
  /-- Keywords stay as they are. -/
  number_keyword {s : Symbol} : s ∈ Symbol.keywords → number s.id = s.id

namespace Renaming

/-- Other addresses for values. -/
def moving (f : Address → Address) : Renaming where
  address := f
  number := id
  number_injective := fun _ _ => id
  number_keyword _ := rfl

instance : Coe (Address → Address) Renaming := ⟨moving⟩

/-- Everything stays as it is. -/
def nothing : Renaming := moving id

end Renaming

/-- Leaves the address `bound` unused: those from there on move up by one. -/
def skipping (bound a : Nat) : Nat := if a < bound then a else a + 1

theorem skipping_of_lt {bound a : Nat} (h : a < bound) : skipping bound a = a := if_pos h

theorem lt_of_skipping_eq {bound a : Nat} (h : skipping bound a = a) : a < bound := by
  unfold skipping at h
  split at h <;> omega

theorem injective_skipping (bound : Nat) : Function.Injective (skipping bound) := by
  intro a b h
  unfold skipping at h
  split at h <;> split at h <;> omega

/-! ## Symbols -/

variable (f : Renaming)

/-- The symbol with its number renamed. -/
def Symbol.rename (s : Symbol) : Symbol := ⟨f.number s.id, s.name⟩

@[simp] theorem Symbol.name_rename (s : Symbol) : (s.rename f).name = s.name := rfl

theorem Symbol.injective_rename : Function.Injective (Symbol.rename f) := by
  intro s t same
  obtain ⟨number, name⟩ := Symbol.mk.inj same
  exact Symbol.ext (f.number_injective number) name

@[simp] theorem Symbol.rename_inj {s t : Symbol} : s.rename f = t.rename f ↔ s = t :=
  (Symbol.injective_rename f).eq_iff

theorem Symbol.rename_keyword {s : Symbol} (keyword : s ∈ Symbol.keywords) : s.rename f = s :=
  Symbol.ext (f.number_keyword keyword) rfl

/-- A symbol is renamed to a keyword only if it is that keyword. -/
theorem Symbol.rename_eq_keyword_iff {s keyword : Symbol} (known : keyword ∈ Symbol.keywords) :
    s.rename f = keyword ↔ s = keyword := by
  constructor
  · exact fun same => Symbol.injective_rename f (same.trans (Symbol.rename_keyword f known).symm)
  · rintro rfl
    exact Symbol.rename_keyword f known

/-- Parameters with their symbols renamed. -/
def Params.rename (params : Params) : Params :=
  ⟨params.fixed.map (Symbol.rename f), params.rest.map (Symbol.rename f)⟩

/-- All numbers of symbols among parameters are of a kind. -/
structure Params.Within (q : Nat → Prop) (params : Params) : Prop where
  fixed : ∀ name ∈ params.fixed, q name.id
  rest : ∀ name ∈ params.rest, q name.id

namespace Value

/-- A value with its addresses and symbols renamed. -/
def rename : Value → Value
  | symbol name => .symbol (name.rename f)
  | string address text => .string (f.address address) text
  | pair address first rest => .pair (f.address address) first.rename rest.rename
  | closure address kind params body scope =>
    .closure (f.address address) kind (params.rename f) body.rename scope
  | v => v

/-- All addresses of a value are of one kind, and the numbers of its symbols are of another. -/
def Within (p : Address → Prop) (q : Nat → Prop) : Value → Prop
  | symbol name => q name.id
  | string address _ => p address
  | pair address first rest => p address ∧ first.Within p q ∧ rest.Within p q
  | closure address _ params body _ => p address ∧ params.Within q ∧ body.Within p q
  | _ => True

/-- All addresses of a value are below a bound. -/
abbrev Below (bound : Address) (v : Value) : Prop := v.Within (· < bound) fun _ => True

end Value

section Congr

variable {f} {g : Renaming} {p p' : Address → Prop} {q q' : Nat → Prop} {bound : Address}

theorem Symbol.rename_congr {s : Symbol} (agree : f.number s.id = g.number s.id) :
    s.rename f = s.rename g := Symbol.ext agree rfl

theorem Params.rename_congr (agree : ∀ n, q n → f.number n = g.number n) {params : Params}
    (within : params.Within q) : params.rename f = params.rename g := by
  rw [rename, rename, mk.injEq]
  constructor
  · exact List.map_congr_left fun name mem => Symbol.rename_congr (agree _ (within.fixed name mem))
  · exact Option.map_congr fun name mem => Symbol.rename_congr (agree _ (within.rest name mem))

theorem Params.rename_nothing (params : Params) : params.rename .nothing = params := by
  have same : Symbol.rename .nothing = id := rfl
  rw [rename, same, List.map_id, Option.map_id, id_eq]

theorem Params.within_of_rename {params : Params} (same : params.rename f = params) :
    params.Within fun n => f.number n = n := by
  obtain ⟨fixed, rest⟩ := params
  obtain ⟨sameFixed, sameRest⟩ := (Params.mk.injEq ..).mp same
  constructor
  · intro name mem
    have same : fixed.map (Symbol.rename f) = fixed.map id := sameFixed.trans (List.map_id _).symm
    exact congrArg Symbol.id (List.map_inj_left.mp same name mem)
  · rintro name rfl
    exact congrArg Symbol.id (Option.some.inj sameRest)

namespace Value

/-- Renamings that agree on the addresses and numbers of a value rename it alike. -/
theorem rename_congr (addresses : ∀ a, p a → f.address a = g.address a)
    (numbers : ∀ n, q n → f.number n = g.number n) {v : Value} (within : v.Within p q) :
    v.rename f = v.rename g := by
  induction v with
  | symbol name => simp only [rename, Symbol.rename_congr (numbers _ within)]
  | string address text => simp only [rename, addresses address within]
  | pair address first rest ihFirst ihRest =>
    obtain ⟨here, inFirst, inRest⟩ := within
    simp only [rename, addresses address here, ihFirst inFirst, ihRest inRest]
  | closure address kind params body scope ih =>
    obtain ⟨here, inParams, inBody⟩ := within
    simp only [rename, addresses address here, Params.rename_congr numbers inParams, ih inBody]
  | _ => rfl

theorem rename_nothing (v : Value) : v.rename .nothing = v := by
  induction v with
  | pair address first rest ihFirst ihRest =>
    rw [rename, ihFirst, ihRest]
    rfl
  | closure address kind params body scope ih =>
    rw [rename, ih, Params.rename_nothing]
    rfl
  | _ => rfl

/-- What stays as it is where a value is of that kind leaves the value as it is. -/
theorem rename_eq_self (addresses : ∀ a, p a → f.address a = a)
    (numbers : ∀ n, q n → f.number n = n) {v : Value} (within : v.Within p q) :
    v.rename f = v :=
  (rename_congr addresses numbers within).trans (rename_nothing v)

/-- **A value that is left as it is has no address and no number that changes.** -/
theorem within_of_rename {v : Value} (same : v.rename f = v) :
    v.Within (fun a => f.address a = a) fun n => f.number n = n := by
  induction v with
  | symbol name => exact congrArg Symbol.id (symbol.inj same)
  | string address text => exact (string.inj same).1
  | pair address first rest ihFirst ihRest =>
    simp only [rename, pair.injEq] at same
    exact ⟨same.1, ihFirst same.2.1, ihRest same.2.2⟩
  | closure address kind params body scope ih =>
    simp only [rename, closure.injEq, true_and, and_true] at same
    exact ⟨same.1, Params.within_of_rename same.2.1, ih same.2.2⟩
  | _ => trivial

theorem within_mono (addresses : ∀ a, p a → p' a) (numbers : ∀ n, q n → q' n) {v : Value}
    (within : v.Within p q) : v.Within p' q' := by
  induction v with
  | symbol name => exact numbers _ within
  | string address text => exact addresses _ within
  | pair address first rest ihFirst ihRest =>
    exact ⟨addresses _ within.1, ihFirst within.2.1, ihRest within.2.2⟩
  | closure address kind params body scope ih =>
    obtain ⟨here, inParams, inBody⟩ := within
    exact ⟨addresses _ here, ⟨fun name mem => numbers _ (inParams.fixed name mem),
      fun name mem => numbers _ (inParams.rest name mem)⟩, ih inBody⟩
  | _ => trivial

/-- Symbols have no part in the bound on a closure. -/
theorem below_closure {address : Address} {kind : ClosureKind} {params : Params} {body : Value}
    {home : Scope} : (closure address kind params body home).Below bound ↔
      address < bound ∧ body.Below bound :=
  and_congr_right fun _ => and_iff_right ⟨fun _ _ => trivial, fun _ _ => trivial⟩

theorem below_mono {bound' : Address} (le : bound ≤ bound') {v : Value} (below : v.Below bound) :
    v.Below bound' :=
  within_mono (fun _ here => Nat.lt_of_lt_of_le here le) (fun _ known => known) below

theorem moving_congr {f g : Address → Address} (agree : ∀ a < bound, f a = g a) {v : Value}
    (below : v.Below bound) : v.rename f = v.rename g :=
  rename_congr (f := f) (g := g) agree (fun _ _ => rfl) below

theorem moving_eq_self {f : Address → Address} (fixed : ∀ a < bound, f a = a) {v : Value}
    (below : v.Below bound) : v.rename f = v :=
  rename_eq_self (f := f) fixed (fun _ _ => rfl) below

/-- A value that has no address that `skipping` moves is below its bound. -/
theorem below_of_rename_skipping {v : Value} (same : v.rename (skipping bound) = v) :
    v.Below bound :=
  within_mono (fun _ => lt_of_skipping_eq) (fun _ _ => trivial) (within_of_rename same)

end Value

end Congr

namespace Value

/-! ## What a value shows of itself -/

variable (v : Value)

@[simp] theorem kind_rename : (v.rename f).kind = v.kind := by
  cases v with
  | closure address kind params body scope => cases kind <;> rfl
  | _ => rfl

@[simp] theorem symbol?_rename : (v.rename f).symbol? = v.symbol?.map (Symbol.rename f) := by
  cases v <;> rfl

@[simp] theorem toInteger_rename : (v.rename f).toInteger = v.toInteger := by
  cases v with
  | closure address kind params body scope => cases kind <;> rfl
  | _ => rfl

theorem writeAfter_rename (written : String) (asTail : Bool) :
    (v.rename f).writeAfter written asTail = v.writeAfter written asTail := by
  induction v generalizing written asTail with
  | pair address first rest ihFirst ihRest =>
    simp only [rename, writeAfter, ihFirst, ihRest]
  | closure address kind params body scope => cases kind <;> rfl
  | _ => rfl

@[simp] theorem text_rename : (v.rename f).text = v.text := writeAfter_rename f v "" false

@[simp] theorem displayed_rename : (v.rename f).displayed = v.displayed := by
  cases v with
  | string address text => rfl
  | _ => exact text_rename f _

theorem elements?_rename :
    (v.rename f).elements? = v.elements?.map (List.map (rename f)) := by
  induction v with
  | pair address first rest _ ih =>
    simp only [rename, elements?_pair, ih, Option.map_map]
    rfl
  | _ => rfl

@[simp] theorem elements_rename :
    (v.rename f).elements = v.elements.map (List.map (rename f)) := by
  unfold elements
  rw [elements?_rename, text_rename]
  cases v.elements? <;> rfl

theorem isCalledWith_rename (args : List Value) :
    (v.rename f).isCalledWith (args.map (rename f)) = v.isCalledWith args := by
  cases v with
  | classObject id => cases args <;> rfl
  | _ => rfl

/-! ## Two values side by side -/

variable {f} (injective : Function.Injective f.address) (w : Value)

include injective

theorem same_rename : (v.rename f).same (w.rename f) = v.same w := by
  cases v <;> cases w <;> simp [rename, same, injective.eq_iff]

theorem alike_rename : (v.rename f).alike (w.rename f) = v.alike w := by
  induction v generalizing w with
  | pair address first rest ihFirst ihRest =>
    cases w with
    | pair other second tail =>
      simp only [rename, alike, injective.eq_iff, ihFirst, ihRest]
    | _ => rfl
  | string address text => cases w <;> rfl
  | _ => cases w <;> simp [rename, alike, same, injective.eq_iff]

end Value

/-! ## Readings of terms -/

@[simp] theorem LiteralRole.read_rename (role : LiteralRole) (term : Value) :
    role.read (term.rename f) = (role.read term).map (Symbol.rename f) := by
  simp only [LiteralRole.read, Value.symbol?_rename, Value.text_rename]
  cases term.symbol? <;> rfl

@[simp] theorem Datatype.ofTerm_rename (term : Value) :
    Datatype.ofTerm (term.rename f) = Datatype.ofTerm term := by
  simp only [Datatype.ofTerm, LiteralRole.read_rename]
  cases LiteralRole.read .datatype term <;> rfl

@[simp] theorem PermissionFlag.ofTerm_rename (term : Value) :
    PermissionFlag.ofTerm (term.rename f) = PermissionFlag.ofTerm term := by
  simp only [PermissionFlag.ofTerm, LiteralRole.read_rename]
  cases LiteralRole.read .permissionFlag term <;> rfl

@[simp] theorem TemplateMark.ofHead?_rename (head : Value) :
    TemplateMark.ofHead? (head.rename f) = TemplateMark.ofHead? head := by
  cases head with
  | symbol name =>
    have unquote : name.rename f = .unquote ↔ name = .unquote :=
      Symbol.rename_eq_keyword_iff f (by decide)
    have quasiquote : name.rename f = .quasiquote ↔ name = .quasiquote :=
      Symbol.rename_eq_keyword_iff f (by decide)
    have splicing : name.rename f = .unquoteSplicing ↔ name = .unquoteSplicing :=
      Symbol.rename_eq_keyword_iff f (by decide)
    simp only [Value.rename, ofHead?, unquote, quasiquote, splicing]
  | _ => rfl

theorem Params.ofTermAfter_rename (fixed : List Symbol) (term : Value) :
    Params.ofTermAfter (fixed.map (Symbol.rename f)) (term.rename f) =
      (Params.ofTermAfter fixed term).map (Params.rename f) := by
  have known (fixed : List Symbol) (name : Symbol) :
      name.rename f ∈ fixed.map (Symbol.rename f) ↔ name ∈ fixed := by
    simp
  induction term generalizing fixed with
  | pair address first rest _ ih =>
    cases first with
    | symbol name =>
      have more := ih (fixed ++ [name])
      rw [List.map_append] at more
      simp only [Value.rename, Params.ofTermAfter, known, Symbol.name_rename]
      split
      · rfl
      · exact more
    | _ =>
      exact congrArg (fun shown => Except.error (Error.form (.parameter shown)))
        (Value.text_rename f _)
  | symbol name =>
    simp only [Value.rename, Params.ofTermAfter, known, Symbol.name_rename]
    split <;> rfl
  | closure address kind params body scope =>
    exact congrArg (fun shown => Except.error (Error.form (.parameterList shown)))
      (Value.text_rename f (.closure address kind params body scope))
  | _ => rfl

@[simp] theorem Params.ofTerm_rename (term : Value) :
    Params.ofTerm (term.rename f) = (Params.ofTerm term).map (Params.rename f) :=
  Params.ofTermAfter_rename f [] term

@[simp] theorem Params.arity_rename (params : Params) : (params.rename f).arity = params.arity := by
  obtain ⟨fixed, rest⟩ := params
  cases rest <;> simp [arity, rename]

theorem PairPart.of_rename (part : PairPart) (v : Value) :
    part.of (v.rename f) = (part.of v).map (Value.rename f) := by
  cases v with
  | pair address first rest => cases part <;> rfl
  | closure address kind params body scope => cases kind <;> rfl
  | _ => rfl

end GuardedLisp
