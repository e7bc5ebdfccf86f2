import GuardedLisp.Proofs.Reader.Grammar

/-!
# The stack of open expressions

Between two tokens the reader keeps the forms that it has finished, the expressions that are still
open, and the symbols that it has met.  What a token does to it depends on nothing else.

## Main definitions

* `Reader.atom?`: the datum that an atom denotes
* `Reader.Stack`, `Reader.Stack.take`, `Reader.Stack.takeAll`: the stack, and what tokens do to it

## Main results

* `Reader.unescape?_eq_some_iff`, `Reader.integer?_eq_some_iff`, `Reader.atom?_eq_some_iff`: the
  reader knows the escapes, the integers and the atoms of the grammar
-/

namespace GuardedLisp

namespace Reader

/-! ## Escapes and atoms -/

theorem unescape?_eq_some_iff {c d : Char} : unescape? c = some d ↔ (c, d) ∈ escapes := by
  unfold unescape?
  simp only [escapes, List.mem_cons, Prod.mk.injEq, List.not_mem_nil, or_false]
  grind

theorem decimal?_eq_some_iff {digits : List Char} {n : Nat} :
    Atom.decimal? digits = some n ↔
      digits ≠ [] ∧ (∀ c ∈ digits, c.isDigit = true) ∧ Nat.ofDigitChars 10 digits 0 = n := by
  simp only [Atom.decimal?, Nat.ofDigitChars_eq_foldl, List.all_eq_true,
    Option.ite_none_right_eq_some, Option.some.injEq, and_assoc]
  rfl

/-- The reader takes an atom for an integer if it is written as one. -/
theorem integer?_eq_some_iff {chars : List Char} {n : Int} :
    Atom.integer? chars = some n ↔ Numeral chars n := by
  unfold Atom.integer?
  constructor
  · intro h
    split at h
    all_goals
      simp only [Option.map_eq_some_iff, Option.bind_eq_bind, Option.bind_eq_some_iff,
        Option.pure_def, Option.some.injEq] at h
      obtain ⟨_, ⟨value, digits, rfl⟩, rfl⟩ := h
      obtain ⟨some, all, rfl⟩ := decimal?_eq_some_iff.mp digits
    · exact .minus some all
    · exact .plus some all
    · exact .unsigned some all
  · intro h
    cases h with
    | plus some all | minus some all => simp [decimal?_eq_some_iff.mpr ⟨some, all, rfl⟩]
    | unsigned some all =>
      split
      · exact absurd (all '-' (by simp)) (by decide)
      · exact absurd (all '+' (by simp)) (by decide)
      · simp [decimal?_eq_some_iff.mpr ⟨some, all, rfl⟩]

theorem integer?_eq_none_iff {chars : List Char} :
    Atom.integer? chars = none ↔ ∀ n, ¬ Numeral chars n := by
  simp only [Option.eq_none_iff_forall_ne_some, ne_eq, integer?_eq_some_iff]

theorem word?_eq_some_iff {n : Int} {word : Int64} : word? n = some word ↔ word.toInt = n := by
  have low : Int64.minValue.toInt = -2 ^ 63 := by decide
  have high : Int64.maxValue.toInt = 2 ^ 63 - 1 := by decide
  simp only [word?, Option.ite_none_right_eq_some, Option.some.injEq]
  constructor
  · rintro ⟨range, rfl⟩
    exact Int64.toInt_ofInt_of_le (by omega) (by omega)
  · rintro rfl
    have := word.le_toInt
    have := word.toInt_lt
    exact ⟨by omega, Int64.ofInt_toInt word⟩

/-- What symbols are taken from once there is one for each of some texts. -/
def Interns.internAll {τ : Type} [Interns τ] (symbols : τ) (names : List String) : τ :=
  names.foldl (fun symbols name => (intern symbols name).2) symbols

theorem Interns.internAll_append {τ : Type} [Interns τ] (symbols : τ) (first second : List String) :
    internAll symbols (first ++ second) = internAll (internAll symbols first) second := by
  simp [internAll, List.foldl_append]

@[simp] theorem internAll_symbolTable {ι : Type} [Interner ι] (table : SymbolTable ι)
    (names : List String) : Interns.internAll table names = table.insertAll names := rfl

/-- The datum that an atom denotes, if it denotes one. -/
def atom? {τ : Type} [Interns τ] (symbols : τ) (chars : List Char) : Option Datum :=
  match Atom.integer? chars with
  | some n => (word? n).map Datum.integer
  | none => some (.symbol (Interns.intern symbols (String.ofList chars)).1)

/-- An atom denotes what it is read as, given the table once it has been read. -/
theorem atom?_eq_some_iff {ι : Type} [Interner ι] {table known : SymbolTable ι}
    {chars : List Char} {datum : Datum}
    (later : (table.insertAll (Token.atom chars).names).symbols <+: known.symbols) :
    atom? table chars = some datum ↔ AtomDenotes known chars datum := by
  have symbol (other : Atom.integer? chars = none) :
      known.get? (String.ofList chars) = some (table.intern (String.ofList chars)).1 := by
    simp only [Token.names, other] at later
    exact SymbolTable.get?_of_prefix later (table.get?_insert_self _)
  unfold atom?
  constructor
  · intro h
    split at h
    · next n numeral =>
      obtain ⟨word, same, rfl⟩ := Option.map_eq_some_iff.mp h
      rw [← word?_eq_some_iff.mp same] at numeral
      exact .integer (integer?_eq_some_iff.mp numeral)
    · next other =>
      obtain rfl := Option.some.inj h
      exact .symbol (integer?_eq_none_iff.mp other) (symbol other)
  · intro h
    cases h with
    | integer numeral =>
      simp [integer?_eq_some_iff.mpr numeral, word?_eq_some_iff.mpr rfl]
    | symbol other denoted =>
      have none := integer?_eq_none_iff.mpr other
      have here := denoted.symm.trans (symbol none)
      simp only [none, Option.some.inj here]
      rfl

/-! ## The stack -/

/-- Whether only the bracket of an open expression is missing. -/
def Open.isClosing : Open → Bool
  | .closing _ _ => true
  | .list _ | .dotted _ | .marked _ => false

/-- Whether there is room for an expression inside those that are open. -/
def hasRoom (pending : List Open) : Bool :=
  !(pending.head?.any Open.isClosing) && pending.length < maxDepth

/-- What the reader keeps between two tokens. -/
structure Stack (τ : Type := SymbolTable) [Interns τ] where
  goal : Goal
  symbols : τ
  /-- The finished forms, latest first. -/
  forms : List Datum
  /-- The open expressions, innermost first. -/
  pending : List Open

namespace Stack

variable {τ : Type} [Interns τ]

/-- The stack after a finished datum. -/
def supply (st : Stack τ) (datum : Datum) : Stack τ :=
  { st with
    forms := (place st.pending datum).2.toList ++ st.forms
    pending := (place st.pending datum).1 }

/-- Whether the only form that was asked for has been found. -/
def isSated (st : Stack τ) : Bool :=
  st.goal = .one && st.pending.isEmpty && !st.forms.isEmpty

/-- Whether an expression may start. -/
def isReady (st : Stack τ) : Bool := !st.isSated && hasRoom st.pending

/-- What comes of an expression, if one may start. -/
def starting (st : Stack τ) (next : Option (Stack τ)) : Option (Stack τ) :=
  if st.isReady then next else none

/-- What a token does to the stack, if it may stand where it does. -/
def take (st : Stack τ) : Token → Option (Stack τ)
  | .opening => st.starting (some { st with pending := .list [] :: st.pending })
  | .closing =>
    match st.pending with
    | .list items :: outer =>
      some (supply { st with pending := outer } (Datum.chain items.reverse .nil))
    | .closing items tail :: outer =>
      some (supply { st with pending := outer } (Datum.chain items.reverse tail))
    | _ => none
  | .dot =>
    match st.pending with
    | .list (item :: items) :: outer =>
      some { st with pending := .dotted (item :: items) :: outer }
    | _ => none
  | .mark keyword => st.starting <|
    if st.pending.length + 1 < maxDepth then
      some { st with pending := .marked keyword :: st.pending }
    else none
  | .string text => st.starting (some (st.supply (.string text)))
  | .atom chars => st.starting <|
    (atom? st.symbols chars).map
      (supply { st with symbols := Interns.internAll st.symbols (Token.atom chars).names })

/-- What tokens do to the stack, one after another. -/
def takeAll (st : Stack τ) : List Token → Option (Stack τ)
  | [] => some st
  | token :: tokens => (st.take token).bind fun st => st.takeAll tokens

@[simp] theorem takeAll_nil (st : Stack τ) : st.takeAll [] = some st := rfl

theorem takeAll_cons (st : Stack τ) (token : Token) (tokens : List Token) :
    st.takeAll (token :: tokens) = (st.take token).bind fun st => st.takeAll tokens := rfl

theorem takeAll_append (st : Stack τ) (first second : List Token) :
    st.takeAll (first ++ second) = (st.takeAll first).bind fun st => st.takeAll second := by
  induction first generalizing st with
  | nil => rfl
  | cons token first ih =>
    simp only [List.cons_append, takeAll_cons, Option.bind_assoc, ih]

/-- Whether the text may end. -/
def isComplete (st : Stack τ) : Bool :=
  st.pending.isEmpty && (st.goal = .all || !st.forms.isEmpty)

end Stack

/-- The stack before the first token. -/
def Stack.initial {τ : Type} [Interns τ] (goal : Goal) (symbols : τ) : Stack τ :=
  ⟨goal, symbols, [], []⟩

end Reader

end GuardedLisp
