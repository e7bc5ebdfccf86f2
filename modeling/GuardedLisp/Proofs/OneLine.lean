import GuardedLisp.Proofs.Reader.Printing
import GuardedLisp.Proofs.Reachable

/-!
# Texts on one line

A symbol that the reader makes has no line break in its text, and strings are shown with escapes.
So the text of a value is on one line if all symbols in it are such symbols, and so are the wordings
of type errors that show it.

## Main definitions

* `OneLine`: a text without a line break
* `Vocabulary.named`: the condition that symbols are as the reader makes them

## Main results

* `Value.oneLine_text`: the text of a value is on one line
* `Interpreter.named_serveAll`: symbols are so in the store of every interpreter
-/

namespace GuardedLisp

/-! ## Texts -/

/-- A text without a line break. -/
def OneLine (text : String) : Prop := '\n' ∉ text.toList

instance (text : String) : Decidable (OneLine text) := inferInstanceAs (Decidable (_ ∉ _))

theorem OneLine.append {first second : String} (here : OneLine first) (there : OneLine second) :
    OneLine (first ++ second) := by
  rw [OneLine, String.toList_append, List.mem_append]
  exact not_or.mpr ⟨here, there⟩

theorem oneLine_toString (n : Int) : OneLine (toString n) := by
  have apart {digits : List Char} (decimal : ∀ c ∈ digits, c.isDigit = true) : '\n' ∉ digits :=
    fun mem => absurd (decimal _ mem) (by decide)
  have numeral := numeral_toString n
  unfold OneLine
  generalize (toString n).toList = chars at numeral
  cases numeral with
  | unsigned _ decimal => exact apart decimal
  | plus _ decimal => exact List.not_mem_cons_of_ne_of_not_mem (by decide) (apart decimal)
  | minus _ decimal => exact List.not_mem_cons_of_ne_of_not_mem (by decide) (apart decimal)

theorem IsName.oneLine {name : String} (named : IsName name) : OneLine name :=
  fun mem => absurd (named.chars _ mem) (by decide)

/-- A line break in a string is shown by its escape. -/
theorem Quoted.not_mem_escape (c : Char) : '\n' ∉ escape c := by
  unfold escape
  split_ifs with quote backslash feed
  case neg => simpa using fun same => feed same.symm
  all_goals decide

theorem Quoted.oneLine_text (s : String) : OneLine (Quoted.text s) := by
  have escaped : OneLine (String.ofList (s.toList.flatMap escape)) := by
    rw [OneLine, String.toList_ofList, List.mem_flatMap]
    rintro ⟨c, -, mem⟩
    exact not_mem_escape c mem
  exact (OneLine.append (by decide) escaped).append (by decide)

theorem Builtin.oneLine_name (op : Builtin) : OneLine op.name := by
  cases op with
  | form form => cases form <;> decide
  | primitive op =>
    cases op with
    | part which => cases which <;> decide
    | arithmetic operation => cases operation <;> decide
    | comparison comparison => cases comparison <;> decide
    | _ => decide

theorem Kind.oneLine_name (kind : Kind) : OneLine kind.name := by cases kind <;> decide

/-! ## Values -/

/-- The condition that symbols are as the reader makes them. -/
def Vocabulary.named : Vocabulary where
  allows _ v := ∀ name, v = .symbol name → IsName name.name
  nil _ := nofun
  bool _ _ := nofun
  integer _ _ := nofun
  begin _ := by
    rintro _ ⟨⟩
    decide
  lambda _ := by
    rintro _ ⟨⟩
    decide
  classObject _ := nofun
  extend _ named := named

namespace Value

variable {s : Store} {v : Value}

theorem oneLine_atomText (named : Vocabulary.named.Covers s v) : OneLine v.atomText := by
  cases v with
  | symbol name => exact (named name rfl).oneLine
  | integer n => exact oneLine_toString n.toInt
  | string address text => exact Quoted.oneLine_text text
  | bool b => cases b <;> decide
  | closure address kind params body home =>
    cases kind with
    | function => exact (by decide : OneLine "#<lambda>")
    | transformer => exact (by decide : OneLine "#<macro>")
  | builtin op => exact (OneLine.append (by decide) op.oneLine_name).append (by decide)
  | classObject id => exact (OneLine.append (by decide) (oneLine_toString id)).append (by decide)
  | nil => decide
  | pair address first rest => exact (by decide : OneLine "()")

theorem oneLine_write (asTail : Bool) (named : Vocabulary.named.Covers s v) :
    OneLine (v.write asTail) := by
  induction v generalizing asTail with
  | pair address first rest ihFirst ihRest =>
    rw [write_pair]
    have opening : OneLine (if asTail then " " else "(") := by cases asTail <;> decide
    exact (opening.append (ihFirst false named.1)).append (ihRest true named.2)
  | nil => cases asTail <;> decide
  | _ =>
    have atom := oneLine_atomText named
    cases asTail with
    | false => exact OneLine.append (by decide) atom
    | true => exact (OneLine.append (by decide : OneLine ("" ++ " . ")) atom).append (by decide)

theorem oneLine_text (named : Vocabulary.named.Covers s v) : OneLine v.text :=
  oneLine_write false named

end Value

/-- The wording of a type error is on one line, since so is what it shows. -/
theorem TypeFault.oneLine_message {s : Store} {fault : TypeFault}
    (fresh : (Error.type fault none).Fresh (Vocabulary.named.Covers s)) :
    OneLine fault.message := by
  cases fault with
  | mismatch expected got =>
    refine OneLine.append (.append (.append (by decide) expected.oneLine_name) (by decide)) ?_
    exact got.oneLine_name
  | pairRequired part got =>
    have name : OneLine part.name := by cases part <;> decide
    exact (name.append (by decide)).append got.oneLine_name
  | declared slot datatype got =>
    obtain ⟨name, named, rfl⟩ := fresh
    have name : OneLine name.name := (named name rfl).oneLine
    refine OneLine.append (.append (.append (name.append (by decide)) ?_) (by decide)) ?_
    · exact datatype.kind.oneLine_name
    · exact got.oneLine_name
  | selector got => exact OneLine.append (by decide) got.oneLine_name
  | classRequired shown got =>
    obtain ⟨v, named, rfl⟩ := fresh
    refine OneLine.append (.append (.append (.append (by decide) ?_) (by decide)) ?_) (by decide)
    · exact v.oneLine_text named
    · exact got.oneLine_name

/-! ## What is read -/

/-- A value is made of the symbols of what has been read. -/
theorem Alloc.named_ofDatum (s : Store) {datum : Datum} (named : datum.Named) (next : Address) :
    Vocabulary.named.Covers s ((ofDatum datum).run next).1 := by
  induction datum generalizing next with
  | pair first rest ihFirst ihRest =>
    exact ⟨ihFirst named.of_pair.1 next, ihRest named.of_pair.2 _⟩
  | symbol name =>
    rintro _ ⟨⟩
    exact named name (List.mem_singleton_self _)
  | _ => nofun

theorem Store.named_initial : Vocabulary.named.Holds initial := by
  have holds : initial.Holds (Vocabulary.named.Covers initial) :=
    holds_initial (fun _ => nofun) nofun (fun _ => nofun) nofun
  exact ⟨holds.frames, holds.classes⟩

/-- What the reader makes has symbols as the reader makes them. -/
theorem Reader.named_of_read {goal : Goal} {source : String} {table known : SymbolTable}
    {forms : List Datum} (h : read goal source table = (.ok forms, known)) :
    ∀ datum ∈ forms, datum.Named := by
  obtain ⟨tokens, splits, derived, -⟩ := read_eq_ok_iff.mp h
  exact fun datum mem => (fits_of_expressions derived splits.lexeme datum mem).named

/-- That all symbols are as the reader makes them, in the store and in the later forms. -/
def Upkeep.named : Upkeep where
  Knows s forms := Vocabulary.named.Holds s ∧ ∀ form ∈ forms, Vocabulary.named.Covers s form
  forget knows := ⟨knows.1, List.forall_mem_nil _⟩
  eval {s _ _} ctx knows := by
    obtain ⟨holds, covered⟩ := knows
    rw [List.forall_mem_cons] at covered
    have run := (Vocabulary.keeps_eval ctx globalScope covered.1 s (.refl s) holds).1
    have extended := Vocabulary.extends_of_runs run
    exact ⟨Vocabulary.holds_of_runs holds run,
      fun form mem => (covered.2 form mem).extend extended⟩
  read {s _ _ _ _} read knows :=
    ⟨⟨knows.1.frames, knows.1.classes⟩, Alloc.forall_mem_ofData s.nextAddress
      fun datum mem => Alloc.named_ofDatum _ (Reader.named_of_read read datum mem)⟩

/-- **Whatever texts a fresh interpreter takes**, all symbols in its store are as the reader makes
them. -/
theorem Interpreter.named_serveAll (limit : Nat) (script : List (Driver × String)) :
    Vocabulary.named.Holds ((fresh limit).serveAll script).2.store :=
  (Upkeep.named.knows_serveAll ⟨Store.named_initial, List.forall_mem_nil _⟩ script).1

end GuardedLisp
