import GuardedLisp.Reader

/-!
# The grammar of texts

What a text denotes, said without a machine.  A text splits into tokens with blanks and comments
between them, and the tokens derive a sequence of expressions, each of which denotes a datum.

## Main definitions

* `Reader.Token`, `Reader.Lexeme`: the tokens, and how each of them is written
* `Reader.Splits`: how a text splits into tokens
* `Reader.Numeral`, `Reader.AtomDenotes`: which atoms are integers, and what atoms denote
* `Reader.Expression`, `Reader.Expressions`: what tokens derive at a given depth, and what that
  denotes
-/

namespace GuardedLisp

namespace Reader

/-! ## Tokens -/

/-- What a text is made of, blanks and comments aside. -/
inductive Token where
  | opening
  | closing
  | dot
  /-- A quotation mark, by the symbol that heads what it stands for. -/
  | mark (keyword : Symbol)
  | string (text : String)
  | atom (chars : List Char)
deriving DecidableEq, Repr

/-- The characters that a backslash may stand before, and what each of them then denotes. -/
def escapes : List (Char × Char) :=
  [('n', '\n'), ('t', '\t'), ('r', '\r'), ('\\', '\\'), ('"', '"')]

/-- What may stand between the quotes of a string, and the text that it denotes. -/
inductive Spelled : List Char → List Char → Prop
  | nil : Spelled [] []
  | plain {c : Char} {raw text : List Char} :
      c ≠ '"' → c ≠ '\\' → Spelled raw text → Spelled (c :: raw) (c :: text)
  | escape {c d : Char} {raw text : List Char} :
      (c, d) ∈ escapes → Spelled raw text → Spelled ('\\' :: c :: raw) (d :: text)

/-- How a token is written. -/
inductive Lexeme : List Char → Token → Prop
  | opening : Lexeme ['('] .opening
  | closing : Lexeme [')'] .closing
  | dot : Lexeme ['.'] .dot
  | quote : Lexeme ['\x27'] (.mark .quote)
  | quasiquote : Lexeme ['\x60'] (.mark .quasiquote)
  | unquote : Lexeme [','] (.mark .unquote)
  | unquoteSplicing : Lexeme [',', '@'] (.mark .unquoteSplicing)
  | string {raw text : List Char} :
      Spelled raw text → Lexeme ('"' :: (raw ++ ['"'])) (.string (String.ofList text))
  | atom {chars : List Char} :
      chars ≠ [] → (∀ c ∈ chars, Atom.isAtomChar c = true) → Lexeme chars (.atom chars)

/-- Whether a token may end before `rest`: an atom takes all atom characters that there are. -/
def Token.EndsBefore (rest : List Char) : Token → Prop
  | .atom _ => ∀ c ∈ rest.head?, Atom.isAtomChar c = false
  | _ => True

/-- Whether a comment may end before `rest`: at a line end, or where the text ends. -/
def EndsLine (rest : List Char) : Prop :=
  rest = [] ∨ ['\n'] <+: rest ∨ ['\r', '\n'] <+: rest

/-- How a text splits into tokens. -/
inductive Splits : List Char → List Token → Prop
  | nil : Splits [] []
  | blank {c : Char} {rest : List Char} {tokens : List Token} :
      isBlank c = true → Splits rest tokens → Splits (c :: rest) tokens
  | comment {body rest : List Char} {tokens : List Token} :
      '\n' ∉ body → '\r' ∉ body → EndsLine rest → Splits rest tokens →
      Splits (';' :: (body ++ rest)) tokens
  | token {lexeme rest : List Char} {token : Token} {tokens : List Token} :
      Lexeme lexeme token → token.EndsBefore rest → Splits rest tokens →
      Splits (lexeme ++ rest) (token :: tokens)

/-! ## Atoms -/

/-- The number that an atom denotes if it is written as one: an optional sign, then digits. -/
inductive Numeral : List Char → Int → Prop
  | unsigned {digits : List Char} : digits ≠ [] → (∀ c ∈ digits, c.isDigit = true) →
      Numeral digits (Nat.ofDigitChars 10 digits 0)
  | plus {digits : List Char} : digits ≠ [] → (∀ c ∈ digits, c.isDigit = true) →
      Numeral ('+' :: digits) (Nat.ofDigitChars 10 digits 0)
  | minus {digits : List Char} : digits ≠ [] → (∀ c ∈ digits, c.isDigit = true) →
      Numeral ('-' :: digits) (-(Nat.ofDigitChars 10 digits 0 : Int))

variable {ι : Type} [Interner ι]

/-- What an atom denotes, given a table with the symbols of the text.  An atom that is written as a
number denotes nothing if that is no 64-bit integer. -/
inductive AtomDenotes (known : SymbolTable ι) (chars : List Char) : Datum → Prop
  | integer {value : Int64} :
      Numeral chars value.toInt → AtomDenotes known chars (.integer value)
  | symbol {s : Symbol} : (∀ n, ¬ Numeral chars n) → known.get? (String.ofList chars) = some s →
      AtomDenotes known chars (.symbol s)

/-- An atom denotes the same if more symbols are known. -/
theorem AtomDenotes.mono {known later : SymbolTable ι} (within : known.symbols <+: later.symbols)
    {chars : List Char} {datum : Datum} (h : AtomDenotes known chars datum) :
    AtomDenotes later chars datum := by
  cases h with
  | integer numeral => exact .integer numeral
  | symbol other denoted => exact .symbol other (SymbolTable.get?_of_prefix within denoted)

/-- The texts that a token brings into the symbol table. -/
def Token.names : Token → List String
  | .atom chars => if (Atom.integer? chars).isSome then [] else [String.ofList chars]
  | _ => []

/-! ## Expressions -/

mutual

/-- The tokens derive an expression that lies at a given depth below the top, and that denotes a
datum.  Elements, tails and operands of marks lie one level deeper. -/
inductive Expression (known : SymbolTable ι) : Nat → List Token → Datum → Prop
  | atom {depth : Nat} {chars : List Char} {datum : Datum} :
      depth < maxDepth → AtomDenotes known chars datum → Expression known depth [.atom chars] datum
  | string {depth : Nat} {text : String} :
      depth < maxDepth → Expression known depth [.string text] (.string text)
  | marked {depth : Nat} {keyword : Symbol} {operand : List Token} {datum : Datum} :
      depth < maxDepth → Expression known (depth + 1) operand datum →
      Expression known depth (.mark keyword :: operand) (Datum.marked keyword datum)
  | empty {depth : Nat} : depth < maxDepth → Expression known depth [.opening, .closing] .nil
  | list {depth : Nat} {tokens : List Token} {items : List Datum} :
      depth < maxDepth → items ≠ [] → Expressions known (depth + 1) tokens items →
      Expression known depth (.opening :: (tokens ++ [.closing])) (Datum.chain items .nil)
  | dotted {depth : Nat} {tokens last : List Token} {items : List Datum} {tail : Datum} :
      depth < maxDepth → items ≠ [] → Expressions known (depth + 1) tokens items →
      Expression known (depth + 1) last tail →
      Expression known depth (.opening :: (tokens ++ .dot :: (last ++ [.closing])))
        (Datum.chain items tail)

/-- The tokens derive expressions one after another, all at a given depth. -/
inductive Expressions (known : SymbolTable ι) : Nat → List Token → List Datum → Prop
  | nil {depth : Nat} : Expressions known depth [] []
  | cons {depth : Nat} {first rest : List Token} {datum : Datum} {data : List Datum} :
      Expression known depth first datum → Expressions known depth rest data →
      Expressions known depth (first ++ rest) (datum :: data)

end

variable {known : SymbolTable ι}

theorem Expression.lt_maxDepth {depth : Nat} {tokens : List Token} {datum : Datum}
    (h : Expression known depth tokens datum) : depth < maxDepth := by
  cases h <;> assumption

theorem Expression.single {depth : Nat} {tokens : List Token} {datum : Datum}
    (h : Expression known depth tokens datum) : Expressions known depth tokens [datum] := by
  simpa using Expressions.cons h .nil

theorem Expressions.append {depth : Nat} {first second : List Token} {data more : List Datum}
    (h : Expressions known depth first data) (h' : Expressions known depth second more) :
    Expressions known depth (first ++ second) (data ++ more) := by
  induction data generalizing first with
  | nil =>
    cases h
    exact h'
  | cons datum data ih =>
    cases h with
    | cons head rest =>
      rw [List.append_assoc]
      exact .cons head (ih rest)

mutual

/-- What is derived stays so if more symbols are known. -/
theorem Expression.mono {later : SymbolTable ι} (within : known.symbols <+: later.symbols)
    {depth : Nat} {tokens : List Token} {datum : Datum} :
    Expression known depth tokens datum → Expression later depth tokens datum
  | .atom shallow denotes => .atom shallow (denotes.mono within)
  | .string shallow => .string shallow
  | .marked shallow operand => .marked shallow (operand.mono within)
  | .empty shallow => .empty shallow
  | .list shallow nonempty items => .list shallow nonempty (items.mono within)
  | .dotted shallow nonempty items tail =>
    .dotted shallow nonempty (items.mono within) (tail.mono within)

theorem Expressions.mono {later : SymbolTable ι} (within : known.symbols <+: later.symbols)
    {depth : Nat} {tokens : List Token} {data : List Datum} :
    Expressions known depth tokens data → Expressions later depth tokens data
  | .nil => .nil
  | .cons first rest => .cons (first.mono within) (rest.mono within)

end

/-- Elements of a list lie inside the limit, and so does what may follow them. -/
theorem Expressions.lt_maxDepth {depth : Nat} {tokens : List Token} {data : List Datum}
    (h : Expressions known depth tokens data) (some : data ≠ []) : depth < maxDepth := by
  cases h with
  | nil => exact absurd rfl some
  | cons head _ => exact head.lt_maxDepth

end Reader

end GuardedLisp
