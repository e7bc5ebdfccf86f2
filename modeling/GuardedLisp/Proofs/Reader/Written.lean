import GuardedLisp.Proofs.Reader.Derivation
import GuardedLisp.Value.Text

/-!
# Written data

The text of a datum splits into tokens, and the grammar derives the datum from them, but for one
thing.  The end of a list is written as its closing bracket, and `nil` anywhere else is written as
the symbol of that name, so there it is read as a symbol.

How deep the brackets of the text are nested is how deep the datum has to be read.

## Main definitions

* `Datum.write`, `Datum.tokens`: the text of a datum and the tokens that it is made of
* `Datum.reread`: what the text of a datum denotes
* `Datum.nesting`, `LineMode.peak`: how deep a datum and the brackets of a text are nested
* `IsName`: the texts that are written as symbols

## Main results

* `Datum.splits_write`: the text of a datum splits into its tokens
* `Datum.expression_tokens`: the tokens of a datum denote it
* `Datum.peak_write`: the brackets of the text are nested as deep as the datum
* `Reader.fits_of_expressions`, `Reader.fits_of_read`: what has been read can be written
-/

namespace GuardedLisp

open Reader

variable {ι : Type} [Interner ι] {known : SymbolTable ι}

/-! ## Names and numbers -/

/-- A text that is written as a symbol: an atom that is no integer. -/
structure IsName (name : String) : Prop where
  nonempty : name.toList ≠ []
  chars : ∀ c ∈ name.toList, Atom.isAtomChar c = true
  noNumeral : ∀ n, ¬ Numeral name.toList n

theorem isName_iff {name : String} : IsName name ↔
    name.toList ≠ [] ∧ name.toList.all Atom.isAtomChar = true ∧
      Atom.integer? name.toList = none := by
  rw [integer?_eq_none_iff, List.all_eq_true]
  exact ⟨fun h => ⟨h.nonempty, h.chars, h.noNumeral⟩, fun h => ⟨h.1, h.2.1, h.2.2⟩⟩

instance (name : String) : Decidable (IsName name) := decidable_of_iff' _ isName_iff

/-- A name denotes the symbol that is known for it. -/
theorem IsName.denotes {name : Symbol} (h : IsName name.name)
    (mem : name ∈ known.symbols) : AtomDenotes known name.name.toList (.symbol name) := by
  refine .symbol h.noNumeral (SymbolTable.get?_eq_some_iff.mpr ⟨mem, ?_⟩)
  rw [String.ofList_toList]

/-- The symbols that the language has to recognise are written as such. -/
theorem isName_keyword : ∀ keyword ∈ Symbol.keywords, IsName keyword.name := by decide

theorem isAtomChar_of_isDigit {c : Char} (h : c.isDigit = true) : Atom.isAtomChar c = true := by
  simp [Atom.isAtomChar, Char.isAlphanum, h]

theorem numeral_toString (n : Int) : Numeral (toString n).toList n := by
  have digits (m : Nat) : ∀ c ∈ Nat.toDigits 10 m, c.isDigit = true :=
    fun c mem => Nat.isDigit_of_mem_toDigits (by decide) (by decide) mem
  cases n with
  | ofNat m =>
    have numeral := Numeral.unsigned Nat.toDigits_ne_nil (digits m)
    rw [Nat.ofDigitChars_ten_toDigits] at numeral
    rwa [show toString (Int.ofNat m) = toString m from rfl, Nat.toString_eq_ofList_toDigits,
      String.toList_ofList]
  | negSucc m =>
    have numeral := Numeral.minus Nat.toDigits_ne_nil (digits (m + 1))
    rw [Nat.ofDigitChars_ten_toDigits] at numeral
    rw [show toString (Int.negSucc m) = "-" ++ toString (m + 1) from rfl, String.toList_append,
      Nat.toString_eq_ofList_toDigits, String.toList_ofList, String.toList_ofList]
    exact numeral

theorem Reader.Numeral.isAtomChar {chars : List Char} {n : Int} (h : Numeral chars n) :
    ∀ c ∈ chars, Atom.isAtomChar c = true := by
  cases h with
  | unsigned _ digits => exact fun c mem => isAtomChar_of_isDigit (digits c mem)
  | plus _ digits | minus _ digits =>
    exact List.forall_mem_cons.mpr ⟨by decide, fun c mem => isAtomChar_of_isDigit (digits c mem)⟩

theorem Reader.Numeral.lexeme {chars : List Char} {n : Int} (h : Numeral chars n) :
    Lexeme chars (.atom chars) := by
  refine .atom ?_ h.isAtomChar
  cases h with
  | unsigned nonempty => exact nonempty
  | plus | minus => exact List.cons_ne_nil _ _

/-- A string in quotes is spelled with its escapes. -/
theorem spelled_escape (text : List Char) : Spelled (text.flatMap Quoted.escape) text := by
  induction text with
  | nil => exact .nil
  | cons c text ih =>
    rw [List.flatMap_cons, Quoted.escape]
    split_ifs with quote backslash feed tab ret
    · subst quote
      exact .escape (by decide) ih
    · subst backslash
      exact .escape (by decide) ih
    · subst feed
      exact .escape (by decide) ih
    · subst tab
      exact .escape (by decide) ih
    · subst ret
      exact .escape (by decide) ih
    · exact .plain quote backslash ih

theorem toList_quoted (text : String) :
    (Quoted.text text).toList = '"' :: (text.toList.flatMap Quoted.escape ++ ['"']) := by
  simp [Quoted.text]

theorem lexeme_quoted (text : String) : Lexeme (Quoted.text text).toList (.string text) := by
  have written := Lexeme.string (spelled_escape text.toList)
  rwa [String.ofList_toList, ← toList_quoted] at written

/-! ## The text of a datum -/

namespace Datum

/-- What is no pair, written by itself or as the tail of a list, which stands after a dot. -/
def alone (asTail : Bool) (text : List Char) : List Char :=
  if asTail then ' ' :: '.' :: ' ' :: (text ++ [')']) else text

/-- The text of a datum, or of what is left of a list after the first element. -/
def write (asTail : Bool) : Datum → List Char
  | pair first rest => (if asTail then ' ' else '(') :: (first.write false ++ rest.write true)
  | nil => if asTail then [')'] else ['n', 'i', 'l']
  | integer n => alone asTail (toString n.toInt).toList
  | string text => alone asTail (Quoted.text text).toList
  | symbol name => alone asTail name.name.toList

/-- The tokens of what is no pair. -/
def tokensAlone (asTail : Bool) (token : Token) : List Token :=
  if asTail then [.dot, token, .closing] else [token]

/-- The tokens that the text of a datum is made of. -/
def tokens (asTail : Bool) : Datum → List Token
  | pair first rest =>
    (if asTail then [] else [.opening]) ++ (first.tokens false ++ rest.tokens true)
  | nil => [if asTail then .closing else .atom ['n', 'i', 'l']]
  | integer n => tokensAlone asTail (.atom (toString n.toInt).toList)
  | string text => tokensAlone asTail (.string text)
  | symbol name => tokensAlone asTail (.atom name.name.toList)

/-- What the text of a datum denotes, given the symbol with the text `nil`: each `nil` that does not
end a list is written as that symbol. -/
def reread (nilSymbol : Symbol) (asTail : Bool) : Datum → Datum
  | pair first rest => pair (first.reread nilSymbol false) (rest.reread nilSymbol true)
  | nil => if asTail then nil else symbol nilSymbol
  | integer n => integer n
  | string text => string text
  | symbol name => symbol name

/-- The symbols in a datum, from left to right. -/
def symbols : Datum → List Symbol
  | pair first rest => first.symbols ++ rest.symbols
  | symbol name => [name]
  | nil | integer _ | string _ => []

/-- How deep the elements of a datum are nested. -/
def nesting : Datum → Nat
  | pair first rest => max (first.nesting + 1) rest.nesting
  | nil | integer _ | string _ | symbol _ => 0

/-- All symbols of a datum are written as such. -/
def Named (d : Datum) : Prop := ∀ name ∈ d.symbols, IsName name.name

instance (d : Datum) : Decidable d.Named :=
  inferInstanceAs (Decidable (∀ name ∈ d.symbols, IsName name.name))

theorem Named.of_pair {first rest : Datum} (named : (pair first rest).Named) :
    first.Named ∧ rest.Named :=
  ⟨fun name mem => named name (List.mem_append_left _ mem),
    fun name mem => named name (List.mem_append_right _ mem)⟩

/-- What has been read again is written as before. -/
theorem write_reread {nilSymbol : Symbol} (isNil : nilSymbol.name = "nil") (d : Datum)
    (asTail : Bool) : (d.reread nilSymbol asTail).write asTail = d.write asTail := by
  induction d generalizing asTail with
  | nil => cases asTail <;> simp [reread, write, alone, isNil]
  | pair first rest ihFirst ihRest => simp only [reread, write, ihFirst, ihRest]
  | integer | string | symbol => rfl

/-! ## Its tokens -/

theorem lexeme_name {name : Symbol} (h : IsName name.name) :
    Lexeme name.name.toList (.atom name.name.toList) := .atom h.nonempty h.chars

theorem splits_alone {text rest : List Char} {token : Token} {tokens : List Token}
    (written : Lexeme text token) (ends : ∀ c ∈ rest.head?, Atom.isAtomChar c = false)
    (splits : Splits rest tokens) (asTail : Bool) :
    Splits (alone asTail text ++ rest) (tokensAlone asTail token ++ tokens) := by
  cases asTail with
  | false =>
    refine .token written ?_ splits
    cases token with
    | atom chars => exact ends
    | opening | closing | dot | mark keyword | string text => trivial
  | true =>
    have closed : Splits (text ++ ')' :: rest) (token :: .closing :: tokens) := by
      refine .token written ?_ (.token .closing trivial splits)
      cases token with
      | atom chars =>
        intro c head
        cases head
        rfl
      | opening | closing | dot | mark keyword | string text => trivial
    simpa [alone, tokensAlone] using
      Splits.blank rfl (.token .dot trivial (.blank (c := ' ') rfl closed))

/-- A tail starts with a blank or a bracket. -/
theorem head_write_tail (d : Datum) (rest : List Char) :
    ∀ c ∈ (d.write true ++ rest).head?, Atom.isAtomChar c = false := by
  intro c head
  cases d <;> (cases head; rfl)

/-- **The text of a datum splits into its tokens.** -/
theorem splits_write {d : Datum} (named : d.Named) {rest : List Char} {more : List Token}
    (ends : ∀ c ∈ rest.head?, Atom.isAtomChar c = false) (splits : Splits rest more)
    (asTail : Bool) : Splits (d.write asTail ++ rest) (d.tokens asTail ++ more) := by
  -- Induction on the datum; what comes after a part begins with no atom character, so that an atom
  -- at its end goes no further.
  induction d generalizing asTail rest more with
  | nil =>
    cases asTail with
    | false =>
      have letters :=
        List.all_eq_true.mp (show ['n', 'i', 'l'].all Atom.isAtomChar = true by decide)
      exact .token (.atom (List.cons_ne_nil _ _) letters) ends splits
    | true => exact .token .closing trivial splits
  | integer n => exact splits_alone (numeral_toString n.toInt).lexeme ends splits asTail
  | string text => exact splits_alone (lexeme_quoted text) ends splits asTail
  | symbol name =>
    exact splits_alone (lexeme_name (named name (List.mem_singleton_self _))) ends splits asTail
  | pair first rest' ihFirst ihRest =>
    obtain ⟨namedFirst, namedRest⟩ := named.of_pair
    have inner := ihFirst namedFirst (head_write_tail rest' rest)
      (ihRest namedRest ends splits true) false
    cases asTail with
    | false => simpa [write, tokens] using Splits.token .opening trivial inner
    | true => simpa [write, tokens] using Splits.blank (c := ' ') rfl inner

/-! ## What they denote -/

/-- What is left of a list whose elements lie at a given depth. -/
inductive Tail (known : SymbolTable ι) (depth : Nat) : List Token → Datum → Prop
  | nil : Tail known depth [.closing] .nil
  | dotted {last : List Token} {tail : Datum} :
      Expression known depth last tail → Tail known depth (.dot :: (last ++ [.closing])) tail
  | cons {first rest : List Token} {datum tail : Datum} :
      Expression known depth first datum → Tail known depth rest tail →
      Tail known depth (first ++ rest) (.pair datum tail)

theorem Tail.expression {depth : Nat} (shallow : depth < maxDepth) {tokens rest : List Token}
    {items : List Datum} {tail : Datum} (nonempty : items ≠ [])
    (elements : Expressions known (depth + 1) tokens items) (h : Tail known (depth + 1) rest tail) :
    Expression known depth (.opening :: (tokens ++ rest)) (chain items tail) := by
  -- The elements that have been passed are collected on the way to the end of the list.
  induction h generalizing tokens items with
  | nil => exact .list shallow nonempty elements
  | dotted derived => exact .dotted shallow nonempty elements derived
  | @cons first rest datum tail derived _ ih =>
    have longer := ih (by simp) (elements.append derived.single)
    rwa [List.append_assoc, chain, List.foldr_append] at longer

/-- All symbols of a datum are those of a table. -/
def Known (known : SymbolTable ι) (d : Datum) : Prop := ∀ name ∈ d.symbols, name ∈ known.symbols

instance (known : SymbolTable ι) (d : Datum) : Decidable (d.Known known) :=
  inferInstanceAs (Decidable (∀ name ∈ d.symbols, name ∈ known.symbols))

theorem Known.of_pair {first rest : Datum} (h : (pair first rest).Known known) :
    first.Known known ∧ rest.Known known :=
  ⟨fun name mem => h name (List.mem_append_left _ mem),
    fun name mem => h name (List.mem_append_right _ mem)⟩

variable {nilSymbol : Symbol} (isNil : nilSymbol.name = "nil")

include isNil

/-- **The tokens of a datum denote it**, given a table with the symbols that it is read with. -/
theorem expression_tokens {d : Datum} (named : d.Named) (depth : Nat) :
    ((d.reread nilSymbol false).Known known → depth + d.nesting < maxDepth →
      Expression known depth (d.tokens false) (d.reread nilSymbol false)) ∧
    ((d.reread nilSymbol true).Known known → depth + 1 < maxDepth → depth + d.nesting < maxDepth →
      Tail known (depth + 1) (d.tokens true) (d.reread nilSymbol true)) := by
  induction d generalizing depth with
  | nil =>
    refine ⟨fun own shallow => .atom shallow ?_, fun _ _ _ => .nil⟩
    have name : IsName nilSymbol.name := isNil ▸ by decide
    have denotes := name.denotes (own nilSymbol (List.mem_singleton_self _))
    rwa [isNil] at denotes
  | integer n =>
    have denotes : AtomDenotes known _ _ := .integer (numeral_toString n.toInt)
    exact ⟨fun _ shallow => .atom shallow denotes,
      fun _ inside _ => .dotted (.atom inside denotes)⟩
  | string text =>
    exact ⟨fun _ shallow => .string shallow, fun _ inside _ => .dotted (.string inside)⟩
  | symbol name =>
    have denotes (own : (symbol name).Known known) :=
      (named name (List.mem_singleton_self _)).denotes (own name (List.mem_singleton_self _))
    exact ⟨fun own shallow => .atom shallow (denotes own),
      fun own inside _ => .dotted (.atom inside (denotes own))⟩
  | pair first rest ihFirst ihRest =>
    obtain ⟨namedFirst, namedRest⟩ := named.of_pair
    have tail (own : (reread nilSymbol false (pair first rest)).Known known)
        (inside : depth + 1 < maxDepth)
        (shallow : depth + (pair first rest).nesting < maxDepth) :
        Expression known (depth + 1) (first.tokens false) (first.reread nilSymbol false) ∧
          Tail known (depth + 1) (rest.tokens true) (rest.reread nilSymbol true) := by
      obtain ⟨ownFirst, ownRest⟩ := own.of_pair
      rw [nesting] at shallow
      exact ⟨(ihFirst namedFirst (depth + 1)).1 ownFirst (by omega),
        (ihRest namedRest depth).2 ownRest inside (by omega)⟩
    constructor
    · intro own shallow
      have inside : depth + 1 < maxDepth := by
        rw [nesting] at shallow
        omega
      obtain ⟨derived, left⟩ := tail own inside shallow
      exact left.expression (by omega) (List.cons_ne_nil _ _) derived.single
    · intro own inside shallow
      obtain ⟨derived, left⟩ := tail own inside shallow
      show Tail known (depth + 1) (first.tokens false ++ rest.tokens true) _
      exact .cons derived left

omit isNil in
theorem names_alone (asTail : Bool) (token : Token) :
    (tokensAlone asTail token).flatMap Token.names = token.names := by
  cases asTail <;> simp [tokensAlone, Token.names]

/-- The texts that the tokens of a datum bring into the symbol table are those of the symbols that
it is read with. -/
theorem names_tokens {d : Datum} (named : d.Named) (asTail : Bool) :
    (d.tokens asTail).flatMap Token.names =
      (d.reread nilSymbol asTail).symbols.map Symbol.name := by
  induction d generalizing asTail with
  | nil =>
    cases asTail with
    | true => rfl
    | false =>
      show ["nil"] = [nilSymbol.name]
      rw [isNil]
  | integer n =>
    rw [tokens, names_alone, Token.names, integer?_eq_some_iff.mpr (numeral_toString n.toInt)]
    rfl
  | string text =>
    rw [tokens, names_alone]
    rfl
  | symbol name =>
    have none := (isName_iff.mp (named name (List.mem_singleton_self _))).2.2
    rw [tokens, names_alone, Token.names, none]
    simp [reread, symbols]
  | pair first rest ihFirst ihRest =>
    obtain ⟨namedFirst, namedRest⟩ := named.of_pair
    have bracket : (if asTail then [] else [Token.opening]).flatMap Token.names = [] := by
      cases asTail <;> rfl
    rw [tokens, List.flatMap_append, List.flatMap_append, bracket, ihFirst namedFirst,
      ihRest namedRest, List.nil_append, reread, symbols, List.map_append]

end Datum

/-! ## Brackets -/

namespace LineMode

/-- How many brackets are open at once in a line, at most, if none is at its start. -/
def peak : LineMode → List Char → Int
  | _, [] => 0
  | mode, c :: line => max 0 (mode.weight c + (mode.next c).peak line)

theorem peak_nonneg (mode : LineMode) (line : List Char) : 0 ≤ mode.peak line := by
  cases line with
  | nil => exact Int.le_refl _
  | cons c line => exact Int.le_max_left ..

/-- A character that is no bracket does not count. -/
theorem peak_cons_of_weight {mode : LineMode} {c : Char} (none : mode.weight c = 0)
    (line : List Char) : mode.peak (c :: line) = (mode.next c).peak line := by
  have := peak_nonneg (mode.next c) line
  rw [peak, none]
  omega

theorem peak_code_cons {c : Char} (plain : code.next c = .code ∧ code.weight c = 0)
    (line : List Char) : code.peak (c :: line) = code.peak line := by
  rw [peak_cons_of_weight plain.2, plain.1]

theorem peak_atom {word : List Char} (all : ∀ c ∈ word, Atom.isAtomChar c = true)
    (rest : List Char) : code.peak (word ++ rest) = code.peak rest := by
  induction word with
  | nil => rfl
  | cons c word ih =>
    rw [List.forall_mem_cons] at all
    rw [List.cons_append, peak_code_cons (State.code_of_isAtomChar all.1), ih all.2]

/-- The brackets in a string do not count either. -/
theorem peak_escape (text rest : List Char) :
    string.peak (text.flatMap Quoted.escape ++ '"' :: rest) = code.peak rest := by
  induction text with
  | nil => exact peak_cons_of_weight rfl rest
  | cons c text ih =>
    rw [List.flatMap_cons, List.append_assoc, Quoted.escape]
    split_ifs with quote backslash
    case neg =>
      rw [List.singleton_append, peak_cons_of_weight rfl]
      simp only [next, backslash, quote, if_false]
      exact ih
    all_goals
      rw [List.cons_append, List.singleton_append, peak_cons_of_weight rfl,
        peak_cons_of_weight rfl]
      exact ih

theorem peak_quoted (text : String) (rest : List Char) :
    code.peak ((Quoted.text text).toList ++ rest) = code.peak rest := by
  rw [toList_quoted, List.cons_append, List.append_assoc, peak_cons_of_weight rfl]
  exact peak_escape text.toList rest

end LineMode

namespace Datum

/-- What has no brackets of its own, by itself and as a tail, after which a bracket is closed. -/
theorem peak_alone {text : List Char}
    (free : ∀ rest, LineMode.code.peak (text ++ rest) = LineMode.code.peak rest)
    (rest : List Char) :
    LineMode.code.peak (alone false text ++ rest) = max 0 (LineMode.code.peak rest) ∧
      LineMode.code.peak (alone true text ++ rest) = max 0 (LineMode.code.peak rest - 1) := by
  have some := LineMode.peak_nonneg .code rest
  have closed : LineMode.code.peak (')' :: rest) = max 0 (-1 + LineMode.code.peak rest) := rfl
  constructor
  · rw [alone, if_neg Bool.false_ne_true, free]
    omega
  · have parts : alone true text ++ rest = ' ' :: '.' :: ' ' :: (text ++ ')' :: rest) := by
      simp [alone]
    have blank : LineMode.code.next ' ' = .code ∧ LineMode.code.weight ' ' = 0 := ⟨rfl, rfl⟩
    have dot : LineMode.code.next '.' = .code ∧ LineMode.code.weight '.' = 0 := ⟨rfl, rfl⟩
    rw [parts, LineMode.peak_code_cons blank, LineMode.peak_code_cons dot,
      LineMode.peak_code_cons blank, free, closed]
    omega

/-- **The brackets of the text are nested as deep as the datum.**  A tail also closes a bracket that
is not its own. -/
theorem peak_write {d : Datum} (named : d.Named) (rest : List Char) :
    LineMode.code.peak (d.write false ++ rest) = max (d.nesting : Int) (LineMode.code.peak rest) ∧
      LineMode.code.peak (d.write true ++ rest) =
        max (max 0 ((d.nesting : Int) - 1)) (LineMode.code.peak rest - 1) := by
  induction d generalizing rest with
  | nil =>
    have name : LineMode.code.peak (['n', 'i', 'l'] ++ rest) = LineMode.code.peak rest :=
      LineMode.peak_atom (List.all_eq_true.mp (by decide)) rest
    have some := LineMode.peak_nonneg .code rest
    have closed : LineMode.code.peak (')' :: rest) = max 0 (-1 + LineMode.code.peak rest) := rfl
    simp only [write, if_true, Bool.false_eq_true, if_false, nesting, List.singleton_append]
    omega
  | integer n =>
    have free := peak_alone (LineMode.peak_atom (numeral_toString n.toInt).isAtomChar) rest
    simp only [write, nesting]
    omega
  | string text =>
    have free := peak_alone (LineMode.peak_quoted text) rest
    simp only [write, nesting]
    omega
  | symbol name =>
    have named := named name (List.mem_singleton_self _)
    have free := peak_alone (LineMode.peak_atom named.chars) rest
    simp only [write, nesting]
    omega
  | pair first last ihFirst ihRest =>
    obtain ⟨namedFirst, namedRest⟩ := named.of_pair
    have inner := (ihFirst namedFirst (last.write true ++ rest)).1
    have left := (ihRest namedRest rest).2
    have opened (line : List Char) :
        LineMode.code.peak ('(' :: line) = max 0 (1 + LineMode.code.peak line) := rfl
    have blank (line : List Char) : LineMode.code.peak (' ' :: line) = LineMode.code.peak line :=
      LineMode.peak_code_cons (State.code_of_isBlank rfl) line
    simp only [write, if_true, Bool.false_eq_true, if_false, nesting, List.cons_append,
      List.append_assoc, opened, blank, inner, left]
    omega

end Datum

/-! ## What has been read can be written -/

namespace Datum

/-- What can be written at a given depth below the top, with the symbols of a table. -/
structure Fits (depth : Nat) (known : SymbolTable ι) (d : Datum) : Prop where
  nested : depth + d.nesting < maxDepth
  named : d.Named
  known : d.Known known

theorem Fits.leaf {depth : Nat} {d : Datum} (shallow : depth < maxDepth) (flat : d.nesting = 0)
    (plain : d.symbols = []) : d.Fits depth known := by
  have none (name : Symbol) (mem : name ∈ d.symbols) : False := by simp [plain] at mem
  exact ⟨by rwa [flat], fun name mem => (none name mem).elim,
    fun name mem => (none name mem).elim⟩

theorem Fits.name {depth : Nat} {name : Symbol} (shallow : depth < maxDepth)
    (named : IsName name.name) (mem : name ∈ known.symbols) :
    (symbol name).Fits depth known :=
  ⟨shallow, List.forall_mem_singleton.mpr named, List.forall_mem_singleton.mpr mem⟩

/-- A list can be written if its elements can be one level deeper. -/
theorem Fits.chain {depth : Nat} {items : List Datum} {tail : Datum}
    (elements : ∀ item ∈ items, item.Fits (depth + 1) known) (last : tail.Fits depth known) :
    (chain items tail).Fits depth known := by
  induction items with
  | nil => exact last
  | cons first items ih =>
    rw [List.forall_mem_cons] at elements
    obtain ⟨here, later⟩ := elements
    have rest := ih later
    refine ⟨?_, List.forall_mem_append.mpr ⟨here.named, rest.named⟩,
      List.forall_mem_append.mpr ⟨here.known, rest.known⟩⟩
    have shallow := here.nested
    have deep := rest.nested
    simp only [Datum.chain, List.foldr_cons, nesting] at deep ⊢
    omega

end Datum

namespace Reader

theorem Splits.lexeme {text : List Char} {tokens : List Token} (h : Splits text tokens) :
    ∀ token ∈ tokens, ∃ lexeme, Lexeme lexeme token := by
  induction h with
  | nil => exact fun token mem => absurd mem List.not_mem_nil
  | blank _ _ ih | comment _ _ _ _ ih => exact ih
  | token written _ _ ih => exact List.forall_mem_cons.mpr ⟨⟨_, written⟩, ih⟩

theorem Lexeme.keyword {lexeme : List Char} {keyword : Symbol}
    (h : Lexeme lexeme (.mark keyword)) : keyword ∈ Symbol.keywords := by
  cases h <;> decide

/-- An atom that is no integer is a name. -/
theorem Lexeme.isName {lexeme chars : List Char} (h : Lexeme lexeme (.atom chars))
    (noNumeral : ∀ n, ¬ Numeral chars n) : IsName (String.ofList chars) := by
  cases h with
  | atom nonempty all =>
    exact ⟨by simpa using nonempty, by simpa using all, by simpa using noNumeral⟩

/-- **What the grammar denotes can be written**, with brackets no deeper than in the text. -/
theorem fits_of_expressions {depth : Nat} {tokens : List Token}
    {data : List Datum} (h : Expressions known depth tokens data)
    (written : ∀ token ∈ tokens, ∃ lexeme, Lexeme lexeme token) :
    ∀ datum ∈ data, datum.Fits depth known := by
  -- An expression has the same property as a list of it alone.
  refine @Expressions.rec _ _ known
    (fun depth tokens datum _ => (∀ token ∈ tokens, ∃ lexeme, Lexeme lexeme token) →
      datum.Fits depth known)
    (fun depth tokens data _ => (∀ token ∈ tokens, ∃ lexeme, Lexeme lexeme token) →
      ∀ datum ∈ data, datum.Fits depth known)
    ?atom ?string ?marked ?empty ?list ?dotted ?nil ?cons depth tokens data h written
  case atom =>
    intro depth chars datum shallow denotes written
    obtain ⟨lexeme, spelled⟩ := written _ (List.mem_singleton_self _)
    cases denotes with
    | integer numeral => exact .leaf shallow rfl rfl
    | symbol noNumeral denoted =>
      obtain ⟨mem, same⟩ := SymbolTable.get?_eq_some_iff.mp denoted
      exact .name shallow (same ▸ spelled.isName noNumeral) mem
  case string => exact fun shallow _ => .leaf shallow rfl rfl
  case marked =>
    intro depth keyword operand datum shallow _ ih written
    obtain ⟨⟨lexeme, spelled⟩, written⟩ := List.forall_mem_cons.mp written
    have fits := ih written
    have inside := Nat.lt_of_le_of_lt (Nat.le_add_right ..) fits.nested
    have head : (Datum.symbol keyword).Fits (depth + 1) known :=
      .name inside (isName_keyword _ spelled.keyword)
        (known.keywords_prefix.subset spelled.keyword)
    exact .chain (by simp [head, fits]) (.leaf shallow rfl rfl)
  case empty => exact fun shallow _ => .leaf shallow rfl rfl
  case list =>
    intro depth tokens items shallow _ _ ih written
    obtain ⟨-, inside⟩ := List.forall_mem_cons.mp written
    obtain ⟨elements, -⟩ := List.forall_mem_append.mp inside
    exact .chain (ih elements) (.leaf shallow rfl rfl)
  case dotted =>
    intro depth tokens last items tail shallow _ _ _ ih ihTail written
    obtain ⟨-, inside⟩ := List.forall_mem_cons.mp written
    obtain ⟨elements, after⟩ := List.forall_mem_append.mp inside
    obtain ⟨-, after⟩ := List.forall_mem_cons.mp after
    obtain ⟨nested, named, own⟩ := ihTail (List.forall_mem_append.mp after).1
    exact .chain (ih elements) ⟨by omega, named, own⟩
  case nil => exact fun _ datum mem => absurd mem List.not_mem_nil
  case cons =>
    intro depth first rest datum data _ _ ih ihRest written
    obtain ⟨here, later⟩ := List.forall_mem_append.mp written
    exact List.forall_mem_cons.mpr ⟨ih here, ihRest later⟩

/-- What has been read can be written, with symbols that are in the table then. -/
theorem fits_of_read {goal : Goal} {source : String} {table : SymbolTable ι} {forms : List Datum}
    (h : read goal source table = (.ok forms, known)) : ∀ datum ∈ forms, datum.Fits 0 known := by
  obtain ⟨tokens, splits, derived, -, -⟩ := read_eq_ok_iff.mp h
  exact fits_of_expressions derived splits.lexeme

end Reader

end GuardedLisp
