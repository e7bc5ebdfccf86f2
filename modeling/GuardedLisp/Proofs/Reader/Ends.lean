import GuardedLisp.Proofs.Reader.Brackets
import GuardedLisp.Session
import Mathlib.Data.List.DropRight

/-!
# Where a text may be cut

A text may be cut at a line end where the brackets balance, for there the reader does what it does
at the end of the text, and is then as it is at the start.  What is cut off may be blank, which
means nothing to the reader.

There is one exception.  A mark such as a quote is not counted as a bracket, so outside all lists
it is cut off from an operand on a later line.

## Main definitions

* `Reader.State.awaitsOperand`: a mark outside all lists still waits for its operand

## Main results

* `Reader.State.consume_lineFeed_of_closed`: where the brackets balance, a line end is like the end
  of the text
* `Reader.State.closed_of_finish`: at the end of a text the brackets balance
* `Reader.State.eq_initial_after`: between two forms the reader is as it is at the start
* `Command.ofLine?_of_unfailed`: what the reader can begin to read is no command
-/

namespace GuardedLisp

namespace Reader

/-- Whether a character has no meaning between two tokens. -/
def isStray (c : Char) : Bool :=
  !isBlank c && !Atom.isAtomChar c && [';', ')', '.', '(', '"', '\x27', '\x60', ','].all (c ≠ ·)

namespace State

/-- Whether a mark outside all lists still waits for its operand. -/
def awaitsOperand (s : State) : Bool :=
  s.lists = 0 &&
    match s.mode with
    | .comma => true
    | .between | .comment _ | .commentReturn _ => !s.pending.isEmpty
    | .atom _ _ | .string _ | .escape _ _ | .failed _ => false

theorem awaitsOperand_after (forms : List Datum) (offset : Nat) (s : State) :
    (s.after forms offset).awaitsOperand = s.awaitsOperand := by
  obtain ⟨goal, symbols, found, pending, mode, place⟩ := s
  cases mode <;> rfl

/-! ## Ends of lines and of the text -/

/-- If nothing but marks is open, a datum completes them all. -/
theorem place_of_lists_eq_zero {pending : List Open} (none : pending.countP Open.isList = 0)
    (datum : Datum) : (place pending datum).1 = [] := by
  induction pending generalizing datum with
  | nil => rfl
  | cons first outer ih =>
    cases first with
    | marked keyword =>
      rw [List.countP_cons_of_neg (by simp [Open.isList])] at none
      exact ih none _
    | _ => simp [Open.isList] at none

theorem settle_of_closed {s : State} (all : s.goal = .all) (unfailed : s.Unfailed)
    (closed : s.pending = []) : s.settle = { s with mode := .between } := by
  rw [settle_of_unfailed all unfailed, if_pos (by rw [closed]; rfl)]

theorem unfailed_of_finish {s : State} (h : s.finish.Unfailed) : s.Unfailed :=
  fun fault failed => h fault (by simp [finish, failed])

/-- Nothing is open if the text may end. -/
theorem closed_of_settle {s : State} (all : s.goal = .all) (h : s.settle.Unfailed) :
    s.Unfailed ∧ s.pending = [] := by
  have unfailed : s.Unfailed := fun fault failed => h fault (by simp [settle, failed])
  rw [settle_of_unfailed all unfailed] at h
  split at h
  · next empty => exact ⟨unfailed, List.isEmpty_iff.mp empty⟩
  · exact absurd h not_unfailed_fail

/-- An atom outside all lists is a form, with all the marks before it. -/
theorem pending_endAtom {s : State} (outside : s.lists = 0) {start : Nat} {chars : List Char}
    (h : (s.endAtom start chars).Unfailed) : (s.endAtom start chars).pending = [] := by
  cases integer : Atom.integer? chars.reverse with
  | none =>
    simp only [endAtom, integer]
    exact place_of_lists_eq_zero outside _
  | some n =>
    cases word : word? n with
    | some value =>
      simp only [endAtom, integer, word]
      exact place_of_lists_eq_zero outside _
    | none =>
      simp only [endAtom, integer, word] at h
      exact absurd h not_unfailed_fail

/-- Where the brackets balance, a line end is like the end of the text. -/
theorem consume_lineFeed_of_closed {s : State} {mode : LineMode} (all : s.goal = .all)
    (shows : s.Shows mode 0) (closed : mode.isOpen = false) (settled : s.awaitsOperand = false)
    (h : (s.consume '\n').Unfailed) :
    s.consume '\n' = s.finish ∧ s.finish.mode = .between ∧ s.finish.pending = [] := by
  obtain ⟨seen, outside⟩ := shows
  replace outside : s.lists = 0 := Int.ofNat_eq_zero.mp outside
  have unfailed : s.Unfailed := unfailed_of_step (c := '\n') h
  cases current : s.mode with
  | between =>
    have complete : s.pending = [] := by simpa [awaitsOperand, outside, current] using settled
    simp only [consume, finish, current]
    rw [settle_of_closed all unfailed complete]
    exact ⟨by rw [← current]; rfl, rfl, complete⟩
  | atom start chars =>
    have code : Atom.isAtomChar '\n' = false := by decide
    simp only [consume, current, code, Bool.false_eq_true, if_false] at h
    simp only [consume, finish, current, code, Bool.false_eq_true, if_false]
    have ended := unfailed_of_resume h
    obtain ⟨between, -⟩ := endAtom_shows ended
    have complete := pending_endAtom outside ended
    rw [settle_of_closed ((goal_endAtom s start chars).trans all) ended complete, resume_eq ended]
    exact ⟨by rw [← between]; rfl, rfl, complete⟩
  | comment start =>
    have complete : s.pending = [] := by simpa [awaitsOperand, outside, current] using settled
    simp only [consume, finish, current, if_true]
    rw [settle_of_closed all unfailed complete]
    exact ⟨rfl, rfl, complete⟩
  | comma => simp [awaitsOperand, outside, current] at settled
  | string chars | escape start chars =>
    have seen := line_eq seen current rfl
    subst seen
    exact absurd closed (by decide)
  | commentReturn start | failed fault => simp [current, Mode.line?] at seen

/-- At the end of a text without faults the brackets balance. -/
theorem closed_of_finish {s : State} {mode : LineMode} {depth : Int} (all : s.goal = .all)
    (shows : s.Shows mode depth) (h : s.finish.Unfailed) :
    depth = 0 ∧ mode.isOpen = false ∧ s.finish.mode = .between ∧ s.finish.pending = [] := by
  obtain ⟨seen, rfl⟩ := shows
  cases current : s.mode with
  | between | comment start =>
    have seen := line_eq seen current rfl
    simp only [finish, current] at h ⊢
    obtain ⟨unfailed, complete⟩ := closed_of_settle all h
    rw [settle_of_closed all unfailed complete]
    exact ⟨by simp [lists, complete], by rw [← seen]; rfl, rfl, complete⟩
  | atom start chars =>
    have seen := line_eq seen current rfl
    simp only [finish, current] at h ⊢
    have all' := (goal_endAtom s start chars).trans all
    obtain ⟨ended, complete⟩ := closed_of_settle all' h
    rw [settle_of_closed all' ended complete, ← (endAtom_shows ended).2]
    exact ⟨by simp [lists, complete], by rw [← seen]; rfl, rfl, complete⟩
  | comma =>
    simp only [finish, current] at h
    obtain ⟨marked, complete⟩ := closed_of_settle ((goal_mark s .unquote s.offset).trans all) h
    rw [mark_eq marked] at complete
    exact absurd complete (List.cons_ne_nil _ _)
  | string chars | escape start chars =>
    simp only [finish, current] at h
    exact absurd h not_unfailed_fail
  | commentReturn start | failed fault => simp [current, Mode.line?] at seen

/-! ## Blank texts -/

theorem toNat_of_isWhiteSpace {c : Char} (h : isWhiteSpace c = true) :
    c.toNat ≤ 0x20 ∨ 0x85 ≤ c.toNat := by
  simp only [isWhiteSpace, whiteSpaceRanges, List.any_cons, List.any_nil, Bool.or_false,
    Bool.or_eq_true, Bool.and_eq_true, decide_eq_true_eq] at h
  omega

theorem toNat_of_isAtomChar {c : Char} (h : Atom.isAtomChar c = true) :
    0x20 < c.toNat ∧ c.toNat < 0x85 := by
  simp only [Atom.isAtomChar, Bool.or_eq_true, List.contains_iff_mem] at h
  obtain word | special := h
  · have ranges : ((decide ('A'.val ≤ c.val ∧ c.val ≤ 'Z'.val)
        || 'a'.val ≤ c.val && c.val ≤ 'z'.val)
        || '0'.val ≤ c.val && c.val ≤ '9'.val) = true := word
    simp only [Bool.or_eq_true, Bool.and_eq_true, decide_eq_true_eq, UInt32.le_iff_toNat_le]
      at ranges
    have same : c.val.toNat = c.toNat := rfl
    simp only [same] at ranges
    obtain (⟨low, high⟩ | ⟨low, high⟩) | ⟨low, high⟩ := ranges <;> simp at low high <;> omega
  · have inside : Atom.specials.all (fun d => 0x20 < d.toNat && d.toNat < 0x85) = true := by decide
    simpa using List.all_eq_true.mp inside c special

theorem not_unfailed_of_isStray {s : State} {place : Nat} {c : Char} (stray : isStray c = true) :
    ¬ (s.between place c).Unfailed := by
  intro h
  simp only [isStray, Bool.and_eq_true, Bool.not_eq_true', List.all_cons, List.all_nil,
    decide_eq_true_eq, and_true] at stray
  obtain ⟨⟨noBlank, noAtom⟩, comment, closing, dot, list, string, quote, backquote, comma⟩ := stray
  rw [between_eq, if_neg (by simp [noBlank]), if_neg comment, if_neg closing, if_neg dot] at h
  have started := starting_eq h
  rw [started, opened, if_neg list, if_neg string, if_neg quote, if_neg backquote, if_neg comma,
    if_neg (by simp [noAtom])] at h
  exact not_unfailed_fail h

/-- White space that is no blank is a fault outside strings and comments. -/
theorem isBlank_of_isWhiteSpace {s : State} {place : Nat} {c : Char} (white : isWhiteSpace c = true)
    (h : (s.between place c).Unfailed) : isBlank c = true := by
  refine Decidable.byContradiction fun other => not_unfailed_of_isStray ?_ h
  have far := toNat_of_isWhiteSpace white
  have ne {d : Char} (inside : 0x20 < d.toNat ∧ d.toNat < 0x85) : c ≠ d := by
    rintro rfl
    omega
  have noAtom : ¬ Atom.isAtomChar c = true := fun atom => by
    have := toNat_of_isAtomChar atom
    omega
  have marks : [';', ')', '.', '(', '"', '\x27', '\x60', ','].all
      (fun d => 0x20 < d.toNat && d.toNat < 0x85) = true := by decide
  rw [isStray, Bool.eq_false_iff.mpr other, Bool.eq_false_iff.mpr noAtom]
  refine List.all_eq_true.mpr fun d mem => decide_eq_true (ne ?_)
  simpa using List.all_eq_true.mp marks d mem

/-- A blank text without faults changes nothing but the place. -/
theorem run_blank {s : State} (between : s.mode = .between) {text : List Char}
    (blank : text.all isWhiteSpace = true) (h : (s.run text).Unfailed) :
    ∃ offset, s.run text = { s with offset } := by
  induction text generalizing s with
  | nil => exact ⟨s.offset, rfl⟩
  | cons c text ih =>
    rw [List.all_cons, Bool.and_eq_true] at blank
    obtain ⟨white, blank⟩ := blank
    have begun : (s.consume c).Unfailed := unfailed_of_run (s := s.step c) h
    have same : s.step c = { s with offset := s.offset + c.utf8Size } := by
      simp only [consume, between] at begun
      have separates := isBlank_of_isWhiteSpace white begun
      simp only [step, consume, between, between_eq, separates, if_true]
    rw [run_cons, same] at h ⊢
    exact ih between blank h

theorem finish_blank {symbols : SymbolTable} {text : List Char}
    (blank : text.all isWhiteSpace = true) (h : ((initial .all symbols).run text).Unfailed) :
    ((initial .all symbols).run text).finish.forms = [] ∧
      ((initial .all symbols).run text).finish.symbols = symbols := by
  obtain ⟨offset, same⟩ := run_blank rfl blank h
  rw [same]
  exact ⟨rfl, rfl⟩

/-- Between two forms the reader is where it starts, but for the forms before. -/
theorem eq_initial_after {s : State} (all : s.goal = .all) (between : s.mode = .between)
    (complete : s.pending = []) : s = (initial .all s.symbols).after s.forms s.offset := by
  obtain ⟨goal, symbols, forms, pending, mode, offset⟩ := s
  subst all between complete
  simp only [after, initial, List.nil_append, Nat.zero_add, Mode.shift]

end State

end Reader

/-! ## Commands -/

/-- What is left between the white space at both ends begins where the white space at the start
ends. -/
theorem trimWhiteSpace_prefix (text : List Char) :
    trimWhiteSpace text <+: text.dropWhile isWhiteSpace :=
  List.rdropWhile_prefix isWhiteSpace _

theorem Command.colon_of_ofLine? {line : List Char} {command : Command}
    (h : Command.ofLine? line = some command) : ∃ name, trimWhiteSpace line = ':' :: name := by
  have spelled {text : String} (same : String.ofList (trimWhiteSpace line) = text) :
      trimWhiteSpace line = text.toList := by
    rw [← same, String.toList_ofList]
  unfold ofLine? at h
  split at h
  · next same => exact ⟨_, spelled same⟩
  · next same => exact ⟨_, spelled same⟩
  · next same => exact ⟨_, spelled same⟩
  · next same => exact ⟨_, spelled same⟩
  · cases h

/-- What the reader can begin to read is no command, since no expression starts with a colon. -/
theorem Command.ofLine?_of_unfailed {symbols : SymbolTable} {line : List Char}
    (h : ((Reader.State.initial .all symbols).run line).Unfailed) :
    Command.ofLine? line = none := by
  cases asked : Command.ofLine? line with
  | none => rfl
  | some command =>
    obtain ⟨name, spelled⟩ := colon_of_ofLine? asked
    obtain ⟨more, parted⟩ := trimWhiteSpace_prefix line
    rw [← List.takeWhile_append_dropWhile (p := isWhiteSpace) (l := line), ← parted, spelled,
      List.cons_append, Reader.State.run_append, Reader.State.run_cons] at h
    have begun := Reader.State.unfailed_of_run h
    have blank : (line.takeWhile isWhiteSpace).all isWhiteSpace = true := List.all_takeWhile
    obtain ⟨offset, same⟩ := Reader.State.run_blank rfl blank (Reader.State.unfailed_of_step begun)
    rw [same] at begun
    exact absurd begun (Reader.State.not_unfailed_of_isStray (by decide))

end GuardedLisp
