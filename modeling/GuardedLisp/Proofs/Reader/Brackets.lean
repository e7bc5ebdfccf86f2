import GuardedLisp.LineGatherer
import GuardedLisp.Proofs.Reader.Shift

/-!
# Brackets as the reader sees them

The reader keeps a stack of open expressions; whoever gathers lines keeps a number of brackets and
a mode.  As long as the reader meets no fault, the number is that of the lists on its stack, and
the mode is a coarse view of its own.  Marks are on the stack too, but have no bracket.

## Main definitions

* `Reader.State.lists`: how many of the open expressions are lists
* `Reader.State.Shows`: what someone who counts brackets sees of a state

## Main results

* `Reader.State.shows_step`, `Reader.State.shows_run`: counting agrees with reading inside a line
* `Reader.State.shows_lineFeed`: what is seen at the start of the next line
-/

namespace GuardedLisp

namespace LineMode

theorem scan_from (mode : LineMode) (balance : Int) (line : List Char) :
    line.foldl (fun (mode, balance) c => (mode.next c, balance + mode.weight c)) (mode, balance) =
      ((mode.scan line).1, balance + (mode.scan line).2) := by
  unfold scan
  induction line generalizing mode balance with
  | nil => simp
  | cons c line ih =>
    simp only [List.foldl_cons]
    rw [ih, ih (mode.next c) (0 + mode.weight c)]
    simp only [Int.zero_add, Int.add_assoc]

theorem scan_cons (mode : LineMode) (c : Char) (line : List Char) :
    mode.scan (c :: line) =
      (((mode.next c).scan line).1, mode.weight c + ((mode.next c).scan line).2) := by
  rw [scan, List.foldl_cons, scan_from, Int.zero_add]

end LineMode

namespace Reader

/-- Whether an open expression has a bracket. -/
def Open.isList : Open → Bool
  | .marked _ => false
  | .list _ | .dotted _ | .closing _ _ => true

/-- The mode as a counter of brackets knows it.  At rest, or at a carriage return in a comment, it
knows none. -/
def Mode.line? : Mode → Option LineMode
  | between | atom _ _ | comma => some .code
  | string _ => some .string
  | escape _ _ => some .escape
  | comment _ => some .comment
  | commentReturn _ | failed _ => none

namespace State

variable {τ : Type} [Interns τ]

/-- How many of the open expressions are lists. -/
def lists (s : State τ) : Nat := s.pending.countP Open.isList

/-- What a counter of brackets sees: the mode, and how many brackets are open. -/
structure Shows (s : State τ) (mode : LineMode) (depth : Int) : Prop where
  mode : s.mode.line? = some mode
  depth : (s.lists : Int) = depth

theorem line_eq {s : State τ} {current : Mode} {mode line : LineMode}
    (seen : s.mode.line? = some mode) (known : s.mode = current)
    (same : current.line? = some line) : line = mode :=
  Option.some.inj (same.symm.trans (known ▸ seen))

/-! ## What becomes of the stack -/

theorem lists_place (pending : List Open) (datum : Datum) :
    (place pending datum).1.countP Open.isList = pending.countP Open.isList := by
  induction pending generalizing datum with
  | nil => rfl
  | cons first outer ih =>
    cases first with
    | marked keyword => simpa [place, Open.isList] using ih (Datum.marked keyword datum)
    | _ => rfl

theorem lists_supply (s : State τ) (datum : Datum) : (s.supply datum).lists = s.lists :=
  lists_place s.pending datum

/-- An expression that may start does start. -/
theorem starting_cases (s next : State τ) (place : Nat) :
    s.starting place next = next ∨ ∃ cause, s.starting place next = s.fail cause place := by
  unfold starting
  split
  · exact .inr ⟨_, rfl⟩
  · split
    · exact .inr ⟨_, rfl⟩
    · split
      · exact .inr ⟨_, rfl⟩
      · exact .inl rfl

theorem starting_eq {s next : State τ} {place : Nat} (h : (s.starting place next).Unfailed) :
    s.starting place next = next := by
  obtain started | ⟨cause, failed⟩ := starting_cases s next place
  · exact started
  · rw [failed] at h
    exact absurd h not_unfailed_fail

theorem not_unfailed_refuse {s : State τ} {place : Nat} : ¬ (s.refuse place).Unfailed := by
  intro h
  have started : s.refuse place = s.fail .misplaced place := starting_eq h
  rw [started] at h
  exact not_unfailed_fail h

theorem mark_eq {s : State τ} {keyword : Symbol} {place : Nat}
    (h : (s.mark keyword place).Unfailed) :
    s.mark keyword place =
      { s with pending := .marked keyword :: s.pending, mode := .between } := by
  simp only [mark] at h ⊢
  split at h
  · exact absurd h not_unfailed_fail
  · next shallow => exact if_neg shallow

/-- An atom that is no fault becomes a datum. -/
theorem endAtom_shows {s : State τ} {start : Nat} {chars : List Char}
    (h : (s.endAtom start chars).Unfailed) :
    (s.endAtom start chars).mode = .between ∧ (s.endAtom start chars).lists = s.lists := by
  cases integer : Atom.integer? chars.reverse with
  | none =>
    simp only [endAtom, integer]
    exact ⟨rfl, lists_supply { s with symbols := (Interns.intern s.symbols _).2 } _⟩
  | some n =>
    cases word : word? n with
    | some value =>
      simp only [endAtom, integer, word]
      exact ⟨rfl, lists_supply s _⟩
    | none =>
      simp only [endAtom, integer, word] at h
      exact absurd h not_unfailed_fail

theorem resume_eq {s : State τ} (h : s.Unfailed) (c : Char) :
    s.resume c = s.between s.offset c := by
  unfold resume
  split
  · next fault failed => exact absurd failed (h fault)
  · rfl

theorem unfailed_of_resume {s : State τ} {c : Char} (h : (s.resume c).Unfailed) : s.Unfailed :=
  fun fault failed => h fault (by simp [resume, failed])

/-! ## One character -/

theorem shows_close {s : State τ} {place : Nat} (h : (s.close place).Unfailed) :
    (s.close place).mode = .between ∧ ((s.close place).lists : Int) = s.lists - 1 := by
  match pending : s.pending with
  | .list items :: outer =>
    simp only [close, pending]
    refine ⟨rfl, ?_⟩
    rw [lists_supply, lists, lists, pending]
    simp [List.countP_cons, Open.isList]
  | .closing items tail :: outer =>
    simp only [close, pending]
    refine ⟨rfl, ?_⟩
    rw [lists_supply, lists, lists, pending]
    simp [List.countP_cons, Open.isList]
  | [] | .dotted _ :: _ | .marked _ :: _ =>
    simp only [close, pending] at h
    exact absurd h not_unfailed_refuse

theorem shows_dot {s : State τ} {place : Nat} (h : (s.dot place).Unfailed) :
    (s.dot place).mode = s.mode ∧ (s.dot place).lists = s.lists := by
  match pending : s.pending with
  | .list (item :: items) :: outer =>
    simp [dot, lists, pending, List.countP_cons, Open.isList]
  | [] | .list [] :: _ | .closing _ _ :: _ | .dotted _ :: _ | .marked _ :: _ =>
    simp only [dot, pending] at h
    exact absurd h not_unfailed_refuse

/-- An atom character is no bracket, quote or semicolon. -/
theorem code_of_isAtomChar {c : Char} (h : Atom.isAtomChar c = true) :
    LineMode.code.next c = .code ∧ LineMode.code.weight c = 0 := by
  have other {d : Char} (not : Atom.isAtomChar d = false) : c ≠ d := by
    rintro rfl
    exact Bool.false_ne_true (not.symm.trans h)
  simp [LineMode.next, LineMode.weight, other (d := '"') (by decide), other (d := ';') (by decide),
    other (d := '(') (by decide), other (d := ')') (by decide)]

theorem code_of_isBlank {c : Char} (h : isBlank c = true) :
    LineMode.code.next c = .code ∧ LineMode.code.weight c = 0 := by
  simp only [isBlank, Bool.or_eq_true, decide_eq_true_eq] at h
  obtain ((rfl | rfl) | rfl) | rfl := h <;> decide

theorem shows_mark {s : State τ} {keyword : Symbol} {place : Nat}
    (h : (s.mark keyword place).Unfailed) : (s.mark keyword place).Shows .code s.lists := by
  rw [mark_eq h]
  exact ⟨rfl, by simp [lists, Open.isList]⟩

theorem shows_opened {s : State τ} (between : s.mode = .between) {place : Nat} {c : Char}
    (comment : c ≠ ';') (closing : c ≠ ')') (h : (s.opened place c).Unfailed) :
    (s.opened place c).Shows (LineMode.code.next c) (s.lists + LineMode.code.weight c) := by
  unfold opened at h ⊢
  by_cases list : c = '('
  · subst list
    refine ⟨by rw [if_pos rfl, between]; rfl, ?_⟩
    simp [lists, List.countP_cons, Open.isList, LineMode.weight]
  rw [if_neg list] at h ⊢
  by_cases string : c = '"'
  · subst string
    exact ⟨rfl, rfl⟩
  rw [if_neg string] at h ⊢
  have next : LineMode.code.next c = .code := by simp [LineMode.next, string, comment]
  have weight : LineMode.code.weight c = 0 := by simp [LineMode.weight, list, closing]
  rw [next, weight, Int.add_zero]
  split_ifs at h ⊢
  · exact shows_mark h
  · exact shows_mark h
  · exact ⟨rfl, rfl⟩
  · exact ⟨rfl, rfl⟩
  · exact absurd h not_unfailed_fail

/-- Between two tokens a bracket is counted, and a quote or a semicolon changes the mode. -/
theorem shows_between {s : State τ} (between : s.mode = .between) {place : Nat} {c : Char}
    (h : (s.between place c).Unfailed) :
    (s.between place c).Shows (LineMode.code.next c) (s.lists + LineMode.code.weight c) := by
  rw [between_eq] at h ⊢
  by_cases blank : isBlank c = true
  · obtain ⟨next, weight⟩ := code_of_isBlank blank
    rw [if_pos blank, next, weight]
    exact ⟨by rw [between]; rfl, by simp⟩
  rw [if_neg blank] at h ⊢
  by_cases comment : c = ';'
  · subst comment
    exact ⟨rfl, rfl⟩
  rw [if_neg comment] at h ⊢
  by_cases closing : c = ')'
  · subst closing
    obtain ⟨mode, lists⟩ := shows_close h
    exact ⟨by rw [if_pos rfl, mode]; rfl, lists⟩
  rw [if_neg closing] at h ⊢
  by_cases dot : c = '.'
  · subst dot
    obtain ⟨mode, lists⟩ := shows_dot h
    exact ⟨by rw [if_pos rfl, mode, between]; rfl, by rw [if_pos rfl, lists]; rfl⟩
  rw [if_neg dot] at h ⊢
  have started := starting_eq h
  rw [started] at h ⊢
  exact shows_opened between comment closing h

theorem shows_resume {s : State τ} (between : s.mode = .between) {c : Char}
    (h : (s.resume c).Unfailed) :
    (s.resume c).Shows (LineMode.code.next c) (s.lists + LineMode.code.weight c) := by
  have resumed := resume_eq (unfailed_of_resume h) c
  rw [resumed] at h ⊢
  exact shows_between between h

/-- Where the next character stands makes no difference. -/
theorem shows_step_iff {s : State τ} {c : Char} {mode : LineMode} {depth : Int} :
    (s.step c).Shows mode depth ↔ (s.consume c).Shows mode depth :=
  ⟨fun shows => ⟨shows.mode, shows.depth⟩, fun shows => ⟨shows.mode, shows.depth⟩⟩

/-- Inside a line, whoever counts brackets goes along with the reader, as long as no comment comes
to a carriage return. -/
theorem shows_step {s : State τ} {mode : LineMode} {depth : Int} (shows : s.Shows mode depth)
    {c : Char} (noFeed : c ≠ '\n') (noReturn : mode = .comment → c ≠ '\r')
    (h : (s.step c).Unfailed) :
    (s.step c).Shows (mode.next c) (depth + mode.weight c) := by
  obtain ⟨seen, rfl⟩ := shows
  replace h : (s.consume c).Unfailed := h
  rw [shows_step_iff]
  cases current : s.mode with
  | between =>
    obtain rfl : LineMode.code = mode := line_eq seen current rfl
    simp only [consume, current] at h ⊢
    exact shows_between current h
  | atom start chars =>
    obtain rfl : LineMode.code = mode := line_eq seen current rfl
    simp only [consume, current] at h ⊢
    split at h
    · next same =>
      obtain ⟨next, weight⟩ := code_of_isAtomChar same
      rw [if_pos same, next, weight, Int.add_zero]
      exact ⟨rfl, rfl⟩
    · next other =>
      obtain ⟨ended, lists⟩ := endAtom_shows (unfailed_of_resume h)
      rw [if_neg other, ← lists]
      exact shows_resume ended h
  | string chars =>
    obtain rfl : LineMode.string = mode := line_eq seen current rfl
    rw [show LineMode.string.weight c = 0 from rfl, Int.add_zero]
    simp only [consume, current, LineMode.next]
    by_cases quote : c = '"'
    · subst quote
      exact ⟨rfl, congrArg Nat.cast (lists_supply s _)⟩
    rw [if_neg quote, if_neg quote]
    split_ifs
    · exact ⟨rfl, rfl⟩
    · exact ⟨rfl, rfl⟩
  | escape start chars =>
    obtain rfl : LineMode.escape = mode := line_eq seen current rfl
    rw [show LineMode.escape.weight c = 0 from rfl, Int.add_zero]
    cases escaped : unescape? c with
    | some d =>
      simp only [consume, current, escaped]
      exact ⟨rfl, rfl⟩
    | none =>
      simp only [consume, current, escaped] at h
      exact absurd h not_unfailed_fail
  | comma =>
    obtain rfl : LineMode.code = mode := line_eq seen current rfl
    simp only [consume, current] at h ⊢
    split at h
    · next splicing =>
      subst splicing
      rw [if_pos rfl]
      exact (Int.add_zero _).symm ▸ shows_mark h
    · next other =>
      have marked := mark_eq (unfailed_of_resume h)
      rw [if_neg other, ← (shows_mark (unfailed_of_resume h)).depth]
      exact shows_resume (by rw [marked]) h
  | comment start =>
    obtain rfl : LineMode.comment = mode := line_eq seen current rfl
    simp only [consume, current, if_neg noFeed, if_neg (noReturn rfl)] at h ⊢
    exact ⟨by rw [current]; rfl, (Int.add_zero _).symm⟩
  | commentReturn start | failed fault => simp [current, Mode.line?] at seen

/-- So the scan of a line goes along with the reader. -/
theorem shows_run {s : State τ} {mode : LineMode} {depth : Int} (shows : s.Shows mode depth)
    {line : List Char} (noFeed : '\n' ∉ line) (noReturn : '\r' ∉ line)
    (h : (s.run line).Unfailed) :
    (s.run line).Shows (mode.scan line).1 (depth + (mode.scan line).2) := by
  induction line generalizing s mode depth with
  | nil => exact (Int.add_zero depth).symm ▸ shows
  | cons c line ih =>
    obtain ⟨isFeed, noFeed⟩ := List.ne_and_not_mem_of_not_mem_cons noFeed
    obtain ⟨isReturn, noReturn⟩ := List.ne_and_not_mem_of_not_mem_cons noReturn
    rw [LineMode.scan_cons, ← Int.add_assoc]
    have shows := shows_step shows isFeed.symm (fun _ => isReturn.symm) (unfailed_of_run h)
    exact ih shows noFeed noReturn h

/-- What is seen at the start of the next line: a string goes on, and nothing else does. -/
theorem shows_lineFeed {s : State τ} {mode : LineMode} {depth : Int} (shows : s.Shows mode depth)
    (h : (s.step '\n').Unfailed) :
    (s.step '\n').Shows (if mode.isOpen then .string else .code) depth := by
  obtain ⟨seen, rfl⟩ := shows
  replace h : (s.consume '\n').Unfailed := h
  rw [shows_step_iff]
  cases current : s.mode with
  | between =>
    obtain rfl : LineMode.code = mode := line_eq seen current rfl
    simp only [consume, current] at h ⊢
    exact ⟨by rw [show s.between s.offset '\n' = s from rfl, current]; rfl, rfl⟩
  | atom start chars =>
    obtain rfl : LineMode.code = mode := line_eq seen current rfl
    simp only [consume, current, show Atom.isAtomChar '\n' = false by decide, Bool.false_eq_true,
      if_false] at h ⊢
    obtain ⟨ended, lists⟩ := endAtom_shows (unfailed_of_resume h)
    rw [← lists]
    simpa [LineMode.next, LineMode.weight, LineMode.isOpen] using shows_resume ended h
  | string chars =>
    obtain rfl : LineMode.string = mode := line_eq seen current rfl
    simp only [consume, current]
    exact ⟨rfl, rfl⟩
  | escape start chars =>
    simp only [consume, current, show unescape? '\n' = none by decide] at h
    exact absurd h not_unfailed_fail
  | comma =>
    obtain rfl : LineMode.code = mode := line_eq seen current rfl
    simp only [consume, current, show '\n' ≠ '@' by decide, if_false] at h ⊢
    have marked := mark_eq (unfailed_of_resume h)
    rw [← (shows_mark (unfailed_of_resume h)).depth]
    simpa [LineMode.next, LineMode.weight, LineMode.isOpen] using
      shows_resume (by rw [marked]) h
  | comment start =>
    obtain rfl : LineMode.comment = mode := line_eq seen current rfl
    simp only [consume, current, if_true]
    exact ⟨rfl, rfl⟩
  | commentReturn start | failed fault => simp [current, Mode.line?] at seen

end State

end Reader

end GuardedLisp
