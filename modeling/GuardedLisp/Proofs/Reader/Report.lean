import GuardedLisp.Proofs.Reader.Single

/-!
# What a report points at

A report is about a place in the text.  Places are counted in bytes and the text around them in
characters, of which one may take several bytes.  The two agree because the reader stops between
two characters only: what it has left to read is the end of the text, and the place is where that
begins.

So a report shows the character that starts at its place, and none just if the place is the end of
the text.  Around the place it shows a window of the text on one line, with a mark on either side
where text was cut off.

## Main definitions

* `Snippet.Window`: how a text is parted around a place, with what is shown of it in the middle
* `Snippet.OnOneLine`: a text, and the line on which it is shown
* `ParseError.PointsAt`: a report is about a place in a text
* `Reader.Goal.Refuses`: a text is refused, be it that one form was asked for or all

## Main results

* `Snippet.Window.around_eq`: a snippet shows a window of the text on one line
* `Reader.parted_of_failed`: a fault shows between two characters
* `Reader.offset_of_early`: a text that ends too early is reported at its end
* `Reader.Goal.Refuses.points_at`: a report is about the place of the fault
-/

namespace GuardedLisp

open Reader (bytes bytes_cons bytes_append)

/-! ## Snippets -/

namespace Snippet

/-- How a text is parted around a place, which is given in bytes: what is cut off at the front, what
is shown before the place and from there on, and what is cut off at the back.  What is shown starts
20 characters before the place, or where the text starts.  It takes 100 characters, or it ends where
the text ends. -/
structure Window (text : List Char) (place : Nat) where
  front : List Char
  before : List Char
  behind : List Char
  back : List Char
  parted : (front ++ before) ++ (behind ++ back) = text
  stands : bytes (front ++ before) = place
  before_le : before.length ≤ 20
  before_eq : front ≠ [] → before.length = 20
  shown_le : (before ++ behind).length ≤ 100
  shown_eq : back ≠ [] → (before ++ behind).length = 100

/-- A text, and the line on which it is shown: a line feed is written as an escape, and a carriage
return is left out. -/
inductive OnOneLine : List Char → List Char → Prop
  | nil : OnOneLine [] []
  | lineFeed {text line : List Char} :
      OnOneLine text line → OnOneLine ('\n' :: text) ('\\' :: 'n' :: line)
  | carriageReturn {text line : List Char} : OnOneLine text line → OnOneLine ('\r' :: text) line
  | plain {c : Char} {text line : List Char} :
      c ≠ '\n' → c ≠ '\r' → OnOneLine text line → OnOneLine (c :: text) (c :: line)

/-- What stands for text that was cut off, if there was any. -/
def cutMark (text : List Char) : List Char := if text = [] then [] else ['[', '.', '.', '.', ']']

theorem onOneLine_flatten (text : List Char) : OnOneLine text (flatten text) := by
  induction text with
  | nil => exact .nil
  | cons c text ih =>
    unfold flatten at ih ⊢
    rw [List.flatMap_cons]
    split_ifs with feed ret
    · subst feed
      exact .lineFeed ih
    · subst ret
      exact .carriageReturn ih
    · exact .plain feed ret ih

theorem flatten_append (first second : List Char) :
    flatten (first ++ second) = flatten first ++ flatten second := List.flatMap_append

theorem flatten_cutMark (text : List Char) : flatten (cutMark text) = cutMark text := by
  unfold cutMark
  split <;> rfl

namespace Window

/-- The window around the place where a text is parted in two. -/
def atParting (first second : List Char) : Window (first ++ second) (bytes first) where
  front := first.take (first.length - 20)
  before := first.drop (first.length - 20)
  behind := second.take (100 - (first.drop (first.length - 20)).length)
  back := second.drop (100 - (first.drop (first.length - 20)).length)
  parted := by rw [List.take_append_drop, List.take_append_drop]
  stands := by rw [List.take_append_drop]
  before_le := by
    rw [List.length_drop]
    omega
  before_eq := by
    intro some
    have long : first.length - 20 ≠ 0 := fun short => some (by rw [short, List.take_zero])
    rw [List.length_drop]
    omega
  shown_le := by
    rw [List.length_append, List.length_take, List.length_drop]
    omega
  shown_eq := by
    intro some
    have long := List.length_lt_of_drop_ne_nil some
    rw [List.length_append, List.length_take, Nat.min_eq_left (Nat.le_of_lt long)]
    rw [List.length_drop]
    omega

variable {text : List Char} {place : Nat} (w : Window text place)

/-- There is room in a window for what comes first behind the place. -/
theorem head?_behind : w.behind.head? = (w.behind ++ w.back).head? := by
  cases behind : w.behind with
  | cons c chars => rfl
  | nil =>
    by_cases none : w.back = []
    · rw [none, List.append_nil]
    · have full := w.shown_eq none
      have short := w.before_le
      rw [behind, List.append_nil] at full
      omega

/-- A window starts where the snippet does. -/
theorem start_eq : start text place = w.front.length := by
  have chars := Reader.charsBefore_append (w.front ++ w.before) (w.behind ++ w.back)
  rw [w.parted, w.stands, List.length_append] at chars
  rw [start, chars, lead]
  by_cases none : w.front = []
  · have short := w.before_le
    rw [none, List.length_nil]
    omega
  · have full := w.before_eq none
    omega

/-- What is shown in a window is what the snippet takes of the text. -/
theorem take_eq : (text.drop w.front.length).take width = w.before ++ w.behind := by
  have rest : text.drop w.front.length = (w.before ++ w.behind) ++ w.back := by
    have dropped : (w.front ++ (w.before ++ (w.behind ++ w.back))).drop w.front.length =
        w.before ++ (w.behind ++ w.back) := List.drop_left
    rwa [← List.append_assoc, w.parted, ← List.append_assoc] at dropped
  rw [rest]
  by_cases none : w.back = []
  · rw [none, List.append_nil]
    exact List.take_of_length_le w.shown_le
  · exact List.take_left' (w.shown_eq none)

theorem length_eq :
    text.length = w.front.length + (w.before ++ w.behind).length + w.back.length := by
  have size := congrArg List.length w.parted
  simp only [List.length_append] at size ⊢
  omega

/-- **A snippet shows a window of the text on one line**, with marks where text was cut off. -/
theorem around_eq :
    around text place = cutMark w.front ++ flatten (w.before ++ w.behind) ++ cutMark w.back := by
  -- Text is cut off at the front if the window starts behind the start of the text, and at the
  -- back if it ends before the end.
  have front : (if 0 < w.front.length then ellipsis else []) = cutMark w.front := by
    cases w.front <;> rfl
  have back : (if w.front.length + (w.before ++ w.behind).length < text.length then ellipsis
      else []) = cutMark w.back := by
    rw [w.length_eq]
    cases w.back with
    | nil => exact if_neg (Nat.lt_irrefl _)
    | cons c chars => exact if_pos (Nat.lt_add_of_pos_right (Nat.succ_pos _))
  simp only [around, w.start_eq, w.take_eq, front, back, flatten_append, flatten_cutMark]

end Window

end Snippet

/-! ## Places -/

namespace Reader

variable {first second : List Char}

/-- A place where a text is parted in two is one between two characters. -/
theorem isValid_bytes {source : String} (parted : first ++ second = source.toList) :
    (⟨bytes first⟩ : String.Pos.Raw).IsValid source := by
  rw [String.Pos.Raw.isValid_iff_exists_append]
  refine ⟨String.ofList first, String.ofList second, ?_, rfl⟩
  rw [← String.ofList_append, parted, String.ofList_toList]

theorem utf8GetAux?_bytes (first second : List Char) (start : Nat) :
    String.Pos.Raw.utf8GetAux? (first ++ second) ⟨start⟩ ⟨start + bytes first⟩ =
      second.head? := by
  induction first generalizing start with
  | nil =>
    cases second with
    | nil => rfl
    | cons c second => exact if_pos rfl
  | cons c first ih =>
    have later : (⟨start⟩ : String.Pos.Raw) ≠ ⟨start + bytes (c :: first)⟩ := by
      intro same
      have same : start = start + bytes (c :: first) := congrArg String.Pos.Raw.byteIdx same
      have some := c.utf8Size_pos
      rw [bytes_cons] at same
      omega
    refine (if_neg later).trans ?_
    rw [bytes_cons, ← Nat.add_assoc]
    exact ih (start + c.utf8Size)

/-- What stands at such a place is the first character of the second part. -/
theorem get?_bytes {source : String} (parted : first ++ second = source.toList) :
    (⟨bytes first⟩ : String.Pos.Raw).get? source = second.head? := by
  have found := utf8GetAux?_bytes first second 0
  rwa [parted, Nat.zero_add] at found

/-- Only nothing takes no bytes. -/
theorem bytes_eq_iff {source : String} (parted : first ++ second = source.toList) :
    bytes first = source.utf8ByteSize ↔ second = [] := by
  have sizes : bytes first + bytes second = source.utf8ByteSize := by
    rw [← bytes_append, parted, bytes_toList]
  constructor
  · intro whole
    apply eq_nil_of_bytes
    omega
  · intro none
    rw [none, bytes_nil, Nat.add_zero] at sizes
    exact sizes

/-! ## Faults -/

/-- **A fault shows between two characters**: a text in which it is met is parted there. -/
theorem parted_of_failed {goal : Goal} {text : List Char} {table : SymbolTable} {fault : Fault}
    (failed : (scan goal text table).mode = .failed fault) :
    ∃ first second, first ++ second = text ∧ bytes first = fault.offset := by
  obtain ⟨current, ⟨tokens, begins, -⟩, mode⟩ := State.traces_finish goal table text
  rw [failed] at mode
  obtain ⟨left, rest, rfl, -, stands⟩ := mode
  obtain ⟨first, rfl⟩ := (List.suffix_append left rest).trans begins.suffix
  refine ⟨first, rest, rfl, ?_⟩
  rw [bytes_append] at stands
  omega

/-- If the token at the end of the text is not complete there then the fault is the end. -/
theorem State.offset_of_finish {s : State} {last : Option Char}
    (fits : s.mode.Fits s.offset last) {fault : Fault} (failed : s.finish.mode = .failed fault)
    (early : fault.cause = .endOfText) : fault.offset = s.offset := by
  rw [finish_eq] at failed
  rcases mode_settle failed with flushed | rfl
  · cases current : s.mode with
    | string chars | escape start chars =>
      simp only [flush, current] at flushed
      cases flushed
      rfl
    | _ =>
      refine absurd early (cause_of_flush fits flushed ?_ ?_)
      · intro chars string
        cases current.symm.trans string
      · intro start chars escape
        cases current.symm.trans escape
  · exact offset_flush s

/-- **A text that ends too early is reported at its end.** -/
theorem offset_of_early {goal : Goal} {text : List Char} {table : SymbolTable} {fault : Fault}
    (failed : (scan goal text table).mode = .failed fault) (early : fault.cause = .endOfText) :
    fault.offset = bytes text := by
  have begun : (State.initial goal table).mode.Fits (State.initial goal table).offset none :=
    trivial
  have shown := State.offset_of_finish (State.fits_run begun text) failed early
  rw [State.offset_run] at shown
  exact shown.trans (Nat.zero_add _)

theorem Cause.eq_endOfText_of_kind {cause : Cause} (kind : cause.kind = .incomplete) :
    cause = .endOfText := by
  cases cause with
  | endOfText => rfl
  | _ => cases kind

/-! ## Reports -/

/-- A text is refused with a report, be it that exactly one form was asked for or all forms. -/
def Goal.Refuses (source : String) (table : SymbolTable) (report : ParseError) : Goal → Prop
  | .one => (readOne source table).1 = .error report
  | .all => (readAll source table).1 = .error report

/-- A text is refused with the report of the fault that is met in it. -/
theorem Goal.Refuses.exists_fault {goal : Goal} {source : String} {table : SymbolTable}
    {report : ParseError} (refused : goal.Refuses source table report) :
    ∃ fault, (scan goal source.toList table).result = .error fault ∧
      report = fault.report source.toList := by
  cases goal with
  | all => exact exists_fault_of_read refused
  | one =>
    simp only [Refuses, readOne] at refused
    cases found : (read .one source table).1 with
    | ok forms =>
      rw [found] at refused
      cases refused
    | error other =>
      rw [found] at refused
      obtain rfl := Except.error.inj refused
      exact exists_fault_of_read found

end Reader

/-- A report is about a place in a text, which is given in bytes.  The place is in the text or at
its end, and between two characters.  The report shows the character that starts there, and none
just if the text ends there.  Around the place it shows a window of the text on one line, in which
that character is the first one behind the place, with marks where text was cut off. -/
structure ParseError.PointsAt (report : ParseError) (source : String) (place : Nat) : Prop where
  place_le : place ≤ source.utf8ByteSize
  isValid : (⟨place⟩ : String.Pos.Raw).IsValid source
  found_eq : report.found = ((⟨place⟩ : String.Pos.Raw).get? source).map String.singleton
  found_eq_none_iff : report.found = none ↔ place = source.utf8ByteSize
  shows : ∃ (w : Snippet.Window source.toList place) (line : List Char),
    report.found = w.behind.head?.map String.singleton ∧
    Snippet.OnOneLine (w.before ++ w.behind) line ∧
    report.context =
      some (String.ofList (Snippet.cutMark w.front ++ line ++ Snippet.cutMark w.back))

namespace Reader

/-- The report of a fault that shows between two characters is about that place. -/
theorem Fault.pointsAt_report {fault : Fault} {source : String} {first second : List Char}
    (parted : first ++ second = source.toList) (stands : bytes first = fault.offset) :
    (fault.report source.toList).PointsAt source fault.offset := by
  have found := found_report parted stands
  rw [← stands]
  refine ⟨?_, isValid_bytes parted, ?_, ?_, ?_⟩
  · rw [← bytes_toList, ← parted, bytes_append]
    exact Nat.le_add_right ..
  · rw [found, get?_bytes parted]
  · rw [found, bytes_eq_iff parted, Option.map_eq_none_iff, List.head?_eq_none_iff]
  · have w : Snippet.Window source.toList (bytes first) :=
      parted ▸ Snippet.Window.atParting first second
    refine ⟨w, _, ?_, Snippet.onOneLine_flatten _, ?_⟩
    · have shown := get?_bytes w.parted
      rw [w.stands, get?_bytes parted] at shown
      rw [found, shown, w.head?_behind]
    · rw [← w.around_eq, stands]
      rfl

/-- **A report is about the place of the fault.**  Whatever text is refused, for one form or for
all, the fault that is met in it shows in the text or at its end, between two characters, and the
report shows the character there, if there is any, and a window of the text around it.  A text that
is reported as incomplete is so at its end. -/
theorem Goal.Refuses.points_at {goal : Goal} {source : String} {table : SymbolTable}
    {report : ParseError} (refused : goal.Refuses source table report) :
    ∃ fault, (scan goal source.toList table).result = .error fault ∧
      report = fault.report source.toList ∧ report.PointsAt source fault.offset ∧
      (report.kind = .incomplete → fault.offset = source.utf8ByteSize) := by
  obtain ⟨fault, found, rfl⟩ := refused.exists_fault
  have failed := State.result_eq_error_iff.mp found
  obtain ⟨first, second, parted, stands⟩ := parted_of_failed failed
  refine ⟨fault, found, rfl, Fault.pointsAt_report parted stands, ?_⟩
  intro kind
  rw [offset_of_early failed (Cause.eq_endOfText_of_kind kind), bytes_toList]

/-- A string on two lines, with an escape sequence that there is not. -/
def misspelled : String := "(a \"äöüäöüäöü\r\näöüäöü\\q\")"

/-- The escape sequence stands behind 21 characters that take 36 bytes. -/
theorem Goal.points_at_misspelled :
    ∃ report, Goal.all.Refuses misspelled .initial report ∧ report.PointsAt misspelled 36 ∧
      report.found = some "\\" ∧
      report.context = some "[...]a \"äöüäöüäöü\\näöüäöü\\q\")" := by
  have found : Fails misspelled .initial ⟨.unknownEscape, 36⟩ :=
    fails_iff.mpr (by decide +kernel)
  have refused : Goal.all.Refuses misspelled .initial (Fault.report ⟨.unknownEscape, 36⟩
      misspelled.toList) := congrArg Prod.fst (readAll_of_fails found)
  obtain ⟨fault, met, same, points, -⟩ := refused.points_at
  obtain rfl : ⟨.unknownEscape, 36⟩ = fault := Except.error.inj (found.symm.trans met)
  exact ⟨_, refused, points, by decide +kernel, by decide +kernel⟩

end Reader

end GuardedLisp
