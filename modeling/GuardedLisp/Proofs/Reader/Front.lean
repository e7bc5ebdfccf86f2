import GuardedLisp.Proofs.Reader.Stack

/-!
# The tokens at the front of a text

A text is said to begin with tokens here if they can be split off at its front, whatever the rest
may be.  A place in the text has tokens before it if the text begins with those up to there, or up
to a string that is not closed there.  There is one way only to split tokens off, so there is at
most one list of tokens before a place.

## Main definitions

* `Reader.Begins`: how a text begins with tokens
* `Reader.LiesBefore`: the tokens of a text that lie before a place

## Main results

* `Reader.Lexeme.unique`: at most one token can be read at a place
* `Reader.LiesBefore.unique`: the tokens before a place are determined
-/

namespace GuardedLisp

namespace Reader

/-! ## The tokens at the front of a text -/

/-- How a text begins with tokens, blanks and comments between them, before a rest that is given
last. -/
inductive Begins : List Char → List Token → List Char → Prop
  | nil (rest : List Char) : Begins rest [] rest
  | blank {c : Char} {text rest : List Char} {tokens : List Token} :
      isBlank c = true → Begins text tokens rest → Begins (c :: text) tokens rest
  | comment {body text rest : List Char} {tokens : List Token} :
      '\n' ∉ body → '\r' ∉ body → EndsLine text → Begins text tokens rest →
      Begins (';' :: (body ++ text)) tokens rest
  | token {lexeme text rest : List Char} {token : Token} {tokens : List Token} :
      Lexeme lexeme token → token.EndsBefore text → (lexeme = [','] → text.head? ≠ some '@') →
      Begins text tokens rest → Begins (lexeme ++ text) (token :: tokens) rest

theorem Begins.trans {text mid rest : List Char} {tokens more : List Token}
    (first : Begins text tokens mid) (second : Begins mid more rest) :
    Begins text (tokens ++ more) rest := by
  induction first with
  | nil => exact second
  | blank blank _ ih => exact .blank blank (ih second)
  | comment noFeed noReturn ends _ ih => exact .comment noFeed noReturn ends (ih second)
  | token written ends noAt _ ih => exact .token written ends noAt (ih second)

/-- How many bytes a text takes. -/
def bytes (text : List Char) : Nat := (String.ofList text).utf8ByteSize

@[simp] theorem bytes_nil : bytes [] = 0 := rfl

@[simp] theorem bytes_cons (c : Char) (text : List Char) :
    bytes (c :: text) = c.utf8Size + bytes text := by
  have parts : String.ofList (c :: text) = String.singleton c ++ String.ofList text := by simp
  rw [bytes, parts, String.utf8ByteSize_append, String.utf8ByteSize_singleton, bytes]

/-- What may stand between the last token and the place where the reader stops: nothing, or a
string that is not closed. -/
inductive Unclosed : List Char → Prop
  | nothing : Unclosed []
  | string {raw text : List Char} : Spelled raw text → Unclosed ('"' :: raw)
  | escape {raw text : List Char} : Spelled raw text → Unclosed ('"' :: (raw ++ ['\\']))

/-- The tokens of a text that lie before a place, which is given in bytes. -/
def LiesBefore (text : List Char) (place : Nat) (tokens : List Token) : Prop :=
  ∃ left rest, Begins text tokens (left ++ rest) ∧ Unclosed left ∧ place + bytes rest = bytes text

/-! ## Tokens are told apart from the left -/

theorem Begins.suffix {text rest : List Char} {tokens : List Token}
    (begins : Begins text tokens rest) : rest <:+ text := by
  induction begins with
  | nil => exact List.suffix_rfl
  | blank _ _ ih => exact ih.trans (List.suffix_cons ..)
  | comment _ _ _ _ ih => exact ih.trans ((List.suffix_append ..).trans (List.suffix_cons ..))
  | token _ _ _ _ ih => exact ih.trans (List.suffix_append ..)

/-- A run that stops where it has to is found again. -/
theorem takeWhile_append_of_stops {p : Char → Bool} {run rest : List Char}
    (all : ∀ c ∈ run, p c = true) (stops : ∀ c ∈ rest.head?, p c = false) :
    (run ++ rest).takeWhile p = run := by
  rw [List.takeWhile_append_of_pos all]
  cases rest with
  | nil => simp
  | cons c rest => simp [stops c rfl]

/-- An escape sequence denotes one text only. -/
theorem Spelled.unique {raw text other : List Char} (spelled : Spelled raw text)
    (again : Spelled raw other) : text = other := by
  induction spelled generalizing other with
  | nil =>
    cases again
    rfl
  | plain noQuote noEscape _ ih =>
    cases again with
    | plain _ _ again => rw [ih again]
    | escape => exact absurd rfl noEscape
  | escape known _ ih =>
    cases again with
    | plain _ noEscape => exact absurd rfl noEscape
    | escape again rest =>
      have same := (unescape?_eq_some_iff.mpr known).symm.trans (unescape?_eq_some_iff.mpr again)
      rw [ih rest, Option.some.inj same]

/-- What stands between quotes holds no quote that could close it, and does not end in the middle
of an escape sequence. -/
theorem Spelled.ne_append_quote {raw text other more last : List Char}
    (spelled : Spelled raw text) {text' : List Char} (longer : Spelled other text')
    (ends : last = [] ∨ last = ['\\']) : other ++ last ≠ raw ++ '"' :: more := by
  -- The longer one is spelled alike up to the quote, and nothing that is spelled begins with one.
  induction spelled generalizing other text' with
  | nil =>
    cases longer with
    | nil => obtain rfl | rfl := ends <;> simp
    | plain noQuote => simp [noQuote]
    | escape => simp
  | plain noQuote noEscape _ ih =>
    cases longer with
    | nil => obtain rfl | rfl := ends <;> simp [Ne.symm noEscape]
    | plain _ _ longer => simpa using fun _ => ih longer
    | escape => simp [Ne.symm noEscape]
  | escape _ _ ih =>
    cases longer with
    | nil => obtain rfl | rfl := ends <;> simp
    | plain _ noEscape => simp [noEscape]
    | escape _ longer => simpa using fun _ => ih longer

/-- A string ends at its first quote. -/
theorem Spelled.eq_of_append_eq {raw text other text' rest more : List Char}
    (spelled : Spelled raw text) (again : Spelled other text')
    (same : raw ++ '"' :: rest = other ++ '"' :: more) : raw = other := by
  have eq_nil {raw text gap text' rest more : List Char} (spelled : Spelled raw text)
      (longer : Spelled (raw ++ gap) text') (quote : '"' :: rest = gap ++ '"' :: more) :
      gap = [] := by
    cases gap with
    | nil => rfl
    | cons c gap =>
      obtain ⟨rfl, -⟩ := List.cons.inj quote
      exact absurd (List.append_nil _) (spelled.ne_append_quote longer (.inl rfl))
  obtain ⟨gap, rfl, quote⟩ | ⟨gap, rfl, quote⟩ := List.append_eq_append_iff.mp same
  · rw [eq_nil spelled again quote, List.append_nil]
  · rw [eq_nil again spelled quote, List.append_nil]

theorem append_ne_cons_of_isAtomChar {chars rest more : List Char} (some : chars ≠ [])
    (all : ∀ c ∈ chars, Atom.isAtomChar c = true) {c : Char} (other : Atom.isAtomChar c = false) :
    chars ++ rest ≠ c :: more := by
  obtain ⟨first, chars, rfl⟩ := List.exists_cons_of_ne_nil some
  intro same
  have isAtom := all first List.mem_cons_self
  rw [(List.cons.inj same).1, other] at isAtom
  exact Bool.false_ne_true isAtom

/-- At most one token can be read at a place. -/
theorem Lexeme.unique {lexeme other rest more : List Char} {token token' : Token}
    (written : Lexeme lexeme token) (again : Lexeme other token') (ends : token.EndsBefore rest)
    (ends' : token'.EndsBefore more) (noAt : lexeme = [','] → rest.head? ≠ some '@')
    (noAt' : other = [','] → more.head? ≠ some '@') (same : lexeme ++ rest = other ++ more) :
    lexeme = other ∧ token = token' := by
  -- The first character tells the tokens apart, but for the two marks that begin with a comma.
  cases written with
  | opening | closing | dot | quote | quasiquote =>
    cases again with
    | atom some all => exact absurd same.symm (append_ne_cons_of_isAtomChar some all (by decide))
    | _ => first | exact ⟨rfl, rfl⟩ | exact absurd same (by simp)
  | unquote =>
    cases again with
    | atom some all => exact absurd same.symm (append_ne_cons_of_isAtomChar some all (by decide))
    | unquote => exact ⟨rfl, rfl⟩
    | unquoteSplicing =>
      obtain rfl := (List.cons.inj same).2
      exact absurd rfl (noAt rfl)
    | _ => exact absurd same (by simp)
  | unquoteSplicing =>
    cases again with
    | atom some all => exact absurd same.symm (append_ne_cons_of_isAtomChar some all (by decide))
    | unquoteSplicing => exact ⟨rfl, rfl⟩
    | unquote =>
      obtain rfl := (List.cons.inj same).2
      exact absurd rfl (noAt' rfl)
    | _ => exact absurd same (by simp)
  | string spelled =>
    cases again with
    | atom some all => exact absurd same.symm (append_ne_cons_of_isAtomChar some all (by decide))
    | string again =>
      obtain rfl := spelled.eq_of_append_eq again (by simpa using same)
      rw [spelled.unique again]
      exact ⟨rfl, rfl⟩
    | _ => exact absurd same (by simp)
  | atom some all =>
    cases again with
    | atom _ again =>
      have chars : lexeme = other := by
        rw [← takeWhile_append_of_stops all ends, same, takeWhile_append_of_stops again ends']
      exact ⟨chars, congrArg Token.atom chars⟩
    | _ => exact absurd same (append_ne_cons_of_isAtomChar some all (by decide))

/-! ## The tokens before a place -/

theorem Unclosed.eq_quote {c : Char} {more : List Char} (unclosed : Unclosed (c :: more)) :
    c = '"' := by
  cases unclosed <;> rfl

/-- What is not closed does not begin with a token. -/
theorem Unclosed.not_lexeme {lexeme gap : List Char} {token : Token}
    (unclosed : Unclosed (lexeme ++ gap)) (written : Lexeme lexeme token) : False := by
  cases written with
  | opening | closing | dot | quote | quasiquote | unquote | unquoteSplicing =>
    exact absurd unclosed.eq_quote (by decide)
  | string spelled =>
    generalize same : '"' :: (_ ++ ['"']) ++ gap = left at unclosed
    cases unclosed with
    | nothing => cases same
    | string longer =>
      exact spelled.ne_append_quote longer (.inl rfl) (by simpa using (List.cons.inj same).2.symm)
    | escape longer =>
      exact spelled.ne_append_quote longer (.inr rfl) (by simpa using (List.cons.inj same).2.symm)
  | atom some all =>
    generalize same : lexeme ++ gap = left at unclosed
    cases unclosed with
    | nothing => exact some (List.append_eq_nil_iff.mp same).1
    | string | escape => exact append_ne_cons_of_isAtomChar some all (by decide) same

/-- Where a text that is not closed begins, there are no tokens to be split off before its end. -/
theorem Begins.eq_nil {left left' rest : List Char} {tokens : List Token}
    (begins : Begins (left ++ rest) tokens (left' ++ rest)) (unclosed : Unclosed left) :
    tokens = [] := by
  -- What is split off at the front would be part of the text that is not closed.
  have front (taken : List Char) {text : List Char} {tokens : List Token}
      (same : taken ++ text = left ++ rest) (more : Begins text tokens (left' ++ rest)) :
      ∃ gap, left = taken ++ gap := by
    obtain ⟨gap, rfl⟩ := (List.suffix_append left' rest).trans more.suffix
    exact ⟨gap, (List.append_cancel_right (List.append_assoc .. ▸ same)).symm⟩
  generalize same : left ++ rest = text at begins
  cases begins with
  | nil => rfl
  | blank blank more =>
    obtain ⟨gap, rfl⟩ := front [_] same.symm more
    rw [unclosed.eq_quote] at blank
    exact absurd blank (by decide)
  | comment _ _ _ more =>
    obtain ⟨gap, rfl⟩ := front (';' :: _) same.symm more
    exact absurd unclosed.eq_quote (by decide)
  | token written _ _ more =>
    obtain ⟨gap, rfl⟩ := front _ same.symm more
    exact (unclosed.not_lexeme written).elim

/-- Neither a blank nor a comment begins like a token. -/
theorem Lexeme.append_ne_cons {lexeme rest more : List Char} {token : Token}
    (written : Lexeme lexeme token) {c : Char} (other : isBlank c = true ∨ c = ';') :
    lexeme ++ rest ≠ c :: more := by
  cases written with
  | atom some all =>
    refine append_ne_cons_of_isAtomChar some all ?_
    simp only [isBlank, Bool.or_eq_true, decide_eq_true_eq] at other
    obtain (((rfl | rfl) | rfl) | rfl) | rfl := other <;> decide
  | _ =>
    intro same
    obtain ⟨rfl, -⟩ := List.cons.inj same
    revert other
    decide

/-- A comment takes what there is up to the end of its line. -/
theorem eq_of_endsLine {body text body' text' : List Char} (noFeed : '\n' ∉ body)
    (noReturn : '\r' ∉ body) (ends : EndsLine text) (noFeed' : '\n' ∉ body')
    (noReturn' : '\r' ∉ body') (ends' : EndsLine text') (same : body ++ text = body' ++ text') :
    body = body' ∧ text = text' := by
  have taken {body text : List Char} (noFeed : '\n' ∉ body) (noReturn : '\r' ∉ body)
      (ends : EndsLine text) :
      (body ++ text).takeWhile (fun c => c ≠ '\n' && c ≠ '\r') = body := by
    refine takeWhile_append_of_stops (fun c mem => ?_) ?_
    · have feed : c ≠ '\n' := fun feed => noFeed (feed ▸ mem)
      have ret : c ≠ '\r' := fun ret => noReturn (ret ▸ mem)
      simp [feed, ret]
    · obtain rfl | ⟨more, rfl⟩ | ⟨more, rfl⟩ := ends <;> simp
  obtain rfl : body = body' := by
    rw [← taken noFeed noReturn ends, same, taken noFeed' noReturn' ends']
  exact ⟨rfl, List.append_cancel_left same⟩

/-- Of two ways in which a text begins with tokens, one goes on where the other ends. -/
theorem Begins.goes_on {text rest rest' : List Char} {tokens tokens' : List Token}
    (begins : Begins text tokens rest) (again : Begins text tokens' rest') :
    (∃ more, Begins rest more rest' ∧ tokens' = tokens ++ more) ∨
      ∃ more, Begins rest' more rest ∧ tokens = tokens' ++ more := by
  induction begins generalizing tokens' with
  | nil => exact .inl ⟨tokens', again, rfl⟩
  | @blank c text _ _ blank begins ih =>
    generalize same : c :: text = whole at again
    cases again with
    | nil => exact .inr ⟨_, same ▸ .blank blank begins, rfl⟩
    | blank _ again =>
      obtain ⟨-, rfl⟩ := List.cons.inj same
      exact ih again
    | comment =>
      obtain ⟨rfl, -⟩ := List.cons.inj same
      exact absurd blank (by decide)
    | token written => exact absurd same.symm (written.append_ne_cons (.inl blank))
  | @comment body text _ _ noFeed noReturn ends begins ih =>
    generalize same : ';' :: (body ++ text) = whole at again
    cases again with
    | nil => exact .inr ⟨_, same ▸ .comment noFeed noReturn ends begins, rfl⟩
    | blank blank =>
      obtain ⟨rfl, -⟩ := List.cons.inj same
      exact absurd blank (by decide)
    | comment noFeed' noReturn' ends' again =>
      obtain ⟨-, rfl⟩ := eq_of_endsLine noFeed noReturn ends noFeed' noReturn' ends'
        (List.cons.inj same).2
      exact ih again
    | token written => exact absurd same.symm (written.append_ne_cons (.inr rfl))
  | @token lexeme text _ _ _ written ends noAt begins ih =>
    generalize same : lexeme ++ text = whole at again
    cases again with
    | nil => exact .inr ⟨_, same ▸ .token written ends noAt begins, rfl⟩
    | blank blank => exact absurd same (written.append_ne_cons (.inl blank))
    | comment => exact absurd same (written.append_ne_cons (.inr rfl))
    | token written' ends' noAt' again =>
      obtain ⟨rfl, rfl⟩ := written.unique written' ends ends' noAt noAt' same
      obtain rfl := List.append_cancel_left same
      obtain ⟨more, goesOn, rfl⟩ | ⟨more, goesOn, rfl⟩ := ih again
      · exact .inl ⟨more, goesOn, rfl⟩
      · exact .inr ⟨more, goesOn, rfl⟩

/-- There is one way only to split tokens off up to a place. -/
theorem Begins.unique {text left left' rest : List Char} {tokens tokens' : List Token}
    (begins : Begins text tokens (left ++ rest)) (unclosed : Unclosed left)
    (again : Begins text tokens' (left' ++ rest)) (unclosed' : Unclosed left') :
    tokens = tokens' := by
  obtain ⟨more, goesOn, rfl⟩ | ⟨more, goesOn, rfl⟩ := begins.goes_on again
  · rw [goesOn.eq_nil unclosed, List.append_nil]
  · rw [goesOn.eq_nil unclosed', List.append_nil]

theorem bytes_append (text more : List Char) : bytes (text ++ more) = bytes text + bytes more := by
  rw [bytes, String.ofList_append, String.utf8ByteSize_append, bytes, bytes]

theorem eq_nil_of_bytes {text : List Char} (none : bytes text = 0) : text = [] := by
  cases text with
  | nil => rfl
  | cons c text =>
    have := c.utf8Size_pos
    rw [bytes_cons] at none
    omega

/-- A place in a text is where one rest of it begins. -/
theorem eq_of_suffix {text rest rest' : List Char} (within : rest <:+ text)
    (within' : rest' <:+ text) (same : bytes rest = bytes rest') : rest = rest' := by
  obtain ⟨gap, rfl⟩ | ⟨gap, rfl⟩ := List.suffix_or_suffix_of_suffix within within'
  all_goals
    rw [bytes_append] at same
    have none : gap = [] := eq_nil_of_bytes (by omega)
    rw [none, List.nil_append]

/-- **The tokens before a place are determined.** -/
theorem LiesBefore.unique {text : List Char} {place : Nat} {tokens tokens' : List Token}
    (before : LiesBefore text place tokens) (again : LiesBefore text place tokens') :
    tokens = tokens' := by
  obtain ⟨left, rest, begins, unclosed, stands⟩ := before
  obtain ⟨left', rest', begins', unclosed', stands'⟩ := again
  have within : rest <:+ text := (List.suffix_append ..).trans begins.suffix
  have within' : rest' <:+ text := (List.suffix_append ..).trans begins'.suffix
  obtain rfl := eq_of_suffix within within' (by omega)
  exact begins.unique unclosed begins' unclosed'

end Reader

end GuardedLisp
