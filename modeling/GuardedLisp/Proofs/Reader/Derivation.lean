import GuardedLisp.Proofs.Reader.Tokens

/-!
# The reader accepts exactly its grammar

What the tokens of a text do to the stack is told by the grammar.  On the one hand an expression
that may start leaves the stack with its datum.  On the other hand a stack always knows where it
comes from: every open expression has been derived as far as it has been read.

## Main definitions

* `Reader.Stack.learn`: the stack once the texts of tokens are in the symbol table
* `Reader.Opens`: what has been read of open expressions
* `Reader.Stack.Derived`: what has been read of a text between two of its tokens

## Main results

* `Reader.takeAll_of_expression`: an expression leaves the stack with its datum
* `Reader.Stack.Derived.take`, `Reader.Stack.Derived.takeAll`: a stack knows where it comes from
* `Reader.readAll_eq_ok_iff`: a text can be read if and only if the grammar derives it
-/

namespace GuardedLisp

namespace Reader

variable {ι : Type} [Interner ι] {known : SymbolTable ι}

namespace Stack

/-- The stack once the texts of some tokens are in the symbol table. -/
def learn (st : Stack (SymbolTable ι)) (tokens : List Token) : Stack (SymbolTable ι) :=
  { st with symbols := st.symbols.insertAll (tokens.flatMap Token.names) }

theorem learn_append (st : Stack (SymbolTable ι)) (first second : List Token) :
    st.learn (first ++ second) = (st.learn first).learn second := by
  simp only [learn, List.flatMap_append, SymbolTable.insertAll_append]

theorem prefix_learn (st : Stack (SymbolTable ι)) (tokens : List Token) :
    st.symbols.symbols <+: (st.learn tokens).symbols.symbols :=
  SymbolTable.prefix_insertAll _ _

theorem starting_of_isReady {st : Stack (SymbolTable ι)} (ready : st.isReady = true)
    (next : Option (Stack (SymbolTable ι))) :
    st.starting next = next := if_pos ready

/-- Inside an open expression there is always room for another, unless it is too deep. -/
theorem isReady_of_cons {st : Stack (SymbolTable ι)} {innermost : Open} {outer : List Open}
    (pending : st.pending = innermost :: outer) (open_ : innermost.isClosing = false)
    (shallow : st.pending.length < maxDepth) : st.isReady = true := by
  rw [pending] at shallow
  simp [isReady, isSated, hasRoom, pending, open_] at shallow ⊢
  exact shallow

end Stack

/-! ## What the grammar derives is taken -/

/-- An expression leaves the stack with its datum, and elements leave an open list with theirs, if
the table that the data are told by has the symbols that the stack learns. -/
theorem takeAll_of_expression {depth : Nat} {tokens : List Token} {datum : Datum}
    (h : Expression known depth tokens datum) {st : Stack (SymbolTable ι)}
    (ready : st.isReady = true) (deep : st.pending.length = depth)
    (later : (st.learn tokens).symbols.symbols <+: known.symbols) :
    st.takeAll tokens = some ((st.learn tokens).supply datum) := by
  -- Elements are read with those before them in an open list, so the two motives differ in where
  -- the data go.
  refine @Expression.rec ι _ known
    (fun depth tokens datum _ => ∀ {st : Stack (SymbolTable ι)}, st.isReady = true →
      st.pending.length = depth → (st.learn tokens).symbols.symbols <+: known.symbols →
      st.takeAll tokens = some ((st.learn tokens).supply datum))
    (fun depth tokens data _ => ∀ {st : Stack (SymbolTable ι)} {items : List Datum}
      {outer : List Open}, st.pending = .list items :: outer → st.pending.length = depth →
      (st.learn tokens).symbols.symbols <+: known.symbols →
      st.takeAll tokens =
        some { st.learn tokens with pending := .list (data.reverse ++ items) :: outer })
    ?atom ?string ?marked ?empty ?list ?dotted ?nil ?cons depth tokens datum h st ready deep later
  case atom =>
    intro depth chars datum _ denotes st ready _ later
    have later : (st.symbols.insertAll (Token.atom chars).names).symbols <+: known.symbols := by
      simpa [Stack.learn] using later
    rw [Stack.takeAll_cons, Stack.take, Stack.starting_of_isReady ready,
      (atom?_eq_some_iff later).mpr denotes]
    simp [Stack.learn]
  case string =>
    intro depth text _ st ready _ _
    rw [Stack.takeAll_cons, Stack.take, Stack.starting_of_isReady ready]
    rfl
  case marked =>
    intro depth keyword operand datum _ derived ih st ready deep later
    rw [Stack.takeAll_cons, Stack.take, Stack.starting_of_isReady ready, deep,
      if_pos derived.lt_maxDepth, Option.bind_some, ih]
    · rfl
    · exact Stack.isReady_of_cons rfl rfl (by simp [deep, derived.lt_maxDepth])
    · simp [deep]
    · exact later
  case empty =>
    intro depth _ st ready _ _
    rw [Stack.takeAll_cons, Stack.take, Stack.starting_of_isReady ready]
    rfl
  case list =>
    intro depth tokens items _ some derived ih st ready deep later
    have later : (st.learn tokens).symbols.symbols <+: known.symbols := by
      simpa [Stack.learn, Token.names] using later
    rw [Stack.takeAll_cons, Stack.take, Stack.starting_of_isReady ready, Option.bind_some,
      Stack.takeAll_append, ih rfl (by simp [deep]) (by exact later), Option.bind_some,
      List.append_nil]
    simp [Stack.takeAll_cons, Stack.take, Stack.learn, Stack.supply, Token.names]
  case dotted =>
    intro depth tokens last items tail _ some derived derivedTail ih ihTail st ready deep later
    have laterTail : ((st.learn tokens).learn last).symbols.symbols <+: known.symbols := by
      rw [← Stack.learn_append]
      simpa [Stack.learn, Token.names] using later
    have later := ((st.learn tokens).prefix_learn last).trans laterTail
    obtain ⟨item, before, reversed⟩ :=
      List.exists_cons_of_ne_nil (List.reverse_ne_nil_iff.mpr some)
    rw [Stack.takeAll_cons, Stack.take, Stack.starting_of_isReady ready, Option.bind_some,
      Stack.takeAll_append, ih rfl (by simp [deep]) (by exact later), Option.bind_some,
      List.append_nil, reversed, Stack.takeAll_cons]
    simp only [Stack.take, Option.bind_some]
    rw [Stack.takeAll_append, ihTail]
    · simp [Stack.takeAll_cons, Stack.take, Stack.learn, Stack.supply, place, Token.names,
        ← reversed, SymbolTable.insertAll_append]
    · exact Stack.isReady_of_cons rfl rfl (by simp [deep, derivedTail.lt_maxDepth])
    · simp [deep]
    · exact laterTail
  case nil =>
    intro depth st items outer pending _ _
    simp [Stack.learn, SymbolTable.insertAll, ← pending]
  case cons =>
    intro depth first rest datum data derived _ ih ihRest st items outer pending deep later
    rw [Stack.learn_append] at later
    have ready := Stack.isReady_of_cons pending rfl (deep ▸ derived.lt_maxDepth)
    have supplied : ((st.learn first).supply datum).pending = .list (datum :: items) :: outer := by
      simp [Stack.learn, Stack.supply, pending, place]
    rw [Stack.takeAll_append, ih ready deep ((Stack.prefix_learn _ rest).trans later),
      Option.bind_some, ihRest supplied (by rw [supplied, ← deep, pending]; rfl) later,
      Stack.learn_append]
    simp [Stack.learn, Stack.supply, pending, place]

/-- Expressions at the top are the forms of the text. -/
theorem takeAll_of_expressions {tokens : List Token} {data : List Datum}
    (h : Expressions known 0 tokens data) (st : Stack (SymbolTable ι)) (outside : st.pending = [])
    (wanted : st.goal = .one → st.forms.length + data.length ≤ 1)
    (later : (st.learn tokens).symbols.symbols <+: known.symbols) :
    st.takeAll tokens = some { st.learn tokens with forms := data.reverse ++ st.forms } := by
  induction data generalizing tokens st with
  | nil =>
    cases h
    rfl
  | cons datum data ih =>
    rw [List.length_cons] at wanted
    cases h with
    | @cons _ first rest _ _ derived derivedRest =>
      have ready : st.isReady = true := by
        have unsated : st.isSated = false := by
          simp only [Stack.isSated, Bool.and_eq_false_iff, decide_eq_false_iff_not,
            Bool.not_eq_false', List.isEmpty_iff_length_eq_zero]
          by_cases goal : st.goal = .one
          · exact .inr (by have := wanted goal; omega)
          · exact .inl (.inl goal)
        simp [Stack.isReady, unsated, hasRoom, outside, maxDepth]
      rw [Stack.learn_append] at later
      rw [Stack.takeAll_append, takeAll_of_expression derived ready (by rw [outside]; rfl)
        ((Stack.prefix_learn _ rest).trans later), Option.bind_some,
        ih derivedRest _ _ _ (by exact later), Stack.learn_append]
      · simp [Stack.learn, Stack.supply, outside, place]
      · simp [Stack.learn, Stack.supply, outside, place]
      · intro goal
        have few := wanted goal
        simp only [Stack.supply, Stack.learn, outside, place, Option.toList_some,
          List.length_append, List.length_singleton]
        omega

/-! ## What is taken has been derived -/

/-- What has been read of open expressions. -/
inductive Opens (known : SymbolTable ι) : List Open → List Token → Prop
  | nil : Opens known [] []
  | list {items : List Datum} {outer : List Open} {before tokens : List Token} :
      hasRoom outer = true → Opens known outer before →
      Expressions known (outer.length + 1) tokens items.reverse →
      Opens known (.list items :: outer) (before ++ .opening :: tokens)
  | dotted {items : List Datum} {outer : List Open} {before tokens : List Token} :
      hasRoom outer = true → Opens known outer before → items ≠ [] →
      Expressions known (outer.length + 1) tokens items.reverse →
      Opens known (.dotted items :: outer) (before ++ .opening :: (tokens ++ [.dot]))
  | closing {items : List Datum} {tail : Datum} {outer : List Open}
      {before tokens last : List Token} :
      hasRoom outer = true → Opens known outer before → items ≠ [] →
      Expressions known (outer.length + 1) tokens items.reverse →
      Expression known (outer.length + 1) last tail →
      Opens known (.closing items tail :: outer) (before ++ .opening :: (tokens ++ .dot :: last))
  | marked {keyword : Symbol} {outer : List Open} {before : List Token} :
      hasRoom outer = true → Opens known outer before → outer.length + 1 < maxDepth →
      Opens known (.marked keyword :: outer) (before ++ [.mark keyword])

theorem Opens.mono {later : SymbolTable ι} (within : known.symbols <+: later.symbols)
    {pending : List Open} {tokens : List Token} (h : Opens known pending tokens) :
    Opens later pending tokens := by
  induction h with
  | nil => exact .nil
  | list room _ items ih => exact .list room ih (items.mono within)
  | dotted room _ nonempty items ih => exact .dotted room ih nonempty (items.mono within)
  | closing room _ nonempty items tail ih =>
    exact .closing room ih nonempty (items.mono within) (tail.mono within)
  | marked room _ deep ih => exact .marked room ih deep

theorem length_lt_of_hasRoom {pending : List Open} (room : hasRoom pending = true) :
    pending.length < maxDepth :=
  of_decide_eq_true (Bool.and_eq_true_iff.mp room).2

/-- An expression goes on with what was open, and if that is marks only then it is a form with
them. -/
theorem Opens.place {pending : List Open} {before : List Token} (h : Opens known pending before)
    (room : hasRoom pending = true) {tokens : List Token} {datum : Datum}
    (derived : Expression known pending.length tokens datum) :
    ((place pending datum).2 = none ∧ Opens known (place pending datum).1 (before ++ tokens)) ∨
      ∃ form, Reader.place pending datum = ([], some form) ∧
        Expression known 0 (before ++ tokens) form := by
  -- Induction on what is open; only marks pass the datum on to what is around them.
  induction h generalizing tokens datum with
  | nil => exact .inr ⟨datum, rfl, derived⟩
  | @list items outer before elements roomOuter opens done ih =>
    refine .inl ⟨rfl, ?_⟩
    rw [List.append_assoc, List.cons_append]
    refine .list roomOuter opens ?_
    rw [List.reverse_cons]
    exact done.append derived.single
  | @dotted items outer before elements roomOuter opens some done ih =>
    refine .inl ⟨rfl, ?_⟩
    rw [List.append_assoc, List.cons_append, List.append_assoc]
    exact .closing roomOuter opens some done derived
  | closing => simp [hasRoom, Open.isClosing] at room
  | @marked keyword outer before roomOuter opens deep ih =>
    have marked : Expression known outer.length (.mark keyword :: tokens)
        (Datum.marked keyword datum) := .marked (length_lt_of_hasRoom roomOuter) derived
    rw [List.append_assoc]
    exact ih roomOuter marked

namespace Stack

/-! ## What tokens leave as it is -/

/-- A token leaves the goal as it is, and brings no symbols but its own. -/
theorem goal_symbols_take {st next : Stack (SymbolTable ι)} {token : Token}
    (taken : st.take token = some next) :
    next.goal = st.goal ∧ next.symbols = st.symbols.insertAll token.names := by
  have started {r : Option (Stack (SymbolTable ι))} (taken : st.starting r = some next) :
      r = some next :=
    (Option.ite_none_right_eq_some.mp taken).2
  cases token with
  | opening =>
    obtain rfl := Option.some.inj (started taken)
    exact ⟨rfl, rfl⟩
  | string text =>
    obtain rfl := Option.some.inj (started taken)
    exact ⟨rfl, rfl⟩
  | mark keyword =>
    obtain ⟨-, same⟩ := Option.ite_none_right_eq_some.mp (started taken)
    obtain rfl := Option.some.inj same
    exact ⟨rfl, rfl⟩
  | atom chars =>
    obtain ⟨datum, -, rfl⟩ := Option.map_eq_some_iff.mp (started taken)
    exact ⟨rfl, rfl⟩
  | closing =>
    rw [take] at taken
    split at taken
    · obtain rfl := Option.some.inj taken
      exact ⟨rfl, rfl⟩
    · obtain rfl := Option.some.inj taken
      exact ⟨rfl, rfl⟩
    · cases taken
  | dot =>
    rw [take] at taken
    split at taken
    · obtain rfl := Option.some.inj taken
      exact ⟨rfl, rfl⟩
    · cases taken

theorem goal_symbols_takeAll {st last : Stack (SymbolTable ι)} {tokens : List Token}
    (taken : st.takeAll tokens = some last) :
    last.goal = st.goal ∧ last.symbols = (st.learn tokens).symbols := by
  induction tokens generalizing st with
  | nil =>
    obtain rfl := Option.some.inj taken
    exact ⟨rfl, rfl⟩
  | cons token tokens ih =>
    obtain ⟨next, one, rest⟩ := Option.bind_eq_some_iff.mp taken
    obtain ⟨goal, symbols⟩ := goal_symbols_take one
    obtain ⟨goal', symbols'⟩ := ih rest
    refine ⟨goal'.trans goal, ?_⟩
    rw [symbols', learn, learn, symbols, List.flatMap_cons, SymbolTable.insertAll_append]

/-! ## Where a stack comes from -/

/-- What has been read of a text between two of its tokens. -/
structure Derived (st : Stack (SymbolTable ι)) (tokens : List Token) : Prop where
  /-- The finished forms come first, and what is open after them. -/
  read : ∃ done before, tokens = done ++ before ∧
    Expressions st.symbols 0 done st.forms.reverse ∧ Opens st.symbols st.pending before
  /-- If one form is asked for then nothing follows it. -/
  single : st.goal = .one → st.forms.length + min st.pending.length 1 ≤ 1

theorem derived_initial (goal : Goal) (symbols : SymbolTable ι) :
    (initial goal symbols).Derived [] where
  read := ⟨[], [], rfl, .nil, .nil⟩
  single _ := by simp [initial]

/-- An expression that is added to what has been read. -/
theorem derived_supply (st : Stack (SymbolTable ι)) {done before tokens : List Token}
    {datum : Datum} (forms : Expressions st.symbols 0 done st.forms.reverse)
    (opens : Opens st.symbols st.pending before) (room : hasRoom st.pending = true)
    (derived : Expression st.symbols st.pending.length tokens datum)
    (first : st.goal = .one → st.forms = []) :
    (st.supply datum).Derived (done ++ (before ++ tokens)) := by
  obtain ⟨inside, opens⟩ | ⟨form, outside, derived⟩ := opens.place room derived
  · constructor
    · exact ⟨done, before ++ tokens, rfl, by simpa [supply, inside] using forms, opens⟩
    · intro goal
      simp only [supply, inside, first goal, Option.toList_none, List.nil_append, List.length_nil]
      omega
  · constructor
    · refine ⟨done ++ (before ++ tokens), [], by simp, ?_, ?_⟩
      · simpa [supply, outside] using forms.append derived.single
      · simpa [supply, outside] using Opens.nil
    · intro goal
      simp [supply, outside, first goal]

/-- An expression that may start comes first if one form is asked for. -/
theorem Derived.forms_eq_nil {st : Stack (SymbolTable ι)} {tokens : List Token}
    (h : st.Derived tokens) (ready : st.isReady = true) (goal : st.goal = .one) :
    st.forms = [] := by
  have few := h.single goal
  cases pending : st.pending with
  | nil => simpa [isReady, isSated, hasRoom, goal, pending, maxDepth] using ready
  | cons innermost outer =>
    rw [pending, List.length_cons] at few
    exact List.length_eq_zero_iff.mp (by omega)

/-- A list that is closed is a datum. -/
theorem expression_list {depth : Nat} {tokens : List Token} {items : List Datum}
    (shallow : depth < maxDepth) (h : Expressions known (depth + 1) tokens items) :
    Expression known depth (.opening :: (tokens ++ [.closing])) (Datum.chain items .nil) := by
  cases items with
  | nil =>
    cases h
    exact .empty shallow
  | cons => exact .list shallow (List.cons_ne_nil _ _) h

/-- **One more token has been read.** -/
theorem Derived.take {st next : Stack (SymbolTable ι)} {tokens : List Token} {token : Token}
    (h : st.Derived tokens) (taken : st.take token = some next) :
    next.Derived (tokens ++ [token]) := by
  obtain ⟨done, before, rfl, forms, opens⟩ := h.read
  have started {r : Option (Stack (SymbolTable ι))} (taken : st.starting r = some next) :
      hasRoom st.pending = true ∧ (st.goal = .one → st.forms = []) ∧ r = some next := by
    obtain ⟨ready, same⟩ := Option.ite_none_right_eq_some.mp taken
    exact ⟨(Bool.and_eq_true_iff.mp ready).2, h.forms_eq_nil ready, same⟩
  have inside {innermost : Open} {outer : List Open} (pending : st.pending = innermost :: outer)
      (goal : st.goal = .one) : st.forms = [] := by
    have few := h.single goal
    rw [pending, List.length_cons] at few
    exact List.length_eq_zero_iff.mp (by omega)
  rw [List.append_assoc]
  cases token with
  | opening =>
    obtain ⟨room, first, same⟩ := started taken
    obtain rfl := Option.some.inj same
    exact ⟨⟨done, before ++ [.opening], rfl, forms, .list room opens .nil⟩,
      fun goal => by simp [first goal]⟩
  | mark keyword =>
    obtain ⟨room, first, same⟩ := started taken
    obtain ⟨deep, same⟩ := Option.ite_none_right_eq_some.mp same
    obtain rfl := Option.some.inj same
    exact ⟨⟨done, before ++ [.mark keyword], rfl, forms, .marked room opens deep⟩,
      fun goal => by simp [first goal]⟩
  | string text =>
    obtain ⟨room, first, same⟩ := started taken
    obtain rfl := Option.some.inj same
    exact derived_supply st forms opens room (.string (length_lt_of_hasRoom room)) first
  | atom chars =>
    obtain ⟨room, first, same⟩ := started taken
    obtain ⟨datum, denoted, rfl⟩ := Option.map_eq_some_iff.mp same
    have within := st.symbols.prefix_insertAll (Token.atom chars).names
    have derived := Expression.atom (length_lt_of_hasRoom room)
      ((atom?_eq_some_iff List.prefix_rfl).mp denoted)
    exact derived_supply { st with symbols := _ } (forms.mono within) (opens.mono within) room
      derived first
  | closing =>
    rw [Stack.take] at taken
    split at taken
    · next items outer pending =>
      obtain rfl := Option.some.inj taken
      rw [pending] at opens
      cases opens with
      | @list _ _ before elements room opens derived =>
        have list := expression_list (length_lt_of_hasRoom room) derived
        simpa using derived_supply { st with pending := outer } forms opens room list
          (inside pending)
    · next items tail outer pending =>
      obtain rfl := Option.some.inj taken
      rw [pending] at opens
      cases opens with
      | @closing _ _ _ before elements last room opens some derived derivedTail =>
        have list := Expression.dotted (length_lt_of_hasRoom room)
          (List.reverse_ne_nil_iff.mpr some) derived derivedTail
        simpa using derived_supply { st with pending := outer } forms opens room list
          (inside pending)
    · cases taken
  | dot =>
    rw [Stack.take] at taken
    split at taken
    · next item items outer pending =>
      obtain rfl := Option.some.inj taken
      rw [pending] at opens
      cases opens with
      | @list _ _ before elements room opens derived =>
        refine ⟨⟨done, before ++ .opening :: (elements ++ [.dot]), by simp, forms, ?_⟩, ?_⟩
        · exact .dotted room opens (List.cons_ne_nil _ _) derived
        · exact fun goal => by simp [inside pending goal]
    · cases taken

/-- **A stack knows where it comes from.** -/
theorem Derived.takeAll {st last : Stack (SymbolTable ι)} {before tokens : List Token}
    (h : st.Derived before) (taken : st.takeAll tokens = some last) :
    last.Derived (before ++ tokens) := by
  induction tokens generalizing st before with
  | nil =>
    obtain rfl := Option.some.inj taken
    rwa [List.append_nil]
  | cons token tokens ih =>
    obtain ⟨next, one, rest⟩ := Option.bind_eq_some_iff.mp taken
    simpa using ih (h.take one) rest

end Stack

/-! ## The grammar -/

/-- A text can be read if and only if the grammar derives it, and then it holds the data that the
derivation denotes and brings its symbols into the table. -/
theorem read_eq_ok_iff {goal : Goal} {source : String} {symbols known : SymbolTable ι}
    {forms : List Datum} :
    read goal source symbols = (.ok forms, known) ↔
      ∃ tokens, Splits source.toList tokens ∧ Expressions known 0 tokens forms ∧
        (goal = .one → forms.length = 1) ∧
        known = symbols.insertAll (tokens.flatMap Token.names) := by
  rw [read_eq_ok_iff_takeAll]
  constructor
  · rintro ⟨tokens, st, splits, taken, complete, rfl, rfl⟩
    have same : st.goal = goal := (Stack.goal_symbols_takeAll taken).1
    have derived := (Stack.derived_initial goal _).takeAll taken
    obtain ⟨done, before, parted, expressions, opens⟩ := derived.read
    simp only [Stack.isComplete, Bool.and_eq_true, List.isEmpty_iff, Bool.or_eq_true,
      decide_eq_true_eq, Bool.not_eq_true'] at complete
    obtain ⟨outside, some⟩ := complete
    rw [outside] at opens
    cases opens
    rw [List.append_nil, List.nil_append] at parted
    subst parted
    have few (one : goal = .one) : st.forms.length ≤ 1 := by
      simpa [outside] using derived.single (same.trans one)
    refine ⟨_, splits, expressions, fun one => ?_, (Stack.goal_symbols_takeAll taken).2⟩
    have nonempty : st.forms ≠ [] := by simpa [same, one] using some
    have := few one
    have := List.length_pos_iff.mpr nonempty
    rw [List.length_reverse]
    omega
  · rintro ⟨tokens, splits, expressions, one, rfl⟩
    have taken := takeAll_of_expressions expressions (Stack.initial goal symbols) rfl
      (by simpa [Stack.initial] using fun same => Nat.le_of_eq (one same)) List.prefix_rfl
    refine ⟨tokens, _, splits, taken, ?_, by simp [Stack.initial], rfl⟩
    cases goal with
    | all => rfl
    | one =>
      obtain ⟨form, rfl⟩ := List.length_eq_one_iff.mp (one rfl)
      rfl

/-- **The reader accepts exactly its grammar.**  A text can be read if and only if it splits into
tokens that derive a sequence of expressions, none of which is nested `maxDepth` levels deep or
more and none of whose atoms is written as an integer that has no 64-bit form.  The symbols are then
brought into the table in the order of their appearance, and what is read is what the derivation
denotes with the symbols of that table. -/
theorem readAll_eq_ok_iff (source : String) (symbols known : SymbolTable ι) (forms : List Datum) :
    readAll source symbols = (.ok forms, known) ↔
      ∃ tokens, Splits source.toList tokens ∧ Expressions known 0 tokens forms ∧
        known = symbols.insertAll (tokens.flatMap Token.names) := by
  simp only [readAll, read_eq_ok_iff, reduceCtorEq, false_implies, true_and]

end Reader

end GuardedLisp
