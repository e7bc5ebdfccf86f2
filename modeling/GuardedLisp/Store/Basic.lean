import GuardedLisp.SlotTable

/-!
# The store

All that evaluation can change: the slots of every scope frame and every class, the address
that the next new value gets, and the text that has been printed.

A name is looked up in the frames of a scope from the nearest outwards, and the nearest frame that
has the name decides, even if it denies access.
-/

namespace GuardedLisp

/-- A class: its parents in the order of their declaration, every ancestor once with the nearer
before the farther on each path, and its own slots. -/
structure ClassInfo where
  parents : List ClassId := []
  ancestors : List ClassId := []
  slots : SlotTable := {}
deriving DecidableEq, Repr

instance : Inhabited ClassInfo := ⟨{}⟩

/-- The state of the language. -/
structure Store where
  frames : Array SlotTable := #[]
  classes : Array ClassInfo := #[]
  nextAddress : Address := 0
  output : String := ""
deriving DecidableEq, Repr

instance : Inhabited Store := ⟨{}⟩

namespace Store

/-- The slots of a frame. -/
def frame (s : Store) (id : FrameId) : SlotTable := s.frames[id]?.getD {}

/-- The store in which a frame has other slots. -/
def setFrame (s : Store) (id : FrameId) (table : SlotTable) : Store :=
  { s with frames := s.frames.setIfInBounds id table }

@[simp] theorem frame_setFrame_self {s : Store} {id : FrameId} (h : id < s.frames.size)
    (table : SlotTable) : (s.setFrame id table).frame id = table := by
  simp [frame, setFrame, h]

theorem frame_setFrame_of_ne {s : Store} {id other : FrameId} (h : other ≠ id)
    (table : SlotTable) : (s.setFrame id table).frame other = s.frame other := by
  simp [frame, setFrame, Ne.symm h]

/-- A new empty frame inside a scope. -/
def newFrame (s : Store) (outer : List FrameId) : Scope × Store :=
  (⟨s.frames.size, outer⟩, { s with frames := s.frames.push {} })

/-- The nearest frame of a scope that has a name. -/
def nearest? (s : Store) (scope : Scope) (name : Symbol) : Option FrameId :=
  scope.chain.find? fun id => (s.frame id).contains name

/-- The value of a name in a scope. -/
def lookup (s : Store) (scope : Scope) (name : Symbol) : Except Error Value :=
  match s.nearest? scope name with
  | none => .error (.missingSymbol name.name)
  | some id => (s.frame id).get name .outside

/-- Adds a name to the nearest frame of a scope. -/
@[inline] def define (s : Store) (scope : Scope) (name : Symbol) (value : Value) :
    Except Error Store :=
  match (s.frame scope.frame).defineValue name value with
  | .ok table => .ok (s.setFrame scope.frame table)
  | .error e => .error e

/-- Gives a name of a scope another value. -/
@[inline] def assign (s : Store) (scope : Scope) (name : Symbol) (value : Value) :
    Except Error Store :=
  match s.nearest? scope name with
  | none => .error (.missingSymbol name.name)
  | some id =>
    match (s.frame id).set name value .outside with
    | .ok table => .ok (s.setFrame id table)
    | .error e => .error e

theorem classes_define {s s' : Store} {scope : Scope} {name : Symbol} {value : Value}
    (h : s.define scope name value = .ok s') : s'.classes = s.classes := by
  unfold define at h
  split at h
  · obtain rfl := Except.ok.inj h
    rfl
  · cases h

theorem classes_assign {s s' : Store} {scope : Scope} {name : Symbol} {value : Value}
    (h : s.assign scope name value = .ok s') : s'.classes = s.classes := by
  unfold assign at h
  split at h
  · cases h
  · split at h
    · obtain rfl := Except.ok.inj h
      rfl
    · cases h

/-- Changes the permission of a name of a scope, and gives the new one. -/
def chmod (s : Store) (scope : Scope) (name : Symbol) (flags : List PermissionFlag) :
    Except Error (Permission × Store) :=
  match s.nearest? scope name with
  | none => .error (.missingSymbol name.name)
  | some id =>
    match (s.frame id).chmod name flags with
    | .ok (permission, table) => .ok (permission, s.setFrame id table)
    | .error e => .error e

/-- Lays the values of an inner frame over those of the frames around it. -/
def overlay (outer inner : List (Symbol × Value)) : List (Symbol × Value) :=
  outer.filter (fun entry => inner.all fun other => other.1 ≠ entry.1) ++ inner

/-- The values that are seen from a scope, arranged by name.  Names without a value are left
out. -/
def bindings (s : Store) (scope : Scope) : List (Symbol × Value) :=
  -- The global frame goes first, and the frames inside it are laid over it.
  let seen := scope.chain.foldr (fun id outer => overlay outer (s.frame id).values) []
  seen.mergeSort fun a b => decide (a.1.name ≤ b.1.name)

/-- A class by its number. -/
def classInfo (s : Store) (id : ClassId) : ClassInfo := s.classes[id]?.getD {}

/-- The slots of a class. -/
def slots (s : Store) (id : ClassId) : SlotTable := (s.classInfo id).slots

/-- The store in which a class has other slots. -/
def setSlots (s : Store) (id : ClassId) (table : SlotTable) : Store :=
  { s with classes := s.classes.modify id fun info => { info with slots := table } }

theorem slots_setSlots (s : Store) (target id : ClassId) (table : SlotTable) :
    (s.setSlots target table).slots id =
      if id = target ∧ target < s.classes.size then table else s.slots id := by
  simp only [slots, classInfo, setSlots, Array.getElem?_modify]
  by_cases same : target = id
  · subst same
    rcases Nat.lt_or_ge target s.classes.size with made | absent
    · simp [made]
    · simp [Nat.not_lt.mpr absent]
  · simp [same, Ne.symm same]

@[simp] theorem slots_setSlots_self {s : Store} {id : ClassId} (h : id < s.classes.size)
    (table : SlotTable) : (s.setSlots id table).slots id = table := by
  rw [slots_setSlots, if_pos ⟨rfl, h⟩]

theorem slots_setSlots_of_ne {s : Store} {id other : ClassId} (h : other ≠ id)
    (table : SlotTable) : (s.setSlots id table).slots other = s.slots other := by
  rw [slots_setSlots, if_neg fun same => h same.1]

/-- Nothing changes if a class is given the slots that it has. -/
theorem setSlots_eq_self (s : Store) (id : ClassId) : s.setSlots id (s.slots id) = s := by
  unfold setSlots
  congr 1
  apply Array.ext_getElem?
  intro other
  rw [Array.getElem?_modify]
  split
  · next same =>
    subst same
    simp only [slots, classInfo]
    cases s.classes[id]? <;> rfl
  · rfl

theorem slots_eq_of_classes_eq {s s' : Store} (h : s'.classes = s.classes) (id : ClassId) :
    s'.slots id = s.slots id := by
  simp only [slots, classInfo, h]

/-- The classes above a new class with the given parents: every parent followed by what is above
it, each class at its first place only. -/
def lineage (s : Store) (parents : List ClassId) : List ClassId :=
  (parents.flatMap fun parent => parent :: (s.classInfo parent).ancestors).eraseDups

/-- The slots that a new class has below the given ancestors.  Of two ancestors with a name the
one that comes first gives it. -/
def inheritance (s : Store) (ancestors : List ClassId) : SlotTable :=
  -- The farthest ancestor goes first, and the nearer ones replace what they have too.
  ancestors.foldr (fun id table => table.inheritAll (s.slots id)) {}

/-- Makes a class below the given parents. -/
def newClass (s : Store) (parents : List ClassId) : ClassId × Store :=
  let ancestors := s.lineage parents
  let info : ClassInfo := ⟨parents, ancestors, s.inheritance ancestors⟩
  (s.classes.size, { s with classes := s.classes.push info })

theorem classInfo_newClass (s : Store) (parents : List ClassId) (id : ClassId) :
    (s.newClass parents).2.classInfo id =
      if id = s.classes.size then ⟨parents, s.lineage parents, s.inheritance (s.lineage parents)⟩
      else s.classInfo id := by
  simp only [classInfo, newClass, Array.getElem?_push]
  split <;> rfl

/-- A class that has been made stays as it is when another one is made. -/
theorem classInfo_newClass_of_made {s : Store} {id : ClassId} (made : id < s.classes.size)
    (parents : List ClassId) : (s.newClass parents).2.classInfo id = s.classInfo id := by
  rw [classInfo_newClass, if_neg (Nat.ne_of_lt made)]

/-- The text of a class for inspection. -/
def inspectClass (s : Store) (id : ClassId) : String :=
  let info := s.classInfo id
  let shown (id : ClassId) : String := "ClassId(" ++ toString id ++ ")"
  "Class \x7b id: " ++ shown id ++ ", parents: [" ++ ", ".intercalate (info.parents.map shown) ++
    "], slots: " ++ toString info.slots.entries.length ++ " \x7d"

end Store

end GuardedLisp
