/-!
# Permissions of slots

A slot may be read and written from inside, while a method of the class that owns it runs, or from
outside.  Four bits say which of these are allowed, where a bit for anyone counts for insiders too.
A fifth bit makes the slot virtual, and a virtual slot can be neither read nor written.

Permissions change by flags: `bit` or `+bit` sets a bit, `-bit` clears it, `read-only` clears both
write bits, and `private` clears both bits for anyone.
-/

namespace GuardedLisp

/-- From where a slot is accessed. -/
inductive Access where
  | outside
  | inside
deriving DecidableEq, Repr

/-- One bit of a permission. -/
inductive PermissionBit where
  | classRead
  | classWrite
  | anyRead
  | anyWrite
  | virtual
deriving DecidableEq, Repr

namespace PermissionBit

/-- All bits in the order in which a permission lists them. -/
def all : List PermissionBit := [classRead, classWrite, anyRead, anyWrite, virtual]

/-- How a bit is written. -/
def name : PermissionBit → String
  | classRead => "class-read"
  | classWrite => "class-write"
  | anyRead => "any-read"
  | anyWrite => "any-write"
  | virtual => "virtual"

/-- The bit that a text names, if it names one. -/
def ofName? (text : String) : Option PermissionBit := all.find? fun bit => bit.name = text

end PermissionBit

/-- Who may read and write a slot.  A new slot is open to all. -/
structure Permission where
  classRead : Bool := true
  classWrite : Bool := true
  anyRead : Bool := true
  anyWrite : Bool := true
  isVirtual : Bool := false
deriving DecidableEq, Repr

instance : Inhabited Permission := ⟨{}⟩

/-- One change of a permission. -/
inductive PermissionFlag where
  | enable (bit : PermissionBit)
  | disable (bit : PermissionBit)
  /-- Clears both write bits. -/
  | readOnly
  /-- Clears both bits for anyone. -/
  | insideOnly
deriving DecidableEq, Repr

/-- The change that a text names, if it names one. -/
def PermissionFlag.ofText? (text : String) : Option PermissionFlag :=
  if text = "read-only" then some .readOnly
  else if text = "private" then some .insideOnly
  else match text.toList with
    | '+' :: bit => (PermissionBit.ofName? (String.ofList bit)).map .enable
    | '-' :: bit => (PermissionBit.ofName? (String.ofList bit)).map .disable
    | _ => (PermissionBit.ofName? text).map .enable

namespace Permission

/-- Whether a slot may be read. -/
def allowsRead (p : Permission) (access : Access) : Bool :=
  !p.isVirtual && (p.anyRead || (access = .inside && p.classRead))

/-- Whether a slot may be written. -/
def allowsWrite (p : Permission) (access : Access) : Bool :=
  !p.isVirtual && (p.anyWrite || (access = .inside && p.classWrite))

/-- Whether a bit is set. -/
def has (p : Permission) : PermissionBit → Bool
  | .classRead => p.classRead
  | .classWrite => p.classWrite
  | .anyRead => p.anyRead
  | .anyWrite => p.anyWrite
  | .virtual => p.isVirtual

/-- The permission with one bit set or cleared. -/
def setBit (p : Permission) (bit : PermissionBit) (on : Bool) : Permission :=
  match bit with
  | .classRead => { p with classRead := on }
  | .classWrite => { p with classWrite := on }
  | .anyRead => { p with anyRead := on }
  | .anyWrite => { p with anyWrite := on }
  | .virtual => { p with isVirtual := on }

/-- The permission after one change. -/
def apply (p : Permission) : PermissionFlag → Permission
  | .enable bit => p.setBit bit true
  | .disable bit => p.setBit bit false
  | .readOnly => { p with classWrite := false, anyWrite := false }
  | .insideOnly => { p with anyRead := false, anyWrite := false }

/-- The permission after a list of changes. -/
def applyAll (p : Permission) (flags : List PermissionFlag) : Permission := flags.foldl apply p

/-- The set bits by name, or a word for none. -/
def text (p : Permission) : String :=
  match PermissionBit.all.filter p.has with
  | [] => "none"
  | bits => " ".intercalate (bits.map PermissionBit.name)

end Permission

end GuardedLisp
