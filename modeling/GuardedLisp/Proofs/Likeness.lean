import GuardedLisp.Value.Equality
import GuardedLisp.Value.Text

/-!
# Sameness and likeness

Sameness looks at addresses, and likeness takes a short cut where it meets one address twice.  So
what they say of two values depends on what is at the addresses.  In one heap there is one value at
an address.  Then the short cut is never seen: two values are alike just if they are built alike,
part by part.  Sameness and likeness are then equivalences, the finer one and the coarser one, and
alike values have the same text.

## Main definitions

* `Heap`, `Value.LiesIn`, `Heap.Values`: what is at the addresses, and the values made of that
* `Value.Like`: values that are built alike, with no short cut
* `Value.identity`: what sameness looks at

## Main results

* `Value.alike_iff_like`: likeness is to be built alike
* `Value.text_eq_of_like`: the text does not show at which addresses a value is
* `Heap.equivalences`: the two equivalences, and how they fit together
-/

namespace GuardedLisp

/-- What is at the addresses. -/
abbrev Heap := Address → Value

/-- The value at an address, if a value has one, and the value itself if it has none. -/
def Heap.found (heap : Heap) : Value → Value
  | .string a _ | .pair a _ _ | .closure a _ _ _ _ => heap a
  | v => v

namespace Value

/-- All parts of a value that have an address are what a heap has there. -/
def LiesIn (heap : Heap) : Value → Prop
  | string a text => heap a = string a text
  | pair a first rest => heap a = pair a first rest ∧ first.LiesIn heap ∧ rest.LiesIn heap
  | closure a kind params body home =>
    heap a = closure a kind params body home ∧ body.LiesIn heap
  | nil | symbol _ | integer _ | bool _ | builtin _ | classObject _ => True

/-- Two values are built alike: pairs part by part and strings by their text, wherever they are;
closures are alike only at one address, and all else only if it is equal. -/
inductive Like : Value → Value → Prop
  | nil : Like nil nil
  | symbol (name : Symbol) : Like (symbol name) (symbol name)
  | integer (n : Int64) : Like (integer n) (integer n)
  | string (a b : Address) (text : String) : Like (string a text) (string b text)
  | bool (b : Bool) : Like (bool b) (bool b)
  | pair (a b : Address) {first₁ first₂ rest₁ rest₂ : Value} :
      Like first₁ first₂ → Like rest₁ rest₂ → Like (pair a first₁ rest₁) (pair b first₂ rest₂)
  | closure (a : Address) (kind₁ kind₂ : ClosureKind) (params₁ params₂ : Params)
      (body₁ body₂ : Value) (home₁ home₂ : Scope) :
      Like (closure a kind₁ params₁ body₁ home₁) (closure a kind₂ params₂ body₂ home₂)
  | builtin (op : Builtin) : Like (builtin op) (builtin op)
  | classObject (id : ClassId) : Like (classObject id) (classObject id)

variable {heap : Heap} {u v w : Value}

theorem Like.refl (v : Value) : v.Like v := by
  induction v with
  | pair a first rest ihFirst ihRest => exact .pair a a ihFirst ihRest
  | _ => constructor

theorem Like.symm (like : v.Like w) : w.Like v := by
  induction like with
  | pair a b _ _ ihFirst ihRest => exact .pair b a ihFirst ihRest
  | _ => constructor

theorem Like.trans (first : u.Like v) (second : v.Like w) : u.Like w := by
  induction first generalizing w with
  | pair a b _ _ ihFirst ihRest =>
    cases second with
    | pair _ c firsts rests => exact .pair a c (ihFirst firsts) (ihRest rests)
  | _ =>
    cases second
    constructor

theorem alike_of_like (like : v.Like w) : v.alike w = true := by
  induction like with
  | pair a b _ _ ihFirst ihRest => simp only [alike, ihFirst, ihRest, Bool.and_self, Bool.or_true]
  | _ => simp [alike, same]

/-- What sameness looks at: the address of a value that has one, and all other values as they
are. -/
def identity : Value → Value
  | string a _ => string a ""
  | pair a _ _ => pair a nil nil
  | closure a _ _ _ _ => closure a .function ⟨[], none⟩ nil ⟨0, []⟩
  | v => v

theorem same_iff (v w : Value) : v.same w = true ↔ v.identity = w.identity := by
  cases v <;> cases w <;> simp [same, identity]

/-- A value of a heap can be found there. -/
theorem found_identity (lies : v.LiesIn heap) : heap.found v.identity = v := by
  cases v with
  | string => exact lies
  | pair | closure => exact lies.1
  | _ => rfl

/-- In one heap only equal values are one and the same. -/
theorem eq_of_same (hv : v.LiesIn heap) (hw : w.LiesIn heap) (h : v.same w = true) : v = w := by
  rw [← found_identity hv, (same_iff v w).mp h, found_identity hw]

/-- In one heap two values at one address are equal, so the short cut is never wrong. -/
theorem like_of_alike (hv : v.LiesIn heap) (hw : w.LiesIn heap) (h : v.alike w = true) :
    v.Like w := by
  fun_induction alike v w with
  | case1 a first₁ rest₁ b first₂ rest₂ ihFirst ihRest =>
    rw [Bool.or_eq_true, decide_eq_true_eq, Bool.and_eq_true] at h
    rcases h with rfl | ⟨firsts, rests⟩
    · rw [← hv.1, ← hw.1]
      exact .refl _
    · exact .pair a b (ihFirst hv.2.1 hw.2.1 firsts) (ihRest hv.2.2 hw.2.2 rests)
  | case2 a text b text' =>
    obtain rfl := of_decide_eq_true h
    exact .string a b text
  | case3 v w =>
    obtain rfl := eq_of_same hv hw h
    exact .refl v

theorem alike_iff_like (hv : v.LiesIn heap) (hw : w.LiesIn heap) :
    v.alike w = true ↔ v.Like w :=
  ⟨like_of_alike hv hw, alike_of_like⟩

theorem text_eq_of_like (hv : v.LiesIn heap) (hw : w.LiesIn heap) (like : v.Like w) :
    v.text = w.text := by
  have written (asTail : Bool) : v.write asTail = w.write asTail := by
    induction like generalizing asTail with
    | pair a b _ _ ihFirst ihRest =>
      rw [write_pair, write_pair, ihFirst hv.2.1 hw.2.1, ihRest hv.2.2 hw.2.2]
    | closure a =>
      rw [← hv.1, ← hw.1]
    | _ => rfl
  exact written false

end Value

namespace Heap

/-- The values whose parts are all in a heap. -/
def Values (heap : Heap) : Type := {v : Value // v.LiesIn heap}

variable {heap : Heap}

theorem equivalence_alike :
    Equivalence fun v w : heap.Values => v.1.alike w.1 = true where
  refl v := (Value.alike_iff_like v.2 v.2).mpr (.refl v.1)
  symm {v w} h := (Value.alike_iff_like w.2 v.2).mpr ((Value.alike_iff_like v.2 w.2).mp h).symm
  trans {u v w} first second :=
    (Value.alike_iff_like u.2 w.2).mpr <|
      ((Value.alike_iff_like u.2 v.2).mp first).trans ((Value.alike_iff_like v.2 w.2).mp second)

theorem equivalence_same : Equivalence fun v w : heap.Values => v.1.same w.1 = true := by
  simp only [Value.same_iff]
  exact ⟨fun _ => rfl, Eq.symm, Eq.trans⟩

/-- **Two equivalences.**  Between the values of one heap likeness is to be built alike, with no
look at where the parts are except for closures.  It is an equivalence, and so is sameness.  What is
the same is alike, and what is alike has the same text. -/
theorem equivalences (heap : Heap) :
    (∀ v w : heap.Values, v.1.alike w.1 = true ↔ v.1.Like w.1) ∧
    (Equivalence fun v w : heap.Values => v.1.alike w.1 = true) ∧
    (Equivalence fun v w : heap.Values => v.1.same w.1 = true) ∧
    (∀ v w : heap.Values, v.1.same w.1 = true → v.1.alike w.1 = true) ∧
    ∀ v w : heap.Values, v.1.alike w.1 = true → v.1.text = w.1.text := by
  have built (v w : heap.Values) := Value.alike_iff_like v.2 w.2
  refine ⟨built, equivalence_alike, equivalence_same, fun v w same => ?_, fun v w alike => ?_⟩
  · have equal : v.1 = w.1 := Value.eq_of_same v.2 w.2 same
    exact (built v w).mpr (equal ▸ .refl v.1)
  · exact Value.text_eq_of_like v.2 w.2 ((built v w).mp alike)

end Heap

end GuardedLisp
