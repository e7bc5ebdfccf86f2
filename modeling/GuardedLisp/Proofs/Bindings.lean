import GuardedLisp.Proofs.Class.Changes
import GuardedLisp.Proofs.Scopes
import Mathlib.Data.List.Nodup
import Mathlib.Data.String.Basic

/-!
# What is seen from a scope

A listing of bindings goes through the frames of a scope from the outermost inwards and lays each
frame over what is there.  A lookup goes the other way and stops at the first frame with the name.
Both meet the same value under every name.  They differ where a name may not be read: a lookup is
refused, and the listing has the name nevertheless.

The listing is arranged by the texts of the names.  Their order is that of the numbers of their
characters, which is the order of their bytes: a character with a greater number has more bytes or
greater ones.

## Main definitions

* `Symbol.bytes`: the bytes of the text of a name
* `SlotTable.Filled`: a table where every name has one slot, with a value in it
* `Store.Sparing`: a forest of frames some of which have kept the permissions of their names

## Main results

* `Symbol.bytes_lt_iff`: the order of names is the order of their bytes
* `Store.mem_seen_iff`: laid over one another, the frames give the values in the nearest ones
* `Store.Forest.bindings_agree`: the listing agrees with lookups
-/

namespace GuardedLisp

/-! ## Names in the order of their bytes -/

/-- The bytes of the text of a name. -/
def Symbol.bytes (name : Symbol) : List UInt8 := name.name.toByteArray.data.toList

namespace Symbol

theorem bytes_eq_flatMap (name : Symbol) :
    name.bytes = name.name.toList.flatMap String.utf8EncodeChar := by
  rw [bytes, ← String.utf8Encode_toList]
  simp [List.utf8Encode]

section Byte

variable {m n : Nat}

theorem ofNat_lt_ofNat_iff (hm : m < 256) (hn : n < 256) :
    UInt8.ofNat m < UInt8.ofNat n ↔ m < n := by
  rw [UInt8.lt_iff_toNat_lt, UInt8.toNat_ofNat_of_lt' hm, UInt8.toNat_ofNat_of_lt' hn]

theorem ofNat_eq_ofNat_iff (hm : m < 256) (hn : n < 256) :
    UInt8.ofNat m = UInt8.ofNat n ↔ m = n := by
  rw [← UInt8.toNat_inj, UInt8.toNat_ofNat_of_lt' hm, UInt8.toNat_ofNat_of_lt' hn]

end Byte

/-- The bytes of a character with a smaller number come first, whatever follows them. -/
theorem encode_append_lt {c d : Char} (less : c < d) (x y : List UInt8) :
    String.utf8EncodeChar c ++ x < String.utf8EncodeChar d ++ y := by
  have number : c.val.toNat < d.val.toNat := less
  have bound : d.val.toNat < 1114112 := by
    rcases d.valid with low | high
    · exact Nat.lt_trans low (by decide)
    · exact high.2
  unfold String.utf8EncodeChar
  generalize c.val.toNat = m at number
  generalize d.val.toNat = n at number bound
  have digits (v : Nat) : v / 4096 = v / 64 / 64 ∧ v / 262144 = v / 64 / 64 / 64 := by omega
  simp only [digits]
  split_ifs <;> try omega
  all_goals
    simp (disch := omega) only [List.cons_append, List.cons_lt_cons_iff, ofNat_lt_ofNat_iff,
      ofNat_eq_ofNat_iff]
    omega

theorem flatMap_encode_lt {text other : List Char} (less : text < other) :
    text.flatMap String.utf8EncodeChar < other.flatMap String.utf8EncodeChar := by
  induction text generalizing other with
  | nil =>
    cases other with
    | nil => exact absurd less (List.lt_irrefl _)
    | cons d rest =>
      obtain ⟨byte, bytes, encoded⟩ :=
        List.exists_cons_of_ne_nil (String.utf8EncodeChar_ne_nil (c := d))
      rw [List.flatMap_cons, encoded]
      exact List.nil_lt_cons _ _
  | cons c text ih =>
    cases other with
    | nil => exact absurd less (List.not_lt_nil _)
    | cons d rest =>
      rw [List.flatMap_cons, List.flatMap_cons]
      rcases List.cons_lt_cons_iff.mp less with less | ⟨rfl, later⟩
      · exact encode_append_lt less _ _
      · exact List.append_left_lt (ih later)

/-- **The order of names is the order of their bytes.** -/
theorem bytes_lt_iff {a b : Symbol} : a.bytes < b.bytes ↔ a.name < b.name := by
  have forward {a b : Symbol} (less : a.name < b.name) : a.bytes < b.bytes := by
    rw [bytes_eq_flatMap, bytes_eq_flatMap]
    exact flatMap_encode_lt (String.lt_iff_toList_lt.mp less)
  refine ⟨fun less => ?_, forward⟩
  rcases lt_trichotomy a.name b.name with before | same | after
  · exact before
  · simp only [bytes, same] at less
    exact absurd less (List.lt_irrefl _)
  · exact absurd (forward after) (List.lt_asymm less)

end Symbol

/-! ## Tables without gaps -/

/-- A table where every name has one slot, with a value in it. -/
structure SlotTable.Filled (table : SlotTable) : Prop where
  nodup : table.names.Nodup
  valued : table.Every fun slot => slot.value.isSome = true

/-- No permission of a slot is another one afterwards. -/
def SlotTable.KeepsPermissions (table table' : SlotTable) : Prop :=
  ∀ name slot, table.find? name = some slot →
    ∃ slot', table'.find? name = some slot' ∧ slot'.permission = slot.permission

/-- A table whose slots all have the permission that they got when they were made. -/
def SlotTable.Untouched (table : SlotTable) : Prop :=
  table.Every fun slot => slot.permission = {}

namespace SlotTable

variable {table table' : SlotTable}

/-- What may be done to the frame of a scope: what evaluation does, and changes of permissions. -/
def Alters (table table' : SlotTable) : Prop :=
  (∃ written?, table.Rebinds written? table') ∨
    ∃ name slot permission, table.find? name = some slot ∧
      table' = table.insert name { slot with permission }

theorem Filled.empty : Filled {} := ⟨List.nodup_nil, .empty⟩

theorem Filled.of_alters (filled : table.Filled) (alters : table.Alters table') :
    table'.Filled := by
  obtain ⟨nodup, valued⟩ := filled
  obtain ⟨written?, rebinds⟩ | ⟨name, slot, permission, found, rfl⟩ := alters
  · cases rebinds with
    | same => exact ⟨nodup, valued⟩
    | bound | written => exact ⟨nodup_names_insert nodup _ _, valued.insert _ rfl⟩
  · have value : slot.value.isSome = true := valued.of_find? found
    exact ⟨nodup_names_insert nodup _ _, valued.insert _ value⟩

/-- New slots are open, so only a change of permissions could touch a table. -/
theorem Untouched.of_alters (untouched : table.Untouched) (alters : table.Alters table')
    (kept : table.KeepsPermissions table') : table'.Untouched := by
  obtain ⟨written?, rebinds⟩ | ⟨name, slot, permission, found, rfl⟩ := alters
  · cases rebinds with
    | same => exact untouched
    | bound => exact Every.insert untouched _ rfl
    | @written name slot value found =>
      have permission : slot.permission = {} := Every.of_find? untouched found
      exact Every.insert untouched _ permission
  · obtain ⟨slot', found', same⟩ := kept name slot found
    rw [find?_insert_self, Option.some.injEq] at found'
    subst found'
    exact Every.insert untouched _ (same.trans (Every.of_find? untouched found))

theorem Filled.exists_value (filled : table.Filled) {name : Symbol}
    (there : table.contains name = true) :
    ∃ slot value, table.find? name = some slot ∧ slot.value = some value := by
  obtain ⟨slot, found⟩ := Option.isSome_iff_exists.mp there
  obtain ⟨value, has⟩ := Option.isSome_iff_exists.mp (filled.valued.of_find? found)
  exact ⟨slot, value, found, has⟩

theorem find?_eq_some_iff (nodup : table.names.Nodup) {name : Symbol} {slot : Slot} :
    table.find? name = some slot ↔ (name, slot) ∈ table.entries := by
  refine ⟨mem_entries_of_find?, fun mem => ?_⟩
  obtain ⟨before, after, split⟩ := List.append_of_mem mem
  refine List.lookup_eq_some_iff.mpr ⟨before, after, split, fun entry earlier => ?_⟩
  rw [names, split, List.map_append, List.nodup_append] at nodup
  exact bne_iff_ne.mpr
    (nodup.2.2 entry.1 (List.mem_map_of_mem earlier) name (by simp)).symm

theorem mem_values_iff (nodup : table.names.Nodup) {name : Symbol} {value : Value} :
    (name, value) ∈ table.values ↔
      ∃ slot, table.find? name = some slot ∧ slot.value = some value := by
  simp only [find?_eq_some_iff nodup]
  simp [values]

theorem Filled.names_values (filled : table.Filled) :
    table.values.map Prod.fst = table.names := by
  obtain ⟨-, valued⟩ := filled
  obtain ⟨entries, finalised⟩ := table
  simp only [Every, values, names] at valued ⊢
  induction entries with
  | nil => rfl
  | cons entry entries ih =>
    rw [List.forall_mem_cons] at valued
    obtain ⟨value, has⟩ := Option.isSome_iff_exists.mp valued.1
    rw [List.filterMap_cons_some (by rw [has, Option.map_some]), List.map_cons, List.map_cons,
      ih valued.2]

end SlotTable

/-! ## Frames laid over one another -/

namespace Store

variable {s : Store}

theorem mem_overlay_iff {outer inner : List (Symbol × Value)} {entry : Symbol × Value} :
    entry ∈ overlay outer inner ↔
      entry ∈ inner ∨ entry ∈ outer ∧ entry.1 ∉ inner.map Prod.fst := by
  have hidden : (inner.all fun other => other.1 ≠ entry.1) = true ↔
      entry.1 ∉ inner.map Prod.fst := by
    simp only [List.all_eq_true, decide_eq_true_eq, List.mem_map, not_exists, not_and, ne_eq]
  rw [overlay, List.mem_append, List.mem_filter, hidden, or_comm]

theorem nodup_overlay {outer inner : List (Symbol × Value)}
    (outside : (outer.map Prod.fst).Nodup) (inside : (inner.map Prod.fst).Nodup) :
    ((overlay outer inner).map Prod.fst).Nodup := by
  rw [overlay, List.map_append]
  refine List.nodup_append'.mpr ⟨outside.sublist (List.filter_sublist.map _), inside, ?_⟩
  intro name left right
  obtain ⟨entry, mem, rfl⟩ := List.mem_map.mp left
  obtain ⟨other, inInner, same⟩ := List.mem_map.mp right
  have apart := List.all_eq_true.mp (List.mem_filter.mp mem).2 other inInner
  exact of_decide_eq_true apart same

/-- The frames of a chain laid over one another. -/
def seen (s : Store) (chain : List FrameId) : List (Symbol × Value) :=
  chain.foldr (fun id outer => overlay outer (s.frame id).values) []

section Seen

variable {chain : List FrameId} (filled : ∀ id ∈ chain, (s.frame id).Filled)

include filled

theorem nodup_seen : ((s.seen chain).map Prod.fst).Nodup := by
  induction chain with
  | nil => exact List.nodup_nil
  | cons id chain ih =>
    rw [List.forall_mem_cons] at filled
    refine nodup_overlay (ih filled.2) ?_
    rw [filled.1.names_values]
    exact filled.1.nodup

/-- **Laid over one another, the frames give the values in the nearest ones.** -/
theorem mem_seen_iff {name : Symbol} {value : Value} :
    (name, value) ∈ s.seen chain ↔
      ∃ id slot, chain.find? (fun id => (s.frame id).contains name) = some id ∧
        (s.frame id).find? name = some slot ∧ slot.value = some value := by
  -- Induction on the chain: the nearest frame hides the others just if it has the name.
  induction chain with
  | nil => simp [seen]
  | cons id chain ih =>
    rw [List.forall_mem_cons] at filled
    have step : s.seen (id :: chain) = overlay (s.seen chain) (s.frame id).values := rfl
    rw [step, mem_overlay_iff, SlotTable.mem_values_iff filled.1.nodup, filled.1.names_values,
      SlotTable.mem_names_iff, ih filled.2, List.find?_cons]
    cases there : (s.frame id).contains name with
    | true =>
      have has : ((s.frame id).find? name).isSome = true := there
      simp [has]
    | false =>
      have lacks : (s.frame id).find? name = none := by
        simpa [SlotTable.contains] using there
      simp [lacks]

end Seen

/-! ## Forests that spare frames -/

theorem frame_size (s : Store) : s.frame s.frames.size = {} := by simp [frame]

/-- What is done to a name alters at most one frame. -/
theorem alters_change {s' : Store} {scope : Scope} {name : Symbol} {change : ScopeChange}
    (done : change.apply scope name s = .ok s') (id : FrameId) :
    (s.frame id).Alters (s'.frame id) := by
  cases change with
  | define value => exact .inl ⟨some value, rebinds_define done id⟩
  | assign value => exact .inl ⟨some value, rebinds_assign done id⟩
  | chmod flags =>
    simp only [ScopeChange.apply, chmod] at done
    split at done
    · cases done
    · next target nearest =>
      split at done
      · next permission table changed =>
        obtain rfl := Except.ok.inj done
        obtain ⟨slot, found, rfl⟩ :=
          SlotTable.exists_of_chmod_eq_ok (congrArg (Except.map Prod.snd) changed)
        rw [frame_setFrame]
        split
        · next here =>
          rw [here.1]
          exact .inr ⟨name, slot, _, found, rfl⟩
        · exact .inl ⟨none, .same⟩
      · cases done

theorem alters_after_change (change : ScopeChange) (s : Store) (scope : Scope) (name : Symbol)
    (id : FrameId) : (s.frame id).Alters (((change.run scope name).after s).frame id) := by
  simp only [ScopeChange.run, EvalM.after, EvalM.edit]
  cases done : change.apply scope name s with
  | ok s' => exact alters_change done id
  | error e => exact .inl ⟨none, .same⟩

/-- A forest of frames in which nothing that was done has changed the permission of a name in some
of the frames. -/
inductive Sparing (spared : List FrameId) : Store → List Scope → Prop
  | bare (s : Store) : Sparing spared s []
  | outermost {s : Store} {scopes : List Scope} :
      Sparing spared s scopes →
      Sparing spared (s.newFrame []).2 ((s.newFrame []).1 :: scopes)
  | inside {s : Store} {scopes : List Scope} {home : Scope} :
      Sparing spared s scopes → home ∈ scopes →
      Sparing spared (s.newFrame home.chain).2 ((s.newFrame home.chain).1 :: scopes)
  | change {s : Store} {scopes : List Scope} {scope : Scope} (change : ScopeChange)
      (name : Symbol) :
      Sparing spared s scopes → scope ∈ scopes →
      (∀ id ∈ spared,
        (s.frame id).KeepsPermissions (((change.run scope name).after s).frame id)) →
      Sparing spared ((change.run scope name).after s) scopes

variable {scopes : List Scope} {spared : List FrameId} {f : Scope}

/-- Every forest spares no frame at least. -/
theorem Forest.sparing_nil (forest : s.Forest scopes) : Sparing [] s scopes := by
  induction forest with
  | bare s => exact .bare s
  | outermost _ ih => exact .outermost ih
  | inside _ here ih => exact .inside ih here
  | change change name _ here ih => exact .change change name ih here nofun

/-- The frames of a forest have no gaps, and those that are spared are untouched. -/
theorem Sparing.filled_untouched (sparing : Sparing spared s scopes) :
    ∀ scope ∈ scopes, ∀ id ∈ scope.chain,
      (s.frame id).Filled ∧ (id ∈ spared → (s.frame id).Untouched) := by
  -- Induction on what has been done.  A new frame is empty, and no other one is affected by it.
  have new (s : Store) : (s.frame s.frames.size).Filled ∧
      (s.frames.size ∈ spared → (s.frame s.frames.size).Untouched) := by
    rw [frame_size]
    exact ⟨.empty, fun _ => .empty⟩
  induction sparing with
  | bare s => exact nofun
  | @outermost s scopes sparing ih =>
    simp only [frame_newFrame]
    exact List.forall_mem_cons.mpr ⟨List.forall_mem_singleton.mpr (new s), ih⟩
  | @inside s scopes home sparing here ih =>
    simp only [frame_newFrame]
    exact List.forall_mem_cons.mpr ⟨List.forall_mem_cons.mpr ⟨new s, ih home here⟩, ih⟩
  | @change s scopes scope change name sparing here kept ih =>
    intro place mem id inChain
    have alters := alters_after_change change s scope name id
    obtain ⟨filled, untouched⟩ := ih place mem id inChain
    exact ⟨filled.of_alters alters, fun spares =>
      (untouched spares).of_alters alters (kept id spares)⟩

/-! ## The listing and lookups -/

theorem Forest.filled (forest : s.Forest scopes) (here : f ∈ scopes) :
    ∀ id ∈ f.chain, (s.frame id).Filled :=
  fun id inChain => (forest.sparing_nil.filled_untouched f here id inChain).1

theorem bindings_perm (s : Store) (f : Scope) : (s.bindings f).Perm (s.seen f.chain) :=
  List.mergeSort_perm _ _

/-- The names of a listing grow if no name is there twice, and no two of them have one text. -/
theorem pairwise_bindings (nodup : ((s.seen f.chain).map Prod.fst).Nodup)
    (told : ∀ a ∈ s.bindings f, ∀ b ∈ s.bindings f, a.1.name = b.1.name → a.1 = b.1) :
    (s.bindings f).Pairwise fun a b => a.1.bytes < b.1.bytes := by
  have arranged : (s.bindings f).Pairwise fun a b => a.1.name ≤ b.1.name := by
    refine List.Pairwise.imp of_decide_eq_true (List.pairwise_mergeSort ?_ ?_ (s.seen f.chain))
    · intro a b c
      simpa using le_trans
    · intro a b
      simpa using le_total _ _
  have distinct : (s.bindings f).Pairwise fun a b => a.1 ≠ b.1 :=
    List.pairwise_map.mp (((bindings_perm s f).map Prod.fst).nodup_iff.mpr nodup)
  refine (arranged.and distinct).imp_of_mem fun {a b} mem mem' ⟨atMost, apart⟩ => ?_
  exact Symbol.bytes_lt_iff.mpr (lt_of_le_of_ne atMost fun same => apart (told a mem b mem' same))

/-- A lookup gives the value in the nearest frame with the name, if it may be read. -/
theorem lookup_eq_ok_iff {name : Symbol} {value : Value} :
    s.lookup f name = .ok value ↔
      ∃ id slot, s.nearest? f name = some id ∧ (s.frame id).find? name = some slot ∧
        slot.permission.allowsRead .outside = true ∧ slot.value = some value := by
  unfold lookup
  cases nearest : s.nearest? f name with
  | none => simp
  | some id =>
    simp only [SlotTable.get]
    grind

/-- **The listing agrees with lookups.**  In a forest of frames that has come about in any way, take
the listing of what is seen from a scope `f`, where the names are symbols of one table.

* Its names grow in the order of their bytes, so each of them is there once.
* They are the names that some frame of `f` has.
* A value is listed under a name just if the nearest frame with the name has it there.
* So what a lookup gives is listed.
* If the permissions in the frames of `f` have never been changed, the names that are listed are
  those that can be looked up. -/
theorem Forest.bindings_agree {ι : Type} [Interner ι] {table : SymbolTable ι}
    (forest : s.Forest scopes) (here : f ∈ scopes)
    (known : ∀ id ∈ f.chain, ∀ name ∈ (s.frame id).names, name ∈ table.symbols) :
    ((s.bindings f).Pairwise fun a b => a.1.bytes < b.1.bytes) ∧
    (∀ name, name ∈ (s.bindings f).map Prod.fst ↔
      ∃ id ∈ f.chain, (s.frame id).contains name = true) ∧
    (∀ name value, (name, value) ∈ s.bindings f ↔
      ∃ id slot, s.nearest? f name = some id ∧ (s.frame id).find? name = some slot ∧
        slot.value = some value) ∧
    (∀ name value, s.lookup f name = .ok value → (name, value) ∈ s.bindings f) ∧
    (Sparing f.chain s scopes →
      ∀ name, name ∈ (s.bindings f).map Prod.fst ↔ ∃ value, s.lookup f name = .ok value) := by
  have filled := forest.filled here
  have listed (name : Symbol) (value : Value) : (name, value) ∈ s.bindings f ↔
      ∃ id slot, s.nearest? f name = some id ∧ (s.frame id).find? name = some slot ∧
        slot.value = some value :=
    (bindings_perm s f).mem_iff.trans (mem_seen_iff filled)
  have named (name : Symbol) : name ∈ (s.bindings f).map Prod.fst ↔
      ∃ value, (name, value) ∈ s.bindings f := by simp
  have known (a : Symbol × Value) (mem : a ∈ s.bindings f) : a.1 ∈ table.symbols := by
    obtain ⟨id, slot, nearest, found, -⟩ := (listed a.1 a.2).mp mem
    exact known id (nearest?_spec nearest).1 a.1 (SlotTable.mem_names_iff.mpr (by simp [found]))
  have told (a : Symbol × Value) (mem : a ∈ s.bindings f) (b : Symbol × Value)
      (mem' : b ∈ s.bindings f) (same : a.1.name = b.1.name) : a.1 = b.1 :=
    SymbolTable.eq_of_name (known a mem) (known b mem') same
  refine ⟨pairwise_bindings (nodup_seen filled) told, fun name => ?_, listed,
    fun name value => ?_, fun sparing name => ?_⟩
  · rw [named]
    constructor
    · rintro ⟨value, mem⟩
      obtain ⟨id, slot, nearest, -⟩ := (listed name value).mp mem
      exact ⟨id, nearest?_spec nearest⟩
    · intro there
      have isSome : (s.nearest? f name).isSome = true := List.find?_isSome.mpr there
      obtain ⟨id, nearest⟩ := Option.isSome_iff_exists.mp isSome
      obtain ⟨inChain, has⟩ := nearest?_spec nearest
      obtain ⟨slot, value, found, valued⟩ := (filled id inChain).exists_value has
      exact ⟨value, (listed name value).mpr ⟨id, slot, nearest, found, valued⟩⟩
  · rw [lookup_eq_ok_iff, listed]
    rintro ⟨id, slot, nearest, found, -, valued⟩
    exact ⟨id, slot, nearest, found, valued⟩
  · rw [named]
    refine exists_congr fun value => ?_
    rw [lookup_eq_ok_iff, listed]
    refine exists_congr fun id => exists_congr fun slot => ?_
    refine and_congr_right fun nearest => and_congr_right fun found => ?_
    have untouched := (sparing.filled_untouched f here id (nearest?_spec nearest).1).2
      (nearest?_spec nearest).1
    have permission : slot.permission = {} := SlotTable.Every.of_find? untouched found
    simp [permission, Permission.allowsRead]

end Store

/-- In the inner frame a permission has been changed, and in the outer one none has. -/
theorem sparing_shadowed : Store.Sparing outerScope.chain shadowed [innerScope, outerScope] := by
  have apart {s s' : Store} (same : s'.frame 0 = s.frame 0) :
      ∀ id ∈ outerScope.chain, (s.frame id).KeepsPermissions (s'.frame id) :=
    List.forall_mem_singleton.mpr (same.symm ▸ fun _ slot found => ⟨slot, found, rfl⟩)
  have empty : Store.Sparing outerScope.chain _ [outerScope] := .outermost (.bare {})
  have outer := empty.change (.define (.integer 1)) ⟨35, "x"⟩ List.mem_cons_self
    (List.forall_mem_singleton.mpr fun _ _ found => nomatch found)
  have both := Store.Sparing.inside outer List.mem_cons_self
  have inner := both.change (.define (.integer 2)) ⟨35, "x"⟩ List.mem_cons_self (apart rfl)
  exact inner.change (.chmod [.disable .anyRead]) ⟨35, "x"⟩ List.mem_cons_self (apart rfl)

theorem bindings_agree_shadowed :
    shadowed.Forest [innerScope, outerScope] ∧ innerScope ∈ [innerScope, outerScope] ∧
    (∀ id ∈ innerScope.chain, ∀ name ∈ (shadowed.frame id).names,
      name ∈ (SymbolTable.global.intern "x").2.symbols) ∧
    shadowed.lookup innerScope ⟨35, "x"⟩ = .error (.denied .read "x") ∧
    (⟨35, "x"⟩, .integer 2) ∈ shadowed.bindings innerScope ∧
    outerScope ∈ [innerScope, outerScope] ∧
    Store.Sparing outerScope.chain shadowed [innerScope, outerScope] ∧
    ∃ value, shadowed.lookup outerScope ⟨35, "x"⟩ = .ok value := by
  have known : ∀ id ∈ innerScope.chain, ∀ name ∈ (shadowed.frame id).names,
      name ∈ (SymbolTable.global.intern "x").2.symbols := by decide +kernel
  have inner := Store.Forest.bindings_agree forest_shadowed (by decide) known
  have outer := Store.Forest.bindings_agree (f := outerScope) forest_shadowed (by decide)
    fun id mem => known id (List.mem_cons_of_mem _ mem)
  refine ⟨forest_shadowed, by decide, known, rfl, ?_, by decide, sparing_shadowed, ?_⟩
  · exact (inner.2.2.1 _ _).mpr ⟨1, _, rfl, rfl, rfl⟩
  · exact (outer.2.2.2.2 sparing_shadowed ⟨35, "x"⟩).mp
      ((outer.2.1 _).mpr ⟨0, by decide, rfl⟩)

end GuardedLisp
