import Mathlib
import WebIdl.Json

/-!
# JSON up to the order of keys

Two values are the same if they are equal up to the order of the fields of their objects. An object
whose fields have names of their own is told by what it holds under each name. Fields that may be
left out are kept as slots here, so that objects of one kind have the same slots and an absent
value is one of the values that a slot takes.
-/

namespace WebIdl.Json

mutual

inductive Same : Json → Json → Prop where
  | null : Same .null .null
  | bool (b : Bool) : Same (.bool b) (.bool b)
  | string (s : String) : Same (.string s) (.string s)
  | array {xs ys : List Json} : SameItems xs ys → Same (.array xs) (.array ys)
  | object {fs gs : List (String × Json)} : SameFields fs gs → Same (.object fs) (.object gs)

inductive SameItems : List Json → List Json → Prop where
  | nil : SameItems [] []
  | cons {x y : Json} {xs ys : List Json} :
    Same x y → SameItems xs ys → SameItems (x :: xs) (y :: ys)

/-- Each field has a fellow of its name, wherever that stands. -/
inductive SameFields : List (String × Json) → List (String × Json) → Prop where
  | nil : SameFields [] []
  | cons {name : String} {v w : Json} {fs gs hs : List (String × Json)} :
    Same v w → SameFields fs gs → hs.Perm ((name, w) :: gs) → SameFields ((name, v) :: fs) hs

end

/-- No object of the value has two fields of one name. -/
inductive DistinctKeys : Json → Prop where
  | null : DistinctKeys .null
  | bool (b : Bool) : DistinctKeys (.bool b)
  | string (s : String) : DistinctKeys (.string s)
  | array {items : List Json} : (∀ j ∈ items, DistinctKeys j) → DistinctKeys (.array items)
  | object {fields : List (String × Json)} : (fields.map Prod.fst).Nodup →
    (∀ f ∈ fields, DistinctKeys f.2) → DistinctKeys (.object fields)

section Same

variable {fs gs : List (String × Json)} {xs ys : List Json}

mutual

theorem same_refl : (j : Json) → Same j j
  | .null => .null
  | .bool b => .bool b
  | .string s => .string s
  | .array items => .array (sameItems_refl items)
  | .object fields => .object (sameFields_refl fields)

theorem sameItems_refl : (items : List Json) → SameItems items items
  | [] => .nil
  | j :: items => .cons (same_refl j) (sameItems_refl items)

theorem sameFields_refl : (fields : List (String × Json)) → SameFields fields fields
  | [] => .nil
  | (_, v) :: fields => .cons (same_refl v) (sameFields_refl fields) (List.Perm.refl _)

end

@[simp] theorem same_null_left_iff {j : Json} : Same .null j ↔ j = .null := by
  constructor
  · rintro ⟨⟩
    rfl
  · rintro rfl
    exact .null

@[simp] theorem same_null_right_iff {j : Json} : Same j .null ↔ j = .null := by
  constructor
  · rintro ⟨⟩
    rfl
  · rintro rfl
    exact .null

@[simp] theorem same_bool_iff {a b : Bool} : Same (.bool a) (.bool b) ↔ a = b := by
  constructor
  · rintro ⟨⟩
    rfl
  · rintro rfl
    exact .bool a

@[simp] theorem same_string_iff {s t : String} : Same (.string s) (.string t) ↔ s = t := by
  constructor
  · rintro ⟨⟩
    rfl
  · rintro rfl
    exact .string s

theorem sameItems_cons_iff {x y : Json} :
    SameItems (x :: xs) (y :: ys) ↔ Same x y ∧ SameItems xs ys := by
  constructor
  · rintro ⟨⟩
    constructor <;> assumption
  · rintro ⟨hhead, hrest⟩
    exact .cons hhead hrest

@[simp] theorem same_array_iff : Same (.array xs) (.array ys) ↔ SameItems xs ys := by
  constructor
  · rintro ⟨⟩
    assumption
  · exact .array

@[simp] theorem same_object_iff : Same (.object fs) (.object gs) ↔ SameFields fs gs := by
  constructor
  · rintro ⟨⟩
    assumption
  · exact .object

theorem SameFields.length_eq (h : SameFields fs gs) : fs.length = gs.length := by
  induction fs generalizing gs with
  | nil =>
    cases h
    rfl
  | cons f fs ih =>
    cases h with
    | cons _ hrest hperm => rw [hperm.length_eq, List.length_cons, List.length_cons, ih hrest]

theorem SameFields.exists_fellow (h : SameFields fs gs) {name : String} {v : Json}
    (hv : (name, v) ∈ fs) : ∃ w, (name, w) ∈ gs ∧ Same v w := by
  induction fs generalizing gs with
  | nil => cases hv
  | cons f fs ih =>
    cases h with
    | @cons _ _ w _ gs' _ hsame hrest hperm =>
      rcases List.mem_cons.mp hv with heq | hv
      · cases heq
        exact ⟨w, hperm.mem_iff.mpr List.mem_cons_self, hsame⟩
      · obtain ⟨w', hw', hsame'⟩ := ih hrest hv
        exact ⟨w', hperm.mem_iff.mpr (List.mem_cons_of_mem _ hw'), hsame'⟩

theorem SameFields.keys_perm (h : SameFields fs gs) :
    (gs.map Prod.fst).Perm (fs.map Prod.fst) := by
  induction fs generalizing gs with
  | nil =>
    cases h
    exact List.Perm.nil
  | cons f fs ih =>
    cases h with
    | cons _ hrest hperm => exact (hperm.map Prod.fst).trans ((ih hrest).cons _)

end Same

/-! ### Slots -/

/-- The fields that an object may have, by name, `none` for one that is left out. -/
abbrev Slots :=
  List (String × Option Json)

def present (slots : Slots) : List (String × Json) :=
  slots.filterMap fun s => s.2.map (s.1, ·)

/-- The list under a name that is left out where the list is empty. -/
def unlessEmpty (items : List Json) : Option Json :=
  if items.isEmpty then none else some (.array items)

section Slots

variable {es es' : Slots} {name : String} {items : List Json}

@[simp] theorem present_nil : present [] = [] := rfl

@[simp] theorem fieldIfPresent_some (name : String) (v : Json) :
    fieldIfPresent name (some v) = [(name, v)] := rfl

@[simp] theorem fieldIfPresent_unlessEmpty (name : String) (items : List Json) :
    fieldIfPresent name (unlessEmpty items) = fieldUnlessEmpty name items := by
  unfold unlessEmpty fieldUnlessEmpty
  split
  · rfl
  · rfl

@[simp] theorem present_cons (name : String) (value : Option Json) (es : Slots) :
    present ((name, value) :: es) = fieldIfPresent name value ++ present es := by
  cases value with
  | none => rfl
  | some v => rfl

theorem mem_present {v : Json} : (name, v) ∈ present es ↔ (name, some v) ∈ es := by
  simp [present]

theorem keys_present_sublist (es : Slots) :
    ((present es).map Prod.fst).Sublist (es.map Prod.fst) := by
  induction es with
  | nil => exact List.Sublist.slnil
  | cons e es ih =>
    obtain ⟨name, value⟩ := e
    cases value with
    | none => exact ih.cons _
    | some v => exact ih.cons_cons _

/-- The value of a slot, where there is one, has distinct keys. -/
def SlotDistinct (value : Option Json) : Prop :=
  ∀ v ∈ value, DistinctKeys v

@[simp] theorem slotDistinct_some {v : Json} : SlotDistinct (some v) ↔ DistinctKeys v := by
  simp [SlotDistinct]

theorem slotDistinct_unlessEmpty (h : ∀ j ∈ items, DistinctKeys j) :
    SlotDistinct (unlessEmpty items) := by
  unfold unlessEmpty
  split
  · nofun
  · exact slotDistinct_some.mpr (.array h)

theorem distinctKeys_present (hes : (es.map Prod.fst).Nodup)
    (h : ∀ e ∈ es, SlotDistinct e.2) : DistinctKeys (.object (present es)) := by
  apply DistinctKeys.object (hes.sublist (keys_present_sublist es))
  rintro ⟨name, v⟩ hv
  exact h _ (mem_present.mp hv) v rfl

theorem eq_of_mem_slots (hes : (es.map Prod.fst).Nodup) {a b : Option Json}
    (ha : (name, a) ∈ es) (hb : (name, b) ∈ es) : a = b :=
  congrArg Prod.snd (List.inj_on_of_nodup_map hes ha hb rfl)

/-- What two objects hold under a name is the same. -/
theorem SameFields.agree (h : SameFields (present es) (present es'))
    (hes : (es.map Prod.fst).Nodup) (hes' : (es'.map Prod.fst).Nodup) {a b : Option Json}
    (ha : (name, a) ∈ es) (hb : (name, b) ∈ es') : Option.Rel Same a b := by
  cases a with
  | some v =>
    obtain ⟨w, hw, hsame⟩ := h.exists_fellow (mem_present.mpr ha)
    rw [eq_of_mem_slots hes' hb (mem_present.mp hw)]
    exact .some hsame
  | none =>
    cases b with
    | none => exact .none
    | some w =>
      have hkey : name ∈ (present es').map Prod.fst :=
        List.mem_map.mpr ⟨_, mem_present.mpr hb, rfl⟩
      obtain ⟨⟨_, v⟩, hv, rfl⟩ := List.mem_map.mp (h.keys_perm.mem_iff.mp hkey)
      cases eq_of_mem_slots hes ha (mem_present.mp hv)

/-- Two lists of slots hold the same one by one. -/
abbrev SameSlots : Slots → Slots → Prop :=
  List.Forall₂ fun e e' => Option.Rel Same e.2 e'.2

/-- Objects of one kind are the same slot by slot. -/
theorem SameFields.sameSlots (h : SameFields (present es) (present es'))
    (hkeys : es.map Prod.fst = es'.map Prod.fst) (hes : (es.map Prod.fst).Nodup) :
    SameSlots es es' := by
  have hes' : (es'.map Prod.fst).Nodup := hkeys ▸ hes
  have hall : ∀ fs fs' : Slots, fs ⊆ es → fs' ⊆ es' → fs.map Prod.fst = fs'.map Prod.fst →
      SameSlots fs fs' := by
    intro fs
    induction fs with
    | nil =>
      intro fs' _ _ heq
      rw [List.map_nil, eq_comm, List.map_eq_nil_iff] at heq
      rw [heq]
      exact .nil
    | cons f fs ih =>
      intro fs' hfs hfs' heq
      cases fs' with
      | nil => cases heq
      | cons f' fs' =>
        obtain ⟨hname, hnames⟩ := List.cons.inj heq
        obtain ⟨hf, hrest⟩ := List.cons_subset.mp hfs
        obtain ⟨hf', hrest'⟩ := List.cons_subset.mp hfs'
        obtain ⟨name, a⟩ := f
        obtain ⟨name', b⟩ := f'
        obtain rfl : name = name' := hname
        exact .cons (h.agree hes hes' hf hf') (ih fs' hrest hrest' hnames)
  exact hall es es' (List.Subset.refl es) (List.Subset.refl es') hkeys

end Slots

/-! ### Values of slots -/

/-- The JSON form of a kind of value has distinct keys and leads back to the value. -/
structure Faithful {α : Type} (f : α → Json) : Prop where
  distinct : ∀ x, DistinctKeys (f x)
  inj : ∀ {x y}, Same (f x) (f y) → x = y

section Values

variable {α : Type} {f : α → Json} {xs ys : List Json}

@[simp] theorem rel_some {v w : Json} : Option.Rel Same (some v) (some w) ↔ Same v w := by
  constructor
  · rintro ⟨⟩
    assumption
  · exact .some

@[simp] theorem rel_none_some {v : Json} : ¬Option.Rel Same none (some v) := nofun

@[simp] theorem rel_some_none {v : Json} : ¬Option.Rel Same (some v) none := nofun

@[simp] theorem rel_unlessEmpty :
    Option.Rel Same (unlessEmpty xs) (unlessEmpty ys) ↔ SameItems xs ys := by
  unfold unlessEmpty
  cases xs with
  | nil =>
    cases ys with
    | nil => exact iff_of_true .none .nil
    | cons y ys => exact iff_of_false nofun nofun
  | cons x xs =>
    cases ys with
    | nil => exact iff_of_false nofun nofun
    | cons y ys => exact rel_some.trans same_array_iff

namespace Faithful

variable (hf : Faithful f)

include hf

theorem same_iff {x y : α} : Same (f x) (f y) ↔ x = y := by
  constructor
  · exact hf.inj
  · rintro rfl
    exact same_refl (f x)

theorem sameItems_iff {xs ys : List α} : SameItems (xs.map f) (ys.map f) ↔ xs = ys := by
  constructor
  · intro h
    induction xs generalizing ys with
    | nil =>
      cases ys with
      | nil => rfl
      | cons y ys => cases h
    | cons x xs ih =>
      cases ys with
      | nil => cases h
      | cons y ys =>
        obtain ⟨hhead, hrest⟩ := sameItems_cons_iff.mp h
        rw [hf.inj hhead, ih hrest]
  · rintro rfl
    exact sameItems_refl _

theorem rel_map_iff {a b : Option α} : Option.Rel Same (a.map f) (b.map f) ↔ a = b := by
  cases a with
  | none =>
    cases b with
    | none => exact iff_of_true .none rfl
    | some y => exact iff_of_false nofun nofun
  | some x =>
    cases b with
    | none => exact iff_of_false nofun nofun
    | some y => exact rel_some.trans (hf.same_iff.trans (Option.some.injEq x y).symm.to_iff)

end Faithful

end Values

end WebIdl.Json
