import WebIdl.Proofs.Merging.Targets

/-!
# Interleaved definitions

A partial definition looks for its target among the definitions of its own name. So what is merged
under a name is told by the definitions of that name alone, and the definitions that are not partial
tell in which order the names come. Lists that have both in common may interleave the definitions of
different names as they like: they are merged into the same list.
-/

namespace WebIdl

open Merged

section Keys

variable {α κ : Type} [DecidableEq κ] {key : α → κ} {k : κ} {x : α} {xs ys : List α}

/-- The elements with a key, in their order. -/
def keyed (key : α → κ) (k : κ) (xs : List α) : List α :=
  xs.filter (key · == k)

theorem keyed_cons_of_eq (h : key x = k) : keyed key k (x :: xs) = x :: keyed key k xs :=
  List.filter_cons_of_pos (beq_iff_eq.mpr h)

theorem keyed_cons_of_ne (h : key x ≠ k) : keyed key k (x :: xs) = keyed key k xs :=
  List.filter_cons_of_neg (by simpa using h)

theorem keyed_concat : keyed key k (xs ++ [x]) = keyed key k xs ++ if key x = k then [x] else [] := by
  by_cases h : key x = k <;> simp [keyed, h]

/-- Two lists with the same elements under each key are permutations of each other. -/
theorem perm_of_keyed_eq (h : ∀ k, keyed key k xs = keyed key k ys) : xs.Perm ys := by
  classical
  apply List.perm_iff_count.mpr
  intro a
  have hcount (zs : List α) : (keyed key (key a) zs).count a = zs.count a :=
    List.count_filter (beq_self_eq_true (key a))
  rw [← hcount xs, ← hcount ys, h]

/-- A list is told by its keys and by the elements under each of them. -/
theorem eq_of_keyed_eq (hkeys : xs.map key = ys.map key)
    (h : ∀ k, keyed key k xs = keyed key k ys) : xs = ys := by
  induction xs generalizing ys with
  | nil => exact (List.map_eq_nil_iff.mp hkeys.symm).symm
  | cons x xs ih =>
    cases ys with
    | nil => cases hkeys
    | cons y ys =>
      obtain ⟨hkey, hrest⟩ := List.cons.inj hkeys
      have hhead := h (key x)
      rw [keyed_cons_of_eq rfl, keyed_cons_of_eq hkey.symm] at hhead
      obtain rfl : x = y := (List.cons.inj hhead).1
      have htail : xs = ys := by
        apply ih hrest
        intro k
        have hk := h k
        by_cases hxk : key x = k
        · rw [keyed_cons_of_eq hxk, keyed_cons_of_eq hxk] at hk
          exact (List.cons.inj hk).2
        · rw [keyed_cons_of_ne hxk, keyed_cons_of_ne hxk] at hk
          exact hk
      rw [htail]

end Keys

/-- What is merged under a name. -/
def Merged.under (name : String) (m : Merged) : Merged :=
  ⟨keyed Definition.name name m.definitions, keyed MergeWarning.name name m.warnings⟩

/-- The same definitions that are not partial in the same order, and the same definitions of each
name in the same order. By `perm_of_keyed_eq` such lists are permutations of each other. -/
structure Interleaved (xs ys : List Definition) : Prop where
  canonical : xs.filter (fun x => !x.isPartial) = ys.filter fun x => !x.isPartial
  named (name : String) : keyed Definition.name name xs = keyed Definition.name name ys

@[simp] theorem Definition.name_addMembers (x : Definition) (more : List Member) :
    (x.addMembers more).name = x.name :=
  (sameTarget_addMembers x more).name

variable {name : String} {more : List Member} {xs ys : List Definition} {x : Definition}

theorem isTarget_of_ne (h : x.name ≠ name) : isTarget name x = false := by
  rw [isTarget, beq_eq_false_iff_ne.mpr h, Bool.false_and]

/-- A partial definition finds its target among the definitions of its name. -/
theorem extendTarget_keyed (name : String) (more : List Member) (xs : List Definition) :
    extendTarget name more (keyed Definition.name name xs) =
      (extendTarget name more xs).map (keyed Definition.name name) := by
  induction xs with
  | nil => rfl
  | cons x xs ih =>
    by_cases hname : x.name = name
    · rw [keyed_cons_of_eq hname, extendTarget, extendTarget, ih]
      by_cases htarget : isTarget name x
      · rw [if_pos htarget, if_pos htarget, Option.map_some,
          keyed_cons_of_eq ((x.name_addMembers more).trans hname)]
      · rw [if_neg htarget, if_neg htarget, Option.map_map, Option.map_map]
        apply Option.map_congr
        intro zs _
        exact (keyed_cons_of_eq hname).symm
    · rw [keyed_cons_of_ne hname, extendTarget, isTarget_of_ne hname, if_neg Bool.false_ne_true, ih,
        Option.map_map]
      apply Option.map_congr
      intro zs _
      exact (keyed_cons_of_ne hname).symm

/-- The definitions of other names stay as they are. -/
theorem keyed_of_extendTarget {other : String} (hne : name ≠ other)
    (h : extendTarget name more xs = some ys) :
    keyed Definition.name other ys = keyed Definition.name other xs := by
  induction xs generalizing ys with
  | nil => cases h
  | cons x xs ih =>
    rw [extendTarget] at h
    by_cases htarget : isTarget name x
    · rw [if_pos htarget] at h
      cases h
      have hname : x.name = name := by
        rw [isTarget, Bool.and_eq_true, beq_iff_eq] at htarget
        exact htarget.1
      have hother : x.name ≠ other := hname ▸ hne
      rw [keyed_cons_of_ne hother, keyed_cons_of_ne]
      rwa [Definition.name_addMembers]
    · rw [if_neg htarget] at h
      obtain ⟨zs, hzs, rfl⟩ := Option.map_eq_some_iff.mp h
      by_cases hother : x.name = other
      · rw [keyed_cons_of_eq hother, keyed_cons_of_eq hother, ih hzs]
      · rw [keyed_cons_of_ne hother, keyed_cons_of_ne hother, ih hzs]

/-- One more definition changes what is merged under its own name, as if it were the only name. -/
theorem under_add (m : Merged) (x : Definition) (name : String) :
    (m.add x).under name = if x.name = name then (m.under name).add x else m.under name := by
  by_cases hname : x.name = name
  · subst hname
    rw [if_pos rfl, add, add]
    cases x.isPartial with
    | false =>
      simp [Merged.under, keyed_concat]
    | true =>
      have htarget := extendTarget_keyed x.name (x.members?.getD []) m.definitions
      simp only [if_true, Merged.under, htarget]
      cases extendTarget x.name (x.members?.getD []) m.definitions with
      | none => simp [keyed_concat]
      | some ys => rfl
  · rw [if_neg hname, add]
    cases x.isPartial with
    | false =>
      simp [Merged.under, keyed_concat, hname]
    | true =>
      simp only [if_true]
      cases htarget : extendTarget x.name (x.members?.getD []) m.definitions with
      | none => simp [Merged.under, keyed_concat, hname]
      | some ys => simp [Merged.under, keyed_of_extendTarget hname htarget]

/-- What is merged under a name is what the definitions of that name are merged into. -/
theorem under_mergePartials (name : String) (xs : List Definition) :
    (mergePartials xs).under name = mergePartials (keyed Definition.name name xs) := by
  induction xs using List.reverseRecOn with
  | nil => rfl
  | append_singleton xs x ih =>
    rw [mergePartials_concat, under_add, ih, keyed_concat]
    by_cases hname : x.name = name
    · rw [if_pos hname, if_pos hname, mergePartials_concat]
    · rw [if_neg hname, if_neg hname, List.append_nil]

/-- The names of a merged list are those of the definitions that are not partial. -/
theorem map_name_mergePartials (xs : List Definition) :
    (mergePartials xs).definitions.map Definition.name =
      (xs.filter fun x => !x.isPartial).map Definition.name := by
  have hcanonicals : (canonicals xs).map Prod.fst = xs.filter fun x => !x.isPartial := by
    conv_rhs => rw [← List.zipIdx_map_fst 0 xs, List.filter_map]
    rfl
  rw [mergePartials_eq, ← hcanonicals, List.map_map, List.map_map]
  apply List.map_congr_left
  intro e _
  exact Definition.name_addMembers _ _

/-- Merging does not depend on how the definitions of different names interleave: the definitions
are the same, and the warnings are the same but for the order between different names. -/
theorem mergePartials_of_interleaved (h : Interleaved xs ys) :
    (mergePartials xs).definitions = (mergePartials ys).definitions ∧
      (mergePartials xs).warnings.Perm (mergePartials ys).warnings ∧
      ∀ name, keyed MergeWarning.name name (mergePartials xs).warnings =
        keyed MergeWarning.name name (mergePartials ys).warnings := by
  have hnamed (name : String) : (mergePartials xs).under name = (mergePartials ys).under name := by
    rw [under_mergePartials, under_mergePartials, h.named]
  have hdefinitions (name : String) := congrArg Merged.definitions (hnamed name)
  have hwarnings (name : String) := congrArg Merged.warnings (hnamed name)
  refine ⟨?_, perm_of_keyed_eq hwarnings, hwarnings⟩
  apply eq_of_keyed_eq _ hdefinitions
  rw [map_name_mergePartials, map_name_mergePartials, h.canonical]

/-- An interface, partial or not, that brings one constant. -/
def oneConstant (isPartial : Bool) (name constant : String) : Definition :=
  ⟨[], [], [], .interface ⟨name, isPartial, none,
    [⟨[], [], [], .const ⟨.named "T" {}, constant, .null⟩⟩], []⟩⟩

/-- Partial definitions take turns in front of the interfaces of other names and behind them. -/
theorem mergePartials_of_interleaved_turns :
    ∃ xs ys : List Definition,
      xs.map (fun x => (x.name, x.isPartial)) = [("C", true), ("A", false), ("B", true),
        ("A", true), ("B", false), ("A", true)] ∧
      ys.map (fun x => (x.name, x.isPartial)) = [("A", false), ("A", true), ("A", true),
        ("B", true), ("B", false), ("C", true)] ∧
      Interleaved xs ys ∧
      (mergePartials xs).definitions = (mergePartials ys).definitions ∧
      writeDefinitions (mergePartials ys).definitions =
        "interface A \x7bconst T p = null;const T r = null;const T t = null;\x7d;\n" ++
          "interface B \x7bconst T s = null;\x7d;" ∧
      (mergePartials xs).warnings = [⟨"C"⟩, ⟨"B"⟩] ∧
      (mergePartials ys).warnings = [⟨"B"⟩, ⟨"C"⟩] := by
  have hinterleaved : Interleaved
      [oneConstant true "C" "o", oneConstant false "A" "p", oneConstant true "B" "q",
        oneConstant true "A" "r", oneConstant false "B" "s", oneConstant true "A" "t"]
      [oneConstant false "A" "p", oneConstant true "A" "r", oneConstant true "A" "t",
        oneConstant true "B" "q", oneConstant false "B" "s", oneConstant true "C" "o"] := by
    refine ⟨rfl, ?_⟩
    intro name
    by_cases ha : "A" = name
    · subst ha
      rfl
    by_cases hb : "B" = name
    · subst hb
      rfl
    by_cases hc : "C" = name
    · subst hc
      rfl
    simp [oneConstant, keyed, Definition.name, ha, hb, hc]
  obtain ⟨hdefinitions, -, -⟩ := mergePartials_of_interleaved hinterleaved
  exact ⟨_, _, rfl, rfl, hinterleaved, hdefinitions, by decide, rfl, rfl⟩

end WebIdl
