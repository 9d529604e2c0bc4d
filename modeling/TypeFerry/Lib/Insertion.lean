import Mathlib.Data.List.Basic

/-! # Insertion into a list without repetition

Elements are put at the end of a list one after the other, unless the list has the
same one already, for a notion of sameness that need not be reflexive or
symmetric. -/
namespace TypeFerry.Lib.Insertion

section
variable {α : Type*} (same : α → α → Bool)

/-- The elements that are the same as none before them. -/
def firsts (before : List α) : List α → List α
  | [] => []
  | x :: xs => if before.any (same · x) then firsts (before ++ [x]) xs else x :: firsts (before ++ [x]) xs

/-- The elements put into the list one after the other. -/
def insertAll (items current : List α) : List α :=
  items.foldl (fun current item => if current.any (same · item) then current else current ++ [item]) current

/-- No element is the same as one before it. -/
def Distinct (l : List α) : Prop := l.Pairwise fun a b => same a b = false

end

section
variable {α : Type*} {same : α → α → Bool}

theorem any_eq_false {l : List α} {x : α} : l.any (same · x) = false ↔ ∀ a ∈ l, same a x = false := by
  simp

theorem insertAll_cons (item : α) (items current : List α) :
    insertAll same (item :: items) current =
      insertAll same items (if current.any (same · item) then current else current ++ [item]) := rfl

section
variable (htrans : ∀ a b c, same a b → same b c → same a c)
include htrans

/-- What was left out has the same one in front of it, so the comparison with all that came before
and the one with what was kept agree. -/
theorem insertAll_eq_of_kept : ∀ (items kept before : List α), kept ⊆ before →
    (∀ b ∈ before, ∀ x, same b x → kept.any (same · x)) →
    insertAll same items kept = kept ++ firsts same before items
  | [], kept, _, _, _ => (List.append_nil kept).symm
  | x :: xs, kept, before, hsub, hkept => by
    have hany : kept.any (same · x) = before.any (same · x) := by
      rw [Bool.eq_iff_iff, List.any_eq_true, List.any_eq_true]
      constructor
      · rintro ⟨a, ha, hax⟩
        exact ⟨a, hsub ha, hax⟩
      · rintro ⟨b, hb, hbx⟩
        exact List.any_eq_true.mp (hkept b hb x hbx)
    rw [insertAll_cons, hany, firsts]
    split
    · next hbefore =>
      refine insertAll_eq_of_kept xs kept _ (List.Subset.trans hsub (List.subset_append_left _ _)) fun b hb y hby => ?_
      rcases List.mem_append.mp hb with hb | hb
      · exact hkept b hb y hby
      · -- `x` itself was left out for some `a` before it.
        obtain rfl := List.mem_singleton.mp hb
        obtain ⟨a, ha, hab⟩ := List.any_eq_true.mp hbefore
        exact hkept a ha y (htrans a b y hab hby)
    · refine (insertAll_eq_of_kept xs (kept ++ [x]) (before ++ [x]) ?_ fun b hb y hby => ?_).trans
        (List.append_cons _ _ _).symm
      · intro a ha
        rcases List.mem_append.mp ha with ha | ha
        · exact List.mem_append_left _ (hsub ha)
        · exact List.mem_append_right _ ha
      · rw [List.any_append, Bool.or_eq_true]
        rcases List.mem_append.mp hb with hb | hb
        · exact .inl (hkept b hb y hby)
        · obtain rfl := List.mem_singleton.mp hb
          exact .inr (by simpa using hby)

/-- **Insertion one after the other** keeps the list and adds the elements that are the same as none
before them. -/
theorem insertAll_eq (items current : List α) :
    insertAll same items current = current ++ firsts same current items :=
  insertAll_eq_of_kept htrans items current current (List.Subset.refl _)
    fun b hb _ hbx => List.any_eq_true.mpr ⟨b, hb, hbx⟩

end

/-- Insertion only adds. -/
theorem length_le_insertAll (items : List α) : ∀ current : List α,
    current.length ≤ (insertAll same items current).length := by
  induction items with
  | nil => exact fun current => Nat.le_refl _
  | cons x xs ih =>
    intro current
    rw [insertAll_cons]
    split
    · exact ih current
    · exact Nat.le_trans (by simp) (ih _)

/-- Nothing is inserted if and only if all of it is there. -/
theorem insertAll_eq_self {items current : List α} :
    insertAll same items current = current ↔ ∀ x ∈ items, current.any (same · x) := by
  induction items with
  | nil => simp [insertAll]
  | cons x xs ih =>
    rw [insertAll_cons, List.forall_mem_cons, ← ih]
    split
    · next hx => exact ⟨fun h => ⟨hx, h⟩, fun h => h.2⟩
    · next hx =>
      refine ⟨fun h => ?_, fun h => absurd h.1 hx⟩
      have hlength : _ ≤ (insertAll same xs _).length := length_le_insertAll xs (current ++ [x])
      rw [h, List.length_append, List.length_singleton] at hlength
      omega

theorem mem_firsts {items before : List α} {x : α} (h : x ∈ firsts same before items) :
    x ∈ items ∧ before.any (same · x) = false := by
  induction items generalizing before with
  | nil => cases h
  | cons y ys ih =>
    have hrest : x ∈ firsts same (before ++ [y]) ys → x ∈ y :: ys ∧ before.any (same · x) = false := by
      intro hx
      obtain ⟨hmem, hnot⟩ := ih hx
      rw [List.any_append, Bool.or_eq_false_iff] at hnot
      exact ⟨List.mem_cons_of_mem _ hmem, hnot.1⟩
    rw [firsts] at h
    split at h
    · exact hrest h
    · next hy =>
      rcases List.mem_cons.mp h with rfl | h
      · exact ⟨List.mem_cons_self, Bool.eq_false_iff.mpr hy⟩
      · exact hrest h

theorem distinct_firsts (items before : List α) : Distinct same (firsts same before items) := by
  induction items generalizing before with
  | nil => exact .nil
  | cons y ys ih =>
    rw [firsts]
    split
    · exact ih _
    · refine .cons (fun x hx => ?_) (ih _)
      have hnot := (mem_firsts hx).2
      rw [List.any_append, Bool.or_eq_false_iff] at hnot
      simpa using hnot.2

/-- A list without repetition stays one. -/
theorem distinct_append_firsts {current : List α} (h : Distinct same current) (items : List α) :
    Distinct same (current ++ firsts same current items) :=
  List.pairwise_append.mpr ⟨h, distinct_firsts items current,
    fun a ha _ hx => any_eq_false.mp (mem_firsts hx).2 a ha⟩

/-- Every element is there after an insertion, if it is the same as itself. -/
theorem any_append_firsts (htrans : ∀ a b c, same a b → same b c → same a c) {items current : List α}
    {x : α} (hx : x ∈ items) (hself : same x x) :
    (current ++ firsts same current items).any (same · x) := by
  rw [← insertAll_eq htrans]
  induction items generalizing current with
  | nil => cases hx
  | cons y ys ih =>
    rw [insertAll_cons]
    rcases List.mem_cons.mp hx with rfl | hx
    · -- What is there stays there.
      rw [insertAll_eq htrans, List.any_append, Bool.or_eq_true]
      left
      split
      · assumption
      · simp [hself]
    · exact ih hx

/-- All of a list is kept if and only if nothing in it repeats. -/
theorem firsts_eq_self {items before : List α} : firsts same before items = items ↔
    Distinct same items ∧ ∀ x ∈ items, before.any (same · x) = false := by
  constructor
  · intro h
    exact ⟨h ▸ distinct_firsts items before, fun x hx => (mem_firsts (h.symm ▸ hx)).2⟩
  · rintro ⟨hdistinct, hnew⟩
    induction items generalizing before with
    | nil => rfl
    | cons x xs ih =>
      rw [firsts, if_neg (by simp [hnew x List.mem_cons_self])]
      obtain ⟨hx, hxs⟩ := List.pairwise_cons.mp hdistinct
      rw [ih hxs fun y hy => ?_]
      rw [List.any_append, hnew y (List.mem_cons_of_mem _ hy), Bool.false_or]
      simpa using hx y hy

end

end TypeFerry.Lib.Insertion
