import TypeFerry.Lib.OrderedMap

/-! # Maps of sets

A map that has a set under each of its keys and no empty set. Two of them index one relation
from both of its sides when an element is in the one as often as in the other. -/
namespace TypeFerry.Lib.Index
open TypeFerry.Lib.OrderedMap

/-- A set is a map to nothing. -/
abbrev SetMap (κ ν : Type*) [DecidableEq κ] [DecidableEq ν] := OMap κ (OMap ν Unit)

variable {κ ν : Type*} [DecidableEq κ] [DecidableEq ν]

namespace SetMap

/-- The set is made where there is none. -/
def add (m : SetMap κ ν) (k : κ) (v : ν) : SetMap κ ν := m.set k (((m.get k).getD OMap.empty).set v ())

/-- A set that gets empty is deleted. -/
def drop (m : SetMap κ ν) (k : κ) (v : ν) : SetMap κ ν :=
  match m.get k with
  | none => m
  | some xs => if (xs.delete v).size = 0 then m.delete k else m.set k (xs.delete v)

def Mem (m : SetMap κ ν) (k : κ) (v : ν) : Prop := ∃ xs, m.get k = some xs ∧ xs.get v = some ()

/-- No set is empty. -/
def Proper (m : SetMap κ ν) : Prop := ∀ k xs, m.get k = some xs → xs.size ≠ 0

variable {m : SetMap κ ν} {k k' : κ} {v v' : ν}

theorem size_ne_zero {xs : OMap ν Unit} : xs.size ≠ 0 ↔ ∃ v, xs.get v = some () := by
  rw [OMap.size, ne_eq, List.length_eq_zero_iff]
  constructor
  · intro h
    obtain ⟨e, he⟩ := List.exists_mem_of_ne_nil _ h
    exact ⟨e.1, OMap.get_eq_some.mpr he⟩
  · rintro ⟨v, hv⟩ hnil
    have hmem := OMap.get_eq_some.mp hv
    rw [hnil] at hmem
    cases hmem

theorem mem_add : Mem (m.add k v) k' v' ↔ Mem m k' v' ∨ (k' = k ∧ v' = v) := by
  rw [Mem, add, OMap.get_set]
  split
  · next hk =>
    subst hk
    simp only [Option.some.injEq, exists_eq_left', OMap.get_set, true_and]
    by_cases hv : v' = v
    · simp [hv]
    · cases hx : m.get k' <;> simp [hv, Mem, hx]
  · next hk => simp [Mem, hk]

theorem mem_drop : Mem (m.drop k v) k' v' ↔ Mem m k' v' ∧ ¬ (k' = k ∧ v' = v) := by
  rw [drop]
  cases hx : m.get k with
  | none =>
    refine ⟨fun h => ⟨h, ?_⟩, And.left⟩
    rintro ⟨rfl, rfl⟩
    obtain ⟨xs, hxs, -⟩ := h
    rw [hx] at hxs
    cases hxs
  | some xs =>
    have hdelete : ∀ w, (xs.delete v).get w = some () ↔ xs.get w = some () ∧ w ≠ v := fun w => by
      rw [OMap.get_delete]
      by_cases hw : w = v <;> simp [hw]
    by_cases hk : k' = k
    · subst hk
      have hmem : Mem m k' v' ↔ xs.get v' = some () := by simp [Mem, hx]
      rw [hmem]
      dsimp only
      split
      · next hempty =>
        have hnone := not_exists.mp (mt size_ne_zero.mpr (not_not.mpr hempty)) v'
        rw [hdelete] at hnone
        simpa [Mem, OMap.get_delete] using hnone
      · simp [Mem, hdelete]
    · dsimp only
      split
      · simp [Mem, OMap.get_delete, hk]
      · simp [Mem, OMap.get_set, hk]

theorem Proper.add (h : Proper m) : Proper (m.add k v) := by
  intro k' xs hxs
  rw [SetMap.add, OMap.get_set] at hxs
  split at hxs
  · obtain rfl := Option.some.inj hxs
    exact size_ne_zero.mpr ⟨v, OMap.get_set_self ..⟩
  · exact h k' xs hxs

theorem Proper.drop (h : Proper m) : Proper (m.drop k v) := by
  intro k' xs hxs
  rw [SetMap.drop] at hxs
  split at hxs
  · exact h k' xs hxs
  · split at hxs
    · rw [OMap.get_delete] at hxs
      split at hxs
      · cases hxs
      · exact h k' xs hxs
    · next hne =>
      rw [OMap.get_set] at hxs
      split at hxs
      · obtain rfl := Option.some.inj hxs
        exact hne
      · exact h k' xs hxs

theorem not_mem_empty : ¬ Mem (OMap.empty : SetMap κ ν) k v := by
  rintro ⟨xs, hxs, -⟩
  cases hxs

end SetMap

open SetMap

/-! ### Both sides of a relation -/

/-- The maps are inverse to each other, and neither has an empty set. -/
structure Inverse (m : SetMap κ ν) (m' : SetMap ν κ) : Prop where
  mem : ∀ k v, Mem m k v ↔ Mem m' v k
  proper : Proper m
  proper' : Proper m'

variable {m : SetMap κ ν} {m' : SetMap ν κ}

theorem Inverse.add (h : Inverse m m') (k : κ) (v : ν) : Inverse (m.add k v) (SetMap.add m' v k) where
  mem k' v' := by rw [mem_add, mem_add, h.mem, and_comm]
  proper := h.proper.add
  proper' := h.proper'.add

theorem Inverse.drop (h : Inverse m m') (k : κ) (v : ν) : Inverse (m.drop k v) (SetMap.drop m' v k) where
  mem k' v' := by rw [mem_drop, mem_drop, h.mem, and_comm (a := k' = k)]
  proper := h.proper.drop
  proper' := h.proper'.drop

theorem Inverse.empty : Inverse (OMap.empty : SetMap κ ν) (OMap.empty : SetMap ν κ) where
  mem _ _ := iff_of_false not_mem_empty not_mem_empty
  proper _ _ h := by cases h
  proper' _ _ h := by cases h

end TypeFerry.Lib.Index
