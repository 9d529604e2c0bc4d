import Mathlib

/-! # Entries of a list that grows

Calls are kept in a list: a new one is put at its end, and one that goes on is replaced. -/
namespace TypeFerry.Lib.Entries

variable {α : Type*} {xs : List α} {i k : ℕ} {x y z : α}

theorem getElem?_concat_iff : (xs ++ [x])[k]? = some z ↔ xs[k]? = some z ∨ k = xs.length ∧ z = x := by
  rcases Nat.lt_trichotomy k xs.length with hk | rfl | hk
  · rw [List.getElem?_append_left hk]
    exact ⟨.inl, fun h => h.resolve_right fun h => hk.ne h.1⟩
  · rw [List.getElem?_concat_length, List.getElem?_eq_none le_rfl]
    exact ⟨fun h => .inr ⟨rfl, (Option.some.inj h).symm⟩, fun h => (h.resolve_left nofun).2 ▸ rfl⟩
  · rw [List.getElem?_eq_none (by rw [List.length_append]; exact hk), List.getElem?_eq_none hk.le]
    exact ⟨nofun, fun h => absurd (h.resolve_left nofun).1 hk.ne'⟩

theorem getElem?_set_iff (hx : xs[i]? = some x) :
    (xs.set i y)[k]? = some z ↔ (k = i ∧ z = y) ∨ k ≠ i ∧ xs[k]? = some z := by
  by_cases hk : k = i
  · subst hk
    rw [List.getElem?_set_self (List.getElem?_eq_some_iff.mp hx).1]
    exact ⟨fun h => .inl ⟨rfl, (Option.some.inj h).symm⟩, fun h => (h.resolve_right fun h => h.1 rfl).2 ▸ rfl⟩
  · rw [List.getElem?_set_ne (Ne.symm hk)]
    exact ⟨fun h => .inr ⟨hk, h⟩, fun h => (h.resolve_left fun h => hk h.1).2⟩

/-- An entry that is not the one replaced, or was not there before, stays. -/
theorem getElem?_concat_of (h : xs[k]? = some z) : (xs ++ [x])[k]? = some z :=
  getElem?_concat_iff.mpr (.inl h)

theorem getElem?_set_of (hx : xs[i]? = some x) (hk : k ≠ i) (h : xs[k]? = some z) : (xs.set i y)[k]? = some z :=
  (getElem?_set_iff hx).mpr (.inr ⟨hk, h⟩)

theorem getElem?_set_at (hx : xs[i]? = some x) : (xs.set i y)[i]? = some y :=
  (getElem?_set_iff hx).mpr (.inl ⟨rfl, rfl⟩)

/-- An entry that is replaced changes a sum by what it counts. -/
theorem sum_map_set (f : α → ℕ) (hx : xs[i]? = some x) :
    ((xs.set i y).map f).sum + f x = (xs.map f).sum + f y := by
  induction xs generalizing i with
  | nil => cases hx
  | cons head tail ih =>
    cases i with
    | zero =>
      obtain rfl := Option.some.inj hx
      simp only [List.set_cons_zero, List.map_cons, List.sum_cons]
      omega
    | succ i =>
      have hsum := ih (i := i) hx
      simp only [List.set_cons_succ, List.map_cons, List.sum_cons]
      omega

end TypeFerry.Lib.Entries
