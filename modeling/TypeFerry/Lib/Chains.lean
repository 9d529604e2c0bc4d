import Mathlib.Order.Basic
import Mathlib.Tactic.Common

/-! # Following links

Things that may each name a next one. Where every link leads to a smaller rank, following
the links never comes back, and comes to a thing without a link. -/
namespace TypeFerry.Lib.Chains

variable {α : Type*}

/-- `n` links further, if there are so many. -/
def follow (next : α → Option α) : ℕ → α → Option α
  | 0, x => some x
  | n + 1, x => (next x).bind (follow next n)

variable {next : α → Option α} {P : α → Prop} {rank : α → ℕ}

theorem follow_add (next : α → Option α) : ∀ (n m : ℕ) (x : α),
    follow next (n + m) x = (follow next n x).bind (follow next m)
  | 0, m, x => by rw [Nat.zero_add]; rfl
  | n + 1, m, x => by
    rw [Nat.add_right_comm, follow, follow, Option.bind_assoc]
    exact Option.bind_congr fun y _ => follow_add next n m y

/-- Every link keeps `P` and lowers the rank. -/
def Descends (next : α → Option α) (P : α → Prop) (rank : α → ℕ) : Prop :=
  ∀ x y, P x → next x = some y → P y ∧ rank y < rank x

theorem Descends.follow (h : Descends next P rank) : ∀ (n : ℕ) {x y : α}, P x →
    follow next n x = some y → P y ∧ rank y + n ≤ rank x
  | 0, x, y, hx, hy => by
    cases hy
    exact ⟨hx, Nat.le_refl _⟩
  | n + 1, x, y, hx, hy => by
    obtain ⟨z, hz, hy⟩ := Option.bind_eq_some_iff.mp hy
    obtain ⟨hP, hlt⟩ := h x z hx hz
    obtain ⟨hPy, hle⟩ := h.follow n hP hy
    exact ⟨hPy, by omega⟩

/-- What comes later on the way is of lower rank. -/
theorem Descends.lt (h : Descends next P rank) {x y z : α} (hx : P x) {n m : ℕ} (hnm : n < m)
    (hy : Chains.follow next n x = some y) (hz : Chains.follow next m x = some z) : rank z < rank y := by
  obtain ⟨k, rfl⟩ := Nat.exists_eq_add_of_lt hnm
  rw [Nat.add_assoc, follow_add, hy, Option.bind_some] at hz
  obtain ⟨-, hle⟩ := h.follow (k + 1) (h.follow n hx hy).1 hz
  omega

/-- The way comes to its end. -/
theorem Descends.ends (h : Descends next P rank) : ∀ (r : ℕ) {x : α}, P x → rank x ≤ r →
    ∃ n y, Chains.follow next n x = some y ∧ P y ∧ next y = none
  | r, x, hx, hr => by
    cases hnext : next x with
    | none => exact ⟨0, x, rfl, hx, hnext⟩
    | some y =>
      obtain ⟨hy, hlt⟩ := h x y hx hnext
      cases r with
      | zero => omega
      | succ r =>
        obtain ⟨n, z, hz, hPz, hend⟩ := h.ends r hy (by omega)
        exact ⟨n + 1, z, by rw [Chains.follow, hnext]; exact hz, hPz, hend⟩

end TypeFerry.Lib.Chains
