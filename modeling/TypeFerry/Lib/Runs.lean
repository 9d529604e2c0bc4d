import Mathlib.Order.WellFounded
import Mathlib.Order.RelClasses

/-! # Machines, their runs and what holds along them

A machine is an initial state and a partial step function: asynchronous code is
cut at its suspension points, an action says which continuation or which outside
event comes next, and a step that is not possible gives nothing. A run may be
restricted by a condition on each step (`ok`); with the condition `anyStep` it
is every run. -/
namespace TypeFerry.Lib.Runs

structure Machine (σ α : Type*) where
  init : σ
  step : σ → α → Option σ

variable {σ α : Type*}

/-- Every step is allowed. -/
def anyStep (_ : σ) (_ : α) : Prop := True

instance (s : σ) (a : α) : Decidable (anyStep s a) := isTrue trivial

namespace Machine
variable (M : Machine σ α) (ok : σ → α → Prop)

/-- The steps `as` taken from `s`, as long as they meet the condition. -/
def exec [∀ s a, Decidable (ok s a)] (s : σ) : List α → Option σ
  | [] => some s
  | a :: as => if ok s a then (M.step s a).bind fun t => exec t as else none

/-- `t` comes from `s` by steps that meet the condition. -/
inductive Steps (s : σ) : σ → Prop where
  | refl : Steps s s
  | tail {t u : σ} (a : α) : Steps s t → ok t a → M.step t a = some u → Steps s u

/-- The states of the runs all of whose steps meet the condition. -/
abbrev Reach : σ → Prop := M.Steps ok M.init

variable {M ok}

theorem Steps.trans {s t u : σ} (h : M.Steps ok s t) (h' : M.Steps ok t u) : M.Steps ok s u := by
  induction h' with
  | refl => exact h
  | tail a _ hok hstep ih => exact ih.tail a hok hstep

/-- **The invariant rule.** What every step keeps, every run keeps. -/
theorem Steps.invariant (Inv : σ → Prop) {s t : σ} (h : M.Steps ok s t) (h₀ : Inv s)
    (hstep : ∀ s a s', Inv s → ok s a → M.step s a = some s' → Inv s') : Inv t := by
  induction h with
  | refl => exact h₀
  | tail a _ hok hs ih => exact hstep _ a _ ih hok hs

/-- A run given by its actions. -/
theorem steps_of_exec [∀ s a, Decidable (ok s a)] :
    ∀ (as : List α) {s t : σ}, M.exec ok s as = some t → M.Steps ok s t
  | [], s, t, h => by
    rw [exec, Option.some.injEq] at h
    exact h ▸ .refl
  | a :: as, s, t, h => by
    rw [exec] at h
    split at h
    · next hok =>
      obtain ⟨u, hu, h⟩ := Option.bind_eq_some_iff.mp h
      exact (Steps.tail a .refl hok hu).trans (steps_of_exec as h)
    · cases h

variable (M ok)

/-- What can be computed at the end of a run given by its actions. -/
theorem exists_of_exec [∀ s a, Decidable (ok s a)] (s : σ) (as : List α) (P : σ → Bool)
    (h : (M.exec ok s as).any P = true) : ∃ t, M.Steps ok s t ∧ P t = true := by
  cases ht : M.exec ok s as with
  | none => simp [ht] at h
  | some t => exact ⟨t, steps_of_exec as ht, by simpa [ht] using h⟩

theorem exec_append [∀ s a, Decidable (ok s a)] : ∀ (as bs : List α) (s : σ),
    M.exec ok s (as ++ bs) = (M.exec ok s as).bind fun t => M.exec ok t bs
  | [], _, _ => rfl
  | a :: as, bs, s => by
    rw [List.cons_append, exec, exec]
    split
    · rw [Option.bind_assoc]
      exact Option.bind_congr fun t _ => exec_append as bs t
    · rfl

end Machine

/-! ## Infinite runs and progress -/

/-- A run without end. At each time an action is taken or nothing happens. -/
structure Trace (M : Machine σ α) (ok : σ → α → Prop) where
  state : ℕ → σ
  act : ℕ → Option α
  start : state 0 = M.init
  next : ∀ n, match act n with
    | none => state (n + 1) = state n
    | some a => ok (state n) a ∧ M.step (state n) a = some (state (n + 1))

namespace Trace
variable {M : Machine σ α} {ok : σ → α → Prop} (T : Trace M ok)

/-- Weak fairness for the machine's own actions: while one of them stays
possible, one is taken at some time. -/
def Fair (own : α → Prop) : Prop :=
  ∀ n, (∀ m, n ≤ m → ∃ a, own a ∧ (M.step (T.state m) a).isSome) →
    ∃ m, n ≤ m ∧ ∃ a, T.act m = some a ∧ own a

theorem reach (n : ℕ) : M.Reach ok (T.state n) := by
  induction n with
  | zero => exact T.start ▸ .refl
  | succ n ih =>
    have hn := T.next n
    cases ha : T.act n with
    | none => rw [ha] at hn; exact hn ▸ ih
    | some a => rw [ha] at hn; exact ih.tail a hn.1 hn.2

/-! ### Runs that come to rest -/

section
variable [∀ s a, Decidable (ok s a)] (as : List α) {final : σ}
  (h : M.exec ok M.init as = some final)

include h in
theorem exec_take (n : ℕ) : ∃ t, M.exec ok M.init (as.take n) = some t ∧
    M.exec ok t (as.drop n) = some final := by
  rw [← List.take_append_drop n as, Machine.exec_append] at h
  exact Option.bind_eq_some_iff.mp h

/-- The run that takes the given actions, after which nothing happens. -/
def ofList : Trace M ok where
  state n := (M.exec ok M.init (as.take n)).getD M.init
  act n := as[n]?
  start := rfl
  next n := by
    obtain ⟨t, ht, htail⟩ := exec_take as h n
    cases hn : as[n]? with
    | none =>
      have hlen := List.getElem?_eq_none_iff.mp hn
      rw [List.take_of_length_le hlen, List.take_of_length_le (by omega)]
    | some a =>
      obtain ⟨hlt, rfl⟩ := List.getElem?_eq_some_iff.mp hn
      rw [List.take_succ_eq_append_getElem hlt, Machine.exec_append, ht]
      rw [List.drop_eq_getElem_cons hlt, Machine.exec] at htail
      split at htail
      · next hok =>
        obtain ⟨u, hu, -⟩ := Option.bind_eq_some_iff.mp htail
        simp [Machine.exec, hok, hu]
      · cases htail

theorem ofList_state (n : ℕ) :
    (ofList as h).state n = (M.exec ok M.init (as.take n)).getD M.init := rfl

theorem ofList_final {n : ℕ} (hn : as.length ≤ n) : (ofList as h).state n = final := by
  rw [ofList_state, List.take_of_length_le hn, h, Option.getD_some]

/-- A run that comes to rest where no own action is possible is fair. -/
theorem ofList_fair {own : α → Prop} (hrest : ∀ a, own a → M.step final a = none) :
    (ofList as h).Fair own := by
  intro n hn
  obtain ⟨a, hown, ha⟩ := hn (max n as.length) (by omega)
  rw [ofList_final as h (by omega), hrest a hown] at ha
  cases ha

end

/-! ### Progress -/

variable {ι : Type*} [Preorder ι] {own : α → Prop}

/-- `P` lasts until `Q`, with no higher rank. -/
theorem lasts {P Q : σ → Prop} {rank : σ → ι}
    (hstep : ∀ s a s', M.Reach ok s → P s → ok s a → M.step s a = some s' →
      Q s' ∨ (P s' ∧ rank s' ≤ rank s ∧ (own a → rank s' < rank s)))
    {n : ℕ} (hn : P (T.state n)) (hQ : ¬ ∃ m, n ≤ m ∧ Q (T.state m)) (k : ℕ) :
    P (T.state (n + k)) ∧ rank (T.state (n + k)) ≤ rank (T.state n) := by
  induction k with
  | zero => exact ⟨hn, le_refl _⟩
  | succ k ih =>
    have hk := T.next (n + k)
    cases ha : T.act (n + k) with
    | none => rw [ha] at hk; rw [← Nat.add_assoc, hk]; exact ih
    | some a =>
      rw [ha] at hk
      rcases hstep _ a _ (T.reach _) ih.1 hk.1 hk.2 with h | ⟨hP, hle, -⟩
      · exact absurd ⟨n + k + 1, by omega, h⟩ hQ
      · exact ⟨hP, le_trans hle ih.2⟩

/-- **The progress rule.** While `P` lasts some own action is possible, every
step that does not bring `Q` keeps `P` without raising the rank, and every own
one lowers it. Then a fair run that reaches `P` comes to `Q`. -/
theorem leadsTo [WellFoundedLT ι] (hfair : T.Fair own) {P Q : σ → Prop} (rank : σ → ι)
    (henabled : ∀ s, P s → ∃ a, own a ∧ (M.step s a).isSome)
    (hstep : ∀ s a s', M.Reach ok s → P s → ok s a → M.step s a = some s' →
      Q s' ∨ (P s' ∧ rank s' ≤ rank s ∧ (own a → rank s' < rank s)))
    (n : ℕ) (hn : P (T.state n)) : ∃ m, n ≤ m ∧ Q (T.state m) := by
  by_contra hQ
  induction hr : rank (T.state n) using WellFoundedLT.induction generalizing n with
  | ind r ih =>
    -- Without `Q` in sight `P` lasts for good, so an own action is taken.
    have hlast := T.lasts hstep hn hQ
    obtain ⟨m, hnm, a, ha, hown⟩ := hfair n fun m hm => by
      obtain ⟨k, rfl⟩ := Nat.exists_eq_add_of_le hm
      exact henabled _ (hlast k).1
    obtain ⟨k, rfl⟩ := Nat.exists_eq_add_of_le hnm
    have hk := T.next (n + k)
    rw [ha] at hk
    rcases hstep _ a _ (T.reach _) (hlast k).1 hk.1 hk.2 with h | ⟨hP, -, hlt⟩
    · exact hQ ⟨n + k + 1, by omega, h⟩
    · have hlow : rank (T.state (n + k + 1)) < r := hr ▸ lt_of_lt_of_le (hlt hown) (hlast k).2
      refine ih _ hlow (n + k + 1) hP ?_ rfl
      rintro ⟨m, hm, h⟩
      exact hQ ⟨m, by omega, h⟩

end Trace

/-! ## Calls and what they give -/

section
variable {τ ο : Type*}

/-- What the calls give, one after the other. -/
def outcomes (call : σ → α → σ × ο) (s : σ) : List α → List ο
  | [] => []
  | a :: as => (call s a).2 :: outcomes call (call s a).1 as

/-- **The simulation rule.** Two objects whose related states answer each call alike, and stay
related, answer every sequence of calls alike. -/
theorem outcomes_eq {call : σ → α → σ × ο} {call' : τ → α → τ × ο} (R : σ → τ → Prop) (ok : α → Prop)
    (hcall : ∀ s t a, ok a → R s t → R (call s a).1 (call' t a).1 ∧ (call s a).2 = (call' t a).2) :
    ∀ (as : List α) {s : σ} {t : τ}, (∀ a ∈ as, ok a) → R s t → outcomes call s as = outcomes call' t as
  | [], _, _, _, _ => rfl
  | a :: as, s, t, hok, h => by
    obtain ⟨hR, heq⟩ := hcall s t a (hok a (List.mem_cons_self ..)) h
    rw [outcomes, outcomes, heq,
      outcomes_eq R ok hcall as (fun b hb => hok b (List.mem_cons_of_mem _ hb)) hR]

end

end TypeFerry.Lib.Runs
