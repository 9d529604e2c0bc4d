import Mathlib.Logic.Basic
import Mathlib.Order.WellFounded
import Mathlib.Data.List.Forall2

/-! # Computations with a state and errors

What a computation keeps of its state, whether it returns or throws. The state
that an error leaves behind counts: nothing is rolled back. -/
namespace TypeFerry.Lib.Triples

variable {ε σ α β γ : Type}

/-! ## Single runs -/

theorem bind_ok {x : EStateM ε σ α} {f : α → EStateM ε σ β} {s t : σ} {a : α} (h : x s = .ok a t) :
    (x >>= f) s = f a t := by
  change EStateM.bind x f s = f a t
  rw [EStateM.bind, h]

theorem bind_error {x : EStateM ε σ α} {f : α → EStateM ε σ β} {s t : σ} {e : ε}
    (h : x s = .error e t) : (x >>= f) s = .error e t := by
  change EStateM.bind x f s = .error e t
  rw [EStateM.bind, h]

/-! ## What a computation keeps -/

/-- From every state of `I` the computation ends in a state of `I`, with a value of `Q` or an
error of `E`. -/
def Keeps (I : σ → Prop) (x : EStateM ε σ α) (Q : α → Prop) (E : ε → Prop) : Prop :=
  ∀ s, I s → match x s with
    | .ok a t => I t ∧ Q a
    | .error e t => I t ∧ E e

section
variable {I : σ → Prop} {Q : α → Prop} {E : ε → Prop}

theorem Keeps.ok {x : EStateM ε σ α} (h : Keeps I x Q E) {s t : σ} {a : α} (hs : I s)
    (hx : x s = .ok a t) : I t ∧ Q a := by
  have ht := h s hs
  rw [hx] at ht
  exact ht

theorem Keeps.error {x : EStateM ε σ α} (h : Keeps I x Q E) {s t : σ} {e : ε} (hs : I s)
    (hx : x s = .error e t) : I t ∧ E e := by
  have ht := h s hs
  rw [hx] at ht
  exact ht

theorem keeps_pure {a : α} (h : Q a) : Keeps I (pure a : EStateM ε σ α) Q E :=
  fun _ hs => ⟨hs, h⟩

theorem keeps_throw {e : ε} (h : E e) : Keeps I (throw e : EStateM ε σ α) Q E :=
  fun _ hs => ⟨hs, h⟩

/-- The rule of the sequence. -/
theorem keeps_bind {x : EStateM ε σ α} {f : α → EStateM ε σ β} {R : β → Prop} (hx : Keeps I x Q E)
    (hf : ∀ a, Q a → Keeps I (f a) R E) : Keeps I (x >>= f) R E := by
  intro s hs
  cases hrun : x s with
  | ok a t =>
    rw [bind_ok hrun]
    exact hf a (hx.ok hs hrun).2 t (hx.ok hs hrun).1
  | error e t =>
    rw [bind_error hrun]
    exact hx.error hs hrun

/-- The rule of consequence, on values. -/
theorem Keeps.mono {x : EStateM ε σ α} {R : α → Prop} (h : Keeps I x Q E) (hR : ∀ a, Q a → R a) :
    Keeps I x R E := by
  intro s hs
  have ht := h s hs
  cases hrun : x s with
  | ok a t =>
    rw [hrun] at ht
    exact ⟨ht.1, hR a ht.2⟩
  | error e t =>
    rw [hrun] at ht
    exact ht

theorem keeps_modify {f : σ → σ} (h : ∀ s, I s → I (f s)) :
    Keeps I (modify f : EStateM ε σ PUnit) (fun _ => True) E :=
  fun s hs => ⟨h s hs, trivial⟩

theorem keeps_mapM {f : β → EStateM ε σ γ} {R : β → γ → Prop} : ∀ {xs : List β},
    (∀ x ∈ xs, Keeps I (f x) (R x) E) → Keeps I (xs.mapM f) (List.Forall₂ R xs) E
  | [], _ => keeps_pure .nil
  | x :: xs, h => by
    rw [List.mapM_cons]
    refine keeps_bind (h x (.head _)) fun y hy => ?_
    exact keeps_bind (keeps_mapM fun z hz => h z (.tail _ hz)) fun ys hys => keeps_pure (.cons hy hys)

end

/-! ## States that grow -/

/-- From every state of `I` that has at least the size `n` the computation ends in a state of `I` that is
no smaller, with a value that is right for its size. -/
def Builds (I : σ → Prop) (size : σ → ℕ) (n : ℕ) (x : EStateM ε σ α) (Q : ℕ → α → Prop) : Prop :=
  ∀ s, I s → n ≤ size s → match x s with
    | .ok a t => I t ∧ size s ≤ size t ∧ Q (size t) a
    | .error _ t => I t ∧ size s ≤ size t

section
variable {I : σ → Prop} {size : σ → ℕ} {n : ℕ} {Q : ℕ → α → Prop}

theorem Builds.ok {x : EStateM ε σ α} (h : Builds I size n x Q) {s t : σ} {a : α} (hs : I s) (hn : n ≤ size s)
    (hx : x s = .ok a t) : I t ∧ size s ≤ size t ∧ Q (size t) a := by
  have ht := h s hs hn
  rw [hx] at ht
  exact ht

theorem Builds.error {x : EStateM ε σ α} (h : Builds I size n x Q) {s t : σ} {e : ε} (hs : I s) (hn : n ≤ size s)
    (hx : x s = .error e t) : I t ∧ size s ≤ size t := by
  have ht := h s hs hn
  rw [hx] at ht
  exact ht

theorem builds_pure {a : α} (h : ∀ m, n ≤ m → Q m a) : Builds I size n (pure a : EStateM ε σ α) Q :=
  fun s hs hn => ⟨hs, le_rfl, h (size s) hn⟩

theorem builds_throw {e : ε} : Builds I size n (throw e : EStateM ε σ α) Q :=
  fun _ hs _ => ⟨hs, le_rfl⟩

theorem builds_bind {x : EStateM ε σ α} {f : α → EStateM ε σ β} {R : ℕ → β → Prop} (hx : Builds I size n x Q)
    (hf : ∀ a m, n ≤ m → Q m a → Builds I size m (f a) R) : Builds I size n (x >>= f) R := by
  intro s hs hn
  cases hrun : x s with
  | ok a t =>
    obtain ⟨ht, hle, hQ⟩ := hx.ok hs hn hrun
    have hrest := hf a (size t) (hn.trans hle) hQ t ht le_rfl
    rw [bind_ok hrun]
    cases hlast : f a t with
    | ok b u =>
      rw [hlast] at hrest
      exact ⟨hrest.1, hle.trans hrest.2.1, hrest.2.2⟩
    | error e u =>
      rw [hlast] at hrest
      exact ⟨hrest.1, hle.trans hrest.2⟩
  | error e t =>
    rw [bind_error hrun]
    exact hx.error hs hn hrun

theorem Builds.mono {x : EStateM ε σ α} {R : ℕ → α → Prop} (h : Builds I size n x Q)
    (hR : ∀ a m, n ≤ m → Q m a → R m a) : Builds I size n x R := by
  intro s hs hn
  cases hrun : x s with
  | ok a t =>
    obtain ⟨ht, hle, hQ⟩ := h.ok hs hn hrun
    exact ⟨ht, hle, hR a _ (hn.trans hle) hQ⟩
  | error e t => exact h.error hs hn hrun

/-- From a larger state on. -/
theorem Builds.later {x : EStateM ε σ α} (h : Builds I size n x Q) {m : ℕ} (hm : n ≤ m) : Builds I size m x Q :=
  fun s hs hn => h s hs (hm.trans hn)

/-- A computation that keeps the size. -/
theorem builds_of_keeps {x : EStateM ε σ α} {R : α → Prop} {E : ε → Prop}
    (h : ∀ m, n ≤ m → Keeps (fun s => I s ∧ size s = m) x R E) : Builds I size n x fun _ => R := by
  intro s hs hn
  have ht := h (size s) hn
  cases hrun : x s with
  | ok a t =>
    obtain ⟨⟨ht, hsize⟩, hR⟩ := ht.ok ⟨hs, rfl⟩ hrun
    exact ⟨ht, hsize.ge, hR⟩
  | error e t =>
    obtain ⟨⟨ht, hsize⟩, -⟩ := ht.error ⟨hs, rfl⟩ hrun
    exact ⟨ht, hsize.ge⟩

theorem builds_forM {f : β → EStateM ε σ PUnit} {xs : List β}
    (h : ∀ x ∈ xs, Builds I size n (f x) fun _ _ => True) : Builds I size n (xs.forM f) fun _ _ => True := by
  induction xs with
  | nil => exact builds_pure fun _ _ => trivial
  | cons x xs ih =>
    exact builds_bind (h x (.head _)) fun _ m hm _ => (ih fun y hy => h y (.tail _ hy)).later hm

theorem builds_mapM {f : β → EStateM ε σ γ} {R : ℕ → γ → Prop} (hR : ∀ y m m', m ≤ m' → R m y → R m' y)
    {xs : List β} (h : ∀ x ∈ xs, Builds I size n (f x) R) :
    Builds I size n (xs.mapM f) fun m ys => ∀ y ∈ ys, R m y := by
  induction xs generalizing n with
  | nil => exact builds_pure fun _ _ _ hy => nomatch hy
  | cons x xs ih =>
    rw [List.mapM_cons]
    refine builds_bind (h x (.head _)) fun y m hm hy => ?_
    refine builds_bind (ih fun z hz => (h z (.tail _ hz)).later hm) fun ys m' hm' hys => ?_
    refine builds_pure fun k hk z hz => ?_
    rcases List.mem_cons.mp hz with rfl | hz
    · exact hR _ _ _ (hm'.trans hk) hy
    · exact hR _ _ _ hk (hys z hz)

end

/-! ## States related to where they come from -/

/-- From `s` the computation ends in a state that `R` relates to `s`, with a value that is right there. -/
def Moves (R : σ → σ → Prop) (s : σ) (x : EStateM ε σ α) (Q : α → σ → Prop) : Prop :=
  match x s with
    | .ok a t => R s t ∧ Q a t
    | .error _ t => R s t

section
variable {R : σ → σ → Prop} {Q : α → σ → Prop}

theorem Moves.ok {x : EStateM ε σ α} {s t : σ} {a : α} (h : Moves R s x Q) (hx : x s = .ok a t) :
    R s t ∧ Q a t := by
  rw [Moves, hx] at h
  exact h

theorem Moves.error {x : EStateM ε σ α} {s t : σ} {e : ε} (h : Moves R s x Q) (hx : x s = .error e t) : R s t := by
  rw [Moves, hx] at h
  exact h

variable (htrans : ∀ s t u, R s t → R t u → R s u)
include htrans

theorem moves_bind {x : EStateM ε σ α} {f : α → EStateM ε σ β} {S : β → σ → Prop} {s : σ} (hx : Moves R s x Q)
    (hf : ∀ a t, R s t → Q a t → Moves R t (f a) S) : Moves R s (x >>= f) S := by
  cases hrun : x s with
  | ok a t =>
    obtain ⟨hst, hQ⟩ := hx.ok hrun
    have hrest := hf a t hst hQ
    rw [Moves, bind_ok hrun]
    cases hlast : f a t with
    | ok b u => exact ⟨htrans _ _ _ hst (hrest.ok hlast).1, (hrest.ok hlast).2⟩
    | error e u => exact htrans _ _ _ hst (hrest.error hlast)
  | error e t =>
    rw [Moves, bind_error hrun]
    exact hx.error hrun

/-- The rule of the loop: `P` is what an element needs, and `S` what it gets. -/
theorem moves_forM (hrefl : ∀ s, R s s) {f : β → EStateM ε σ PUnit} {P S : β → σ → Prop}
    (hP : ∀ {x s t}, R s t → P x s → P x t) (hS : ∀ {x s t}, R s t → S x s → S x t) {xs : List β}
    (h : ∀ x ∈ xs, ∀ s, P x s → Moves R s (f x) fun _ => S x) {s : σ} (hs : ∀ x ∈ xs, P x s) :
    Moves R s (xs.forM f) fun _ t => ∀ x ∈ xs, S x t := by
  induction xs generalizing s with
  | nil => exact ⟨hrefl s, fun _ hx => absurd hx List.not_mem_nil⟩
  | cons x xs ih =>
    obtain ⟨hx, hxs⟩ := List.forall_mem_cons.mp hs
    refine moves_bind (R := R) htrans (h x (.head _) s hx) fun _ t hst hSx => ?_
    have hrest := ih (fun y hy => h y (.tail _ hy)) fun y hy => hP hst (hxs y hy)
    cases hrun : xs.forM f t with
    | ok a u =>
      rw [Moves, hrun]
      exact ⟨(hrest.ok hrun).1, List.forall_mem_cons.mpr ⟨hS (hrest.ok hrun).1 hSx, (hrest.ok hrun).2⟩⟩
    | error e u =>
      rw [Moves, hrun]
      exact hrest.error hrun

end

end TypeFerry.Lib.Triples
