import Mathlib

/-! # Sliding windows

Times that are let in while fewer than a bound of those let in before still count. `live now t` says that `t`
counts at `now`. Who keeps a log may drop what does not count any more, since it never counts again. -/
namespace TypeFerry.Lib.Windows

variable {τ : Type*} [LinearOrder τ] {live : τ → τ → Bool}

/-- What counts at a time has counted before, and what is younger counts as well. -/
structure Ageing (live : τ → τ → Bool) : Prop where
  before {now later t : τ} : now ≤ later → live later t = true → live now t = true
  younger {now t t' : τ} : t ≤ t' → live now t = true → live now t' = true

/-- What counts at `now`. -/
def counted (live : τ → τ → Bool) (now : τ) (times : List τ) : List τ := times.filter (live now)

/-! ## Logs -/

/-- From `now` on, `log` counts the same as the whole `history`. -/
def Logs (live : τ → τ → Bool) (now : τ) (history log : List τ) : Prop :=
  ∀ t, now ≤ t → counted live t log = counted live t history

theorem Logs.refl (now : τ) (history : List τ) : Logs live now history history := fun _ _ => rfl

theorem Logs.later {now later : τ} {history log : List τ} (h : Logs live now history log) (hle : now ≤ later) :
    Logs live later history log := fun t ht => h t (hle.trans ht)

theorem counted_counted (hlive : Ageing live) {now later : τ} (hle : now ≤ later) (times : List τ) :
    counted live later (counted live now times) = counted live later times := by
  rw [counted, counted, List.filter_filter]
  refine List.filter_congr fun t _ => ?_
  cases ht : live later t with
  | false => rfl
  | true => rw [hlive.before hle ht]; rfl

theorem Logs.prune (hlive : Ageing live) {now later : τ} {history log : List τ} (h : Logs live now history log)
    (hle : now ≤ later) : Logs live later history (counted live later log) := fun t ht => by
  rw [counted_counted hlive ht, h t (hle.trans ht)]

theorem Logs.snoc {now : τ} {history log : List τ} (h : Logs live now history log) (x : τ) :
    Logs live now (history ++ [x]) (log ++ [x]) := fun t ht => by
  have hlog := h t ht
  unfold counted at hlog ⊢
  rw [List.filter_append, List.filter_append, hlog]

/-- Dropping what is too old from the front of a log in order leaves what counts. -/
theorem dropWhile_eq_counted (hlive : Ageing live) {now : τ} {log : List τ} (hlog : log.Pairwise (· ≤ ·)) :
    log.dropWhile (fun t => !live now t) = counted live now log := by
  induction log with
  | nil => rfl
  | cons t rest ih =>
    obtain ⟨hfirst, hrest⟩ := List.pairwise_cons.mp hlog
    cases ht : live now t with
    | false =>
      rw [List.dropWhile_cons_of_pos (by rw [ht]; rfl), ih hrest, counted, counted, List.filter_cons_of_neg]
      rw [ht]
      exact Bool.false_ne_true
    | true =>
      have hall : ∀ x ∈ t :: rest, live now x = true := by
        intro x hx
        rcases List.mem_cons.mp hx with rfl | hx
        · exact ht
        · exact hlive.younger (hfirst x hx) ht
      rw [List.dropWhile_cons_of_neg (by rw [ht]; exact Bool.false_ne_true), counted, List.filter_eq_self.mpr hall]

/-- A log in order, of times that are over. -/
structure Kept (live : τ → τ → Bool) (clock : τ) (history log : List τ) : Prop where
  logs : Logs live clock history log
  sorted : log.Pairwise (· ≤ ·)
  past : ∀ t ∈ log, t ≤ clock

theorem Kept.nil (clock : τ) : Kept live clock [] [] := ⟨Logs.refl clock [], .nil, fun _ h => by cases h⟩

variable {clock now : τ} {history log : List τ}

theorem Kept.later (h : Kept live clock history log) (hle : clock ≤ now) : Kept live now history log :=
  ⟨h.logs.later hle, h.sorted, fun t ht => (h.past t ht).trans hle⟩

/-- What no longer counts is dropped. -/
theorem Kept.prune (hlive : Ageing live) (h : Kept live clock history log) (hle : clock ≤ now) :
    Kept live now history (counted live now log) :=
  ⟨h.logs.prune hlive hle, h.sorted.filter _, fun t ht => (h.past t (List.mem_of_mem_filter ht)).trans hle⟩

/-- And the time itself is let in. -/
theorem Kept.enter (hlive : Ageing live) (h : Kept live clock history log) (hle : clock ≤ now) :
    Kept live now (history ++ [now]) (counted live now log ++ [now]) := by
  have hpruned := h.prune hlive hle
  refine ⟨hpruned.logs.snoc now, List.pairwise_append.mpr ⟨hpruned.sorted, List.pairwise_singleton .., ?_⟩, ?_⟩
  · intro t ht u hu
    rw [List.mem_singleton.mp hu]
    exact hpruned.past t ht
  · intro t ht
    rcases List.mem_append.mp ht with ht | ht
    · exact hpruned.past t ht
    · exact (List.mem_singleton.mp ht).le

/-! ## The bound -/

/-- Each time was let in while fewer than `max` of those before it counted. -/
inductive Admitted (live : τ → τ → Bool) (max : ℕ) : List τ → Prop where
  | nil : Admitted live max []
  | snoc {times : List τ} {now : τ} : Admitted live max times → (counted live now times).length < max →
      Admitted live max (times ++ [now])

/-- **No window is overfull.** At no moment do more than `max` of the times up to it count. -/
theorem Admitted.bounded (hlive : Ageing live) {max : ℕ} {times : List τ} (h : Admitted live max times) (t : τ) :
    ((counted live t times).filter (· ≤ t)).length ≤ max := by
  induction h with
  | nil => exact Nat.zero_le _
  | snoc h hfewer ih =>
    rename_i times now
    unfold counted at ih ⊢
    rw [List.filter_append, List.filter_append, List.length_append]
    by_cases hnow : live t now = true ∧ now ≤ t
    · -- The window at `t` holds the last time, and each earlier one in it still counted then.
      have hsub : ((times.filter (live t)).filter (· ≤ t)).length ≤ (counted live now times).length := by
        rw [counted, List.filter_filter]
        refine (List.monotone_filter_right times fun x hx => ?_).length_le
        rw [Bool.and_eq_true] at hx
        exact hlive.before hnow.2 hx.2
      have hone : (([now].filter (live t)).filter (· ≤ t)).length ≤ 1 :=
        Nat.le_trans (List.length_filter_le ..) (List.length_filter_le ..)
      omega
    · have hnone : ([now].filter (live t)).filter (· ≤ t) = [] := by
        rw [List.filter_filter, List.filter_eq_nil_iff]
        intro x hx
        rw [List.mem_singleton.mp hx, Bool.and_eq_true, decide_eq_true_eq, and_comm]
        exact hnow
      rw [hnone]
      exact ih

end TypeFerry.Lib.Windows
