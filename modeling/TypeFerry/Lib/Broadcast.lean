import Mathlib.Data.List.Infix

/-! # One log and its readers

A broker appends what it accepts to a log and passes it on to those who read at the time, each of whom takes it in
order. A reader who leaves loses what is on the way to it, and one who comes back goes on at the end of the log. -/
namespace TypeFerry.Lib.Broadcast
open scoped List

/-- What a reader has taken, and what is on the way to it. -/
structure Reader (μ : Type*) where
  /-- taken before it came back last -/
  earlier : List μ
  /-- the length of the log when it did -/
  since : ℕ
  taken : List μ
  waiting : List μ

variable {μ : Type*} {log : List μ} {r r' : Reader μ}

namespace Reader

def init : Reader μ := ⟨[], 0, [], []⟩

/-- All that it has ever taken. -/
def all (r : Reader μ) : List μ := r.earlier ++ r.taken

/-- The broker passes an element on. -/
def pass (r : Reader μ) (x : μ) : Reader μ := { r with waiting := r.waiting ++ [x] }

/-- It takes the next element. -/
def take (r : Reader μ) (x : μ) (rest : List μ) : Reader μ := { r with taken := r.taken ++ [x], waiting := rest }

def leave (r : Reader μ) : Reader μ := { r with earlier := r.all, taken := [], waiting := [] }

def enter (r : Reader μ) (log : List μ) : Reader μ := ⟨r.all, log.length, [], []⟩

/-- It gets the log from its place on, and has had parts of what is before. -/
structure Follows (r : Reader μ) (log : List μ) : Prop where
  before : r.earlier <+ log.take r.since
  after : r.taken ++ r.waiting = log.drop r.since
  since_le : r.since ≤ log.length

/-- It has had parts of the log, and gets nothing. -/
structure Away (r : Reader μ) (log : List μ) : Prop where
  earlier : r.earlier <+ log
  taken : r.taken = []
  waiting : r.waiting = []

theorem away_init : (init : Reader μ).Away [] := ⟨.slnil, rfl, rfl⟩

theorem Follows.pass (h : r.Follows log) (x : μ) : (r.pass x).Follows (log ++ [x]) where
  before := by
    rw [Reader.pass, List.take_append_of_le_length h.since_le]
    exact h.before
  after := by
    rw [Reader.pass, List.drop_append_of_le_length h.since_le, ← h.after, List.append_assoc]
  since_le := h.since_le.trans (by simp)

theorem Away.pass (h : r.Away log) (x : μ) : r.Away (log ++ [x]) :=
  ⟨h.earlier.trans (List.sublist_append_left ..), h.taken, h.waiting⟩

theorem Follows.take {x : μ} {rest : List μ} (h : r.Follows log) (hwaiting : r.waiting = x :: rest) :
    (r.take x rest).Follows log where
  before := h.before
  after := by
    rw [Reader.take, ← h.after, hwaiting, List.append_assoc]
    rfl
  since_le := h.since_le

/-- What was taken is in the order of the log, and each element at most as often as there. -/
theorem Follows.all_sublist (h : r.Follows log) : r.all <+ log := by
  have htaken : r.taken <+ log.drop r.since := h.after ▸ List.sublist_append_left ..
  have happend := h.before.append htaken
  rwa [List.take_append_drop] at happend

theorem Away.all_sublist (h : r.Away log) : r.all <+ log := by
  rw [all, h.taken, List.append_nil]
  exact h.earlier

theorem away_leave (h : r.all <+ log) : r.leave.Away log := ⟨h, rfl, rfl⟩

theorem follows_enter (h : r.all <+ log) : (r.enter log).Follows log where
  before := by
    rw [enter, List.take_length]
    exact h
  after := by rw [enter, List.drop_length, List.append_nil]
  since_le := le_rfl

theorem Follows.taken_prefix (h : r.Follows log) : r.taken <+: log.drop r.since :=
  h.after ▸ List.prefix_append ..

/-- **Readers agree.** Of two readers, one has taken what the other has from where both were there, or less. -/
theorem Follows.agree (h : r.Follows log) (h' : r'.Follows log) (hle : r.since ≤ r'.since) :
    r.taken.drop (r'.since - r.since) <+: r'.taken ∨ r'.taken <+: r.taken.drop (r'.since - r.since) := by
  have hdrop := h.taken_prefix.drop (r'.since - r.since)
  rw [List.drop_drop, Nat.add_sub_cancel' hle] at hdrop
  exact List.prefix_or_prefix_of_prefix hdrop h'.taken_prefix

end Reader

end TypeFerry.Lib.Broadcast
