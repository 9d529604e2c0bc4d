import Mathlib.Data.Rat.Floor
import Mathlib.Logic.Function.Basic
import TypeFerry.Lib.Runs
import TypeFerry.Lib.Windows

/-! # The sliding-window limiters of the ports

`rate_limit.py`, `rack_http.rb` and `http.go` each keep, for a key, the times of the calls that were let through.
They forget old ones in their own ways, and Python counts a call that is exactly a window old. Times are exact, in
one unit. -/
namespace TypeFerry.Server.SlidingLimiters
open TypeFerry.Lib.Runs TypeFerry.Lib.Windows

structure RateLimit where
  max : ℤ
  window : ℚ

/-- The times by key. A key without an entry has none. -/
abbrev Entries := String → List ℚ

structure Answer where
  allowed : Bool
  remaining : ℤ
  reset : ℚ
  deriving DecidableEq

/-- `int(x)`. -/
def truncate (x : ℚ) : ℤ := if 0 ≤ x then ⌊x⌋ else ⌈x⌉

variable (limit : RateLimit)

namespace Python

/-- `SlidingWindowLimiter.try_consume(key)` at the time `now`. -/
def tryConsume (buckets : Entries) (key : String) (now : ℚ) : Entries × Answer :=
  let windowStart := now - limit.window
  let bucket := (buckets key).dropWhile fun t => t < windowStart
  let resetMs : ℤ := bucket.head?.elim 0 fun first => truncate (first + limit.window - now)
  if limit.max ≤ bucket.length then (Function.update buckets key bucket, ⟨false, 0, resetMs⟩)
  else
    let bucket := bucket ++ [now]
    (Function.update buckets key bucket, ⟨true, max 0 (limit.max - bucket.length), resetMs⟩)

end Python

namespace Ruby

/-- `SlidingWindowLimiter#consume(key)`, or nothing where `nil` is added to a number. -/
def consume (hash : Entries) (key : String) (now : ℚ) : Entries × Option Answer :=
  let entries := (hash key).dropWhile fun first => limit.window ≤ now - first
  if limit.max ≤ entries.length then
    (Function.update hash key entries, entries.head?.map fun first => ⟨false, 0, first + limit.window - now⟩)
  else
    let entries := entries ++ [now]
    (Function.update hash key entries, some ⟨true, limit.max - entries.length, limit.window⟩)

end Ruby

namespace Go

/-- `New(server, options)`: the defaults, in seconds. -/
def new (options : RateLimit) : RateLimit :=
  ⟨if options.max ≤ 0 then 120 else options.max, if options.window ≤ 0 then 60 else options.window⟩

/-- A limiter that `New` makes lets some call through. -/
theorem new_max_pos (options : RateLimit) : 0 < (new options).max := by
  rw [new]
  dsimp only
  split <;> omega

/-- `limit.consume(key)`, or nothing where the index is out of range. -/
def consume (entries : Entries) (key : String) (now : ℚ) : Entries × Option Answer :=
  let kept := (entries key).filter fun instant => now - instant < limit.window
  if limit.max ≤ kept.length then
    (Function.update entries key kept, kept.head?.map fun first => ⟨false, 0, limit.window - (now - first)⟩)
  else
    let kept := kept ++ [now]
    (Function.update entries key kept, some ⟨true, limit.max - kept.length, limit.window⟩)

end Go

/-! ## Runs -/

/-- What the limiters hold, the times of the calls let through, and the clock. -/
structure Traffic where
  entries : Entries
  passed : Entries
  clock : ℚ

structure Call where
  key : String
  /-- The time since the call before. -/
  delay : ℚ

/-- Calls of one limiter, one after the other. -/
def traffic {A : Type} (consume : Entries → String → ℚ → Entries × A) (allowed : A → Bool) (start : ℚ) :
    Machine Traffic Call where
  init := ⟨fun _ => [], fun _ => [], start⟩
  step s call :=
    if 0 ≤ call.delay then
      let now := s.clock + call.delay
      let (entries, answer) := consume s.entries call.key now
      let passed := if allowed answer then Function.update s.passed call.key (s.passed call.key ++ [now]) else s.passed
      some ⟨entries, passed, now⟩
    else none

/-! ## One limiter -/

/-- The calls that count are those less than a window old. -/
def younger (now t : ℚ) : Bool := now - t < limit.window

/-- Python counts those that are a window old as well. -/
def notOlder (now t : ℚ) : Bool := now - limit.window ≤ t

theorem ageing_younger : Ageing (younger limit) where
  before hle h := by
    simp only [younger, decide_eq_true_eq] at h ⊢
    linarith
  younger hle h := by
    simp only [younger, decide_eq_true_eq] at h ⊢
    linarith

theorem ageing_notOlder : Ageing (notOlder limit) where
  before hle h := by
    simp only [notOlder, decide_eq_true_eq] at h ⊢
    linarith
  younger hle h := by
    simp only [notOlder, decide_eq_true_eq] at h ⊢
    linarith

/-- A limiter by what counts. -/
def slide {A : Type} (live : ℚ → ℚ → Bool) (answer : ℚ → List ℚ → A) (entries : Entries) (key : String)
    (now : ℚ) : Entries × A :=
  let kept := counted live now (entries key)
  (Function.update entries key (if limit.max ≤ kept.length then kept else kept ++ [now]), answer now kept)

/-- The answer where the calls `kept` count. -/
def Python.answer (now : ℚ) (kept : List ℚ) : Answer :=
  let resetMs : ℤ := kept.head?.elim 0 fun first => truncate (first + limit.window - now)
  if limit.max ≤ kept.length then ⟨false, 0, resetMs⟩ else ⟨true, max 0 (limit.max - (kept.length + 1)), resetMs⟩

@[inherit_doc Python.answer]
def Ruby.answer (now : ℚ) (kept : List ℚ) : Option Answer :=
  if limit.max ≤ kept.length then kept.head?.map fun first => ⟨false, 0, first + limit.window - now⟩
  else some ⟨true, limit.max - (kept.length + 1), limit.window⟩

variable {limit} {entries : Entries} {key : String} {now : ℚ}

theorem Python.tryConsume_eq (h : (entries key).Pairwise (· ≤ ·)) :
    tryConsume limit entries key now = slide limit (notOlder limit) (answer limit) entries key now := by
  have hdrop : ((entries key).dropWhile fun t => t < now - limit.window) =
      counted (notOlder limit) now (entries key) := by
    rw [← dropWhile_eq_counted (ageing_notOlder limit) h]
    congr 1
    funext t
    rw [notOlder, ← decide_not, decide_eq_decide, not_le]
  rw [tryConsume, slide, answer, hdrop]
  by_cases h : limit.max ≤ (counted (notOlder limit) now (entries key)).length
  · simp only [if_pos h]
  · simp only [if_neg h, List.length_append, List.length_singleton, Nat.cast_add, Nat.cast_one]

theorem Ruby.consume_eq (h : (entries key).Pairwise (· ≤ ·)) :
    consume limit entries key now = slide limit (younger limit) (answer limit) entries key now := by
  have hdrop : ((entries key).dropWhile fun first => limit.window ≤ now - first) =
      counted (younger limit) now (entries key) := by
    rw [← dropWhile_eq_counted (ageing_younger limit) h]
    congr 1
    funext t
    rw [younger, ← decide_not, decide_eq_decide, not_lt]
  rw [consume, slide, answer, hdrop]
  by_cases h : limit.max ≤ (counted (younger limit) now (entries key)).length
  · simp only [if_pos h]
  · simp only [if_neg h, List.length_append, List.length_singleton, Nat.cast_add, Nat.cast_one]

/-- Go counts as Ruby does, and looks at every entry. -/
theorem Go.consume_eq :
    consume limit entries key now = slide limit (younger limit) (Ruby.answer limit) entries key now := by
  have hreset : (fun first => (⟨false, 0, limit.window - (now - first)⟩ : Answer)) =
      fun first => ⟨false, 0, first + limit.window - now⟩ := by
    funext first
    rw [sub_sub_eq_add_sub, add_comm]
  rw [consume, slide, Ruby.answer, hreset]
  change (if limit.max ≤ (counted (younger limit) now (entries key)).length then _ else _) = _
  by_cases h : limit.max ≤ (counted (younger limit) now (entries key)).length
  · simp only [if_pos h]
    rfl
  · simp only [if_neg h, List.length_append, List.length_singleton, Nat.cast_add, Nat.cast_one]
    rfl

variable {A : Type} {live : ℚ → ℚ → Bool} {reply : ℚ → List ℚ → A} {lets : A → Bool}
  {take : Entries → String → ℚ → Entries × A}

/-- A limiter that goes by what counts, and lets a call through while fewer than `max` do. -/
structure Slides (limit : RateLimit) (live : ℚ → ℚ → Bool) (reply : ℚ → List ℚ → A) (lets : A → Bool)
    (take : Entries → String → ℚ → Entries × A) : Prop where
  ageing : Ageing live
  eq {entries : Entries} {key : String} {now : ℚ} (h : (entries key).Pairwise (· ≤ ·)) :
    take entries key now = slide limit live reply entries key now
  lets (now : ℚ) (kept : List ℚ) : lets (reply now kept) = true ↔ (kept.length : ℤ) < limit.max

theorem Python.slides : Slides limit (notOlder limit) (answer limit) Answer.allowed (tryConsume limit) where
  ageing := ageing_notOlder limit
  eq := tryConsume_eq
  lets now kept := by
    rw [answer]
    split
    · next h => exact iff_of_false Bool.false_ne_true (not_lt.mpr h)
    · next h => exact iff_of_true rfl (not_le.mp h)

theorem Ruby.slides :
    Slides limit (younger limit) (answer limit) (fun a => a.any Answer.allowed) (consume limit) where
  ageing := ageing_younger limit
  eq := consume_eq
  lets now kept := by
    rw [answer]
    split
    · next h =>
      refine iff_of_false (fun hallowed => ?_) (not_lt.mpr h)
      cases kept with
      | nil => cases hallowed
      | cons first rest => cases hallowed
    · next h => exact iff_of_true rfl (not_le.mp h)

theorem Go.slides :
    Slides limit (younger limit) (Ruby.answer limit) (fun a => a.any Answer.allowed) (consume limit) where
  ageing := ageing_younger limit
  eq _ := consume_eq
  lets := Ruby.slides.lets

/-- What a limiter keeps between the calls. -/
structure Sound (limit : RateLimit) (live : ℚ → ℚ → Bool) (s : Traffic) : Prop where
  kept (key : String) : Kept live s.clock (s.passed key) (s.entries key)
  admitted (key : String) : Admitted live limit.max.toNat (s.passed key)

theorem sound_step (h : Slides limit live reply lets take) {start : ℚ} {s s' : Traffic} (hs : Sound limit live s)
    {call : Call} (hstep : (traffic take lets start).step s call = some s') : Sound limit live s' := by
  obtain ⟨hdelay, heq⟩ := Option.ite_none_right_eq_some.mp hstep
  have hle : s.clock ≤ s.clock + call.delay := le_add_of_nonneg_right hdelay
  have hlets := h.lets (s.clock + call.delay) (counted live (s.clock + call.delay) (s.entries call.key))
  rw [h.eq (hs.kept call.key).sorted, slide] at heq
  by_cases hfull : limit.max ≤ (counted live (s.clock + call.delay) (s.entries call.key)).length
  · rw [if_pos hfull, if_neg (mt hlets.mp (not_lt.mpr hfull))] at heq
    cases heq
    refine ⟨fun key => ?_, hs.admitted⟩
    by_cases hkey : key = call.key
    · subst hkey
      simp only [Function.update_self]
      exact (hs.kept call.key).prune h.ageing hle
    · simp only [Function.update_of_ne hkey]
      exact (hs.kept key).later hle
  · rw [if_neg hfull, if_pos (hlets.mpr (not_le.mp hfull))] at heq
    cases heq
    refine ⟨fun key => ?_, fun key => ?_⟩
    · by_cases hkey : key = call.key
      · subst hkey
        simp only [Function.update_self]
        exact (hs.kept call.key).enter h.ageing hle
      · simp only [Function.update_of_ne hkey]
        exact (hs.kept key).later hle
    · by_cases hkey : key = call.key
      · subst hkey
        simp only [Function.update_self]
        refine (hs.admitted call.key).snoc ?_
        rw [← (hs.kept call.key).logs _ hle, Int.lt_toNat]
        exact not_le.mp hfull
      · simp only [Function.update_of_ne hkey]
        exact hs.admitted key

theorem sound_of_reach (h : Slides limit live reply lets take) {start : ℚ} {s : Traffic}
    (hs : (traffic take lets start).Reach anyStep s) : Sound limit live s :=
  hs.invariant (Sound limit live) ⟨fun _ => .nil start, fun _ => .nil⟩ fun _ _ _ hs _ => sound_step h hs

/-- What a limiter promises where it has come to: each answer follows from the calls let through that
still count, and no more than `max` of the calls in a window are let through. -/
structure Promise (limit : RateLimit) (live : ℚ → ℚ → Bool) (reply : ℚ → List ℚ → A) (lets : A → Bool)
    (take : Entries → String → ℚ → Entries × A) (s : Traffic) : Prop where
  answers (key : String) (now : ℚ) : s.clock ≤ now →
    (take s.entries key now).2 = reply now ((s.passed key).filter (live now))
  refuses (key : String) (now : ℚ) : s.clock ≤ now →
    (lets (take s.entries key now).2 = false ↔ limit.max ≤ ((s.passed key).filter (live now)).length)
  bounded (key : String) (t : ℚ) : ((s.passed key).filter fun u => live t u && u ≤ t).length ≤ limit.max.toNat

theorem Slides.promise (h : Slides limit live reply lets take) {start : ℚ} {s : Traffic}
    (hs : (traffic take lets start).Reach anyStep s) : Promise limit live reply lets take s := by
  have hsound := sound_of_reach h hs
  have hanswers : ∀ key now, s.clock ≤ now →
      (take s.entries key now).2 = reply now ((s.passed key).filter (live now)) := by
    intro key now hnow
    rw [h.eq (hsound.kept key).sorted, slide, (hsound.kept key).logs now hnow]
    rfl
  refine ⟨hanswers, fun key now hnow => ?_, fun key t => ?_⟩
  · rw [hanswers key now hnow, ← Bool.not_eq_true, h.lets, not_lt]
  · have hbound := (hsound.admitted key).bounded h.ageing t
    rw [counted, List.filter_filter] at hbound
    simpa only [Bool.and_comm] using hbound

/-- **The limiters keep to the window.** Python's is closed, those of Ruby and Go are half-open. -/
theorem limiters_exact (limit : RateLimit) (start : ℚ) :
    (∀ s, (traffic (Python.tryConsume limit) Answer.allowed start).Reach anyStep s →
      Promise limit (fun now t => now - limit.window ≤ t) (Python.answer limit) Answer.allowed
        (Python.tryConsume limit) s) ∧
    (∀ s, (traffic (Ruby.consume limit) (fun a => a.any Answer.allowed) start).Reach anyStep s →
      Promise limit (fun now t => now - t < limit.window) (Ruby.answer limit) (fun a => a.any Answer.allowed)
        (Ruby.consume limit) s) ∧
    ∀ s, (traffic (Go.consume limit) (fun a => a.any Answer.allowed) start).Reach anyStep s →
      Promise limit (fun now t => now - t < limit.window) (Ruby.answer limit) (fun a => a.any Answer.allowed)
        (Go.consume limit) s :=
  ⟨fun _ => Python.slides.promise, fun _ => Ruby.slides.promise, fun _ => Go.slides.promise⟩

/-- One call a minute, and a second one half a minute later. -/
theorem second_call_refused : ∃ s : Traffic, s.passed "a" = [0] ∧
    ((Go.consume ⟨1, 60⟩ s.entries "a" (s.clock + 30)).2.any Answer.allowed) = false := by
  have hreach : (traffic (Go.consume ⟨1, 60⟩) (fun a => a.any Answer.allowed) 0).Reach anyStep _ :=
    .tail ⟨"a", 0⟩ .refl trivial rfl
  exact ⟨_, by decide +kernel, (((limiters_exact ⟨1, 60⟩ 0).2.2 _ hreach).refuses "a" _
    (le_add_of_nonneg_right (by norm_num))).mpr (by decide +kernel)⟩

/-! ## The limiters side by side -/

/-- The three limiters after the same calls, with the times that Go's let through. -/
structure Ports where
  python : Entries
  ruby : Entries
  go : Entries
  passed : Entries
  clock : ℚ

def ports (limit : RateLimit) (start : ℚ) : Machine Ports Call where
  init := ⟨fun _ => [], fun _ => [], fun _ => [], fun _ => [], start⟩
  step s call :=
    if 0 ≤ call.delay then
      let now := s.clock + call.delay
      let consumed := Go.consume limit s.go call.key now
      some {
        python := (Python.tryConsume limit s.python call.key now).1
        ruby := (Ruby.consume limit s.ruby call.key now).1
        go := consumed.1
        passed :=
          if consumed.2.any Answer.allowed then Function.update s.passed call.key (s.passed call.key ++ [now])
          else s.passed
        clock := now }
    else none

/-- No call that was let through is exactly a window old. -/
def Off (limit : RateLimit) (s : Ports) (call : Call) : Prop :=
  ∀ t ∈ s.passed call.key, s.clock + call.delay - t ≠ limit.window

instance (s : Ports) (call : Call) : Decidable (Off limit s call) := inferInstanceAs (Decidable (∀ t ∈ _, _))

/-- The ports agree on what counts. -/
structure Level (limit : RateLimit) (s : Ports) : Prop where
  python (key : String) : Kept (notOlder limit) s.clock (s.passed key) (s.python key)
  go (key : String) : Kept (younger limit) s.clock (s.passed key) (s.go key)
  ruby : s.ruby = s.go

/-- Off the edge of the window the same calls count in all ports. -/
theorem counted_off {times : List ℚ} (h : ∀ t ∈ times, now - t ≠ limit.window) :
    counted (notOlder limit) now times = counted (younger limit) now times := by
  refine List.filter_congr fun t ht => ?_
  rw [notOlder, younger, decide_eq_decide, lt_iff_le_and_ne, sub_le_comm]
  exact ⟨fun hle => ⟨hle, h t ht⟩, fun hlt => hlt.1⟩

variable {s : Ports} {call : Call}

theorem Level.counted (hs : Level limit s) (hdelay : 0 ≤ call.delay) (hoff : Off limit s call) :
    counted (notOlder limit) (s.clock + call.delay) (s.python call.key) =
      Lib.Windows.counted (younger limit) (s.clock + call.delay) (s.go call.key) := by
  have hle : s.clock ≤ s.clock + call.delay := le_add_of_nonneg_right hdelay
  rw [(hs.python call.key).logs _ hle, (hs.go call.key).logs _ hle, counted_off hoff]

theorem level_step {start : ℚ} {s' : Ports} (hs : Level limit s) (hoff : Off limit s call)
    (hstep : (ports limit start).step s call = some s') : Level limit s' := by
  obtain ⟨hdelay, heq⟩ := Option.ite_none_right_eq_some.mp hstep
  have hle : s.clock ≤ s.clock + call.delay := le_add_of_nonneg_right hdelay
  have hcounted := hs.counted hdelay hoff
  have hlets : (slide limit (younger limit) (Ruby.answer limit) s.go call.key (s.clock + call.delay)).2.any
      Answer.allowed = true ↔ _ := Go.slides.lets _ _
  rw [Python.tryConsume_eq (hs.python call.key).sorted, hs.ruby, Ruby.consume_eq (hs.go call.key).sorted,
    Go.consume_eq] at heq
  by_cases hfull : limit.max ≤ (counted (younger limit) (s.clock + call.delay) (s.go call.key)).length
  · rw [if_neg (mt hlets.mp (not_lt.mpr hfull))] at heq
    simp only [slide, hcounted, if_pos hfull] at heq
    cases heq
    refine ⟨fun key => ?_, fun key => ?_, rfl⟩
    · by_cases hkey : key = call.key
      · subst hkey
        simp only [Function.update_self]
        exact hcounted ▸ (hs.python call.key).prune (ageing_notOlder limit) hle
      · simp only [Function.update_of_ne hkey]
        exact (hs.python key).later hle
    · by_cases hkey : key = call.key
      · subst hkey
        simp only [Function.update_self]
        exact (hs.go call.key).prune (ageing_younger limit) hle
      · simp only [Function.update_of_ne hkey]
        exact (hs.go key).later hle
  · rw [if_pos (hlets.mpr (not_le.mp hfull))] at heq
    simp only [slide, hcounted, if_neg hfull] at heq
    cases heq
    refine ⟨fun key => ?_, fun key => ?_, rfl⟩
    · by_cases hkey : key = call.key
      · subst hkey
        simp only [Function.update_self]
        exact hcounted ▸ (hs.python call.key).enter (ageing_notOlder limit) hle
      · simp only [Function.update_of_ne hkey]
        exact (hs.python key).later hle
    · by_cases hkey : key = call.key
      · subst hkey
        simp only [Function.update_self]
        exact (hs.go call.key).enter (ageing_younger limit) hle
      · simp only [Function.update_of_ne hkey]
        exact (hs.go key).later hle

/-- Python's answer beside the one of Ruby and Go. -/
structure Alike (python : Answer) (other : Answer) : Prop where
  allowed : python.allowed = other.allowed
  remaining : python.remaining = other.remaining
  reset : other.allowed = false → python.reset = truncate other.reset

/-- **The ports answer alike** where no call comes exactly a window after one that was let through. The limit is one
that `New` makes, or any other that is positive. -/
theorem ports_agree (limit : RateLimit) (start : ℚ) (hmax : 0 < limit.max) {s : Ports}
    (hs : (ports limit start).Reach (Off limit) s) (call : Call) (hdelay : 0 ≤ call.delay)
    (hoff : Off limit s call) :
    (Go.consume limit s.go call.key (s.clock + call.delay)).2 =
      (Ruby.consume limit s.ruby call.key (s.clock + call.delay)).2 ∧
    ∃ answer, (Ruby.consume limit s.ruby call.key (s.clock + call.delay)).2 = some answer ∧
      Alike (Python.tryConsume limit s.python call.key (s.clock + call.delay)).2 answer := by
  have hlevel : Level limit s := by
    refine hs.invariant (Level limit) ⟨fun _ => .nil start, fun _ => .nil start, rfl⟩ ?_
    intro s call s' hs hoff hstep
    exact level_step hs hoff hstep
  rw [Python.tryConsume_eq (hlevel.python call.key).sorted, hlevel.ruby,
    Ruby.consume_eq (hlevel.go call.key).sorted, Go.consume_eq]
  simp only [slide, hlevel.counted hdelay hoff, true_and]
  generalize counted (younger limit) (s.clock + call.delay) (s.go call.key) = kept
  rw [Ruby.answer, Python.answer]
  by_cases hfull : limit.max ≤ kept.length
  · rw [if_pos hfull, if_pos hfull]
    cases kept with
    | nil => exact absurd hfull (not_le.mpr hmax)
    | cons first rest => exact ⟨_, rfl, rfl, rfl, fun _ => rfl⟩
  · rw [if_neg hfull, if_neg hfull]
    refine ⟨_, rfl, rfl, max_eq_right ?_, fun h => Bool.noConfusion h⟩
    have hroom : (kept.length : ℤ) < limit.max := not_le.mp hfull
    omega

/-- One call in Go's default window of a minute, and a second one half a minute later. -/
theorem second_call_alike : ∃ s : Ports, s.passed "a" = [0] ∧ (Go.consume (Go.new ⟨1, 0⟩) s.go "a" (s.clock + 30)).2 =
    (Ruby.consume (Go.new ⟨1, 0⟩) s.ruby "a" (s.clock + 30)).2 := by
  have hreach : (ports (Go.new ⟨1, 0⟩) 0).Reach (Off (Go.new ⟨1, 0⟩)) _ := .tail ⟨"a", 0⟩ .refl (by decide) rfl
  exact ⟨_, by decide +kernel,
    (ports_agree (Go.new ⟨1, 0⟩) 0 (Go.new_max_pos _) hreach ⟨"a", 30⟩ (by decide) (by decide +kernel)).1⟩

end TypeFerry.Server.SlidingLimiters
