import Mathlib.Algebra.Order.Group.Int
import Mathlib.Data.List.Chain
import Mathlib.Logic.Function.Basic

/-! # The rate limiter of the HTTP transport

`hono-rate-limit.ts`. A client address has a counter that starts again when its window is over. The windows are
fixed by the requests, so that two of them can meet in the middle of a third one of the same length. -/
namespace TypeFerry.Server.RateLimit

structure RateLimitEntry where
  count : ℕ
  resetAt : ℤ

structure RateLimitOptions where
  windowMs : ℕ
  max : ℕ

/-- The `Map` of the limiter. -/
abbrev Store := String → Option RateLimitEntry

/-- `c.req.header('x-forwarded-for') ?? '127.0.0.1'`. -/
def address (forwardedFor : Option String) : String := forwardedFor.getD "127.0.0.1"

/-- The callback of the cleanup timer. -/
def cleanup (now : ℤ) (store : Store) : Store := fun key => (store key).filter fun entry => !decide (entry.resetAt ≤ now)

variable (opts : RateLimitOptions)

/-- `let entry = store.get(ip)`, or a new one. -/
def entryFor (now : ℤ) : Option RateLimitEntry → RateLimitEntry
  | some entry => if entry.resetAt ≤ now then ⟨0, now + opts.windowMs⟩ else entry
  | none => ⟨0, now + opts.windowMs⟩

/-- `middleware(c, next)` until `next` is called: whether it is. -/
def middleware (store : Store) (forwardedFor : Option String) (now : ℤ) : Store × Bool :=
  let ip := address forwardedFor
  let entry := entryFor opts now (store ip)
  let entry := { entry with count := entry.count + 1 }
  (Function.update store ip (some entry), !decide (entry.count > opts.max))

inductive Event where
  | request (forwardedFor : Option String) (now : ℤ)
  | cleanup (now : ℤ)

def Event.now : Event → ℤ
  | request _ now => now
  | cleanup now => now

def step (store : Store) : Event → Store
  | .request forwardedFor now => (middleware opts store forwardedFor now).1
  | .cleanup now => cleanup now store

/-- The times of the requests of an address. -/
def requests (ip : String) : List Event → List ℤ
  | [] => []
  | .request forwardedFor now :: rest =>
    if address forwardedFor = ip then now :: requests ip rest else requests ip rest
  | .cleanup _ :: rest => requests ip rest

/-- The times of those that are passed on. -/
def passed (ip : String) : Store → List Event → List ℤ
  | _, [] => []
  | store, .request forwardedFor now :: rest =>
    let (store, passes) := middleware opts store forwardedFor now
    if address forwardedFor = ip ∧ passes then now :: passed ip store rest else passed ip store rest
  | store, .cleanup now :: rest => passed ip (cleanup now store) rest

/-- `new Map()`. -/
def empty : Store := fun _ => none

/-! ## What the limiter promises -/

/-- The times of an interval of the length of a window. -/
def inWindow (start : ℤ) (times : List ℤ) : List ℤ :=
  times.filter fun t => start ≤ t ∧ t < start + opts.windowMs

/-- No interval has more than `max` requests of one address that are passed on. -/
def Bounded (events : List Event) : Prop :=
  ∀ ip start, (inWindow opts start (passed opts ip empty events)).length ≤ opts.max

/-- Who is refused has had `max` requests in the window before. -/
def Justified (events : List Event) : Prop :=
  ∀ before forwardedFor now after, events = before ++ .request forwardedFor now :: after →
    (middleware opts (before.foldl (step opts) empty) forwardedFor now).2 = false →
    opts.max ≤ ((requests (address forwardedFor) before).filter fun t => now < t + opts.windowMs).length

/-- The windows from the one that began at `start` and has the requests `current` so far. -/
def windowsFrom (start : ℤ) (current : List ℤ) : List ℤ → List (List ℤ)
  | [] => [current]
  | t :: rest =>
    if t < start + opts.windowMs then windowsFrom start (current ++ [t]) rest else current :: windowsFrom t [t] rest

/-- The windows of an address: each one begins with the first request behind the one before. -/
def windows : List ℤ → List (List ℤ)
  | [] => []
  | t :: rest => windowsFrom opts t [t] rest

/-- Of the first `max` requests of a window, those less than a window before the `j`-th of the next one leave room for it
and the ones in front of it. -/
def Spaced (first second : List ℤ) : Prop :=
  ∀ j (h : j < (second.take opts.max).length),
    ((first.take opts.max).filter fun t => (second.take opts.max)[j] < t + opts.windowMs).length + (j + 1) ≤ opts.max

instance (first second : List ℤ) : Decidable (Spaced opts first second) :=
  inferInstanceAs (Decidable (∀ j (_ : j < (second.take opts.max).length), _))

/-! ## The requests of one address -/

/-- The requests of one address that are passed on, from its entry in the store. -/
def admitted (entry : Option RateLimitEntry) : List ℤ → List ℤ
  | [] => []
  | now :: rest =>
    let entry := entryFor opts now entry
    let rest := admitted (some { entry with count := entry.count + 1 }) rest
    if entry.count + 1 ≤ opts.max then now :: rest else rest

variable {opts}

/-- The cleanup only takes entries away that are over. -/
def Stale (time : ℤ) (entry entry' : Option RateLimitEntry) : Prop :=
  entry = entry' ∨ entry = none ∧ ∀ e, entry' = some e → e.resetAt ≤ time

theorem Stale.mono {time time' : ℤ} {entry entry' : Option RateLimitEntry} (h : Stale time entry entry')
    (htime : time ≤ time') : Stale time' entry entry' :=
  h.imp_right fun ⟨hnone, hover⟩ => ⟨hnone, fun e he => (hover e he).trans htime⟩

theorem Stale.entryFor_eq {time now : ℤ} {entry entry' : Option RateLimitEntry} (h : Stale time entry entry')
    (hnow : time ≤ now) : entryFor opts now entry = entryFor opts now entry' := by
  rcases h with rfl | ⟨rfl, hover⟩
  · rfl
  · cases entry' with
    | none => rfl
    | some e => rw [entryFor, entryFor, if_pos ((hover e rfl).trans hnow)]

theorem Stale.cleanup {time now : ℤ} {store : Store} {ip : String} {entry : Option RateLimitEntry}
    (h : Stale time (store ip) entry) (hnow : time ≤ now) : Stale now (cleanup now store ip) entry := by
  rcases h with h | ⟨hnone, hover⟩
  · rw [RateLimit.cleanup, h]
    cases entry with
    | none => exact .inl rfl
    | some e =>
      by_cases he : e.resetAt ≤ now
      · refine .inr ⟨by simp [he], ?_⟩
        rintro _ ⟨⟩
        exact he
      · exact .inl (by simp [he])
  · exact .inr ⟨by rw [RateLimit.cleanup, hnone, Option.filter_none], fun e he => (hover e he).trans hnow⟩

theorem middleware_self (store : Store) (forwardedFor : Option String) (now : ℤ) :
    (middleware opts store forwardedFor now).1 (address forwardedFor) =
      some { entryFor opts now (store (address forwardedFor)) with
        count := (entryFor opts now (store (address forwardedFor))).count + 1 } :=
  Function.update_self ..

theorem middleware_of_ne {ip : String} {forwardedFor : Option String} (h : address forwardedFor ≠ ip) (store : Store)
    (now : ℤ) : (middleware opts store forwardedFor now).1 ip = store ip :=
  Function.update_of_ne (Ne.symm h) ..

/-- Only the requests of an address count for it, and the cleanup timer does not. -/
theorem passed_eq {ip : String} : ∀ {events : List Event} {store : Store} {entry : Option RateLimitEntry} {time : ℤ},
    Stale time (store ip) entry → (∀ e ∈ events, time ≤ e.now) → events.Pairwise (fun e e' => e.now ≤ e'.now) →
    passed opts ip store events = admitted opts entry (requests ip events)
  | [], _, _, _, _, _, _ => rfl
  | .cleanup now :: rest, store, entry, time, hstale, htime, hsorted => by
    obtain ⟨hnow, hrest⟩ := List.pairwise_cons.mp hsorted
    rw [passed, requests]
    exact passed_eq (hstale.cleanup (htime _ (.head _))) hnow hrest
  | .request forwardedFor now :: rest, store, entry, time, hstale, htime, hsorted => by
    obtain ⟨hnow, hrest⟩ := List.pairwise_cons.mp hsorted
    have hle : time ≤ now := htime _ (.head _)
    rw [passed, requests]
    dsimp only
    by_cases hip : address forwardedFor = ip
    · have hentry : entryFor opts now _ = _ := hstale.entryFor_eq hle
      have hrec : passed opts ip (middleware opts store forwardedFor now).1 rest = @admitted opts
          (some { entryFor opts now entry with count := (entryFor opts now entry).count + 1 }) (requests ip rest) := by
        refine passed_eq (.inl ?_) hnow hrest
        rw [← hip, middleware_self, hip, hentry]
      rw [if_pos hip, admitted, hrec]
      simp [middleware, hip, hentry]
    · rw [if_neg hip, if_neg fun h => hip h.1]
      refine passed_eq ?_ hnow hrest
      rw [middleware_of_ne hip]
      exact hstale.mono hle

theorem take_append_admitted : ∀ {times : List ℤ} {start : ℤ} {current : List ℤ},
    current.take opts.max ++ admitted opts (some ⟨current.length, start + opts.windowMs⟩) times =
      ((windowsFrom opts start current times).map fun w => w.take opts.max).flatten
  | [], start, current => by simp [admitted, windowsFrom]
  | t :: rest, start, current => by
    rw [admitted, windowsFrom, entryFor]
    by_cases ht : t < start + opts.windowMs
    · rw [if_neg (not_le.mpr ht), if_pos ht, ← take_append_admitted, List.length_append, List.length_singleton]
      dsimp only
      by_cases hcount : current.length + 1 ≤ opts.max
      · rw [if_pos hcount, List.take_of_length_le (by omega), List.take_of_length_le (by simp; omega), List.append_assoc]
        rfl
      · rw [if_neg hcount, List.take_append_of_le_length (by omega)]
    · rw [if_pos (not_lt.mp ht), if_neg ht, List.map_cons, List.flatten_cons, ← take_append_admitted]
      congr 1
      dsimp only [List.length_singleton]
      rw [Nat.zero_add]
      cases hmax : opts.max with
      | zero => simp
      | succ m => simp

theorem admitted_eq : ∀ times : List ℤ,
    admitted opts none times = ((windows opts times).map fun w => w.take opts.max).flatten
  | [] => rfl
  | t :: rest => by
    rw [windows, ← take_append_admitted, admitted, entryFor]
    dsimp only [List.length_singleton]
    cases hmax : opts.max with
    | zero => simp
    | succ m => simp

/-! ## Where the windows lie -/

variable (opts) in
/-- Windows one after the other, the first one not before `time`. -/
def Laid : ℤ → List (List ℤ) → Prop
  | _, [] => True
  | time, w :: ws => ∃ start, time ≤ start ∧ (∀ t ∈ w, start ≤ t ∧ (t = start ∨ t < start + opts.windowMs)) ∧
    w.Pairwise (· ≤ ·) ∧ Laid (start + opts.windowMs) ws

theorem laid_windowsFrom : ∀ {times : List ℤ} {start time : ℤ} {current : List ℤ}, time ≤ start →
    (∀ t ∈ current, start ≤ t ∧ (t = start ∨ t < start + opts.windowMs)) → (current ++ times).Pairwise (· ≤ ·) →
    (∀ t ∈ times, start ≤ t) → Laid opts time (windowsFrom opts start current times)
  | [], start, time, current, htime, hcurrent, hsorted, _ => by
    rw [List.append_nil] at hsorted
    exact ⟨start, htime, hcurrent, hsorted, trivial⟩
  | t :: rest, start, time, current, htime, hcurrent, hsorted, htimes => by
    rw [windowsFrom]
    split
    · next ht =>
      refine laid_windowsFrom htime (fun u hu => ?_) (by simpa using hsorted) fun u hu => htimes u (.tail _ hu)
      rcases List.mem_append.mp hu with hu | hu
      · exact hcurrent u hu
      · obtain rfl := List.mem_singleton.mp hu
        exact ⟨htimes u (.head _), .inr ht⟩
    · next ht =>
      obtain ⟨hfirst, hrest, -⟩ := List.pairwise_append.mp hsorted
      refine ⟨start, htime, hcurrent, hfirst, laid_windowsFrom (not_lt.mp ht) ?_ hrest (List.pairwise_cons.mp hrest).1⟩
      intro u hu
      obtain rfl := List.mem_singleton.mp hu
      exact ⟨le_refl _, .inl rfl⟩

theorem laid_windows {times : List ℤ} (h : times.Pairwise (· ≤ ·)) : ∃ time, Laid opts time (windows opts times) := by
  cases times with
  | nil => exact ⟨0, trivial⟩
  | cons t rest =>
    refine ⟨t, laid_windowsFrom (le_refl _) (fun u hu => ?_) h (List.pairwise_cons.mp h).1⟩
    obtain rfl := List.mem_singleton.mp hu
    exact ⟨le_refl _, .inl rfl⟩

theorem Laid.le : ∀ {ws : List (List ℤ)} {time : ℤ}, Laid opts time ws → ∀ w ∈ ws, ∀ t ∈ w, time ≤ t
  | w :: ws, time, ⟨start, htime, hw, _, hws⟩, v, hv, t, ht => by
    rcases List.mem_cons.mp hv with rfl | hv
    · exact htime.trans (hw t ht).1
    · have := hws.le v hv t ht
      omega

/-! ## The bound -/

/-- The requests of the windows that are passed on. -/
def firstOnes (opts : RateLimitOptions) (ws : List (List ℤ)) : List ℤ := (ws.map fun w => w.take opts.max).flatten

theorem firstOnes_cons (w : List ℤ) (ws : List (List ℤ)) :
    firstOnes opts (w :: ws) = w.take opts.max ++ firstOnes opts ws := rfl

theorem Laid.le_firstOnes {ws : List (List ℤ)} {time : ℤ} (h : Laid opts time ws) {t : ℤ} (ht : t ∈ firstOnes opts ws) :
    time ≤ t := by
  obtain ⟨_, hmem, ht⟩ := List.mem_flatten.mp ht
  obtain ⟨w, hw, rfl⟩ := List.mem_map.mp hmem
  exact h.le w hw t (List.mem_of_mem_take ht)

theorem inWindow_append (start : ℤ) (ts us : List ℤ) :
    inWindow opts start (ts ++ us) = inWindow opts start ts ++ inWindow opts start us := List.filter_append ..

theorem mem_inWindow {start t : ℤ} {ts : List ℤ} :
    t ∈ inWindow opts start ts ↔ t ∈ ts ∧ start ≤ t ∧ t < start + opts.windowMs := by
  rw [inWindow, List.mem_filter, decide_eq_true_iff]

/-- The windows bound every interval of their length. -/
def Fits (opts : RateLimitOptions) (ws : List (List ℤ)) : Prop :=
  ∀ start, (inWindow opts start (firstOnes opts ws)).length ≤ opts.max

theorem take_sublist_inWindow {start start' : ℤ} {second : List ℤ} {j : ℕ} (hj : j < second.length)
    (hsecond : ∀ t ∈ second, start' ≤ t ∧ (t = start' ∨ t < start' + opts.windowMs)) (hsorted : second.Pairwise (· ≤ ·))
    (hstart : start = second[j] + 1 - opts.windowMs) (hwindow : 0 < opts.windowMs) :
    (second.take (j + 1)).Sublist (inWindow opts start second) := by
  have hall : ∀ t ∈ second.take (j + 1), decide (start ≤ t ∧ t < start + opts.windowMs) = true := by
    intro t ht
    obtain ⟨i, hi, rfl⟩ := List.getElem_of_mem ht
    rw [List.length_take] at hi
    rw [List.getElem_take, decide_eq_true_iff, hstart]
    have hle : second[i] ≤ second[j] := by
      rcases Nat.lt_or_eq_of_le (by omega : i ≤ j) with hij | rfl
      · exact List.pairwise_iff_getElem.mp hsorted i j _ hj hij
      · exact le_refl _
    have hi' := hsecond _ (List.getElem_mem (by omega : i < second.length))
    have hj' := hsecond _ (List.getElem_mem hj)
    omega
  have hsub := (List.take_sublist (j + 1) second).filter fun t => decide (start ≤ t ∧ t < start + opts.windowMs)
  rwa [List.filter_eq_self.mpr hall] at hsub

theorem spaced_of_fits {first second : List ℤ} {ws : List (List ℤ)} {time : ℤ} (h : Laid opts time (first :: second :: ws))
    (hfits : Fits opts (first :: second :: ws)) : Spaced opts first second := by
  obtain ⟨start, -, hfirst, -, start', hstart', hsecond, hsorted, -⟩ := h
  intro j hj
  have hmax : j + 1 ≤ opts.max := hj.trans_le (List.length_take_le _ _)
  replace hsecond : ∀ t ∈ second.take opts.max, start' ≤ t ∧ (t = start' ∨ t < start' + opts.windowMs) :=
    fun t ht => hsecond t (List.mem_of_mem_take ht)
  have hlast := hsecond _ (List.getElem_mem hj)
  by_cases hfilter : (first.take opts.max).filter (fun t => (second.take opts.max)[j] < t + opts.windowMs) = []
  · rw [hfilter, List.length_nil]
    omega
  obtain ⟨x, hx⟩ := List.exists_mem_of_ne_nil _ hfilter
  obtain ⟨hx, hxlt⟩ := List.mem_filter.mp hx
  have hxlt : (second.take opts.max)[j] < x + opts.windowMs := of_decide_eq_true hxlt
  have hxle := hfirst x (List.mem_of_mem_take hx)
  -- The interval that ends with the `j`-th request of the second window.
  have hcount := hfits ((second.take opts.max)[j] + 1 - opts.windowMs)
  rw [firstOnes_cons, firstOnes_cons, inWindow_append, inWindow_append, List.length_append, List.length_append] at hcount
  have hleft : ((first.take opts.max).filter fun t => (second.take opts.max)[j] < t + opts.windowMs) =
      inWindow opts ((second.take opts.max)[j] + 1 - opts.windowMs) (first.take opts.max) := by
    refine List.filter_congr fun t ht => ?_
    have ht' := hfirst t (List.mem_of_mem_take ht)
    rw [decide_eq_decide]
    omega
  have hright := take_sublist_inWindow hj hsecond (hsorted.sublist (List.take_sublist _ _)) rfl (by omega)
  have hlength := hright.length_le
  rw [List.length_take] at hlength
  rw [hleft]
  omega

/-- Nothing comes before the windows do. -/
theorem Laid.inWindow_eq_nil {ws : List (List ℤ)} {time start : ℤ} (h : Laid opts time ws)
    (hstart : start + opts.windowMs ≤ time) : inWindow opts start (firstOnes opts ws) = [] := by
  rw [List.eq_nil_iff_forall_not_mem]
  intro t ht
  obtain ⟨ht, -, hlt⟩ := mem_inWindow.mp ht
  have := h.le_firstOnes ht
  omega

theorem fits_cons {first second : List ℤ} {ws : List (List ℤ)} {time : ℤ} (h : Laid opts time (first :: second :: ws))
    (hspaced : Spaced opts first second) (hfits : Fits opts (second :: ws)) : Fits opts (first :: second :: ws) := by
  obtain ⟨start, -, hfirst, -, start', hstart', hsecond, hsorted, hlaid⟩ := h
  intro time
  rw [firstOnes_cons, inWindow_append, List.length_append]
  by_cases hnil : inWindow opts time (first.take opts.max) = []
  · rw [hnil, List.length_nil, Nat.zero_add]
    exact hfits time
  -- The interval begins in the first window, so it is over before the third one.
  obtain ⟨x, hx⟩ := List.exists_mem_of_ne_nil _ hnil
  obtain ⟨hx, htime, hlt⟩ := mem_inWindow.mp hx
  have hx := hfirst x (List.mem_of_mem_take hx)
  have hthird : inWindow opts time (firstOnes opts ws) = [] := hlaid.inWindow_eq_nil (by omega)
  rw [firstOnes_cons, inWindow_append, hthird, List.append_nil]
  have hle : (inWindow opts time (first.take opts.max)).length ≤ opts.max :=
    (List.length_filter_le _ _).trans (List.length_take_le _ _)
  cases hj : (inWindow opts time (second.take opts.max)).length with
  | zero => exact hle
  | succ j =>
    have hsub : (inWindow opts time (second.take opts.max)).Sublist (second.take opts.max) := List.filter_sublist
    have hjlt : j < (second.take opts.max).length := by
      have hlength := hsub.length_le
      omega
    have hbound := hspaced j hjlt
    have hin : (second.take opts.max)[j] < time + opts.windowMs := by
      by_contra hout
      -- Then nothing from there on is in the interval.
      have hbegins : (inWindow opts time (second.take opts.max)).length ≤ j := by
        have hsplit := List.take_append_drop j (second.take opts.max)
        rw [← hsplit, inWindow_append, List.length_append]
        have hdrop : inWindow opts time ((second.take opts.max).drop j) = [] := by
          rw [List.eq_nil_iff_forall_not_mem]
          intro t ht
          obtain ⟨ht, -, htlt⟩ := mem_inWindow.mp ht
          have hfrom := List.pairwise_cons.mp (List.drop_eq_getElem_cons hjlt ▸
            (hsorted.sublist (List.take_sublist _ _)).sublist (List.drop_sublist j _))
          rw [List.drop_eq_getElem_cons hjlt] at ht
          rcases List.mem_cons.mp ht with rfl | ht
          · exact hout htlt
          · exact hout ((hfrom.1 t ht).trans_lt htlt)
        rw [hdrop, List.length_nil, Nat.add_zero]
        exact (List.length_filter_le _ _).trans (List.length_take_le _ _)
      omega
    have hmono : (inWindow opts time (first.take opts.max)).length ≤
        ((first.take opts.max).filter fun t => (second.take opts.max)[j] < t + opts.windowMs).length := by
      refine (List.monotone_filter_right _ fun t ht => ?_).length_le
      rw [decide_eq_true_iff] at ht ⊢
      omega
    omega

theorem fits_iff : ∀ {ws : List (List ℤ)} {time : ℤ}, Laid opts time ws → (Fits opts ws ↔ ws.IsChain (Spaced opts))
  | [], _, _ => ⟨fun _ => .nil, fun _ _ => Nat.zero_le _⟩
  | [w], _, _ => by
    refine ⟨fun _ => .singleton _, fun _ time => ?_⟩
    rw [firstOnes_cons, show firstOnes opts [] = [] from rfl, List.append_nil]
    exact (List.length_filter_le _ _).trans (List.length_take_le _ _)
  | first :: second :: ws, time, h => by
    have hrest : Laid opts _ (second :: ws) := h.choose_spec.2.2.2
    rw [List.isChain_cons_cons, ← fits_iff hrest]
    constructor
    · intro hfits
      refine ⟨spaced_of_fits h hfits, fun start => (?_ : _ ≤ _).trans (hfits start)⟩
      rw [firstOnes_cons first, inWindow_append, List.length_append]
      exact Nat.le_add_left _ _
    · exact fun ⟨hspaced, hfits⟩ => fits_cons h hspaced hfits

/-! ## Refusals -/

/-- An entry counts requests of its window only, which began with one. -/
structure Counts (opts : RateLimitOptions) (ip : String) (before : List Event) (entry : RateLimitEntry) : Prop where
  began : ∃ t ∈ requests ip before, entry.resetAt = t + opts.windowMs
  count : entry.count ≤ ((requests ip before).filter fun t => entry.resetAt ≤ t + opts.windowMs).length

theorem requests_append (ip : String) : ∀ events events' : List Event,
    requests ip (events ++ events') = requests ip events ++ requests ip events'
  | [], _ => rfl
  | .request forwardedFor now :: rest, events' => by
    rw [List.cons_append, requests, requests, requests_append ip rest]
    split <;> rfl
  | .cleanup _ :: rest, events' => by rw [List.cons_append, requests, requests, requests_append ip rest]

theorem mem_requests {ip : String} {t : ℤ} : ∀ {events : List Event}, t ∈ requests ip events → ∃ e ∈ events, e.now = t
  | .cleanup _ :: rest, h => by
    obtain ⟨e, he, hnow⟩ := @mem_requests ip t rest h
    exact ⟨e, .tail _ he, hnow⟩
  | .request forwardedFor now :: rest, h => by
    rw [requests] at h
    split at h
    · rcases List.mem_cons.mp h with rfl | h
      · exact ⟨_, .head _, rfl⟩
      · obtain ⟨e, he, hnow⟩ := mem_requests h
        exact ⟨e, .tail _ he, hnow⟩
    · obtain ⟨e, he, hnow⟩ := mem_requests h
      exact ⟨e, .tail _ he, hnow⟩

theorem pairwise_requests (ip : String) : ∀ {events : List Event}, events.Pairwise (fun e e' => e.now ≤ e'.now) →
    (requests ip events).Pairwise (· ≤ ·)
  | [], _ => .nil
  | .cleanup _ :: rest, h => @pairwise_requests ip rest (List.pairwise_cons.mp h).2
  | .request forwardedFor now :: rest, h => by
    obtain ⟨hnow, hrest⟩ := List.pairwise_cons.mp h
    rw [requests]
    split
    · refine List.pairwise_cons.mpr ⟨fun t ht => ?_, pairwise_requests ip hrest⟩
      obtain ⟨e, he, rfl⟩ := mem_requests ht
      exact hnow e he
    · exact pairwise_requests ip hrest

theorem Counts.append {ip : String} {before : List Event} {entry : RateLimitEntry} (h : Counts opts ip before entry)
    (events : List Event) : Counts opts ip (before ++ events) entry := by
  obtain ⟨⟨t, ht, hreset⟩, hcount⟩ := h
  constructor
  · exact ⟨t, by rw [requests_append]; exact List.mem_append_left _ ht, hreset⟩
  · rw [requests_append, List.filter_append, List.length_append]
    omega

/-- The entry of a request, which it counts. -/
theorem counts_request {ip : String} {before : List Event} {stored : Option RateLimitEntry} {forwardedFor : Option String}
    {now : ℤ} (hip : address forwardedFor = ip) (h : ∀ entry, stored = some entry → Counts opts ip before entry)
    (hnow : ∀ e ∈ before, e.now ≤ now) : Counts opts ip (before ++ [.request forwardedFor now])
      { entryFor opts now stored with count := (entryFor opts now stored).count + 1 } := by
  have hlast : requests ip [.request forwardedFor now] = [now] := by simp [requests, hip]
  have hnew : Counts opts ip (before ++ [.request forwardedFor now]) ⟨1, now + opts.windowMs⟩ := by
    constructor
    · exact ⟨now, by simp [requests_append, hlast], rfl⟩
    · simp [requests_append, hlast]
  cases stored with
  | none => exact hnew
  | some entry =>
    rw [entryFor]
    split
    · exact hnew
    · obtain ⟨⟨t, ht, hreset⟩, hcount⟩ := h entry rfl
      obtain ⟨e, he, rfl⟩ := mem_requests ht
      have hle : entry.resetAt ≤ now + opts.windowMs := by
        have := hnow e he
        omega
      constructor
      · exact ⟨e.now, by rw [requests_append]; exact List.mem_append_left _ ht, hreset⟩
      · rw [requests_append, hlast, List.filter_append, List.length_append, List.filter_cons_of_pos (by simpa using hle)]
        exact Nat.succ_le_succ hcount

/-- Each step keeps the counts. -/
theorem counts_step {store : Store} {before : List Event} {e : Event}
    (h : ∀ ip entry, store ip = some entry → Counts opts ip before entry) (hnow : ∀ e' ∈ before, e'.now ≤ e.now) (ip : String)
    (entry : RateLimitEntry) (hentry : step opts store e ip = some entry) : Counts opts ip (before ++ [e]) entry := by
  cases e with
  | cleanup now =>
    rw [step, cleanup] at hentry
    exact (h ip entry (Option.eq_some_of_filter_eq_some hentry)).append _
  | request forwardedFor now =>
    rw [step] at hentry
    by_cases hip : address forwardedFor = ip
    · rw [← hip, middleware_self, Option.some.injEq, hip] at hentry
      rw [← hentry]
      exact counts_request hip (h ip) hnow
    · rw [middleware_of_ne hip] at hentry
      exact (h ip entry hentry).append _

theorem counts_run (before : List Event) (h : before.Pairwise fun e e' => e.now ≤ e'.now) :
    ∀ ip entry, before.foldl (step opts) empty ip = some entry → Counts opts ip before entry := by
  induction before using List.reverseRecOn with
  | nil =>
    intro ip entry hentry
    cases hentry
  | append_singleton before e ih =>
    obtain ⟨hbefore, -, hnow⟩ := List.pairwise_append.mp h
    rw [List.foldl_append]
    exact counts_step (ih hbefore) fun e' he' => hnow e' he' e (.head _)

/-- Nobody is refused without reason. -/
theorem justified {events : List Event} (h : events.Pairwise fun e e' => e.now ≤ e'.now) : Justified opts events := by
  rintro before forwardedFor now after rfl hrefused
  obtain ⟨hbefore, -, hnow⟩ := List.pairwise_append.mp h
  have hcounts := @counts_run opts before hbefore (address forwardedFor)
  simp only [middleware, gt_iff_lt, Bool.not_eq_eq_eq_not, Bool.not_false, decide_eq_true_eq] at hrefused
  cases hstore : before.foldl (step opts) empty (address forwardedFor) with
  | none =>
    rw [hstore, entryFor] at hrefused
    dsimp only at hrefused
    omega
  | some entry =>
    rw [hstore, entryFor] at hrefused
    split at hrefused
    · dsimp only at hrefused
      omega
    · refine (Nat.le_of_lt_succ hrefused).trans ((hcounts entry hstore).count.trans ?_)
      refine (List.monotone_filter_right _ fun t ht => ?_).length_le
      rw [decide_eq_true_iff] at ht ⊢
      omega

/-! ## The windows of the documentation -/

/-- What the limiter promises holds **exactly if neighbouring windows are spaced**. -/
theorem limits_iff (opts : RateLimitOptions) {events : List Event} (h : events.Pairwise fun e e' => e.now ≤ e'.now) :
    Bounded opts events ∧ Justified opts events ↔
      ∀ ip, (windows opts (requests ip events)).IsChain (Spaced opts) := by
  rw [and_iff_left (justified h)]
  refine forall_congr' fun ip => ?_
  have hsorted := pairwise_requests ip h
  obtain ⟨time, hlaid⟩ := @laid_windows opts _ hsorted
  rw [← fits_iff hlaid, Fits, firstOnes, ← admitted_eq]
  have hpassed : passed opts ip empty events = admitted opts none (requests ip events) := by
    cases events with
    | nil => rfl
    | cons e rest => exact @passed_eq opts ip _ _ none e.now (.inl rfl) (by simpa using (List.pairwise_cons.mp h).1) h
  rw [hpassed]

/-- Three requests, the cleanup, and a fourth request, with two in 10 ms allowed. -/
def spread : List Event :=
  [.request none 0, .request none 1, .request none 2, .cleanup 10, .request none 11]

theorem limits_iff_spread : Bounded ⟨10, 2⟩ spread ∧ Justified ⟨10, 2⟩ spread := by
  refine (limits_iff ⟨10, 2⟩ (by decide)).mpr fun ip => ?_
  by_cases hip : "127.0.0.1" = ip
  · rw [← hip]
    decide
  · simp [spread, requests, address, hip, windows]

/-- Two requests at the end of a window and two at the beginning of the next one. -/
def burst : List Event :=
  [.request none 0, .request none 9, .request none 10, .request none 11]

theorem burst_not_bounded : burst.Pairwise (fun e e' => e.now ≤ e'.now) ∧ ¬ (Bounded ⟨10, 2⟩ burst ∧ Justified ⟨10, 2⟩ burst) := by
  refine ⟨by decide, fun h => ?_⟩
  have hthree := h.1 "127.0.0.1" 9
  revert hthree
  decide

end TypeFerry.Server.RateLimit
