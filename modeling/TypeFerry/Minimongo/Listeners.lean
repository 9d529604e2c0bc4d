import TypeFerry.Lib.Numeral
import TypeFerry.Lib.OrderedMap
import TypeFerry.Lib.Runs

/-! # The listeners of a cursor

`TypedEventEmitter` tells its subclass of every listener that comes or goes, and the cursor
counts: with the first listener it reads its documents and observes its collection, with the
last one it stops. The read runs the application's own code, so a call is cut there. -/
namespace TypeFerry.Minimongo.Listeners
open TypeFerry.Lib.Numeral TypeFerry.Lib.OrderedMap TypeFerry.Lib.Runs

/-! ## The emitter and the cursor -/

inductive Listener where
  | function (f : ℕ)
  /-- what `once` has registered for `original` -/
  | once (wrapped original : ℕ)
  deriving DecidableEq

/-- `current === listener || once.original === listener`. -/
def Listener.is (f : ℕ) : Listener → Bool
  | .function g => g = f
  | .once _ original => original = f

structure State where
  listeners : OMap Text (List Listener)
  anyListeners : List ℕ
  listenerCount : ℕ
  /-- `removeObserver` is set -/
  removeObserver : Bool
  /-- the observers of this cursor at its collection -/
  observers : ℕ
  /-- the calls of `onListenerAdded` that are in their `fetch` -/
  fetching : ℕ
  /-- the number of the next function that `once` makes -/
  nextWrapped : ℕ

def init : State := ⟨.empty, [], 0, false, 0, 0, 0⟩

namespace State

/-- The set of an event. -/
def set (s : State) (event : Text) : List Listener := (s.listeners.get event).getD []

def listenerTotal (s : State) : ℕ := s.anyListeners.length + (s.listeners.values.map List.length).sum

def stop (s : State) : State where
  __ := s
  removeObserver := false
  observers := if s.removeObserver then s.observers - 1 else s.observers

/-- `onListenerAdded`, up to the `fetch`. -/
def onListenerAdded (s : State) : State :=
  let s := { s with listenerCount := s.listenerCount + 1 }
  if s.removeObserver then s else { s with fetching := s.fetching + 1 }

def onListenerRemoved (s : State) : State :=
  let s := { s with listenerCount := s.listenerCount - 1 }
  if s.listenerCount = 0 then s.stop else s

/-- `for (let index = 0; index < removed; index += 1) this.onListenerRemoved()`. -/
def removedTimes (s : State) : ℕ → State
  | 0 => s
  | n + 1 => s.onListenerRemoved.removedTimes n

def on (s : State) (event : Text) (listener : Listener) : State :=
  if listener ∈ s.set event then { s with listeners := s.listeners.set event (s.set event) }
  else { s with listeners := s.listeners.set event (s.set event ++ [listener]) }.onListenerAdded

/-- `off`: the listeners that match go, and the hook is called for each. -/
def offWhere (s : State) (event : Text) (gone : Listener → Bool) : State :=
  match s.listeners.get event with
  | none => s
  | some listeners =>
    let rest := listeners.filter (!gone ·)
    { s with listeners := if rest = [] then s.listeners.delete event else s.listeners.set event rest }.removedTimes
      (listeners.filter gone).length

def once (s : State) (event : Text) (f : ℕ) : State :=
  { s with nextWrapped := s.nextWrapped + 1 }.on event (.once s.nextWrapped f)

def onAny (s : State) (f : ℕ) : State :=
  { s with anyListeners := if f ∈ s.anyListeners then s.anyListeners else s.anyListeners ++ [f] }.onListenerAdded

def offAny (s : State) (f : ℕ) : State :=
  if f ∈ s.anyListeners then { s with anyListeners := s.anyListeners.erase f }.onListenerRemoved else s

/-- An empty name is as good as none. -/
def removeAllListeners (s : State) : Option Text → State
  | some (c :: name) =>
    { s with listeners := s.listeners.delete (c :: name) }.removedTimes (s.set (c :: name)).length
  | _ => { s with listeners := .empty, anyListeners := [] }.removedTimes s.listenerTotal

end State

inductive Action where
  | on (event : Text) (f : ℕ)
  | once (event : Text) (f : ℕ)
  | off (event : Text) (f : ℕ)
  | onAny (f : ℕ)
  | offAny (f : ℕ)
  | removeAllListeners (event : Option Text)
  /-- an emit of the event calls a function that `once` has made, which takes itself out first -/
  | fire (event : Text) (wrapped original : ℕ)
  /-- the `fetch` of an `onListenerAdded` returns, or it throws -/
  | fetched (returned : Bool)
  deriving DecidableEq

def step (s : State) : Action → Option State
  | .on event f => some (s.on event (.function f))
  | .once event f => some (s.once event f)
  | .off event f => some (s.offWhere event (·.is f))
  | .onAny f => some (s.onAny f)
  | .offAny f => some (s.offAny f)
  | .removeAllListeners event => some (s.removeAllListeners event)
  | .fire event wrapped original => some (s.offWhere event (· = .once wrapped original))
  | .fetched returned =>
    if s.fetching = 0 then none
    else if returned then
      some { s with fetching := s.fetching - 1, removeObserver := true, observers := s.observers + 1 }
    else some { s with fetching := s.fetching - 1 }

def machine : Machine State Action := ⟨init, step⟩

/-! ## What follows the listeners -/

/-- Between the calls the counter is the number of the listeners, and the collection has an
observer of the cursor if and only if that is positive. -/
def Follows (s : State) : Prop :=
  s.fetching = 0 → s.listenerCount = s.listenerTotal ∧ (0 < s.observers ↔ 0 < s.listenerTotal)

/-- It holds in every state of the runs whose steps meet the condition. -/
def FollowsAlong (ok : State → Action → Prop) : Prop := ∀ s, machine.Reach ok s → Follows s

/-- The call finds nothing to do. -/
def Idle (s : State) : Action → Prop
  | .on event f => .function f ∈ s.set event
  | .off event f => ∀ listener ∈ s.set event, listener.is f = false
  | .offAny f => f ∉ s.anyListeners
  | .removeAllListeners (some (c :: name)) => s.set (c :: name) = []
  | .removeAllListeners _ => s.listenerTotal = 0
  | .fire event wrapped original => .once wrapped original ∉ s.set event
  | _ => False

/-- `onAny` is not called with a function that is registered, no `fetch` of an `onListenerAdded`
throws, and while it runs no call changes the listeners. -/
def Orderly (s : State) : Action → Prop
  | .onAny f => f ∉ s.anyListeners ∧ s.fetching = 0
  | .fetched returned => returned = true
  | a => s.fetching = 0 ∨ Idle s a

/-! ## The number of listeners -/

/-- The sizes of the sets, added up. -/
def sizes (es : List (Text × List Listener)) : ℕ := (es.map fun e => e.2.length).sum

theorem sizes_put (k : Text) (xs : List Listener) : ∀ es : List (Text × List Listener),
    sizes (put k xs es) + ((lookup k es).getD []).length = sizes es + xs.length
  | [] => by simp [put, lookup, sizes]
  | (k', ys) :: es => by
    rw [put, lookup]
    split
    · simp only [sizes, List.map_cons, List.sum_cons, Option.getD_some]
      omega
    · have ih := sizes_put k xs es
      simp only [sizes, List.map_cons, List.sum_cons] at ih ⊢
      omega

theorem sizes_filter (k : Text) : ∀ es : List (Text × List Listener), (es.map Prod.fst).Nodup →
    sizes (es.filter fun e => e.1 ≠ k) + ((lookup k es).getD []).length = sizes es
  | [], _ => by simp [lookup, sizes]
  | (k', ys) :: es, h => by
    obtain ⟨hnot, hnodup⟩ := List.nodup_cons.mp h
    rw [lookup]
    split
    · next hk =>
      subst hk
      have hall : es.filter (fun e => e.1 ≠ k') = es := by
        refine List.filter_eq_self.mpr fun e he => decide_eq_true fun heq => hnot ?_
        exact heq ▸ (List.mem_map_of_mem he : e.1 ∈ es.map Prod.fst)
      rw [List.filter_cons_of_neg (by simp), hall, Option.getD_some, Nat.add_comm]
      rfl
    · next hk =>
      have ih := sizes_filter k es hnodup
      rw [List.filter_cons_of_pos (by simpa using hk)]
      simp only [sizes, List.map_cons, List.sum_cons] at ih ⊢
      omega

variable {s s' : State} {event : Text}

theorem total_eq : s.listenerTotal = s.anyListeners.length + sizes s.listeners.entries := by
  rw [State.listenerTotal, OMap.values, List.map_map]
  rfl

theorem total_set (xs : List Listener) :
    { s with listeners := s.listeners.set event xs }.listenerTotal + (s.set event).length =
      s.listenerTotal + xs.length := by
  have hput := sizes_put event xs s.listeners.entries
  rw [total_eq, total_eq, State.set, OMap.get, OMap.set]
  dsimp only
  omega

theorem total_delete : { s with listeners := s.listeners.delete event }.listenerTotal + (s.set event).length =
    s.listenerTotal := by
  have hfilter := sizes_filter event s.listeners.entries s.listeners.nodup
  rw [total_eq, total_eq, State.set, OMap.get, OMap.delete]
  dsimp only
  omega

/-! ## The hooks -/

/-- The observer goes with the counter, but for the time in which the first `fetch` runs. -/
structure Watching (s : State) : Prop where
  fetching : s.fetching ≤ 1
  observing : s.removeObserver = decide (0 < s.listenerCount ∧ s.fetching = 0)
  observers : s.observers = s.removeObserver.toNat
  counted : 0 < s.fetching → 0 < s.listenerCount

theorem Watching.added (h : Watching s) (hidle : s.fetching = 0) : Watching s.onListenerAdded := by
  unfold State.onListenerAdded
  dsimp only
  split
  · next hyes => exact ⟨h.fetching, by simp [hyes, hidle], h.observers, fun _ => Nat.succ_pos _⟩
  · next hno =>
    rw [Bool.not_eq_true] at hno
    refine ⟨by simp [hidle], ?_, h.observers, fun _ => Nat.succ_pos _⟩
    simp [hno]

theorem added_frame : s.onListenerAdded.listenerTotal = s.listenerTotal ∧
    s.onListenerAdded.listenerCount = s.listenerCount + 1 := by
  unfold State.onListenerAdded
  dsimp only
  split <;> exact ⟨rfl, rfl⟩

theorem removed_frame : s.onListenerRemoved.listenerTotal = s.listenerTotal ∧
    s.onListenerRemoved.listenerCount = s.listenerCount - 1 ∧ s.onListenerRemoved.fetching = s.fetching := by
  unfold State.onListenerRemoved
  dsimp only
  split <;> exact ⟨rfl, rfl, rfl⟩

theorem Watching.removed (h : Watching s) (hidle : s.fetching = 0) : Watching s.onListenerRemoved := by
  unfold State.onListenerRemoved
  dsimp only
  split
  · next hlast =>
    refine ⟨h.fetching, ?_, ?_, fun hf => absurd hidle (Nat.ne_of_gt hf)⟩
    · simp [State.stop, hlast]
    · simp only [State.stop, h.observers]
      cases s.removeObserver <;> rfl
  · next hmore =>
    refine ⟨h.fetching, ?_, h.observers, fun hf => absurd hidle (Nat.ne_of_gt hf)⟩
    have hpos : 0 < s.listenerCount := by omega
    rw [h.observing, decide_eq_decide]
    exact ⟨fun h' => ⟨Nat.pos_of_ne_zero hmore, h'.2⟩, fun h' => ⟨hpos, h'.2⟩⟩

theorem removedTimes_frame : ∀ (n : ℕ) {s : State}, (s.removedTimes n).listenerTotal = s.listenerTotal ∧
    (s.removedTimes n).listenerCount = s.listenerCount - n
  | 0, _ => ⟨rfl, rfl⟩
  | n + 1, s => by
    obtain ⟨htotal, hcount⟩ := @removedTimes_frame n s.onListenerRemoved
    obtain ⟨htotal', hcount', -⟩ := @removed_frame s
    exact ⟨htotal.trans htotal', by rw [State.removedTimes, hcount, hcount']; omega⟩

theorem Watching.removedTimes : ∀ (n : ℕ) {s : State}, Watching s → s.fetching = 0 ∨ n = 0 →
    Watching (s.removedTimes n)
  | 0, _, h, _ => h
  | n + 1, s, h, hidle => by
    have hzero : s.fetching = 0 := by omega
    exact Watching.removedTimes n (h.removed hzero) (.inl (removed_frame.2.2.trans hzero))

/-! ## What a call keeps -/

structure Inv (s : State) : Prop extends Watching s where
  count : s.listenerCount = s.listenerTotal

/-- Listeners are taken out, and the hook is called for each. -/
theorem Inv.takeOut (h : Inv s) (listeners : OMap Text (List Listener)) (anyListeners : List ℕ) {n : ℕ}
    (hn : { s with listeners := listeners, anyListeners := anyListeners }.listenerTotal + n = s.listenerTotal)
    (hidle : s.fetching = 0 ∨ n = 0) :
    Inv ({ s with listeners := listeners, anyListeners := anyListeners }.removedTimes n) := by
  have hwatching : Watching { s with listeners := listeners, anyListeners := anyListeners } :=
    ⟨h.fetching, h.observing, h.observers, h.counted⟩
  refine ⟨hwatching.removedTimes n hidle, ?_⟩
  obtain ⟨htotal, hcount⟩ := removedTimes_frame n (s := { s with listeners := listeners, anyListeners := anyListeners })
  rw [htotal, hcount]
  have := h.count
  dsimp only
  omega

/-- A listener comes, and the hook is called. -/
theorem Inv.takeIn (h : Inv s) (listeners : OMap Text (List Listener)) (anyListeners : List ℕ) (nextWrapped : ℕ)
    (hone : { s with listeners := listeners, anyListeners := anyListeners }.listenerTotal = s.listenerTotal + 1)
    (hidle : s.fetching = 0) :
    Inv { s with listeners := listeners, anyListeners := anyListeners, nextWrapped := nextWrapped }.onListenerAdded := by
  have hwatching : Watching { s with listeners := listeners, anyListeners := anyListeners, nextWrapped := nextWrapped } :=
    ⟨h.fetching, h.observing, h.observers, h.counted⟩
  refine ⟨hwatching.added hidle, ?_⟩
  rw [added_frame.1, added_frame.2, h.count]
  exact hone.symm

theorem Inv.on (h : Inv s) {listener : Listener} (nextWrapped : ℕ)
    (hidle : s.fetching = 0 ∨ listener ∈ s.set event) :
    Inv ({ s with nextWrapped := nextWrapped }.on event listener) := by
  unfold State.on
  split
  · next hin =>
    obtain ⟨xs, hget⟩ : ∃ xs, s.listeners.get event = some xs := by
      cases hget : s.listeners.get event with
      | some xs => exact ⟨xs, rfl⟩
      | none => simp [State.set, hget] at hin
    have hsame : s.listeners.set event (s.set event) = s.listeners := by
      rw [State.set, hget]
      exact OMap.set_self hget
    refine ⟨⟨h.fetching, h.observing, h.observers, h.counted⟩, ?_⟩
    show s.listenerCount = State.listenerTotal { s with listeners := s.listeners.set event (s.set event) }
    rw [hsame]
    exact h.count
  · next hnew =>
    refine h.takeIn _ _ _ ?_ (hidle.resolve_right hnew)
    have htotal := @total_set s event (s.set event ++ [listener])
    rw [List.length_append, List.length_singleton] at htotal
    exact Nat.add_right_cancel (m := (s.set event).length) (htotal.trans (by omega))

theorem Inv.offWhere (h : Inv s) {gone : Listener → Bool}
    (hidle : s.fetching = 0 ∨ ∀ listener ∈ s.set event, gone listener = false) : Inv (s.offWhere event gone) := by
  unfold State.offWhere
  split
  · exact h
  · next listeners hget =>
    have hset : s.set event = listeners := by rw [State.set, hget, Option.getD_some]
    have hsplit : (listeners.filter (!gone ·)).length + (listeners.filter gone).length = listeners.length := by
      rw [Nat.add_comm, ← List.countP_eq_length_filter, ← List.countP_eq_length_filter]
      exact (List.length_eq_countP_add_countP gone).symm ▸ by simp
    refine h.takeOut _ s.anyListeners ?_ (hidle.imp_right fun hnone => ?_)
    · split
      · next hrest =>
        have htotal := @total_delete s event
        rw [hrest, List.length_nil, Nat.zero_add] at hsplit
        rw [hsplit, ← hset]
        exact htotal
      · have htotal := @total_set s event (listeners.filter (!gone ·))
        rw [hset] at htotal
        exact Nat.add_right_cancel (m := (listeners.filter (!gone ·)).length) (by omega)
    · rw [hset] at hnone
      exact List.length_eq_zero_iff.mpr (List.filter_eq_nil_iff.mpr fun l hl => by simp [hnone l hl])

theorem Inv.onAny (h : Inv s) {f : ℕ} (hnew : f ∉ s.anyListeners) (hidle : s.fetching = 0) : Inv (s.onAny f) := by
  rw [State.onAny, if_neg hnew]
  refine h.takeIn s.listeners _ s.nextWrapped ?_ hidle
  rw [total_eq, total_eq, List.length_append, List.length_singleton]
  dsimp only
  omega

theorem Inv.offAny (h : Inv s) {f : ℕ} (hidle : s.fetching = 0 ∨ f ∉ s.anyListeners) : Inv (s.offAny f) := by
  unfold State.offAny
  split
  · next hin =>
    refine h.takeOut s.listeners _ (n := 1) ?_ (.inl (hidle.resolve_right (not_not_intro hin)))
    have hpos := List.length_pos_of_mem hin
    rw [total_eq, total_eq]
    dsimp only
    rw [List.length_erase_of_mem hin]
    omega
  · exact h

theorem Inv.removeAllListeners (h : Inv s) {event : Option Text}
    (hidle : s.fetching = 0 ∨ Idle s (.removeAllListeners event)) : Inv (s.removeAllListeners event) := by
  have hall (hidle : s.fetching = 0 ∨ s.listenerTotal = 0) :
      Inv ({ s with listeners := .empty, anyListeners := [] }.removedTimes s.listenerTotal) := by
    refine h.takeOut _ _ ?_ hidle
    rw [total_eq]
    exact Nat.zero_add _
  cases event with
  | none => exact hall hidle
  | some name =>
    cases name with
    | nil => exact hall hidle
    | cons c name =>
      refine h.takeOut _ s.anyListeners total_delete (hidle.imp_right fun hnone => ?_)
      rw [show s.set (c :: name) = [] from hnone]
      rfl

/-- The first `fetch` returns: now the cursor observes. -/
theorem Inv.fetched (h : Inv s) (hfetching : s.fetching ≠ 0) :
    Inv { s with fetching := s.fetching - 1, removeObserver := true, observers := s.observers + 1 } := by
  have hone : s.fetching = 1 := Nat.le_antisymm h.fetching (Nat.pos_of_ne_zero hfetching)
  have hno : s.removeObserver = false := by simp [h.observing, hone]
  have hcount := h.counted (Nat.pos_of_ne_zero hfetching)
  refine ⟨⟨?_, ?_, ?_, fun _ => hcount⟩, h.count⟩
  · simp [hone]
  · simp [hone, hcount]
  · simp [h.observers, hno]

/-- What an orderly step keeps. -/
theorem Inv.step {a : Action} (h : Inv s) (hok : Orderly s a) (hs : step s a = some s') : Inv s' := by
  cases a with
  | on event f =>
    cases hs
    exact h.on s.nextWrapped hok
  | once event f =>
    cases hs
    exact h.on _ (hok.imp_right False.elim)
  | off event f =>
    cases hs
    exact h.offWhere hok
  | onAny f =>
    cases hs
    exact h.onAny hok.1 hok.2
  | offAny f =>
    cases hs
    exact h.offAny hok
  | removeAllListeners event =>
    cases hs
    exact h.removeAllListeners hok
  | fire event wrapped original =>
    cases hs
    refine h.offWhere (hok.imp_right fun hnot listener hin => decide_eq_false fun heq => hnot ?_)
    rwa [← heq]
  | fetched returned =>
    rw [Listeners.step] at hs
    split at hs
    · cases hs
    · next hfetching =>
      rw [if_pos (show returned = true from hok)] at hs
      cases hs
      exact h.fetched hfetching

theorem Inv.follows (h : Inv s) : Follows s := by
  intro hidle
  refine ⟨h.count, ?_⟩
  rw [h.observers, h.observing, h.count]
  by_cases hpos : 0 < s.listenerTotal
  · simp [hpos, hidle]
  · simp [hpos]

/-- **The observer follows the listeners.** In every orderly run the counter is the number of the
listeners, and the cursor observes its collection if and only if there are any. -/
theorem follows_orderly (hs : machine.Reach Orderly s) : Follows s := by
  have hinit : Inv init := ⟨⟨Nat.zero_le _, rfl, rfl, nofun⟩, rfl⟩
  exact (hs.invariant Inv hinit fun _ _ _ h hok hstep => h.step hok hstep).follows

/-- A listener is registered, and the `fetch` has returned. -/
theorem follows_observing : ∃ s, s.fetching = 0 ∧ s.listenerTotal = 1 ∧ Follows s := by
  have hon : machine.Reach Orderly (init.on (js "a") (.function 0)) := .tail (.on (js "a") 0) .refl (.inl rfl) rfl
  exact ⟨_, rfl, rfl, follows_orderly (hon.tail (.fetched true) rfl rfl)⟩

/-- The same function is given to `onAny` twice. -/
theorem onAny_twice : ¬ FollowsAlong anyStep := by
  intro h
  obtain ⟨s, hs, htwo⟩ := Machine.exists_of_exec machine anyStep init [.onAny 0, .fetched true, .onAny 0]
    (fun s => decide (s.fetching = 0 ∧ s.listenerCount = 2 ∧ s.listenerTotal = 1)) (by decide)
  obtain ⟨hidle, hcount, htotal⟩ := of_decide_eq_true htwo
  have hfollows := (h s hs hidle).1
  omega

end TypeFerry.Minimongo.Listeners
