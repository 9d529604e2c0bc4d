import Mathlib.Data.List.Sort
import TypeFerry.Lib.OrderedMap

/-! # Edits of ordered maps

Sets and deletes, one after the other. What stands under a key at the end, and since which edit, is read off the
edits alone. -/
namespace TypeFerry.Lib.MapEdits
open TypeFerry.Lib.OrderedMap

variable {κ ν : Type*} [DecidableEq κ]

inductive Edit (κ ν : Type*) where
  | set (k : κ) (v : ν)
  | delete (k : κ)

namespace Edit

def key : Edit κ ν → κ
  | set k _ | delete k => k

/-- What it leaves under its key. -/
def value : Edit κ ν → Option ν
  | set _ v => some v
  | delete _ => none

def apply (m : OMap κ ν) : Edit κ ν → OMap κ ν
  | set k v => m.set k v
  | delete k => m.delete k

end Edit

def applyAll (m : OMap κ ν) (es : List (Edit κ ν)) : OMap κ ν := es.foldl Edit.apply m

/-! ## Values -/

/-- What the last edit of a key leaves there. -/
def last (k : κ) : List (Edit κ ν) → Option (Option ν)
  | [] => none
  | e :: es => (last k es).or (if e.key = k then some e.value else none)

theorem get_apply (m : OMap κ ν) (e : Edit κ ν) (k : κ) :
    (e.apply m).get k = if e.key = k then e.value else m.get k := by
  cases e with
  | set k' v => rw [Edit.apply, OMap.get_set]; simp only [Edit.key, Edit.value, eq_comm]
  | delete k' => rw [Edit.apply, OMap.get_delete]; simp only [Edit.key, Edit.value, eq_comm]

theorem get_applyAll (k : κ) : ∀ (es : List (Edit κ ν)) (m : OMap κ ν),
    (applyAll m es).get k = (last k es).getD (m.get k)
  | [], _ => rfl
  | e :: es, m => by
    rw [applyAll, List.foldl_cons, ← applyAll, get_applyAll k es, get_apply, last]
    cases last k es with
    | none => split <;> rfl
    | some _ => rfl

/-! ## Places -/

/-- Since which edit a key is there without a break, as of the edit numbered `now`. -/
def hold (k : κ) (now : ℕ) (held : Option ℕ) (e : Edit κ ν) : Option ℕ :=
  if e.key = k then e.value.map fun _ => held.getD now else held

def holds (k : κ) : ℕ → Option ℕ → List (Edit κ ν) → Option ℕ
  | _, held, [] => held
  | now, held, e :: es => holds k (now + 1) (hold k now held e) es

/-- Since which edit a key that was there at first is there without a break: 0 if none deletes it. -/
def since (k : κ) (es : List (Edit κ ν)) : Option ℕ := holds k 1 (some 0) es

theorem hold_of_ne {k : κ} {e : Edit κ ν} (h : e.key ≠ k) (now : ℕ) (held : Option ℕ) : hold k now held e = held :=
  if_neg h

def keys (m : OMap κ ν) : List κ := m.entries.map Prod.fst

theorem mem_keys {m : OMap κ ν} {k : κ} : k ∈ keys m ↔ (m.get k).isSome = true := by
  rw [keys, List.mem_map, Option.isSome_iff_exists]
  constructor
  · rintro ⟨⟨k', v⟩, he, rfl⟩
    exact ⟨v, OMap.get_eq_some.mpr he⟩
  · rintro ⟨v, hv⟩
    exact ⟨(k, v), OMap.get_eq_some.mp hv, rfl⟩

theorem keys_set (m : OMap κ ν) (k : κ) (v : ν) : keys (m.set k v) = if k ∈ keys m then keys m else keys m ++ [k] := by
  have hput : ∀ es : List (κ × ν),
      (put k v es).map Prod.fst = if k ∈ es.map Prod.fst then es.map Prod.fst else es.map Prod.fst ++ [k] := by
    intro es
    induction es with
    | nil => rfl
    | cons e es ih =>
      rw [put]
      by_cases hk : e.1 = k
      · simp [hk]
      · rw [if_neg hk, List.map_cons, ih, List.map_cons]
        by_cases hmem : k ∈ es.map Prod.fst
        · rw [if_pos hmem, if_pos (List.mem_cons_of_mem _ hmem)]
        · rw [if_neg hmem, if_neg (by simp [hmem, Ne.symm hk]), List.cons_append]
  exact hput m.entries

theorem keys_delete (m : OMap κ ν) (k : κ) : keys (m.delete k) = (keys m).filter fun k' => k' ≠ k := by
  rw [keys, keys, OMap.delete, List.filter_map]
  rfl

/-- A key is in front of another if it is there for longer, or if both were there at first and it was in front
of the other then. -/
def Before (held : κ → Option ℕ) (place : κ → ℕ) (k k' : κ) : Prop :=
  ∃ i i', held k = some i ∧ held k' = some i' ∧ (i < i' ∨ i = i' ∧ place k < place k')

/-- The keys of a map stand by the times since which they are there. -/
structure Tracks (now : ℕ) (held : κ → Option ℕ) (place : κ → ℕ) (m : OMap κ ν) : Prop where
  present k : k ∈ keys m ↔ (held k).isSome = true
  past {k i} : held k = some i → i < now
  sorted : (keys m).Pairwise (Before held place)

omit [DecidableEq κ] in
theorem Before.congr {held held' : κ → Option ℕ} {place : κ → ℕ} {k k' : κ} (h : Before held place k k')
    (hk : held' k = held k) (hk' : held' k' = held k') : Before held' place k k' := by
  rw [Before, hk, hk']
  exact h

theorem Tracks.apply {now : ℕ} {held : κ → Option ℕ} {place : κ → ℕ} {m : OMap κ ν}
    (h : Tracks now held place m) (e : Edit κ ν) :
    Tracks (now + 1) (fun k => hold k now (held k) e) place (e.apply m) := by
  have hpast : ∀ {k i}, hold k now (held k) e = some i → i < now + 1 := by
    intro k i hi
    rw [hold] at hi
    split at hi
    · obtain ⟨-, -, rfl⟩ := Option.map_eq_some_iff.mp hi
      cases hheld : held k with
      | none => exact Nat.lt_succ_self now
      | some j => exact Nat.lt_succ_of_lt (h.past hheld)
    · exact Nat.lt_succ_of_lt (h.past hi)
  refine ⟨fun k => ?_, hpast, ?_⟩
  · rw [mem_keys, get_apply]
    by_cases hk : e.key = k
    · rw [if_pos hk, hold, if_pos hk, Option.isSome_map]
    · rw [if_neg hk, hold_of_ne hk, ← mem_keys]
      exact h.present k
  · cases e with
    | delete k' =>
      rw [Edit.apply, keys_delete]
      have hne : ∀ k ∈ (keys m).filter fun k => k ≠ k', (Edit.delete k' : Edit κ ν).key ≠ k := by
        intro k hk heq
        exact of_decide_eq_true (List.mem_filter.mp hk).2 heq.symm
      exact (h.sorted.filter _).imp_of_mem fun hk₁ hk₂ hbefore =>
        hbefore.congr (hold_of_ne (hne _ hk₁) ..) (hold_of_ne (hne _ hk₂) ..)
    | set k' v =>
      rw [Edit.apply, keys_set]
      by_cases hmem : k' ∈ keys m
      · -- A key that is there stays where it is.
        rw [if_pos hmem]
        have hsame : ∀ k, hold k now (held k) (.set k' v) = held k := by
          intro k
          by_cases hk : (Edit.set k' v).key = k
          · obtain ⟨i, hi⟩ := Option.isSome_iff_exists.mp ((h.present k').mp hmem)
            rw [show k' = k from hk] at hi
            rw [hold, if_pos hk, hi]
            rfl
          · exact hold_of_ne hk ..
        exact h.sorted.imp fun hbefore => hbefore.congr (hsame _) (hsame _)
      · rw [if_neg hmem]
        have hne : ∀ k ∈ keys m, (Edit.set k' v).key ≠ k := by
          rintro k hk rfl
          exact hmem hk
        have hnone : held k' = none := by
          rw [← Option.not_isSome_iff_eq_none, ← h.present k']
          exact hmem
        refine List.pairwise_append.mpr ⟨h.sorted.imp_of_mem fun hk₁ hk₂ hbefore =>
          hbefore.congr (hold_of_ne (hne _ hk₁) ..) (hold_of_ne (hne _ hk₂) ..), List.pairwise_singleton .., ?_⟩
        intro k hk k₂ hk₂
        rw [List.mem_singleton.mp hk₂]
        obtain ⟨i, hi⟩ := Option.isSome_iff_exists.mp ((h.present k).mp hk)
        refine ⟨i, now, ?_, ?_, .inl (h.past hi)⟩
        · exact (hold_of_ne (hne k hk) ..).trans hi
        · simp [hold, hnone, Edit.key, Edit.value]

theorem Tracks.applyAll {place : κ → ℕ} : ∀ (es : List (Edit κ ν)) {now : ℕ} {held : κ → Option ℕ} {m : OMap κ ν},
    Tracks now held place m → ∃ now', Tracks now' (fun k => holds k now (held k) es) place (applyAll m es)
  | [], now, _, _, h => ⟨now, h⟩
  | e :: es, _, _, _, h => Tracks.applyAll es (h.apply e)

/-! ## Edits that cancel out -/

theorem entries_eq (m : OMap κ ν) : m.entries = (keys m).filterMap fun k => (m.get k).map fun v => (k, v) := by
  have hself : ∀ e ∈ m.entries, (m.get e.1).map (fun v => (e.1, v)) = some e := fun e he => by
    rw [OMap.get_eq_some.mpr he, Option.map_some]
  rw [keys, List.filterMap_map]
  exact (List.filterMap_some (l := m.entries)).symm.trans (List.filterMap_congr fun e he => (hself e he).symm)

/-- A map is known by its keys, in their order, and its values. -/
theorem eq_of_keys {m m' : OMap κ ν} (hkeys : keys m = keys m') (hget : ∀ k, m.get k = m'.get k) : m = m' := by
  refine OMap.ext ?_
  rw [entries_eq m, entries_eq m', hkeys, funext hget]

/-- The keys that were there are there for ever shorter, from the first to the last. -/
def InOrder (m : OMap κ ν) (es : List (Edit κ ν)) : Prop :=
  (keys m).Pairwise fun k k' => ∀ i ∈ since k es, ∀ i' ∈ since k' es, i ≤ i'

/-- **Edits leave a map as it was** exactly if the last of each key leaves what was there, and those that put keys
back do so in the order of the keys, behind all that were never away. -/
theorem applyAll_eq_self_iff (m : OMap κ ν) (es : List (Edit κ ν)) :
    applyAll m es = m ↔ (∀ k v, last k es = some v → v = m.get k) ∧ InOrder m es := by
  let place := fun k => (keys m).idxOf k
  let held := fun k => if k ∈ keys m then some 0 else none
  have hplace : (keys m).Pairwise fun k k' => place k < place k' := by
    refine List.pairwise_iff_getElem.mpr fun i j hi hj hij => ?_
    have hi' : place (keys m)[i] = i := m.nodup.idxOf_getElem i hi
    have hj' : place (keys m)[j] = j := m.nodup.idxOf_getElem j hj
    omega
  have hstart : Tracks 1 held place m := by
    refine ⟨fun k => ?_, fun {k i} hi => ?_, hplace.imp_of_mem fun hk hk' hlt => ?_⟩
    · by_cases hk : k ∈ keys m <;> simp [held, hk]
    · by_cases hk : k ∈ keys m <;> simp [held, hk] at hi
      omega
    · exact ⟨0, 0, if_pos hk, if_pos hk', .inr ⟨rfl, hlt⟩⟩
  obtain ⟨_, hend⟩ := hstart.applyAll es
  have hsince : ∀ k ∈ keys m, holds k 1 (held k) es = since k es := fun k hk => by rw [since, show held k = _ from if_pos hk]
  constructor
  · intro hself
    refine ⟨fun k v hlast => ?_, ?_⟩
    · have hget := get_applyAll k es m
      rw [hself, hlast] at hget
      exact hget.symm
    · have hsorted := hend.sorted
      rw [hself] at hsorted
      refine hsorted.imp_of_mem fun {k k'} hk hk' ⟨i, i', hi, hi', hle⟩ j hj j' hj' => ?_
      obtain rfl := Option.some.inj (hi.symm.trans ((hsince k hk).trans hj))
      obtain rfl := Option.some.inj (hi'.symm.trans ((hsince k' hk').trans hj'))
      omega
  · rintro ⟨hvalues, horder⟩
    have hget : ∀ k, (applyAll m es).get k = m.get k := by
      intro k
      rw [get_applyAll]
      cases hlast : last k es with
      | none => rfl
      | some v => exact hvalues k v hlast
    have hmem : ∀ k, k ∈ keys (applyAll m es) ↔ k ∈ keys m := fun k => by rw [mem_keys, mem_keys, hget]
    refine eq_of_keys (List.Perm.eq_of_pairwise ?_ hend.sorted ?_ ?_) hget
    · -- No two keys are in front of each other.
      rintro k k' - - ⟨i, i', hi, hi', hlt⟩ ⟨j', j, hj', hj, hlt'⟩
      obtain rfl := Option.some.inj (hi.symm.trans hj)
      obtain rfl := Option.some.inj (hi'.symm.trans hj')
      omega
    · refine (horder.and hplace).imp_of_mem fun {k k'} hk hk' ⟨hle, hlt⟩ => ?_
      obtain ⟨i, hi⟩ := Option.isSome_iff_exists.mp ((hend.present k).mp ((hmem k).mpr hk))
      obtain ⟨i', hi'⟩ := Option.isSome_iff_exists.mp ((hend.present k').mp ((hmem k').mpr hk'))
      refine ⟨i, i', hi, hi', ?_⟩
      have := hle i ((hsince k hk).symm.trans hi) i' ((hsince k' hk').symm.trans hi')
      omega
    · exact (List.perm_ext_iff_of_nodup (applyAll m es).nodup m.nodup).mpr hmem

end TypeFerry.Lib.MapEdits
