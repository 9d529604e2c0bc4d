import Mathlib.Data.List.Sort
import TypeFerry.Ejson.Encode
import TypeFerry.Ejson.Equals

/-! # Canonical text

`stableStringify` writes the members of every object in one order. The source
rebuilds each object by assigning its keys in sorted order; what is written is
the order in which the rebuilt object enumerates them, array indices first. -/
namespace TypeFerry.Ejson.Canonical
open TypeFerry.Lib.Numeral TypeFerry.Lib.JsonText
open TypeFerry.Ejson.Clone TypeFerry.Ejson.Convert TypeFerry.Ejson.Equals TypeFerry.Ejson.Encode

/-- The order of `Array.prototype.sort` on strings: by UTF-16 code units. -/
def textLe : Text → Text → Bool
  | [], _ => true
  | _ :: _, [] => false
  | a :: s, b :: t => if a = b then textLe s t else a.toNat ≤ b.toNat

/-- The number of a key that is an array index. -/
def arrayIndex? (k : Text) : Option Nat :=
  let n := natOf (readDigits k).1
  if indexText n = k ∧ n < 2 ^ 32 - 1 then some n else none

/-- The order in which an object enumerates the keys it was given: array indices
by their number, then the rest as they came. -/
def enumerate (ms : List (Text × Value)) : List (Text × Value) :=
  (ms.filter fun m => (arrayIndex? m.1).isSome).insertionSort
      (fun m n => (arrayIndex? m.1).getD 0 ≤ (arrayIndex? n.1).getD 0) ++
    ms.filter fun m => (arrayIndex? m.1).isNone

/-- `Object.keys(value).sort().reduce(...)` on members already sorted inside. -/
def rebuild (ms : List (Text × Value)) : List (Text × Value) :=
  enumerate (((ms.insertionSort fun m n => textLe m.1 n.1).filter
    fun m => !m.2.isUndefined).foldl (fun acc m => assign m.1 m.2 acc) [])

mutual

def sortJsonValue : Value → Value
  | .arr xs => .arr (sortElems xs)
  | .obj ms => .obj (rebuild (sortMembers ms))
  | .date _ | .regexp _ => .obj []
  | .binary bytes => .obj (ownEntries (.binary bytes))
  | v => v

def sortElems : List Value → List Value
  | [] => []
  | x :: xs => sortJsonValue x :: sortElems xs

def sortMembers : List (Text × Value) → List (Text × Value)
  | [] => []
  | (k, v) :: ms => (k, sortJsonValue v) :: sortMembers ms

end

/-- `stableStringify(value)`, where the value is plain JSON. -/
def stableStringify (value : Value) : Option Text := (toJson? (sortJsonValue value)).map stringify

/-- `EJSON.stringify(item, { canonical: true })`. -/
def stringifyCanonical (rt : Runtime) (item : Value) : Option Text :=
  stableStringify (toJSONValue rt item)

/-! ## One order for every object -/

theorem textLe_total : ∀ s t : Text, textLe s t = true ∨ textLe t s = true
  | [], _ => .inl rfl
  | _ :: _, [] => .inr rfl
  | a :: s, b :: t => by
    simp only [textLe]
    by_cases h : a = b
    · rw [if_pos h, if_pos h.symm]
      exact textLe_total s t
    · rw [if_neg h, if_neg (Ne.symm h), decide_eq_true_eq, decide_eq_true_eq]
      exact Nat.le_total _ _

theorem textLe_antisymm : ∀ {s t : Text}, textLe s t = true → textLe t s = true → s = t
  | [], [], _, _ => rfl
  | a :: s, b :: t, h, h' => by
    simp only [textLe] at h h'
    by_cases hab : a = b
    · rw [if_pos hab] at h
      rw [if_pos hab.symm] at h'
      rw [hab, textLe_antisymm h h']
    · rw [if_neg hab, decide_eq_true_eq] at h
      rw [if_neg (Ne.symm hab), decide_eq_true_eq] at h'
      exact absurd (UInt16.toNat_inj.mp (Nat.le_antisymm h h')) hab

theorem textLe_trans : ∀ {s t u : Text}, textLe s t = true → textLe t u = true → textLe s u = true
  | [], _, _, _, _ => rfl
  | a :: s, b :: t, c :: u, h, h' => by
    simp only [textLe] at h h' ⊢
    by_cases hab : a = b
    · subst hab
      rw [if_pos rfl] at h
      by_cases hac : a = c
      · rw [if_pos hac] at h' ⊢
        exact textLe_trans h h'
      · rw [if_neg hac] at h' ⊢
        exact h'
    · rw [if_neg hab, decide_eq_true_eq] at h
      by_cases hbc : b = c
      · subst hbc
        rw [if_neg hab, decide_eq_true_eq]
        exact h
      · rw [if_neg hbc, decide_eq_true_eq] at h'
        by_cases hac : a = c
        · subst hac
          exact absurd (UInt16.toNat_inj.mp (Nat.le_antisymm h h')) hab
        · rw [if_neg hac, decide_eq_true_eq]
          exact Nat.le_trans h h'

/-- Members that an object can be given one after the other. -/
structure Settable (ms : List (Text × Value)) : Prop where
  keys : (ms.map Prod.fst).Nodup
  proto : js "__proto__" ∉ ms.map Prod.fst
  defined : ∀ m ∈ ms, m.2.isUndefined = false

/-- The members in the order in which `Object.keys(value).sort()` lists them. -/
def sortKeys (ms : List (Text × Value)) : List (Text × Value) :=
  ms.insertionSort fun m n => textLe m.1 n.1

theorem sortKeys_perm (ms : List (Text × Value)) : (sortKeys ms).Perm ms :=
  List.perm_insertionSort _ ms

theorem enumerate_perm (ms : List (Text × Value)) : (enumerate ms).Perm ms := by
  have hrest : (ms.filter fun m => (arrayIndex? m.1).isNone) =
      ms.filter fun m => !(arrayIndex? m.1).isSome := by simp
  rw [enumerate, hrest]
  exact ((List.perm_insertionSort _ _).append_right _).trans (List.filter_append_perm _ ms)

theorem Settable.perm {ms ns : List (Text × Value)} (h : Settable ms) (hp : ms.Perm ns) :
    Settable ns where
  keys := (hp.map Prod.fst).nodup_iff.mp h.keys
  proto hin := h.proto ((hp.map Prod.fst).mem_iff.mpr hin)
  defined m hm := h.defined m (hp.mem_iff.mpr hm)

/-- Rebuilding only reorders. -/
theorem rebuild_eq {ms : List (Text × Value)} (h : Settable ms) :
    rebuild ms = enumerate (sortKeys ms) := by
  have hs := h.perm (sortKeys_perm ms).symm
  have hall : (sortKeys ms).filter (fun m => !m.2.isUndefined) = sortKeys ms :=
    List.filter_eq_self.mpr fun m hm => by rw [hs.defined m hm]; rfl
  have hset := foldl_assign id (sortKeys ms) [] (by simpa using hs.keys) hs.proto
  simp only [id_eq, List.nil_append, Prod.mk.eta, List.map_id'] at hset
  rw [rebuild]
  exact congrArg enumerate (by rw [← sortKeys, hall, hset])

theorem rebuild_perm {ms : List (Text × Value)} (h : Settable ms) : (rebuild ms).Perm ms := by
  rw [rebuild_eq h]
  exact (enumerate_perm _).trans (sortKeys_perm ms)

theorem sortKeys_congr {ms ns : List (Text × Value)} (h : (ms.map Prod.fst).Nodup) (hp : ms.Perm ns) :
    sortKeys ms = sortKeys ns := by
  have hsorted : ∀ ms : List (Text × Value),
      (sortKeys ms).Pairwise fun m n => textLe m.1 n.1 = true := by
    intro ms
    have : Std.Total fun m n : Text × Value => textLe m.1 n.1 = true := ⟨fun m n => textLe_total _ _⟩
    have : IsTrans (Text × Value) fun m n => textLe m.1 n.1 = true :=
      ⟨fun _ _ _ h h' => textLe_trans h h'⟩
    exact List.pairwise_insertionSort _ ms
  have hperm : (sortKeys ms).Perm (sortKeys ns) :=
    (sortKeys_perm ms).trans (hp.trans (sortKeys_perm ns).symm)
  refine hperm.eq_of_pairwise ?_ (hsorted ms) (hsorted ns)
  intro m n hm hn hle hge
  -- Two members of one key are the same one.
  have hm' := (sortKeys_perm ms).mem_iff.mp hm
  have hn' := hp.mem_iff.mpr ((sortKeys_perm ns).mem_iff.mp hn)
  exact List.inj_on_of_nodup_map h hm' hn' (textLe_antisymm hle hge)

/-- **The order is canonical.** Two objects are rebuilt alike exactly when they have the
same members. -/
theorem rebuild_inj {ms ns : List (Text × Value)} (hm : Settable ms) (hn : Settable ns) :
    rebuild ms = rebuild ns ↔ ms.Perm ns := by
  constructor
  · intro h
    exact (rebuild_perm hm).symm.trans (h ▸ rebuild_perm hn)
  · intro h
    rw [rebuild_eq hm, rebuild_eq hn, sortKeys_congr hm.keys h]

/-- The values do not matter for the order. -/
theorem rebuild_map {f : Value → Value} (hf : ∀ v, v.isUndefined = false → (f v).isUndefined = false)
    {ms : List (Text × Value)} (h : Settable ms) :
    rebuild (ms.map fun m => (m.1, f m.2)) = (rebuild ms).map fun m => (m.1, f m.2) := by
  have hkeys : (ms.map fun m => (m.1, f m.2)).map Prod.fst = ms.map Prod.fst := by
    rw [List.map_map]
    rfl
  have h' : Settable (ms.map fun m => (m.1, f m.2)) := by
    refine ⟨hkeys ▸ h.keys, hkeys ▸ h.proto, ?_⟩
    intro m hm
    obtain ⟨m', hm', rfl⟩ := List.mem_map.mp hm
    exact hf _ (h.defined m' hm')
  have hsort : sortKeys (ms.map fun m => (m.1, f m.2)) =
      (sortKeys ms).map fun m => (m.1, f m.2) :=
    (List.map_insertionSort _ _ (fun m : Text × Value => (m.1, f m.2)) ms
      fun _ _ _ _ => by rfl).symm
  rw [rebuild_eq h, rebuild_eq h', hsort, enumerate, enumerate, List.map_append, List.filter_map,
    List.filter_map]
  exact congrArg (· ++ _)
    (List.map_insertionSort _ _ (fun m : Text × Value => (m.1, f m.2)) _
      fun _ _ _ _ => by rfl).symm

end TypeFerry.Ejson.Canonical
