import TypeFerry.Live.Types

/-! # Splices of ordered windows

`createMongoLiveWindowSplice` and `applyMongoLiveWindowSplice` of `window.ts`.
Documents are values here. The documents a splice inserts are the very objects
of the new window, so the closing comparison finds them equal by `===`; two
documents are taken as the same (`Same`) if they are one value or equal under
`EJSON.equals`. -/
namespace TypeFerry.Live.Window
open TypeFerry.Lib.Numeral TypeFerry.Ejson.Clone TypeFerry.Live.Types

/-- The integer of a number that `Number.isSafeInteger` accepts. -/
def safeInteger? : Number → Option Int
  | .finite d =>
    let n := d.sig * 10 ^ d.exp.toNat
    if 0 ≤ d.exp ∧ n ≤ 2 ^ 53 - 1 then some (if d.neg then -n else n) else none
  | _ => none

/-- A count as a number. -/
def count (n : Nat) : Number := .finite (ofInt n)

/-- `applyMongoLiveWindowSplice`. -/
def applySplice (previous : List ClientDocument) (operation : WindowSplice) :
    Option (List ClientDocument) :=
  match safeInteger? operation.index, safeInteger? operation.deleteCount with
  | some index, some deleteCount =>
    if index < 0 ∨ deleteCount < 0 ∨ index > previous.length ∨
        index + deleteCount > previous.length then none
    else
      let current := previous.take index.toNat ++ operation.documents ++
        previous.drop (index + deleteCount).toNat
      if (current.map ClientDocument.key).Nodup then some current else none
  | _, _ => none

/-- The number of leading documents that are equal. -/
def commonLength : List ClientDocument → List ClientDocument → Nat
  | a :: as, b :: bs => if a.equals b then commonLength as bs + 1 else 0
  | _, _ => 0

/-- One object, or equal objects. -/
def Same (a b : ClientDocument) : Prop := a = b ∨ a.equals b = true

instance (a b : ClientDocument) : Decidable (Same a b) :=
  inferInstanceAs (Decidable (a = b ∨ a.equals b = true))

/-- `EJSON.equals` on two arrays of documents, some of them shared. -/
def sameDocuments : List ClientDocument → List ClientDocument → Bool
  | [], [] => true
  | a :: as, b :: bs => decide (Same a b) && sameDocuments as bs
  | _, _ => false

def spliceFailed : Text := js "MongoDB live ordered window splice invariant failed."

/-- The operation between two windows with `head` equal leading documents. -/
def spliceAt (head : Nat) (previous current : List ClientDocument) : WindowSplice :=
  let suffix := commonLength (previous.drop head).reverse (current.drop head).reverse
  ⟨count head, count (previous.length - head - suffix),
    (current.drop head).take (current.length - suffix - head)⟩

/-- `createMongoLiveWindowSplice`; no splice where the windows are equal. -/
def createSplice (previous current : List ClientDocument) : Except Text (Option WindowSplice) :=
  let head := commonLength previous current
  if head = previous.length ∧ head = current.length then .ok none
  else match applySplice previous (spliceAt head previous current) with
    | some applied =>
      if sameDocuments applied current then .ok (some (spliceAt head previous current))
      else .error spliceFailed
    | none => .error spliceFailed

/-! ## The same window -/

theorem Same.key {a b : ClientDocument} (h : Same a b) : a.key = b.key := by
  rcases h with rfl | h
  · rfl
  · exact ClientDocument.key_of_equals h

/-- Windows with the same documents, place by place. -/
abbrev SameWindow : List ClientDocument → List ClientDocument → Prop := List.Forall₂ Same

theorem SameWindow.refl (ds : List ClientDocument) : SameWindow ds ds :=
  List.forall₂_same.mpr fun _ _ => .inl rfl

theorem SameWindow.keys {as bs : List ClientDocument} (h : SameWindow as bs) :
    as.map ClientDocument.key = bs.map ClientDocument.key := by
  induction h with
  | nil => rfl
  | cons h _ ih => rw [List.map_cons, List.map_cons, h.key, ih]

theorem sameDocuments_iff : ∀ {as bs : List ClientDocument},
    sameDocuments as bs = true ↔ SameWindow as bs
  | [], [] => by simp [sameDocuments]
  | [], b :: bs => by simp [sameDocuments]
  | a :: as, [] => by simp [sameDocuments]
  | a :: as, b :: bs => by simp [sameDocuments, sameDocuments_iff]

theorem commonLength_le : ∀ as bs : List ClientDocument,
    commonLength as bs ≤ as.length ∧ commonLength as bs ≤ bs.length
  | [], bs => by simp [commonLength]
  | a :: as, [] => by simp [commonLength]
  | a :: as, b :: bs => by
    have hrest := commonLength_le as bs
    rw [commonLength, List.length_cons, List.length_cons]
    split <;> omega

/-- The leading documents are equal. -/
theorem take_commonLength : ∀ as bs : List ClientDocument,
    List.Forall₂ (fun a b => a.equals b = true) (as.take (commonLength as bs)) (bs.take (commonLength as bs))
  | [], bs => by simp [commonLength]
  | a :: as, [] => by simp [commonLength]
  | a :: as, b :: bs => by
    rw [commonLength]
    split
    · next heq => exact .cons heq (take_commonLength as bs)
    · exact .nil

theorem commonLength_eq_iff {as bs : List ClientDocument} :
    (commonLength as bs = as.length ∧ commonLength as bs = bs.length) ↔
      List.Forall₂ (fun a b => a.equals b = true) as bs := by
  constructor
  · rintro ⟨has, hbs⟩
    have htake := take_commonLength as bs
    rwa [List.take_of_length_le has.ge, List.take_of_length_le hbs.ge] at htake
  · intro h
    induction h with
    | nil => exact ⟨rfl, rfl⟩
    | cons heq _ ih =>
      rw [commonLength, if_pos heq]
      exact ⟨congrArg (· + 1) ih.1, congrArg (· + 1) ih.2⟩

theorem sameWindow_of_commonLength {as bs : List ClientDocument}
    (has : commonLength as bs = as.length) (hbs : commonLength as bs = bs.length) : SameWindow as bs :=
  (commonLength_eq_iff.mp ⟨has, hbs⟩).imp fun _ _ => .inr

/-- Where a splice applies, and what it leaves. -/
theorem applySplice_eq_some {as rs : List ClientDocument} {op : WindowSplice} :
    applySplice as op = some rs ↔ ∃ index deleteCount : ℕ, safeInteger? op.index = some ↑index ∧
      safeInteger? op.deleteCount = some ↑deleteCount ∧ index + deleteCount ≤ as.length ∧
      rs = as.take index ++ op.documents ++ as.drop (index + deleteCount) ∧ (rs.map ClientDocument.key).Nodup := by
  rw [applySplice]
  constructor
  · intro h
    split at h
    · next index deleteCount hindex hcount =>
      split at h
      · cases h
      · next hrange =>
        dsimp only at h
        split at h
        · next hnodup =>
          cases h
          refine ⟨index.toNat, deleteCount.toNat, ?_, ?_, by omega, ?_, hnodup⟩
          · rw [hindex, Int.toNat_of_nonneg (by omega)]
          · rw [hcount, Int.toNat_of_nonneg (by omega)]
          · rw [Int.toNat_add (by omega) (by omega)]
        · cases h
    · cases h
  · rintro ⟨index, deleteCount, hindex, hcount, hle, rfl, hnodup⟩
    rw [hindex, hcount]
    dsimp only
    rw [if_neg (by omega)]
    have hsum : ((index : ℤ) + deleteCount).toNat = index + deleteCount := by omega
    rw [Int.toNat_natCast, hsum, if_pos hnodup]

/-- A splice that applies to a window applies to every window with the same
documents, and leaves the same documents. -/
theorem applySplice_congr {as bs rs : List ClientDocument} {op : WindowSplice}
    (h : SameWindow as bs) (hb : applySplice bs op = some rs) :
    ∃ qs, applySplice as op = some qs ∧ SameWindow qs rs := by
  obtain ⟨i, d, hi, hd, hle, rfl, hnodup⟩ := applySplice_eq_some.mp hb
  have hsame : SameWindow (as.take i ++ op.documents ++ as.drop (i + d))
      (bs.take i ++ op.documents ++ bs.drop (i + d)) :=
    List.rel_append (List.rel_append (List.forall₂_take _ h) (SameWindow.refl _)) (List.forall₂_drop _ h)
  refine ⟨_, applySplice_eq_some.mpr ⟨i, d, hi, hd, ?_, rfl, ?_⟩, hsame⟩
  · rwa [h.length_eq]
  · rwa [hsame.keys]

/-- A splice leaves old documents and its own. -/
theorem mem_of_applySplice {as rs : List ClientDocument} {op : WindowSplice} {d : ClientDocument}
    (h : applySplice as op = some rs) (hd : d ∈ rs) : d ∈ as ∨ d ∈ op.documents := by
  obtain ⟨_, _, -, -, -, rfl, -⟩ := applySplice_eq_some.mp h
  rcases List.mem_append.mp hd with hd | hd
  · exact (List.mem_append.mp hd).imp_left List.mem_of_mem_take
  · exact .inl (List.mem_of_mem_drop hd)

/-! ## Where documents come from -/

/-- What stands at a place behind a splice: a document of the splice, or what stood at a place in front of it. -/
def source (operation : WindowSplice) (place : ℕ) : ℕ ⊕ ClientDocument :=
  let index := ((safeInteger? operation.index).getD 0).toNat
  let deleteCount := ((safeInteger? operation.deleteCount).getD 0).toNat
  if place < index then .inl place
  else match operation.documents[place - index]? with
    | some d => .inr d
    | none => .inl (place - operation.documents.length + deleteCount)

/-- What stands at a place behind splices: a document of theirs, or what stood at a place at first. -/
def sourceOf : List WindowSplice → ℕ → ℕ ⊕ ClientDocument
  | [], place => .inl place
  | splice :: splices, place => match sourceOf splices place with
    | .inl place => source splice place
    | .inr d => .inr d

/-- The document at a place behind splices. -/
def documentAt (previous : List ClientDocument) (splices : List WindowSplice) (place : ℕ) : Option ClientDocument :=
  (sourceOf splices place).elim (previous[·]?) some

/-- How many documents there are behind splices. -/
def lengthBehind : List WindowSplice → ℕ → ℕ
  | [], length => length
  | splice :: splices, length => lengthBehind splices
      (length - ((safeInteger? splice.deleteCount).getD 0).toNat + splice.documents.length)

/-- A splice fits behind others: it lies within the window, and no identity stands at two places behind it. -/
structure Fits (previous : List ClientDocument) (splices : List WindowSplice) (operation : WindowSplice) : Prop where
  place : ∃ index deleteCount : ℕ, safeInteger? operation.index = some ↑index ∧
    safeInteger? operation.deleteCount = some ↑deleteCount ∧ index + deleteCount ≤ lengthBehind splices previous.length
  distinct : ∀ i j, i < j → j < lengthBehind (splices ++ [operation]) previous.length →
    (documentAt previous (splices ++ [operation]) i).map ClientDocument.key ≠
      (documentAt previous (splices ++ [operation]) j).map ClientDocument.key

/-- Each splice fits behind those in front of it. -/
def FitInTurn (previous : List ClientDocument) (splices : List WindowSplice) : Prop :=
  ∀ earlier operation, earlier ++ [operation] <+: splices → Fits previous earlier operation

/-- The window behind splices, by its places. -/
structure Behind (previous : List ClientDocument) (splices : List WindowSplice) (window : List ClientDocument) : Prop where
  length : window.length = lengthBehind splices previous.length
  document : ∀ place, window[place]? = documentAt previous splices place

theorem sourceOf_concat (operation : WindowSplice) (place : ℕ) : ∀ splices : List WindowSplice,
    sourceOf (splices ++ [operation]) place = (source operation place).elim (sourceOf splices) .inr
  | [] => by
    show source operation place = (source operation place).elim .inl .inr
    cases source operation place <;> rfl
  | splice :: splices => by
    rw [List.cons_append, sourceOf, sourceOf_concat operation place splices]
    cases source operation place <;> rfl

theorem lengthBehind_concat (operation : WindowSplice) : ∀ (splices : List WindowSplice) (length : ℕ),
    lengthBehind (splices ++ [operation]) length =
      lengthBehind splices length - ((safeInteger? operation.deleteCount).getD 0).toNat + operation.documents.length
  | [], _ => rfl
  | _ :: splices, _ => lengthBehind_concat operation splices _

theorem behind_nil (previous : List ClientDocument) : Behind previous [] previous := ⟨rfl, fun _ => rfl⟩

/-- What a splice within the window makes of it. -/
theorem Behind.splice {previous window : List ClientDocument} {splices : List WindowSplice}
    (h : Behind previous splices window) {operation : WindowSplice} {index deleteCount : ℕ}
    (hindex : safeInteger? operation.index = some ↑index) (hcount : safeInteger? operation.deleteCount = some ↑deleteCount)
    (hle : index + deleteCount ≤ window.length) : Behind previous (splices ++ [operation])
      (window.take index ++ operation.documents ++ window.drop (index + deleteCount)) := by
  have htake : (window.take index).length = index := List.length_take_of_le (by omega)
  refine ⟨?_, fun place => ?_⟩
  · rw [lengthBehind_concat, ← h.length, hcount, Option.getD_some, Int.toNat_natCast, List.length_append,
      List.length_append, htake, List.length_drop]
    omega
  · rw [documentAt, sourceOf_concat, source, hindex, hcount, Option.getD_some, Option.getD_some, Int.toNat_natCast,
      Int.toNat_natCast, List.append_assoc, List.getElem?_append, htake]
    split
    · next hlt => exact (List.getElem?_take_of_lt hlt).trans (h.document place)
    · rw [List.getElem?_append]
      split
      · next hlt => rw [List.getElem?_eq_getElem hlt]; rfl
      · next hge =>
        rw [List.getElem?_eq_none (Nat.le_of_not_lt hge), List.getElem?_drop]
        exact (congrArg (window[·]?) (by omega)).trans (h.document _)

theorem Behind.applySplice {previous window rs : List ClientDocument} {splices : List WindowSplice}
    (h : Behind previous splices window) {operation : WindowSplice} (happlies : applySplice window operation = some rs) :
    Behind previous (splices ++ [operation]) rs := by
  obtain ⟨index, deleteCount, hindex, hcount, hle, rfl, -⟩ := applySplice_eq_some.mp happlies
  exact h.splice hindex hcount hle

/-- **A splice applies where it fits.** -/
theorem Behind.fits_iff {previous window : List ClientDocument} {splices : List WindowSplice}
    (h : Behind previous splices window) {operation : WindowSplice} :
    Fits previous splices operation ↔ ∃ rs, Window.applySplice window operation = some rs := by
  have hkeys : ∀ {rs}, Behind previous (splices ++ [operation]) rs → ((rs.map ClientDocument.key).Nodup ↔
      ∀ i j, i < j → j < lengthBehind (splices ++ [operation]) previous.length →
        (documentAt previous (splices ++ [operation]) i).map ClientDocument.key ≠
          (documentAt previous (splices ++ [operation]) j).map ClientDocument.key) := by
    intro rs hrs
    rw [List.nodup_iff_getElem?_ne_getElem?, List.length_map, hrs.length]
    simp only [List.getElem?_map, hrs.document]
  constructor
  · rintro ⟨⟨index, deleteCount, hindex, hcount, hle⟩, hdistinct⟩
    rw [← h.length] at hle
    have hnodup := (hkeys (h.splice hindex hcount hle)).mpr hdistinct
    exact ⟨_, applySplice_eq_some.mpr ⟨index, deleteCount, hindex, hcount, hle, rfl, hnodup⟩⟩
  · rintro ⟨rs, happlies⟩
    obtain ⟨index, deleteCount, hindex, hcount, hle, -, hnodup⟩ := applySplice_eq_some.mp happlies
    exact ⟨⟨index, deleteCount, hindex, hcount, h.length ▸ hle⟩, (hkeys (h.applySplice happlies)).mp hnodup⟩

theorem behind_of_foldlM {previous : List ClientDocument} {splices : List WindowSplice} : ∀ {window : List ClientDocument},
    splices.foldlM applySplice previous = some window → Behind previous splices window := by
  induction splices using List.reverseRecOn with
  | nil =>
    intro window h
    cases h
    exact behind_nil previous
  | append_singleton splices operation ih =>
    intro window h
    rw [List.foldlM_append] at h
    obtain ⟨before, hbefore, h⟩ := Option.bind_eq_some_iff.mp h
    rw [List.foldlM_cons] at h
    obtain ⟨_, happlies, h⟩ := Option.bind_eq_some_iff.mp h
    cases h
    exact (ih hbefore).applySplice happlies

theorem fitInTurn_concat {previous : List ClientDocument} {splices : List WindowSplice} {operation : WindowSplice} :
    FitInTurn previous (splices ++ [operation]) ↔ FitInTurn previous splices ∧ Fits previous splices operation := by
  constructor
  · intro h
    refine ⟨fun earlier splice hfront => ?_, h splices operation (List.prefix_refl _)⟩
    exact h earlier splice (hfront.trans (List.prefix_append _ _))
  · rintro ⟨h, hlast⟩ earlier splice hfront
    rcases List.prefix_concat_iff.mp hfront with hsame | hfront
    · obtain ⟨rfl, hsplice⟩ := List.append_inj' hsame rfl
      rw [List.singleton_inj.mp hsplice]
      exact hlast
    · exact h earlier splice hfront

/-- **Splices apply, one after the other, where they fit in turn.** -/
theorem fitInTurn_iff {previous : List ClientDocument} {splices : List WindowSplice} :
    FitInTurn previous splices ↔ ∃ window, splices.foldlM applySplice previous = some window := by
  induction splices using List.reverseRecOn with
  | nil =>
    refine ⟨fun _ => ⟨previous, rfl⟩, fun _ earlier splice hfront => ?_⟩
    exact absurd (List.prefix_nil.mp hfront) (List.append_ne_nil_of_right_ne_nil _ (List.cons_ne_nil _ _))
  | append_singleton splices operation ih =>
    rw [fitInTurn_concat, ih, List.foldlM_append]
    constructor
    · rintro ⟨⟨window, hwindow⟩, hfits⟩
      obtain ⟨rs, hrs⟩ := (behind_of_foldlM hwindow).fits_iff.mp hfits
      refine ⟨rs, ?_⟩
      rw [hwindow, Option.bind_eq_bind, Option.bind_some, List.foldlM_cons, hrs]
      rfl
    · rintro ⟨rs, h⟩
      obtain ⟨window, hwindow, h⟩ := Option.bind_eq_some_iff.mp h
      rw [List.foldlM_cons] at h
      obtain ⟨_, happlies, -⟩ := Option.bind_eq_some_iff.mp h
      exact ⟨⟨window, hwindow⟩, (behind_of_foldlM hwindow).fits_iff.mpr ⟨_, happlies⟩⟩

/-- **Where no splice is made, the windows are the same.** -/
theorem createSplice_none {previous current : List ClientDocument}
    (h : createSplice previous current = .ok none) : SameWindow previous current := by
  simp only [createSplice] at h
  split at h
  · next heq => exact sameWindow_of_commonLength heq.1 heq.2
  · split at h
    · split at h <;> cases h
    · cases h

/-- **A splice leads from the one window to the other**, with documents of the latter. -/
theorem createSplice_some {previous current : List ClientDocument} {op : WindowSplice}
    (h : createSplice previous current = .ok (some op)) :
    (∃ applied, applySplice previous op = some applied ∧ SameWindow applied current) ∧
      ∀ d ∈ op.documents, d ∈ current := by
  simp only [createSplice] at h
  split at h
  · cases h
  · split at h
    · next applied happ =>
      split at h
      · next hsame =>
        cases h
        exact ⟨⟨applied, happ, sameDocuments_iff.mp hsame⟩, fun d hd =>
          List.mem_of_mem_drop (List.mem_of_mem_take hd)⟩
      · cases h
    · cases h

/-! ## The splice between two windows -/

theorem safeInteger?_count {n : ℕ} (h : n ≤ 2 ^ 53 - 1) : safeInteger? (count n) = some (n : ℤ) := by
  obtain ⟨hexp, hvalue, hneg⟩ := ofInt_spec (n : ℤ)
  rw [Int.natAbs_natCast] at hvalue
  rw [count, safeInteger?, hvalue, if_pos ⟨hexp, h⟩, hneg, if_neg (by simp)]

theorem suffix_commonLength (as bs : List ClientDocument) :
    List.Forall₂ (fun a b => a.equals b = true) (as.drop (as.length - commonLength as.reverse bs.reverse))
      (bs.drop (bs.length - commonLength as.reverse bs.reverse)) := by
  have htake := take_commonLength as.reverse bs.reverse
  rw [List.take_reverse, List.take_reverse] at htake
  exact List.forall₂_reverse_iff.mp htake

/-- The splice leaves the documents at both ends, and puts those of the new window between them. -/
theorem applySplice_spliceAt {previous current : List ClientDocument} (hlength : previous.length < 2 ^ 32)
    (hkeys : (current.map ClientDocument.key).Nodup) :
    ∃ index deleteCount applied, spliceAt (commonLength previous current) previous current =
        ⟨count index, count deleteCount, (spliceAt (commonLength previous current) previous current).documents⟩ ∧
      index + deleteCount ≤ previous.length ∧
      applySplice previous (spliceAt (commonLength previous current) previous current) = some applied ∧
      SameWindow applied current := by
  have hhead := commonLength_le previous current
  have hfront := take_commonLength previous current
  generalize commonLength previous current = head at *
  have hsuffix := suffix_commonLength (previous.drop head) (current.drop head)
  have htail := commonLength_le (previous.drop head).reverse (current.drop head).reverse
  have hdocuments : (spliceAt head previous current).documents = (current.drop head).take
      (current.length - commonLength (previous.drop head).reverse (current.drop head).reverse - head) := rfl
  have hindex : (spliceAt head previous current).index = count head := rfl
  have hcount : (spliceAt head previous current).deleteCount =
      count (previous.length - head - commonLength (previous.drop head).reverse (current.drop head).reverse) := rfl
  generalize commonLength (previous.drop head).reverse (current.drop head).reverse = tail at *
  simp only [List.length_reverse, List.length_drop, List.drop_drop] at hsuffix htail
  have hsame : SameWindow (previous.take head ++ (spliceAt head previous current).documents ++
      previous.drop (head + (previous.length - head - tail))) current := by
    have hcurrent : current.take head ++ (current.drop head).take (current.length - tail - head) ++
        current.drop (head + (current.length - head - tail)) = current := by
      rw [show current.length - tail - head = current.length - head - tail by omega, ← List.drop_drop,
        List.append_assoc, List.take_append_drop, List.take_append_drop]
    have hrel : SameWindow _ (current.take head ++ (current.drop head).take (current.length - tail - head) ++
        current.drop (head + (current.length - head - tail))) :=
      List.rel_append (List.rel_append (hfront.imp fun _ _ => Or.inr) (SameWindow.refl _))
        (hsuffix.imp fun _ _ => Or.inr)
    rw [hdocuments]
    rwa [hcurrent] at hrel
  refine ⟨head, previous.length - head - tail, _, ?_, by omega, ?_, hsame⟩
  · rw [← hindex, ← hcount]
  · rw [applySplice, hindex, hcount, safeInteger?_count (by omega), safeInteger?_count (by omega)]
    dsimp only
    rw [if_neg (by omega), ← Nat.cast_add, Int.toNat_natCast, Int.toNat_natCast, if_pos]
    rw [hsame.keys]
    exact hkeys

/-- **The splice between two windows**: none exactly if they are equal place by place, and else one within the
bounds of the first window that leads to the second. It never fails. -/
theorem createSplice_correct {previous current : List ClientDocument} (hlength : previous.length < 2 ^ 32)
    (hkeys : (current.map ClientDocument.key).Nodup) :
    (∃ operation, createSplice previous current = .ok operation) ∧
      (createSplice previous current = .ok none ↔
        List.Forall₂ (fun a b => a.equals b = true) previous current) ∧
      ∀ operation, createSplice previous current = .ok (some operation) →
        ∃ index deleteCount : ℕ, operation.index = count index ∧ operation.deleteCount = count deleteCount ∧
          index + deleteCount ≤ previous.length ∧
          ∃ applied, applySplice previous operation = some applied ∧ SameWindow applied current := by
  obtain ⟨index, deleteCount, applied, hsplice, hbound, happlied, hsame⟩ := applySplice_spliceAt hlength hkeys
  by_cases hequal : commonLength previous current = previous.length ∧ commonLength previous current = current.length
  · have hnone : createSplice previous current = .ok none := if_pos hequal
    refine ⟨⟨none, hnone⟩, iff_of_true hnone (commonLength_eq_iff.mp hequal), fun operation hsome => ?_⟩
    rw [hnone] at hsome
    cases hsome
  · have hsome : createSplice previous current =
        .ok (some (spliceAt (commonLength previous current) previous current)) := by
      rw [createSplice, if_neg hequal, happlied]
      exact if_pos (sameDocuments_iff.mpr hsame)
    rw [hsome]
    refine ⟨⟨_, rfl⟩, iff_of_false (by simp) fun h => hequal (commonLength_eq_iff.mpr h), fun operation hop => ?_⟩
    cases hop
    exact ⟨index, deleteCount, congrArg WindowSplice.index hsplice, congrArg WindowSplice.deleteCount hsplice, hbound,
      applied, happlied, hsame⟩

/-- A document is inserted, one is moved and one is gone. -/
theorem createSplice_correct_moved :
    ∃ operation, createSplice [⟨.str (js "a"), []⟩, ⟨.str (js "b"), []⟩, ⟨.str (js "c"), []⟩]
      [⟨.str (js "c"), []⟩, ⟨.str (js "x"), []⟩, ⟨.str (js "b"), []⟩] = .ok operation :=
  (createSplice_correct (by decide) (by decide +kernel)).1

end TypeFerry.Live.Window
