import TypeFerry.Minimongo.Selection
import TypeFerry.Minimongo.Diff
import TypeFerry.Minimongo.Representation

/-! # What a cursor outputs

The documents of a result are those of the store, in another order, cut to a
window and projected. As long as the projection keeps the `_id`, the ids of a
result are those of the store and no two are the same; without it all documents
have one id, that of `undefined`. -/
namespace TypeFerry.Minimongo.Output
open TypeFerry.Lib.Numeral TypeFerry.Lib.JsonText TypeFerry.Lib.OrderedMap TypeFerry.Ejson.Clone
open TypeFerry.Ejson.Equals TypeFerry.Ejson.Canonical TypeFerry.Ejson.Encode
open TypeFerry.Minimongo.Values TypeFerry.Minimongo.Matcher TypeFerry.Minimongo.Sorter
open TypeFerry.Minimongo.Modifier TypeFerry.Minimongo.Cursors TypeFerry.Minimongo.Collection
open TypeFerry.Minimongo.Atomicity TypeFerry.Minimongo.Representation TypeFerry.Minimongo.Selection

/-! ## Equal values -/

theorem numEquals_trans {a b c : Number} (h : numEquals a b = true) (h' : numEquals b c = true) :
    numEquals a c = true := by
  cases a <;> cases b <;> cases c <;> simp_all [numEquals]
  aesop

theorem getOwn_of_equalEntries {s : Bool} {k : Text} {x : Value} : ∀ {ms ns : List (Text × Value)},
    equalEntries s ms ns = true → (k, x) ∈ ms → ∃ y, getOwn k ns = some y ∧ equalValues s x y = true
  | (k', x') :: ms, ns, h, hmem => by
    rw [equalEntries, Bool.and_eq_true] at h
    rcases List.mem_cons.mp hmem with heq | hmem
    · cases heq
      cases hy : getOwn k ns with
      | none =>
        rw [hy] at h
        cases h.1
      | some y =>
        rw [hy] at h
        exact ⟨y, rfl, h.1⟩
    · exact getOwn_of_equalEntries h.2 hmem

mutual

theorem equalValues_trans {s : Bool} : ∀ {a b c : Value}, equalValues s a b = true →
    equalValues s b c = true → equalValues s a c = true
  | .undefined, .undefined, _, _, h' => h'
  | .null, .null, _, _, h' => h'
  | .bool a, .bool b, c, h, h' => by
    rw [eq_of_beq (show (a == b) = true from h)]
    exact h'
  | .num a, .num b, .num c, h, h' => numEquals_trans h h'
  | .str a, .str b, c, h, h' => by
    rw [eq_of_beq (show (a == b) = true from h)]
    exact h'
  | .date a, .date b, .date c, h, h' => by
    cases a <;> cases b <;> cases c <;> simp_all [equalValues, areDatesEqual]
  | .binary a, .binary b, c, h, h' => by
    rw [eq_of_beq (show (a == b) = true from h)]
    exact h'
  | .regexp a, .regexp b, c, h, h' => by
    rw [of_decide_eq_true (show decide (a = b) = true from h)]
    exact h'
  | .arr xs, .arr ys, .arr zs, h, h' => by
    rw [equalValues] at h h' ⊢
    exact equalElems_trans h h'
  | .obj ms, .obj ns, .obj ks, h, h' => by
    rw [equalValues, Bool.and_eq_true, Bool.and_eq_true] at h h' ⊢
    obtain ⟨⟨hlength, horder⟩, hentries⟩ := h
    obtain ⟨⟨hlength', horder'⟩, hentries'⟩ := h'
    refine ⟨⟨?_, ?_⟩, equalEntries_trans hentries hentries'⟩
    · rw [eq_of_beq hlength]
      exact hlength'
    · cases s with
      | false => rfl
      | true => exact beq_iff_eq.mpr ((eq_of_beq horder).trans (eq_of_beq horder'))

theorem equalElems_trans {s : Bool} : ∀ {xs ys zs : List Value}, equalElems s xs ys = true →
    equalElems s ys zs = true → equalElems s xs zs = true
  | [], [], _, _, h' => h'
  | x :: xs, y :: ys, z :: zs, h, h' => by
    rw [equalElems, Bool.and_eq_true] at h h' ⊢
    exact ⟨equalValues_trans h.1 h'.1, equalElems_trans h.2 h'.2⟩

theorem equalEntries_trans {s : Bool} : ∀ {ms ns ks : List (Text × Value)},
    equalEntries s ms ns = true → equalEntries s ns ks = true → equalEntries s ms ks = true
  | [], _, _, _, _ => by rw [equalEntries]
  | (k, x) :: ms, ns, ks, h, h' => by
    rw [equalEntries, Bool.and_eq_true] at h ⊢
    obtain ⟨hx, hms⟩ := h
    refine ⟨?_, equalEntries_trans hms h'⟩
    cases hy : getOwn k ns with
    | none =>
      rw [hy] at hx
      cases hx
    | some y =>
      rw [hy] at hx
      obtain ⟨z, hz, hyz⟩ := getOwn_of_equalEntries h' (mem_of_getOwn hy)
      rw [hz]
      exact equalValues_trans hx hyz

end

/-- Documents that are one or have equal values. -/
def Equivalent (a b : Value) : Prop := a = b ∨ equalValues false a b = true

theorem Equivalent.refl (a : Value) : Equivalent a a := .inl rfl

theorem Equivalent.trans (a b c : Value) (h : Equivalent a b) (h' : Equivalent b c) : Equivalent a c := by
  rcases h with rfl | h
  · exact h'
  · rcases h' with rfl | h'
    · exact .inr h
    · exact .inr (equalValues_trans h h')

theorem equivalent_of_same {i : Identity} (a b : Value) (h : sameDocument i a b = true) :
    Equivalent a b := by
  rcases Bool.or_eq_true_iff.mp h with h | h
  · exact .inl (i.eq_of_identical h)
  · exact .inr h

/-! ## The `_id` of an output -/

theorem getOwn_id_filter (ms : List (Text × Value)) :
    getOwn (js "_id") (ms.filter fun m => m.1 ≠ js "_id") = none := by
  cases h : getOwn (js "_id") (ms.filter fun m => m.1 ≠ js "_id") with
  | none => rfl
  | some v => exact absurd rfl (of_decide_eq_true (List.mem_filter.mp (mem_of_getOwn h)).2)

theorem nodup_applyRules {including : Bool} {value : Value} : ∀ (rules : List (Text × Value))
    {result : List (Text × Value)}, (result.map Prod.fst).Nodup →
      ((applyRules including rules value result).map Prod.fst).Nodup
  | [], _, h => h
  | (field, rule) :: rest, result, h => by
    have hset : ∀ x, ((enumerate (assign field x result)).map Prod.fst).Nodup := fun x =>
      stable_nodup.set trivial h
    have hdelete : ((result.filter fun m => m.1 ≠ field).map Prod.fst).Nodup :=
      stable_nodup.delete trivial h
    rw [applyRules]
    refine nodup_applyRules rest ?_
    unfold applyRule
    cases ownMember value field with
    | none => exact h
    | some child =>
      cases rule with
      | bool b =>
        cases including with
        | true => exact hset _
        | false => exact hdelete
      | _ =>
        dsimp only
        split
        · exact hset _
        · exact h

/-- A projected document is an object in which no key stands twice. -/
theorem distinct_applyRuleTree (including : Bool) (tree ms : List (Text × Value)) :
    Representation.Distinct (applyRuleTree including (.obj tree) (.obj ms)) := by
  rw [applyRuleTree, mapArrays]
  · refine ⟨_, rfl, nodup_applyRules tree ?_⟩
    split
    · exact List.nodup_nil
    · split
      · next copy hcopy => exact distinct_cloneValue hcopy
      · exact List.nodup_nil
  · intro xs hxs
    cases hxs

section
variable {p : Platform} {selector : Value} {options : FindOptions} {c : Cursor}

theorem find_eq_ok (h : find p selector options = .ok c) : ∃ projection,
    compileProjection options.projection = .ok projection ∧ c.outputDocument = fun document =>
      if options.projection.isEmpty then document else projection document := by
  obtain ⟨m, -, h⟩ := bind_eq_ok h
  obtain ⟨sorter, -, h⟩ := bind_eq_ok h
  obtain ⟨projection, hprojection, h⟩ := bind_eq_ok h
  cases h
  exact ⟨projection, hprojection, rfl⟩

/-- **A projection that keeps the `_id`** keeps the one of the stored document. -/
theorem outputDocument_id (hfind : find p selector options = .ok c)
    (hkeeps : idProjection options.projection = true) {id : Text} {document : Value}
    (hd : Top (HasId id) document) : getKey (c.outputDocument document) (js "_id") = .str id := by
  obtain ⟨projection, hprojection, houtput⟩ := find_eq_ok hfind
  rw [houtput]
  dsimp only
  split
  · exact getKey_of_hasId hd
  · obtain ⟨⟨⟩, -, hprojection⟩ := bind_eq_ok hprojection
    obtain ⟨⟨including, tree⟩, -, hprojection⟩ := bind_eq_ok hprojection
    cases hprojection
    obtain ⟨ms, rfl, hms⟩ := hd
    dsimp only
    rw [hkeeps, show ownMember (.obj ms) (js "_id") = some (.str id) from hms.own]
    obtain ⟨result, hresult, hnodup⟩ := distinct_applyRuleTree including tree ms
    dsimp only
    rw [hresult, withMember, getKey, getOwn_id_assign hnodup]
    rfl

/-- Without the `_id` all documents have the id of `undefined`. -/
theorem outputDocument_dropped (hfind : find p selector options = .ok c)
    (hdrops : idProjection options.projection = false) {id : Text} {document : Value}
    (hd : Top (HasId id) document) : getKey (c.outputDocument document) (js "_id") = .undefined := by
  obtain ⟨projection, hprojection, houtput⟩ := find_eq_ok hfind
  have hnonempty : ¬options.projection.isEmpty = true := by
    intro hempty
    rw [List.isEmpty_iff.mp hempty] at hdrops
    cases hdrops
  rw [houtput]
  dsimp only
  rw [if_neg hnonempty]
  obtain ⟨⟨⟩, -, hprojection⟩ := bind_eq_ok hprojection
  obtain ⟨⟨including, tree⟩, -, hprojection⟩ := bind_eq_ok hprojection
  cases hprojection
  obtain ⟨ms, rfl, hms⟩ := hd
  dsimp only
  rw [hdrops]
  obtain ⟨result, hresult, -⟩ := distinct_applyRuleTree including tree ms
  dsimp only
  rw [hresult, deleteKey, getKey, getOwn_id_filter]
  rfl

/-! ## The ids of a result -/

theorem rawDocuments_values {documents raw : List Value} (h : c.rawDocuments p documents = .ok raw) :
    ∃ selected sorted, selected.Sublist documents ∧ sorted.Perm selected ∧ raw.Sublist sorted := by
  obtain ⟨⟨selected, distances⟩, hselected, h⟩ := bind_eq_ok h
  obtain ⟨sorted, hsorted, h⟩ := bind_eq_ok h
  cases h
  refine ⟨selected, sorted, filterDocuments_sublist (filterDocuments_of_select hselected), ?_,
    (List.drop_sublist _ _).trans (List.take_sublist _ _)⟩
  cases hsorter : c.sorter with
  | none =>
    rw [hsorter] at hsorted
    cases hsorted
    exact List.Perm.refl _
  | some sorter =>
    rw [hsorter] at hsorted
    exact sort_perm hsorted

/-- The cursor has at most one document. -/
def Single (p : Platform) (c : Cursor) (documents : List Value) : Prop :=
  ∀ raw, c.rawDocuments p documents = .ok raw → raw.length ≤ 1

variable {store : OMap (Option Text) Value} {result : List Value}

/-- What the cursor outputs are documents of the store. -/
theorem mem_fetch_values (h : c.fetch p store.values = .ok result) {d : Value} (hd : d ∈ result) :
    ∃ document ∈ store.values, d = c.outputDocument document := by
  obtain ⟨raw, hraw, h⟩ := bind_eq_ok h
  cases h
  obtain ⟨document, hdocument, rfl⟩ := List.mem_map.mp hd
  obtain ⟨selected, sorted, hselected, hsorted, hsub⟩ := rawDocuments_values hraw
  exact ⟨document, hselected.subset (hsorted.subset (hsub.subset hdocument)), rfl⟩

theorem hasId_of_mem (h : Identified store) {document : Value} (hd : document ∈ store.values) :
    ∃ id, Top (HasId id) document := by
  obtain ⟨e, he, rfl⟩ := List.mem_map.mp hd
  obtain ⟨id, -, -, hid⟩ := h e he
  exact ⟨id, hid⟩

/-- **No two documents of a result have one id**, if the projection keeps the `_id` or there is
at most one document. -/
theorem fetch_distinct (hstore : Identified store) (hfind : find p selector options = .ok c)
    (hids : idProjection options.projection = true ∨ Single p c store.values)
    (h : c.fetch p store.values = .ok result) : Diff.Distinct (Cursor.idOf p) result := by
  obtain ⟨raw, hraw, h⟩ := bind_eq_ok h
  cases h
  obtain ⟨selected, sorted, hselected, hsorted, hsub⟩ := rawDocuments_values hraw
  by_cases hkeeps : idProjection options.projection = true
  · have hraw' : (raw.map idOf).Nodup := by
      have hall := (hstore.keyed p 0).nodup hselected
      exact (hsub.map _).nodup ((hsorted.map _).nodup_iff.mpr hall)
    have hmap : ((raw.map c.outputDocument).map (Cursor.idOf p)).map some = raw.map idOf := by
      rw [List.map_map, List.map_map]
      refine List.map_congr_left fun document hdocument => ?_
      have hmem := hselected.subset (hsorted.subset (hsub.subset hdocument))
      obtain ⟨id, hid⟩ := hasId_of_mem hstore hmem
      rw [idOf_of_hasId hid, Function.comp, Function.comp, Cursor.idOf,
        outputDocument_id hfind hkeeps hid]
      rfl
    rw [← hmap] at hraw'
    exact List.Nodup.of_map _ hraw'
  · have hone := hids.resolve_left hkeeps raw hraw
    have hlength : ((raw.map c.outputDocument).map (Cursor.idOf p)).length ≤ 1 := by
      rw [List.length_map, List.length_map]
      exact hone
    unfold Diff.Distinct
    cases hcase : (raw.map c.outputDocument).map (Cursor.idOf p) with
    | nil => exact List.nodup_nil
    | cons id ids =>
      rw [hcase, List.length_cons] at hlength
      rw [List.length_eq_zero_iff.mp (show ids.length = 0 by omega)]
      exact List.nodup_singleton id

/-- Equal outputs of one cursor have one id. -/
theorem idOf_of_equalValues {store' : OMap (Option Text) Value} {result' : List Value}
    (hstore : Identified store) (hstore' : Identified store') (hfind : find p selector options = .ok c)
    (h : c.fetch p store.values = .ok result) (h' : c.fetch p store'.values = .ok result') {a b : Value}
    (ha : a ∈ result) (hb : b ∈ result') (hab : equalValues false a b = true) :
    Cursor.idOf p a = Cursor.idOf p b := by
  obtain ⟨document, hdocument, rfl⟩ := mem_fetch_values h ha
  obtain ⟨document', hdocument', rfl⟩ := mem_fetch_values h' hb
  obtain ⟨id, hid⟩ := hasId_of_mem hstore hdocument
  obtain ⟨id', hid'⟩ := hasId_of_mem hstore' hdocument'
  cases hkeeps : idProjection options.projection with
  | false =>
    rw [Cursor.idOf, Cursor.idOf, outputDocument_dropped hfind hkeeps hid,
      outputDocument_dropped hfind hkeeps hid']
  | true =>
    have hget := outputDocument_id hfind hkeeps hid
    have hget' := outputDocument_id hfind hkeeps hid'
    rw [Cursor.idOf, Cursor.idOf, hget, hget']
    -- The `_id` is one of the members that are compared.
    generalize c.outputDocument document = a at hget hab
    generalize c.outputDocument document' = b at hget' hab
    cases a with
    | obj ms =>
      cases b with
      | obj ns =>
        rw [equalValues, Bool.and_eq_true] at hab
        have hown : getOwn (js "_id") ms = some (.str id) := by
          cases hown : getOwn (js "_id") ms <;> simp_all [getKey]
        have hown' : getOwn (js "_id") ns = some (.str id') := by
          cases hown' : getOwn (js "_id") ns <;> simp_all [getKey]
        obtain ⟨y, hy, hequal⟩ := getOwn_of_equalEntries hab.2 (mem_of_getOwn hown)
        rw [hown'] at hy
        cases hy
        rw [eq_of_beq (show (id == id') = true from hequal)]
      | _ => cases hab
    | arr xs =>
      -- An array has no `_id`.
      exact absurd hget (by simp [getKey, arrayKey?, isNumericKey, js, digit?])
    | _ => cases hget

end

end TypeFerry.Minimongo.Output
