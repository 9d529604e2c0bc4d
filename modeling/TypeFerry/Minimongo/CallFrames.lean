import TypeFerry.Minimongo.SharedRoot

/-! # What a call leaves alone

`insert`, `update` and `upsert` only change objects that they make themselves,
where no path of theirs leads onto a shared root. -/
namespace TypeFerry.Minimongo.CallFrames
open TypeFerry.Lib.Numeral TypeFerry.Lib.JsonText TypeFerry.Lib.OrderedMap TypeFerry.Lib.Triples
open TypeFerry.Lib.Runs TypeFerry.Ejson.Clone
open TypeFerry.Minimongo.Values hiding setPath
open TypeFerry.Minimongo.Modifier (ModifyOptions ownMember)
open TypeFerry.Minimongo.Objects TypeFerry.Minimongo.ObjectUpdates TypeFerry.Minimongo.Exclusion
open TypeFerry.Minimongo.SharedRoot TypeFerry.Minimongo.Cyclic

variable {old w : World} {n : ℕ} (d : Reading)

/-! ## Upserts -/

mutual

/-- The entries from which the document of an upsert may get fields. -/
def populated : List (Text × Value) → List (Text × Value)
  | [] => []
  | (path, value) :: rest => populatedEntry path value ++ populated rest

def populatedEntry (path : Text) : Value → List (Text × Value)
  | .arr xs => if path = js "$and" ∨ path = js "$or" ∧ xs.length = 1 then populatedEach xs else [(path, .arr xs)]
  | value => [(path, value)]

def populatedEach : List Value → List (Text × Value)
  | [] => []
  | .obj ms :: rest => populated ms ++ populatedEach rest
  | _ :: rest => populatedEach rest

end

/-- The path does not lead onto a shared root, or the entry gives no field. -/
def ClearEntry (entry : Text × Value) : Prop :=
  startsWith (js "$") entry.1 ∨
    ownMember entry.2 (js "$eq") = none ∧ (isOperatorObject entry.2).toOption = some true ∨ Passes entry.1

instance (entry : Text × Value) : Decidable (ClearEntry entry) := inferInstanceAs (Decidable (_ ∨ _ ∧ _ ∨ _))

theorem safe_populateField {path : Text} {value : Value} (hclear : ClearEntry (path, value)) {document : ℕ}
    (hdocument : Fresh old n (.object document)) : Safe old n (populateField d path value document) := by
  rw [populateField]
  split
  · exact builds_pure fun _ _ => trivial
  · next hpath =>
    replace hclear := hclear.resolve_left hpath
    split
    · next v heq =>
      have hpasses := hclear.resolve_left fun h => Option.some_ne_none v (heq.symm.trans h.1)
      exact builds_bind (within_load d v) fun _ _ hk hr => safe_setPath d hpasses (hdocument.mono hk) hr.1
    · next heq =>
      refine builds_bind (within_orRefuse _) fun operator k hk hoperator => ?_
      split
      · exact builds_pure fun _ _ => trivial
      · next hnot =>
        have hpasses := hclear.resolve_left fun h => by
          rw [hoperator] at h
          exact hnot (Option.some.inj h.2)
        exact builds_bind (within_load d value) fun _ _ hm hr =>
          safe_setPath d hpasses (hdocument.mono (hk.trans hm)) hr.1

mutual

theorem safe_populate (ms : List (Text × Value)) {n document : ℕ} (hclear : ∀ e ∈ populated ms, ClearEntry e)
    (hdocument : Fresh old n (.object document)) : Safe old n (populate d ms document) := by
  cases ms with
  | nil => exact builds_pure fun _ _ => trivial
  | cons m rest =>
    rw [populated, List.forall_mem_append] at hclear
    refine builds_bind (safe_populateEntry m.1 m.2 hclear.1 hdocument) fun _ k hk _ => ?_
    exact safe_populate rest hclear.2 (hdocument.mono hk)

theorem safe_populateEntry (path : Text) (value : Value) {n document : ℕ}
    (hclear : ∀ e ∈ populatedEntry path value, ClearEntry e) (hdocument : Fresh old n (.object document)) :
    Safe old n (populateEntry d path value document) := by
  cases value with
  | arr xs =>
    rw [populatedEntry] at hclear
    rw [populateEntry]
    split
    · next h =>
      rw [if_pos h] at hclear
      exact safe_populateEach xs hclear hdocument
    · next h =>
      rw [if_neg h] at hclear
      exact safe_populateField d (hclear _ (.head _)) hdocument
  | _ =>
    simp only [populateEntry]
    exact safe_populateField d (hclear _ (.head _)) hdocument

theorem safe_populateEach (xs : List Value) {n document : ℕ} (hclear : ∀ e ∈ populatedEach xs, ClearEntry e)
    (hdocument : Fresh old n (.object document)) : Safe old n (populateEach d xs document) := by
  cases xs with
  | nil => exact builds_pure fun _ _ => trivial
  | cons x rest =>
    cases x with
    | obj ms =>
      rw [populatedEach, List.forall_mem_append] at hclear
      refine builds_bind (safe_populate ms hclear.1 hdocument) fun _ k hk _ => ?_
      exact safe_populateEach rest hclear.2 (hdocument.mono hk)
    | _ =>
      simp only [populatedEach] at hclear
      simp only [populateEach]
      exact safe_populateEach rest hclear hdocument

end

/-- A selector that gives no field at a path onto a shared root. -/
def ClearSelector : Value → Prop
  | .obj ms => ∀ e ∈ populated ms, ClearEntry e
  | _ => True

instance : (selector : Value) → Decidable (ClearSelector selector)
  | .obj ms => inferInstanceAs (Decidable (∀ e ∈ populated ms, ClearEntry e))
  | .undefined | .null | .bool _ | .num _ | .str _ | .date _ | .regexp _ | .binary _ | .arr _ => isTrue trivial

theorem within_createUpsertDocument (stack : ℕ) (now : ℤ) {selector modifier : Value}
    (hselector : ClearSelector selector) (hmodifier : ClearModifier true modifier) :
    Within old n (createUpsertDocument d stack now selector modifier)
      fun m document => Fresh old m (.object document) := by
  refine builds_bind within_readHeap fun heap m hm hheap => ?_
  have hbase := read_length hheap
  obtain ⟨hlength, -⟩ := hheap
  subst hlength
  refine builds_bind (within_allocate (inside_plainObject ..)) fun r k hk hr => ?_
  have hdocument : Fresh old k (.object heap.length) := ⟨hbase, hr.2.1⟩
  have hrest : ∀ {j : ℕ}, k ≤ j → Within old j (do
      modifyDocument d stack ⟨true, none, now⟩ modifier heap.length
      return heap.length) fun m document => Fresh old m (.object document) := fun hj =>
    builds_bind (safe_modifyDocument d stack _ hmodifier (hdocument.mono hj)) fun _ _ hi _ =>
      builds_pure fun _ hl => hdocument.mono (hj.trans (hi.trans hl))
  dsimp only
  split
  · exact builds_bind (safe_assign (v := .leaf (.str _)) hbase trivial _) fun _ _ hj _ => hrest hj
  · exact builds_bind (safe_populate d _ hselector hdocument) fun _ _ hj _ => hrest hj
  · exact hrest le_rfl

theorem safe_giveInsertedId (insertedId : Option Text) {document : ℕ}
    (hdocument : Fresh old n (.object document)) : Safe old n (giveInsertedId d insertedId document) := by
  rw [giveInsertedId.eq_def]
  cases insertedId with
  | none => exact builds_pure fun _ _ => trivial
  | some id =>
    refine builds_bind within_readHeap fun heap m hm _ => ?_
    split
    · exact safe_assign (v := .leaf (.str id)) hdocument.1 trivial _
    · exact builds_pure fun _ _ => trivial

/-! ## Copies -/

theorem within_cloneValue {toNumber : Heap → Ref → Number} (stack : ℕ) (r : Ref) :
    Within old n (cloneValue toNumber stack r) (Fresh old) := by
  induction stack generalizing n r with
  | zero => exact builds_throw
  | succ stack ih =>
    cases r with
    | leaf v => exact builds_pure fun _ _ => trivial
    | function => exact builds_pure fun _ _ => trivial
    | object a =>
      refine builds_bind within_readHeap fun heap m hm _ => ?_
      have helements : ∀ xs : List Ref, Within old m (xs.mapM (cloneValue toNumber stack))
          fun k copies => ∀ r ∈ copies, Fresh old k r :=
        fun xs => builds_mapM (R := Fresh old) (fun _ _ _ hle h => Inside.mono hle h) fun x _ => ih x
      have hmembers : ∀ ms : List (Text × Ref),
          Within old m (ms.mapM fun e => do return (e.1, ← cloneValue toNumber stack e.2))
            fun k copies => ∀ e ∈ copies, Fresh old k e.2 := by
        refine fun ms => builds_mapM (R := fun k (e : Text × Ref) => Fresh old k e.2)
          (fun e _ _ hle h => ?_) fun e _ => ?_
        · exact Inside.mono hle h
        · exact builds_bind (ih e.2) fun x k hk hx => builds_pure fun j hj => Inside.mono hj hx
      split
      · exact builds_pure fun _ _ => trivial
      · split
        · refine builds_bind (helements _) fun copies k hk hcopies => ?_
          exact (within_allocate (inside_arrayOf hcopies)).mono fun _ _ _ h => h.1
        · refine builds_bind (hmembers _) fun copies k hk hcopies => ?_
          exact (within_object hcopies).mono fun _ _ _ h => h.1

/-! ## Freezing -/

/-- What freezing may do in the middle of a call. -/
structure Froze (old v v' : World) : Prop where
  store : v'.store = v.store
  kept : old.heap <+: v.heap → old.heap <+: v'.heap
  same : SameButFrozen v.heap v'.heap
  frozen : KeepsFrozen v.heap v'.heap

variable {v v' : World}

theorem Froze.refl (v : World) : Froze old v v := ⟨rfl, id, rfl, fun _ _ h _ => h⟩

theorem Froze.trans {u : World} (h : Froze old v v') (h' : Froze old v' u) : Froze old v u where
  store := h'.store.trans h.store
  kept hv := h'.kept (h.kept hv)
  same := Eq.trans h.same h'.same
  frozen a node hnode hfrozen := h'.frozen a node (h.frozen a node hnode hfrozen) hfrozen

theorem Froze.length (h : Froze old v v') : v'.heap.length = v.heap.length := by
  have hlength := congrArg List.length h.same
  rw [List.length_map, List.length_map] at hlength
  exact hlength.symm

theorem Froze.confined (h : Froze old v v') (hv : Confined old v) : Confined old v' where
  roots := hv.roots
  kept := h.kept hv.kept
  inside a node ha hnode := by
    obtain ⟨node', hnode', hsame⟩ := SameButFrozen.at (Eq.symm h.same) hnode
    rw [h.length, ← hsame]
    have hin := hv.inside a node' ha hnode'
    exact ⟨hin.elements, hin.members, hin.proto⟩
  store id := by
    rw [h.store]
    exact hv.store id
  frozen id r hr := (hv.frozen id r (h.store ▸ hr)).mono h.frozen

/-- What is frozen already or new may be frozen. -/
def Freezable (old : World) (r : Ref) (v : World) : Prop :=
  Confined old v ∧ (Fresh old v.heap.length r ∨ Sealed v.heap r)

theorem Freezable.froze {r : Ref} (h : Froze old v v') (hr : Freezable old r v) : Freezable old r v' :=
  ⟨h.confined hr.1, hr.2.imp (h.length ▸ id) (Sealed.mono h.frozen)⟩

theorem moves_freeze {a : ℕ} {node : Node} (hnode : v.heap[a]? = some node)
    (ha : old.heap.length ≤ a ∨ node.frozen = true) : Moves (Froze old) v (freeze a) fun _ v' =>
      v'.heap[a]? = some { node with frozen := true } ∧ KeepsFrozen v.heap v'.heap := by
  have hfrozen : KeepsFrozen v.heap _ := keepsFrozen_freeze a
  refine ⟨⟨rfl, fun hkept => ?_, SameButFrozen.freeze rfl a, hfrozen⟩, ?_, hfrozen⟩
  · rcases ha with ha | ha
    · exact Cyclic.prefix_modify hkept ha _
    · have hsame : v.heap.modify a (fun node => { node with frozen := true }) = v.heap := by
        refine List.ext_getElem? fun b => ?_
        rw [List.getElem?_modify]
        by_cases hb : a = b
        · rw [← hb, hnode, ← ha]
          simp
        · simp [hb]
      change old.heap <+: v.heap.modify a _
      rw [hsame]
      exact hkept
  · change (v.heap.modify a _)[a]? = _
    rw [List.getElem?_modify_eq, hnode]
    rfl

theorem moves_deepFreeze (stack : ℕ) (seen : List ℕ) {r : Ref} (hr : Freezable old r v) :
    Moves (Froze old) v (deepFreeze stack seen r) fun _ v' => Sealed v'.heap r := by
  induction stack generalizing seen r v with
  | zero => exact Froze.refl v
  | succ stack ih =>
    cases r with
    | leaf l => exact ⟨.refl v, .leaf l⟩
    | function => exact ⟨.refl v, .function⟩
    | object a =>
      obtain ⟨node, hnode⟩ : ∃ node, v.heap[a]? = some node := by
        rcases hr.2 with h | h
        · exact ⟨_, List.getElem?_eq_getElem h.2⟩
        · cases h with
          | object hnode _ _ => exact ⟨_, hnode⟩
      have hfreezable : old.heap.length ≤ a ∨ node.frozen = true := by
        rcases hr.2 with h | h
        · exact .inl h.1
        · cases h with
          | object hnode' hfrozen _ =>
            rw [hnode] at hnode'
            cases hnode'
            exact .inr hfrozen
      have hchildren : ∀ x ∈ node.values, Freezable old x v := by
        intro x hx
        refine ⟨hr.1, ?_⟩
        rcases hr.2 with h | h
        · exact .inl ((hr.1.inside a node h.1 hnode).values x hx)
        · cases h with
          | object hnode' _ hvalues =>
            rw [hnode] at hnode'
            cases hnode'
            exact .inr (hvalues x hx)
      rw [deepFreeze]
      split
      · exact Froze.refl v
      · have hread : Moves (Froze old) v readHeap fun heap t => heap = v.heap ∧ t = v := ⟨.refl v, rfl, rfl⟩
        refine moves_bind (R := Froze old) (fun _ _ _ => Froze.trans) hread fun heap t _ hat => ?_
        obtain ⟨hheap, ht⟩ := hat
        subst hheap ht
        rw [hnode]
        dsimp only [Option.elim_some]
        have hwalk := moves_forM (R := Froze old) (P := Freezable old) (S := fun x v => Sealed v.heap x)
          (fun _ _ _ => Froze.trans) Froze.refl Freezable.froze (fun h hx => Sealed.mono h.frozen hx)
          (f := deepFreeze stack (a :: seen)) (fun x _ u hx => ih _ hx) hchildren
        refine moves_bind (R := Froze old) (fun _ _ _ => Froze.trans) hwalk fun _ u hu hsealed => ?_
        obtain ⟨node', hnode', hsame⟩ := hu.same.at hnode
        have hvalues : node'.values = node.values := by
          rw [← hsame]
          rfl
        have hfreezable' : old.heap.length ≤ a ∨ node'.frozen = true := by
          rcases hfreezable with h | h
          · exact .inl h
          · have hkept := hu.frozen a node hnode h
            rw [hnode'] at hkept
            cases hkept
            exact .inr h
        have hfreeze := moves_freeze hnode' hfreezable'
        cases hrun : freeze a u with
        | error e t =>
          rw [Moves, hrun]
          exact hfreeze.error hrun
        | ok _ t =>
          rw [Moves, hrun]
          obtain ⟨hstep, hat, hkept⟩ := hfreeze.ok hrun
          exact ⟨hstep, .object hat rfl fun x hx => (hsealed x (hvalues ▸ hx)).mono hkept⟩

theorem safe_freezeEvent {stack : ℕ} {event : Event}
    (hevent : ∀ r ∈ event.documents, Fresh old n r ∨ Sealed old.heap r) :
    Safe old n (freezeEvent event stack) := by
  cases stack with
  | zero => exact builds_throw
  | succ stack =>
    refine builds_forM fun r hr v hv hn => ?_
    have hfreezable : Freezable old r v :=
      ⟨hv, (hevent r hr).imp (Inside.mono hn) (Sealed.mono (keepsFrozen_of_begins hv.kept))⟩
    have hmoves := moves_deepFreeze stack [] hfreezable
    cases hrun : deepFreeze stack [] r v with
    | ok _ t =>
      have ht := (hmoves.ok hrun).1
      exact ⟨ht.confined hv, ht.length.ge, trivial⟩
    | error e t =>
      have ht := hmoves.error hrun
      exact ⟨ht.confined hv, ht.length.ge⟩

/-! ## Documents and the store -/

theorem safe_putFrozen (stack : ℕ) (id : Text) {a : ℕ} (ha : Fresh old n (.object a)) :
    Safe old n (putFrozen stack id a) := by
  intro v hv hn
  have hmoves := moves_deepFreeze stack [] (r := .object a) ⟨hv, .inl (ha.mono hn)⟩
  cases hrun : deepFreeze stack [] (.object a) v with
  | error e t =>
    rw [putFrozen, bind_error hrun]
    have ht := hmoves.error hrun
    exact ⟨ht.confined hv, ht.length.ge⟩
  | ok _ t =>
    rw [putFrozen, bind_ok hrun]
    obtain ⟨ht, hsealed⟩ := hmoves.ok hrun
    obtain ⟨hroots, hkept, hinside, hstore, hfrozen⟩ := ht.confined hv
    refine ⟨⟨hroots, hkept, hinside, fun key => ?_, fun key r hr => ?_⟩, ht.length.ge, trivial⟩
    · rw [OMap.get_set]
      split
      · exact .inr ⟨a, ha.1, rfl⟩
      · exact hstore key
    · rw [OMap.get_set] at hr
      split at hr
      · cases hr
        exact hsealed
      · exact hfrozen key r hr

theorem safe_giveRandomId {toNumber : Heap → Ref → Number} (randomId : Text) {a : ℕ}
    (ha : Fresh old n (.object a)) : Safe old n (giveRandomId toNumber randomId a) := by
  refine builds_bind within_readHeap fun heap m hm _ => ?_
  split
  · exact safe_assign (v := .leaf (.str randomId)) ha.1 trivial _
  · exact safe_assign (v := .leaf (.str randomId)) ha.1 trivial _
  · exact builds_pure fun _ _ => trivial

theorem within_getWorld : Within old n (get : Run World) fun _ _ => True :=
  fun _ hw _ => ⟨hw, le_rfl, trivial⟩

theorem safe_prepareInsert {toNumber : Heap → Ref → Number} (stack : ℕ) (randomId : Text) {a : ℕ}
    (ha : Fresh old n (.object a)) : Safe old n (prepareInsert toNumber stack randomId a) := by
  refine builds_bind (safe_looking _) fun _ k hk _ => ?_
  refine builds_bind (safe_giveRandomId randomId (ha.mono hk)) fun _ m hm _ => ?_
  refine builds_bind (safe_looking _) fun id j hj _ => ?_
  refine builds_bind within_getWorld fun _ i hi _ => ?_
  split
  · exact builds_throw
  · exact builds_bind (safe_putFrozen stack id (ha.mono (hk.trans (hm.trans (hj.trans hi))))) fun _ _ _ _ =>
      builds_pure fun _ _ => trivial

theorem safe_emit (event : Event) : Safe old n (emit event) :=
  fun _ hw _ => ⟨⟨hw.roots, hw.kept, hw.inside, hw.store, hw.frozen⟩, le_rfl, trivial⟩

/-- A new document is announced. -/
theorem safe_announce {α : Type} (stack : ℕ) {a : ℕ} (ha : Fresh old n (.object a)) (result : α) : Safe old n (do
    freezeEvent (.insert (.object a)) stack
    emit (.insert (.object a))
    return result) := by
  refine builds_bind (safe_freezeEvent fun r hr => ?_) fun _ _ _ _ => ?_
  · rw [List.mem_singleton.mp hr]
    exact .inl ha
  · exact builds_bind (safe_emit _) fun _ _ _ _ => builds_pure fun _ _ => trivial

theorem safe_insert {toNumber : Heap → Ref → Number} (stack : ℕ) (randomId : Text) (document : Ref) :
    Safe old n (Objects.insert toNumber stack randomId document) := by
  refine builds_bind (within_cloneValue stack document) fun r k hk hr => ?_
  split
  · next a =>
    refine builds_bind (safe_prepareInsert stack randomId hr) fun id m hm _ => ?_
    exact safe_announce stack (Inside.mono hm hr) id
  · exact builds_throw

/-! ## `update` and `upsert` -/

theorem safe_updateOne (stack : ℕ) (now : ℤ) (selector : Value) {modifier : Value}
    (hmodifier : ClearModifier false modifier) {previous : Ref} (hprevious : Sealed old.heap previous) :
    Safe old n (updateOne d stack now selector modifier previous) := by
  refine builds_bind (within_cloneValue stack previous) fun r k hk hr => ?_
  split
  · next document =>
    refine builds_bind (safe_looking _) fun found m hm _ => ?_
    refine builds_bind (safe_modifyDocument d stack _ hmodifier (Inside.mono hm hr)) fun _ j hj _ => ?_
    refine builds_bind within_readHeap fun heap i hi _ => ?_
    have hdocument : Fresh old i (.object document) := Inside.mono (hm.trans (hj.trans hi)) hr
    split
    · next id _ =>
      refine builds_bind (safe_putFrozen stack id hdocument) fun _ l hl _ => ?_
      refine builds_bind (safe_freezeEvent fun x hx => ?_) fun _ _ _ _ => builds_pure fun _ _ => trivial
      rcases List.mem_cons.mp hx with rfl | hx
      · exact .inr hprevious
      · rw [List.mem_singleton.mp hx]
        exact .inl (hdocument.mono hl)
    · exact builds_throw
  · exact builds_throw

theorem safe_updateEach (stack : ℕ) (now : ℤ) (selector : Value) {modifier : Value}
    (hmodifier : ClearModifier false modifier) (multi : Bool) {matched : List Ref}
    (hmatched : ∀ r ∈ matched, Sealed old.heap r) :
    Safe old n (updateEach d stack now selector modifier multi matched) := by
  induction matched generalizing n with
  | nil => exact builds_pure fun _ _ => trivial
  | cons previous rest ih =>
    have hone := safe_updateOne (n := n) d stack now selector hmodifier (hmatched previous (.head _))
    refine builds_bind hone fun event k hk _ => ?_
    split
    · exact builds_bind (ih fun r hr => hmatched r (.tail _ hr)) fun _ _ _ _ => builds_pure fun _ _ => trivial
    · exact builds_pure fun _ _ => trivial

theorem mem_matchedDocuments {heap : Heap} {selector : Value} {documents matched : List Ref}
    (h : matchedDocuments d heap selector documents = .ok matched) {r : Ref} (hr : r ∈ matched) :
    r ∈ documents := by
  induction documents generalizing matched with
  | nil =>
    cases h
    exact hr
  | cons document documents ih =>
    rw [matchedDocuments] at h
    cases hfound : d.documentMatches selector heap document with
    | error e =>
      rw [hfound] at h
      cases h
    | ok found =>
      rw [hfound] at h
      cases hrest : matchedDocuments d heap selector documents with
      | error e =>
        rw [hrest] at h
        cases h
      | ok others =>
        rw [hrest] at h
        cases h
        split at hr
        · rcases List.mem_cons.mp hr with rfl | hr
          · exact .head _
          · exact .tail _ (ih hrest hr)
        · exact .tail _ (ih hrest hr)

/-- The state at the end of a call, also of one that threw. -/
def after {α : Type} : EStateM.Result Thrown World α → World
  | .ok _ w => w
  | .error _ w => w

theorem confined_after {α : Type} {x : Run α} {Q : ℕ → α → Prop} (h : Within old n x Q) (hw : Confined old w)
    (hn : n ≤ w.heap.length) : Confined old (after (x w)) := by
  cases hrun : x w with
  | ok a t => exact (h.ok hw hn hrun).1
  | error e t => exact (h.error hw hn hrun).1

theorem confined_bind {α β : Type} {x : Run α} {f : α → Run β} (hx : Confined old (after (x w)))
    (hf : ∀ a, Safe old 0 (f a)) : Confined old (after ((x >>= f) w)) := by
  cases hrun : x w with
  | ok a t =>
    rw [hrun] at hx
    rw [bind_ok hrun]
    exact confined_after (hf a) hx (Nat.zero_le _)
  | error e t =>
    rw [hrun] at hx
    rw [bind_error hrun]
    exact hx

theorem confined_update (hold : Confined old old) (stack : ℕ) (now : ℤ) (selector : Value) {modifier : Value}
    (hmodifier : ClearModifier false modifier) (multi : Bool) :
    Confined old (after (update d stack now selector modifier multi old)) := by
  have hdocuments : ∀ r ∈ old.store.values, Sealed old.heap r := by
    intro r hr
    obtain ⟨id, hid⟩ := OMap.mem_values.mp hr
    exact hold.frozen id r hid
  rw [update, bind_ok (show (get : Run World) old = .ok old old from rfl)]
  refine confined_after (n := 0) (Q := fun _ _ => True) ?_ hold (Nat.zero_le _)
  refine builds_bind (within_looking _) fun matched k hk hmatched => ?_
  obtain ⟨heap, hmatched⟩ := hmatched
  have heach := safe_updateEach (n := k) d stack now selector hmodifier multi
    fun r hr => hdocuments r (mem_matchedDocuments d hmatched hr)
  refine builds_bind heach fun updates m hm _ => ?_
  exact builds_bind (builds_forM fun event _ => safe_emit event) fun _ _ _ _ => builds_pure fun _ _ => trivial

theorem confined_upsert (hold : Confined old old) (stack : ℕ) (now : ℤ) (randomId : Text)
    {selector modifier : Value} (hselector : ClearSelector selector) (hmodifier : ClearModifier true modifier)
    (multi : Bool) (insertedId : Option Text) :
    Confined old (after (upsert d stack now randomId selector modifier multi insertedId old)) := by
  refine confined_bind (confined_update d hold stack now selector hmodifier.update multi) fun affected => ?_
  split
  · exact builds_pure fun _ _ => trivial
  · refine builds_bind (within_createUpsertDocument d stack now hselector hmodifier)
      fun document k hk hdocument => ?_
    refine builds_bind (safe_giveInsertedId d insertedId hdocument) fun _ m hm _ => ?_
    refine builds_bind (safe_prepareInsert stack randomId (hdocument.mono hm)) fun id j hj _ => ?_
    exact safe_announce stack (hdocument.mono (hm.trans hj)) _

/-! ## Calls, one after the other -/

/-- A call on the collection, with the room on the call stack. -/
inductive Call where
  | insert (stack : ℕ) (randomId : Text) (document : Ref)
  | update (stack : ℕ) (now : ℤ) (selector modifier : Value) (multi : Bool)
  | upsert (stack : ℕ) (now : ℤ) (randomId : Text) (selector modifier : Value) (multi : Bool)
      (insertedId : Option Text)

def Call.run (w : World) : Call → World
  | .insert stack randomId document => after (Objects.insert d.toNumber stack randomId document w)
  | .update stack now selector modifier multi => after (ObjectUpdates.update d stack now selector modifier multi w)
  | .upsert stack now randomId selector modifier multi insertedId =>
    after (ObjectUpdates.upsert d stack now randomId selector modifier multi insertedId w)

/-- No path of the call leads onto a shared root. -/
def Call.Clear : Call → Prop
  | .insert .. => True
  | .update _ _ _ modifier _ => ClearModifier false modifier
  | .upsert _ _ _ selector modifier _ _ => ClearSelector selector ∧ ClearModifier true modifier

instance : (c : Call) → Decidable c.Clear
  | .insert .. => isTrue trivial
  | .update _ _ _ modifier _ => inferInstanceAs (Decidable (ClearModifier false modifier))
  | .upsert _ _ _ selector modifier _ _ =>
    inferInstanceAs (Decidable (ClearSelector selector ∧ ClearModifier true modifier))

inductive Action where
  /-- The caller makes objects. -/
  | build (nodes : Heap)
  /-- The caller changes an object, which is neither frozen nor a shared root. -/
  | write (a : ℕ) (node : Node)
  | call (c : Call)

def Action.Clear : Action → Prop
  | .call c => c.Clear
  | _ => True

/-- The collection, empty at first, and its callers. -/
def collection : Machine World Action where
  init := emptyWorld []
  step w
    | .build nodes => some { w with heap := w.heap ++ nodes }
    | .write a node =>
      if roots.length ≤ a ∧ w.heap[a]?.any Node.frozen = false then
        some { w with heap := w.heap.modify a fun _ => node }
      else none
    | .call c => some (c.run d w)

/-- **What a call leaves alone**: every object that was there, the shared roots included, is as
it was, and every stored document is the one that was there or a new one. -/
structure Apart (w w' : World) : Prop where
  heap : w.heap <+: w'.heap
  store : ∀ id, w'.store.get id = w.store.get id ∨ ∃ a, w.heap.length ≤ a ∧ w'.store.get id = some (.object a)

/-- The roots are as the engine made them, and the documents of the collection are frozen. -/
structure Sound (w : World) : Prop where
  roots : roots <+: w.heap
  frozen : ∀ id r, w.store.get id = some r → Sealed w.heap r

theorem Sound.confined (hw : Sound w) : Confined w w where
  roots := hw.roots
  kept := List.prefix_rfl
  inside _ _ ha hnode := absurd (List.getElem?_eq_some_iff.mp hnode).1 (Nat.not_lt.mpr ha)
  store _ := .inl rfl
  frozen := hw.frozen

theorem confined_run (hw : Sound w) {c : Call} (hc : c.Clear) : Confined w (c.run d w) := by
  cases c with
  | insert stack randomId document =>
    exact confined_after (safe_insert stack randomId document) hw.confined (Nat.zero_le _)
  | update stack now selector modifier multi => exact confined_update d hw.confined stack now selector hc multi
  | upsert stack now randomId selector modifier multi insertedId =>
    exact confined_upsert d hw.confined stack now randomId hc.1 hc.2 multi insertedId

theorem sound_step (hw : Sound w) {action : Action} (haction : action.Clear) {w' : World}
    (hstep : (collection d).step w action = some w') : Sound w' := by
  cases action with
  | build nodes =>
    cases hstep
    refine ⟨hw.roots.trans (List.prefix_append ..), fun id r hr => ?_⟩
    exact (hw.frozen id r hr).mono (keepsFrozen_append nodes)
  | write a node =>
    obtain ⟨⟨ha, hfrozen⟩, heq⟩ := Option.ite_none_right_eq_some.mp hstep
    cases heq
    refine ⟨prefix_modify hw.roots ha _, fun id r hr => (hw.frozen id r hr).mono (keepsFrozen_modify ?_ _)⟩
    intro node' hnode'
    rw [hnode', Option.any_some] at hfrozen
    exact hfrozen
  | call c =>
    cases hstep
    have hconfined := confined_run d hw haction
    exact ⟨hconfined.roots.trans hconfined.kept, hconfined.frozen⟩

/-- Objects read where every document matches, as with the selector `{}`. -/
def matchesAll : Reading where
  platform := .integral
  toNumber _ _ := .nan
  documentMatches _ _ _ := .ok (some none)
  pullMatches _ _ _ := .ok false
  equals _ _ left right := left == right
  sortOrder _ _ xs := .ok (List.range xs.length)

/-- `{ $set: { path: x } }`. -/
def setField (path : String) (x : Value) : Value := .obj [(js "$set", .obj [(js path, x)])]

/-- `upsert({}, { $set: { path: null } })`. -/
def upsertField (path : String) : Call :=
  .upsert 10 0 (js "0123456789abcdef01234567") (.obj []) (setField path .null) false none

/-- The collection with one document, `{ a: { b: null }, _id }`. -/
def upserted : World := (upsertField "a.b").run matchesAll (emptyWorld [])

/-- The document takes the field from the prototype of every object. -/
theorem upsert_changes_root :
    ¬∀ w, (collection matchesAll).Reach anyStep w → ∀ c : Call, Apart w (c.run matchesAll w) := by
  intro hall
  have hheap := (hall _ .refl (upsertField "__proto__.x")).heap
  exact absurd hheap (by decide +kernel)

end TypeFerry.Minimongo.CallFrames
