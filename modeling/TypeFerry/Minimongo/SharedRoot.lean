import TypeFerry.Lib.Runs
import TypeFerry.Minimongo.Cyclic
import TypeFerry.Minimongo.Locality
import TypeFerry.Minimongo.ObjectUpdates

/-! # What a call leaves alone

Every plain object has the shared root for its prototype, and the root is a plain
object too: a path with `__proto__` in it leads onto it, and an update that goes
there changes every object there is. Where no path does, a call only changes
objects that it made itself: everything else is as it was, the documents of the
collection included, which are frozen. -/
namespace TypeFerry.Minimongo.SharedRoot
open TypeFerry.Lib.Numeral TypeFerry.Lib.JsonText TypeFerry.Lib.OrderedMap TypeFerry.Lib.Triples
open TypeFerry.Lib.Runs TypeFerry.Ejson.Clone
open TypeFerry.Minimongo.Values hiding setPath
open TypeFerry.Minimongo.Modifier (keyOf ModifyOptions)
open TypeFerry.Minimongo.Objects TypeFerry.Minimongo.ObjectUpdates TypeFerry.Minimongo.Exclusion

/-! ## Frozen parts -/

/-- Frozen through and through. -/
inductive Sealed (heap : Heap) : Ref → Prop where
  | leaf (v : Leaf) : Sealed heap (.leaf v)
  | function : Sealed heap .function
  | object {a : ℕ} {node : Node} : heap[a]? = some node → node.frozen = true →
      (∀ r ∈ node.values, Sealed heap r) → Sealed heap (.object a)

/-- The frozen objects of one heap are in the other one. -/
def KeepsFrozen (heap heap' : Heap) : Prop :=
  ∀ (a : ℕ) node, heap[a]? = some node → node.frozen = true → heap'[a]? = some node

variable {heap heap' : Heap}

theorem Sealed.mono (h : KeepsFrozen heap heap') {r : Ref} (hr : Sealed heap r) : Sealed heap' r := by
  induction hr with
  | leaf v => exact .leaf v
  | function => exact .function
  | object hnode hfrozen _ ih => exact .object (h _ _ hnode hfrozen) hfrozen ih

theorem keepsFrozen_append (hs : Heap) : KeepsFrozen heap (heap ++ hs) := by
  intro a node hnode _
  rw [List.getElem?_append_left (List.getElem?_eq_some_iff.mp hnode).1]
  exact hnode

theorem keepsFrozen_of_begins (h : heap <+: heap') : KeepsFrozen heap heap' := by
  obtain ⟨hs, rfl⟩ := h
  exact keepsFrozen_append hs

theorem keepsFrozen_modify {a : ℕ} (h : ∀ node, heap[a]? = some node → node.frozen = false)
    (f : Node → Node) : KeepsFrozen heap (heap.modify a f) := by
  intro b node hnode hfrozen
  rw [List.getElem?_modify_ne, hnode]
  rintro rfl
  rw [h node hnode] at hfrozen
  cases hfrozen

theorem keepsFrozen_freeze (a : ℕ) :
    KeepsFrozen heap (heap.modify a fun node => { node with frozen := true }) := by
  intro b node hnode hfrozen
  rw [List.getElem?_modify, hnode]
  change some _ = some _
  split
  · rw [← hfrozen]
  · rfl

/-! ## What a call has made -/

/-- An object between `base` and `n`, or no object. -/
def Inside (base n : ℕ) : Ref → Prop
  | .object a => base ≤ a ∧ a < n
  | _ => True

/-- A shared root. -/
def IsRoot (r : Ref) : Prop := r = .object objectPrototype ∨ r = .object arrayPrototype

/-- An object that refers to nothing that was there before, the shared roots apart. -/
structure NodeInside (base n : ℕ) (node : Node) : Prop where
  elements : ∀ r ∈ node.elements.getD [], Inside base n r
  members : ∀ m ∈ node.members, Inside base n m.2
  proto : Inside base n node.proto ∨ IsRoot node.proto

theorem Inside.mono {base n m : ℕ} (hm : n ≤ m) {r : Ref} (h : Inside base n r) : Inside base m r := by
  cases r with
  | object a => exact ⟨h.1, h.2.trans_le hm⟩
  | leaf v => trivial
  | function => trivial

theorem NodeInside.mono {base n m : ℕ} (hm : n ≤ m) {node : Node} (h : NodeInside base n node) :
    NodeInside base m node :=
  ⟨fun r hr => (h.elements r hr).mono hm, fun e he => (h.members e he).mono hm, h.proto.imp_left (Inside.mono hm)⟩

theorem inside_plainObject (base n : ℕ) : NodeInside base n plainObject :=
  ⟨fun _ h => absurd h List.not_mem_nil, fun _ h => absurd h List.not_mem_nil, .inr (.inl rfl)⟩

theorem inside_arrayOf {base n : ℕ} {xs : List Ref} (h : ∀ r ∈ xs, Inside base n r) :
    NodeInside base n (arrayOf xs) :=
  ⟨h, fun _ h => absurd h List.not_mem_nil, .inr (.inr rfl)⟩

theorem NodeInside.entries {base n : ℕ} {node : Node} (h : NodeInside base n node) :
    ∀ m ∈ node.entries, Inside base n m.2 := fun m hm =>
  h.members m ((Cyclic.inKeyOrder_perm _).mem_iff.mp (List.mem_of_mem_filter hm))

theorem NodeInside.values {base n : ℕ} {node : Node} (h : NodeInside base n node) :
    ∀ r ∈ node.values, Inside base n r := by
  intro r hr
  rcases List.mem_append.mp hr with hr | hr
  · exact h.elements r hr
  · obtain ⟨m, hm, rfl⟩ := List.mem_map.mp hr
    exact h.entries m hm

/-- A state in the middle of a call that began in `old`: what was there before is as it was, what
is new keeps to itself, and the documents of the collection are frozen. -/
structure Confined (old w : World) : Prop where
  roots : roots <+: old.heap
  kept : old.heap <+: w.heap
  inside : ∀ (a : ℕ) node, old.heap.length ≤ a → w.heap[a]? = some node →
    NodeInside old.heap.length w.heap.length node
  store : ∀ id, w.store.get id = old.store.get id ∨
    ∃ a, old.heap.length ≤ a ∧ w.store.get id = some (.object a)
  frozen : ∀ id r, w.store.get id = some r → Sealed w.heap r

/-- What a part of a call does in the middle of it. -/
abbrev Within (old : World) (n : ℕ) {α : Type} (x : Run α) (Q : ℕ → α → Prop) : Prop :=
  Builds (Confined old) (fun w => w.heap.length) n x Q

/-- It gives nothing. -/
abbrev Safe (old : World) (n : ℕ) {α : Type} (x : Run α) : Prop := Within old n x fun _ _ => True

/-- No object that was there before, at the end of a part of a call. -/
abbrev Fresh (old : World) (n : ℕ) (r : Ref) : Prop := Inside old.heap.length n r

variable {old w : World} {n : ℕ}

theorem Confined.length (hw : Confined old w) : old.heap.length ≤ w.heap.length := hw.kept.length_le

theorem Confined.setHeap (hw : Confined old w) {heap : Heap} (hkept : old.heap <+: heap)
    (hinside : ∀ (a : ℕ) node, old.heap.length ≤ a → heap[a]? = some node →
      NodeInside old.heap.length heap.length node)
    (hfrozen : KeepsFrozen w.heap heap) : Confined old { w with heap := heap } :=
  ⟨hw.roots, hkept, hinside, hw.store, fun key r hr => (hw.frozen key r hr).mono hfrozen⟩

theorem Confined.modify (hw : Confined old w) {a : ℕ} (ha : old.heap.length ≤ a) {f : Node → Node}
    (hf : ∀ node, w.heap[a]? = some node → NodeInside old.heap.length w.heap.length (f node))
    (hfrozen : KeepsFrozen w.heap (w.heap.modify a f)) :
    Confined old { w with heap := w.heap.modify a f } := by
  refine hw.setHeap (Cyclic.prefix_modify hw.kept ha f) (fun b node hb hnode => ?_) hfrozen
  rw [List.length_modify]
  rw [List.getElem?_modify] at hnode
  obtain ⟨node', hnode', rfl⟩ := Option.map_eq_some_iff.mp hnode
  split
  · next h => exact hf node' (h ▸ hnode')
  · exact hw.inside b node' hb hnode'

theorem mem_setMember {key : Text} {v : Ref} {m : Text × Ref} {ms : List (Text × Ref)}
    (h : m ∈ setMember key v ms) : m.2 = v ∨ m ∈ ms := by
  induction ms with
  | nil =>
    rw [setMember, List.mem_singleton] at h
    exact .inl (h ▸ rfl)
  | cons e ms ih =>
    rw [setMember] at h
    split at h
    · rcases List.mem_cons.mp h with rfl | h
      · exact .inl rfl
      · exact .inr (.tail _ h)
    · rcases List.mem_cons.mp h with rfl | h
      · exact .inr (.head _)
      · exact (ih h).imp_right (.tail _)

/-- What is new can be written to what is new. -/
theorem writable {a : ℕ} (ha : old.heap.length ≤ a) {v : Ref} (hv : Fresh old n v) :
    Writable (fun w => Confined old w ∧ w.heap.length = n) a v where
  member key w hw hfrozen := by
    refine ⟨hw.1.modify ha (fun node hnode => ?_) (keepsFrozen_modify hfrozen _), by simpa using hw.2⟩
    obtain ⟨helements, hmembers, hproto⟩ := hw.1.inside a node ha hnode
    refine ⟨helements, fun m hm => ?_, hproto⟩
    rcases mem_setMember hm with h | h
    · rw [h, hw.2]
      exact hv
    · exact hmembers m h
  proto w hw hfrozen := by
    refine ⟨hw.1.modify ha (fun node hnode => ?_) (keepsFrozen_modify hfrozen _), by simpa using hw.2⟩
    obtain ⟨helements, hmembers, -⟩ := hw.1.inside a node ha hnode
    exact ⟨helements, hmembers, .inl (hw.2 ▸ hv)⟩
  elements w₀ xs hw₀ hxs ys hys w hw hfrozen := by
    refine ⟨hw.1.modify ha (fun node hnode => ?_) (keepsFrozen_modify hfrozen _), by simpa using hw.2⟩
    obtain ⟨-, hmembers, hproto⟩ := hw.1.inside a node ha hnode
    refine ⟨fun r hr => ?_, hmembers, hproto⟩
    rw [hw.2]
    rcases hys r hr with h | rfl | rfl
    · obtain ⟨node₀, hnode₀, hxs⟩ := Option.bind_eq_some_iff.mp hxs
      have hin := (hw₀.1.inside a node₀ ha hnode₀).elements r
      rw [hxs, hw₀.2] at hin
      exact hin h
    · exact hv
    · trivial

/-! ## Reading -/

theorem indexed_mem {key : Text} {node : Node} {v : Ref} (h : node.indexed key = some v) :
    v ∈ node.elements.getD [] ∨ ∃ n, v = .leaf (.num n) := by
  rw [Node.indexed] at h
  obtain ⟨xs, hxs, h⟩ := Option.bind_eq_some_iff.mp h
  rw [hxs]
  split at h
  · exact .inr ⟨_, (Option.some.inj h).symm⟩
  · obtain ⟨i, -, h⟩ := Option.bind_eq_some_iff.mp h
    exact .inl (List.mem_of_getElem? h)

/-- An own value is an element, the length of an array or a member. -/
theorem own_data {heap : Heap} {key : Text} {a : ℕ} {v : Ref} (h : own heap key a = some (.data v)) :
    ∃ node, heap[a]? = some node ∧
      (v ∈ node.elements.getD [] ∨ (∃ n, v = .leaf (.num n)) ∨ ∃ m ∈ node.members, m.2 = v) := by
  obtain ⟨node, hnode, h⟩ := Option.bind_eq_some_iff.mp h
  refine ⟨node, hnode, ?_⟩
  split at h
  · next hindexed =>
    cases h
    exact (indexed_mem hindexed).imp_right .inl
  · next _ hlookup =>
    cases h
    obtain ⟨before, after, hmembers, -⟩ := List.lookup_eq_some_iff.mp hlookup
    exact .inr (.inr ⟨_, hmembers ▸ List.mem_append_right _ (.head _), rfl⟩)
  · split at h
    · cases h
    · cases h

/-- The only accessor is `__proto__`. -/
theorem own_accessor {heap : Heap} {key : Text} {a : ℕ} (h : own heap key a = some .accessor) :
    key = js "__proto__" := by
  obtain ⟨node, -, h⟩ := Option.bind_eq_some_iff.mp h
  split at h
  · cases h
  · cases h
  · split at h
    · next hkey => exact hkey.2
    · cases h

/-- The shared roots: methods, no elements, and each other for prototypes. -/
theorem root_node (hroots : roots <+: heap) {r : Ref} (hr : IsRoot r) {a : ℕ} (ha : r = .object a) :
    ∃ node, heap[a]? = some node ∧ node.elements.getD [] = [] ∧ (∀ m ∈ node.members, m.2 = .function) ∧
      (node.proto = .null ∨ IsRoot node.proto) := by
  have hmethods : ∀ names : List Text, ∀ m ∈ names.map fun name => (name, Ref.function), m.2 = .function := by
    intro names m hm
    obtain ⟨name, -, rfl⟩ := List.mem_map.mp hm
    rfl
  obtain ⟨rest, rfl⟩ := hroots
  rcases hr with rfl | rfl
  · cases ha
    exact ⟨_, rfl, rfl, hmethods _, .inl rfl⟩
  · cases ha
    exact ⟨_, rfl, rfl, hmethods _, .inr (.inl rfl)⟩

/-- What is found from something new is new, a method or a number, or the accessor of `__proto__`. -/
theorem find_inside (hw : Confined old w) {key : Text} (fuel : ℕ) {r : Ref}
    (hr : Fresh old w.heap.length r ∨ IsRoot r) {a : ℕ} {property : Property}
    (h : find w.heap key fuel r = some (a, property)) :
    (∃ v, property = .data v ∧ Fresh old w.heap.length v) ∨ property = .accessor ∧ key = js "__proto__" := by
  induction fuel generalizing r with
  | zero => cases h
  | succ fuel ih =>
    cases r with
    | leaf v => cases h
    | function => cases h
    | object b =>
      rw [find] at h
      cases hown : own w.heap key b with
      | some property' =>
        rw [hown] at h
        cases h
        cases property with
        | accessor => exact .inr ⟨rfl, own_accessor hown⟩
        | data v =>
          refine .inl ⟨v, rfl, ?_⟩
          obtain ⟨node, hnode, hv⟩ := own_data hown
          rcases hr with hr | hr
          · have hin := hw.inside _ node hr.1 hnode
            rcases hv with hv | ⟨k, rfl⟩ | ⟨m, hm, rfl⟩
            · exact hin.elements v hv
            · trivial
            · exact hin.members m hm
          · obtain ⟨node', hnode', helements, hmembers, -⟩ := root_node (hw.roots.trans hw.kept) hr rfl
            rw [hnode] at hnode'
            cases hnode'
            rcases hv with hv | ⟨k, rfl⟩ | ⟨m, hm, rfl⟩
            · rw [helements] at hv
              exact absurd hv List.not_mem_nil
            · trivial
            · rw [hmembers m hm]
              trivial
      | none =>
        rw [hown] at h
        cases hnode : w.heap[b]? with
        | none =>
          rw [protoOf, hnode] at h
          cases fuel <;> cases h
        | some node =>
          rw [protoOf, hnode] at h
          rcases hr with hr | hr
          · exact ih (hw.inside _ node hr.1 hnode).proto h
          · obtain ⟨node', hnode', -, -, hproto⟩ := root_node (hw.roots.trans hw.kept) hr rfl
            rw [hnode] at hnode'
            cases hnode'
            rcases hproto with hproto | hproto
            · refine ih (.inl ?_) h
              rw [Option.elim_some, hproto]
              trivial
            · exact ih (.inr hproto) h

/-- What is read under a key is new, or it is the prototype. -/
theorem reflectGet_cases (hw : Confined old w) (key : Text) {r : Ref} (hr : Fresh old w.heap.length r) :
    Fresh old w.heap.length (reflectGet w.heap key r) ∨
      key = js "__proto__" ∧ IsRoot (reflectGet w.heap key r) := by
  cases r with
  | leaf v => exact .inl trivial
  | function => exact .inl trivial
  | object a =>
    rw [reflectGet]
    cases hfind : find w.heap key w.heap.length (.object a) with
    | none => exact .inl trivial
    | some found =>
      obtain ⟨b, property⟩ := found
      rcases find_inside hw _ (.inl hr) hfind with ⟨v, rfl, hv⟩ | ⟨rfl, hkey⟩
      · exact .inl hv
      · obtain ⟨node, hnode⟩ : ∃ node, w.heap[a]? = some node := ⟨_, List.getElem?_eq_getElem hr.2⟩
        dsimp only
        rw [protoOf, hnode, Option.elim_some]
        exact (hw.inside a node hr.1 hnode).proto.imp_right fun hroot => ⟨hkey, hroot⟩

theorem fresh_reflectGet (hw : Confined old w) {key : Text} (hkey : key ≠ js "__proto__") {r : Ref}
    (hr : Fresh old w.heap.length r) : Fresh old w.heap.length (reflectGet w.heap key r) :=
  (reflectGet_cases hw key hr).resolve_right fun h => hkey h.1

theorem fresh_plainAt {r : Ref} (hr : Fresh old w.heap.length r) {a : ℕ}
    (h : plainAt w.heap r = some a) : Fresh old w.heap.length (.object a) := by
  cases r with
  | object b =>
    rw [plainAt] at h
    split at h
    · cases h
      exact hr
    · cases h
  | leaf v => cases h
  | function => cases h

/-- The elements of a new array, or of a shared root, which has none. -/
theorem fresh_arrayAt (hw : Confined old w) {r : Ref} (hr : Fresh old w.heap.length r ∨ IsRoot r) {a : ℕ}
    {xs : List Ref} (h : arrayAt w.heap r = some (a, xs)) :
    r = .object a ∧ ∀ x ∈ xs, Fresh old w.heap.length x := by
  cases r with
  | object b =>
    rw [arrayAt] at h
    obtain ⟨ys, hys, heq⟩ := Option.map_eq_some_iff.mp h
    obtain ⟨node, hnode, helements⟩ := Option.bind_eq_some_iff.mp hys
    cases heq
    refine ⟨rfl, fun x hx => ?_⟩
    rcases hr with hr | hr
    · have hin := (hw.inside _ node hr.1 hnode).elements x
      rw [helements] at hin
      exact hin hx
    · obtain ⟨node', hnode', hnone, -, -⟩ := root_node (hw.roots.trans hw.kept) hr rfl
      rw [hnode] at hnode'
      cases hnode'
      rw [helements, Option.getD_some] at hnone
      rw [hnone] at hx
      exact absurd hx List.not_mem_nil
  | leaf v => cases h
  | function => cases h

/-! ## The parts of a call -/

theorem within_readHeap :
    Within old n readHeap fun m heap => heap.length = m ∧ ∃ w, Confined old w ∧ w.heap = heap :=
  fun w hw _ => ⟨hw, le_rfl, rfl, w, hw, rfl⟩

theorem within_looking {α : Type} (f : Heap → Except Thrown α) :
    Within old n (looking f) fun _ a => ∃ heap, f heap = .ok a := by
  refine builds_bind within_readHeap fun heap m _ _ => ?_
  cases h : f heap with
  | ok x => exact builds_pure fun _ _ => ⟨heap, h⟩
  | error e => exact builds_throw

theorem safe_looking {α : Type} (f : Heap → Except Thrown α) : Safe old n (looking f) :=
  (within_looking f).mono fun _ _ _ _ => trivial

theorem safe_refuse {α : Type} {Q : ℕ → α → Prop} (message : Text) :
    Within old n (refuse message : Run α) Q := builds_throw

theorem within_allocate {node : Node} (h : NodeInside old.heap.length n node) :
    Within old n (allocate node) fun m r => Fresh old m r ∧ n < m ∧ ∃ a, r = .object a := by
  intro w hw hn
  have hlength : (w.heap ++ [node]).length = w.heap.length + 1 := by simp
  have hkept := hw.kept.trans (List.prefix_append w.heap [node])
  refine ⟨hw.setHeap hkept (fun a node' ha hnode => ?_) (keepsFrozen_append _), ?_, ⟨hw.length, ?_⟩, ?_, _, rfl⟩
  · rw [hlength]
    rw [List.getElem?_append] at hnode
    split at hnode
    · exact (hw.inside a node' ha hnode).mono (Nat.le_succ _)
    · obtain rfl := List.mem_singleton.mp (List.mem_of_getElem? hnode)
      exact h.mono (hn.trans (Nat.le_succ _))
  · exact (Nat.le_succ _).trans_eq hlength.symm
  · exact (Nat.lt_succ_self _).trans_eq hlength.symm
  · exact (Nat.lt_succ_of_le hn).trans_eq hlength.symm

theorem safe_reflectSet {toNumber : Heap → Ref → Number} {a : ℕ} (ha : old.heap.length ≤ a) {v : Ref}
    (hv : Fresh old n v) (key : Text) : Within old n (reflectSet toNumber a key v) fun _ _ => True :=
  builds_of_keeps (E := fun _ => True) fun _ hm =>
    keeps_reflectSet (fun _ _ => trivial) (writable ha (hv.mono hm)) key

theorem safe_assign {toNumber : Heap → Ref → Number} {a : ℕ} (ha : old.heap.length ≤ a) {v : Ref}
    (hv : Fresh old n v) (key : Text) : Safe old n (assign toNumber a key v) :=
  builds_of_keeps (E := fun _ => True) fun _ hm =>
    keeps_assign (fun _ _ => trivial) (writable ha (hv.mono hm)) key

theorem safe_assignEach {toNumber : Heap → Ref → Number} {a : ℕ} (ha : old.heap.length ≤ a)
    {ms : List (Text × Ref)} (hms : ∀ m ∈ ms, Fresh old n m.2) : Safe old n (assignEach toNumber a ms) := by
  induction ms generalizing n with
  | nil => exact builds_pure fun _ _ => trivial
  | cons m ms ih =>
    refine builds_bind (safe_assign ha (hms m (.head _)) m.1) fun _ k hk _ => ?_
    exact ih fun e he => (hms e (.tail _ he)).mono hk

/-- A change that keeps a new object to itself. -/
theorem safe_change {a : ℕ} (ha : old.heap.length ≤ a) {f : Node → Node}
    (hf : ∀ m, n ≤ m → ∀ node, NodeInside old.heap.length m node → NodeInside old.heap.length m (f node)) :
    Within old n (change a f) fun _ _ => True := by
  refine builds_of_keeps (E := fun _ => True) fun m hm => keeps_change fun w hw hfrozen => ?_
  refine ⟨hw.1.modify ha (fun node hnode => ?_) (keepsFrozen_modify hfrozen _), by simpa using hw.2⟩
  exact hf _ (hw.2 ▸ hm) node (hw.1.inside a node ha hnode)

/-- The length of the heap that was read is the address of the next object. -/
theorem read_length {m : ℕ} {heap : Heap} (h : heap.length = m ∧ ∃ w, Confined old w ∧ w.heap = heap) :
    old.heap.length ≤ m := by
  obtain ⟨rfl, w, hw, rfl⟩ := h
  exact hw.length

/-! ### Copies -/

/-- A copy of an object whose properties have been copied. -/
theorem within_object {toNumber : Heap → Ref → Number} {copies : List (Text × Ref)}
    (hcopies : ∀ m ∈ copies, Fresh old n m.2) : Within old n (do
      let b := (← readHeap).length
      let result ← allocate plainObject
      assignEach toNumber b copies
      return result) fun m r => Fresh old m r ∧ ∃ a, r = .object a := by
  refine builds_bind within_readHeap fun heap m hm hheap => ?_
  refine builds_bind (within_allocate (inside_plainObject ..)) fun result k hk hresult => ?_
  have hassigned : Safe old k (assignEach toNumber heap.length copies) :=
    safe_assignEach (hheap.1 ▸ read_length hheap) fun e he => (hcopies e he).mono (hm.trans hk)
  refine builds_bind hassigned fun _ j hj _ => ?_
  exact builds_pure fun i hi => ⟨hresult.1.mono (hj.trans hi), hresult.2.2⟩

variable (d : Reading)

/-- A copy of a tree; only a text becomes a text. -/
def IsCopy (old : World) (x : Value) (m : ℕ) (r : Ref) : Prop :=
  Fresh old m r ∧ ∀ text, r = .leaf (.str text) → x = .str text

theorem isCopy_of_object {x : Value} {m : ℕ} {r : Ref} (h : Fresh old m r) (hobject : ∃ a, r = .object a) :
    IsCopy old x m r := by
  obtain ⟨a, rfl⟩ := hobject
  exact ⟨h, fun _ heq => nomatch heq⟩

mutual

theorem within_load : ∀ (x : Value) {n : ℕ}, Within old n (load d x) (IsCopy old x)
  | .arr xs, _ => builds_bind (within_loadElems xs) fun _ _ _ hrefs =>
      (within_allocate (inside_arrayOf hrefs)).mono fun _ _ _ h => isCopy_of_object h.1 h.2.2
  | .obj ms, _ => builds_bind (within_loadMembers ms) fun _ _ _ hcopies =>
      (within_object hcopies).mono fun _ _ _ h => isCopy_of_object h.1 h.2
  | .str _, _ => builds_pure fun _ _ => ⟨trivial, fun _ heq => by cases heq; rfl⟩
  | .undefined, _ | .null, _ | .bool _, _ | .num _, _ | .date _, _ | .regexp _, _ | .binary _, _ =>
    builds_pure fun _ _ => ⟨trivial, fun _ heq => nomatch heq⟩

theorem within_loadElems : ∀ (xs : List Value) {n : ℕ},
    Within old n (loadElems d xs) fun m refs => ∀ r ∈ refs, Fresh old m r
  | [], _ => builds_pure fun _ _ _ hr => absurd hr List.not_mem_nil
  | x :: xs, _ => builds_bind (within_load x) fun _ _ _ hr =>
      builds_bind (within_loadElems xs) fun _ _ hm hrefs => builds_pure fun _ hk =>
        List.forall_mem_cons.mpr ⟨hr.1.mono (hm.trans hk), fun r h => (hrefs r h).mono hk⟩

theorem within_loadMembers : ∀ (ms : List (Text × Value)) {n : ℕ},
    Within old n (loadMembers d ms) fun m refs => ∀ e ∈ refs, Fresh old m e.2
  | [], _ => builds_pure fun _ _ _ hr => absurd hr List.not_mem_nil
  | (_, x) :: ms, _ => builds_bind (within_load x) fun _ _ _ hr =>
      builds_bind (within_loadMembers ms) fun _ _ hm hrefs => builds_pure fun _ hk =>
        List.forall_mem_cons.mpr ⟨hr.1.mono (hm.trans hk), fun e h => (hrefs e h).mono hk⟩

end

/-! ### Paths -/

/-- No part but the last one is `__proto__`. -/
def Passes (path : Text) : Prop := ∀ part ∈ (splitPath path).dropLast, part ≠ js "__proto__"

instance (path : Text) : Decidable (Passes path) := List.decidableBAll _ _

theorem safe_setParts {value : Ref} {parts : List Text} (hparts : ∀ part ∈ parts.dropLast, part ≠ js "__proto__")
    {current : ℕ} (hcurrent : Fresh old n (.object current)) (hvalue : Fresh old n value) :
    Safe old n (setParts d value parts current) := by
  induction parts generalizing n current with
  | nil => exact builds_pure fun _ _ => trivial
  | cons part parts ih =>
    cases parts with
    | nil => exact safe_assign hcurrent.1 hvalue part
    | cons next rest =>
      rw [List.dropLast_cons_cons] at hparts
      have hrest : ∀ part ∈ (next :: rest).dropLast, part ≠ js "__proto__" := fun p hp => hparts p (.tail _ hp)
      refine builds_bind within_readHeap fun heap m hm ⟨hlength, w, hw, hheap⟩ => ?_
      subst hheap hlength
      split
      · next existing hexisting =>
        have hget := fresh_reflectGet hw (hparts part (.head _)) (hcurrent.mono hm)
        exact ih hrest (fresh_plainAt hget hexisting) (hvalue.mono hm)
      · refine builds_bind (within_allocate (inside_plainObject ..)) fun r k hk hr => ?_
        refine builds_bind (safe_assign hcurrent.1 hr.1 part) fun _ j hj _ => ?_
        exact ih hrest ⟨hw.length, hr.2.1.trans_le hj⟩ (hvalue.mono (hm.trans (hk.trans hj)))

theorem safe_setPath {path : Text} (hpath : Passes path) {document : ℕ}
    (hdocument : Fresh old n (.object document)) {value : Ref} (hvalue : Fresh old n value) :
    Safe old n (setPath d document path value) := by
  rw [setPath]
  split
  · exact builds_pure fun _ _ => trivial
  · exact safe_setParts d hpath hdocument hvalue

/-! ### Targets -/

theorem keyOf_ne_proto {part part' : Text} {positional rest : List ℕ}
    (h : keyOf part positional = .ok (part', rest)) (hpart : part ≠ js "__proto__") : part' ≠ js "__proto__" := by
  unfold keyOf at h
  split at h
  · cases positional with
    | nil => cases h
    | cons i rest =>
      cases h
      intro heq
      have hnumeric := Names.isNumericKey_indexText i
      rw [heq] at hnumeric
      exact absurd hnumeric (by decide)
  · cases h
    exact hpart

theorem within_orRefuse {α : Type} (x : Except Text α) : Within old n (orRefuse x) fun _ a => x = .ok a := by
  cases x with
  | ok a => exact builds_pure fun _ _ => rfl
  | error message => exact builds_throw

/-- The parent is new. -/
def TargetFresh (old : World) (n : ℕ) (target : Target) : Prop :=
  ∀ a, target.parent = some a → Fresh old n (.object a)

theorem TargetFresh.mono {target : Target} (h : TargetFresh old n target) {m : ℕ} (hm : n ≤ m) :
    TargetFresh old m target := fun a ha => (h a ha).mono hm

theorem within_walk (noCreate forbidArray : Bool) {parts : List Text}
    (hparts : ∀ part ∈ parts, part ≠ js "__proto__") (positional : List ℕ) {current : ℕ}
    (hcurrent : Fresh old n (.object current)) :
    Within old n (walk d noCreate forbidArray parts positional current) fun m r => ∀ a, r.1 = some a →
      Fresh old m (.object a) := by
  induction parts generalizing n positional current with
  | nil =>
    refine builds_pure fun m hm a ha => ?_
    cases ha
    exact hcurrent.mono hm
  | cons part parts ih =>
    have hrest : ∀ part ∈ parts, part ≠ js "__proto__" := fun p hp => hparts p (.tail _ hp)
    refine builds_bind (within_orRefuse _) fun key k hk hkey => ?_
    obtain ⟨key, positional'⟩ := key
    have hne := keyOf_ne_proto hkey (hparts part (.head _))
    refine builds_bind within_readHeap fun heap m hm ⟨hlength, w, hw, hheap⟩ => ?_
    subst hheap hlength
    have hcurrent' := hcurrent.mono (hk.trans hm)
    have hget := fresh_reflectGet hw hne hcurrent'
    dsimp only
    split
    · exact safe_refuse _
    · split
      · next next _ _ hplain => exact ih hrest _ (fresh_plainAt hget hplain)
      · next next _ _ _ harray =>
        have hobject := (fresh_arrayAt hw (.inl hget) harray).1
        exact ih hrest _ (hobject ▸ hget)
      · split
        · exact safe_refuse _
        · split
          · exact builds_pure fun _ _ a ha => nomatch ha
          · have hnode : NodeInside old.heap.length w.heap.length
                (if parts.head?.any isNumericKey then arrayOf [] else plainObject) := by
              split
              · exact inside_arrayOf fun _ h => absurd h List.not_mem_nil
              · exact inside_plainObject ..
            refine builds_bind (within_allocate hnode) fun r j hj hr => ?_
            refine builds_bind (safe_reflectSet hcurrent.1 hr.1 key) fun _ i hi _ => ?_
            exact ih hrest _ ⟨hw.length, hr.2.1.trans_le hi⟩

/-- The last part of the path is not `__proto__`. -/
def EndsApart (path : Text) : Prop := (splitPath path).getLastD [] ≠ js "__proto__"

instance (path : Text) : Decidable (EndsApart path) := inferInstanceAs (Decidable (_ ≠ _))

theorem within_modificationTarget (arrayIndices : Option (List ArrayStep)) (noCreate forbidArray : Bool)
    {path : Text} (hpath : Passes path) {document : ℕ} (hdocument : Fresh old n (.object document)) :
    Within old n (modificationTarget d arrayIndices noCreate forbidArray document path)
      fun m target => TargetFresh old m target ∧ (EndsApart path → target.field ≠ js "__proto__") := by
  rw [modificationTarget]
  dsimp only
  split
  · exact safe_refuse _
  · refine builds_bind (within_walk d noCreate forbidArray hpath _ hdocument) fun found m hm hfound => ?_
    obtain ⟨parent, positional⟩ := found
    dsimp only
    split
    · exact builds_pure fun _ _ => ⟨fun _ ha => (nomatch ha), id⟩
    · refine builds_bind (within_orRefuse _) fun key k hk hkey => ?_
      obtain ⟨field, positional'⟩ := key
      exact builds_pure fun j hj => ⟨fun a ha => (hfound a ha).mono (hk.trans hj), keyOf_ne_proto hkey⟩

theorem safe_writeField {target : Target} (htarget : TargetFresh old n target) {value : Ref}
    (hvalue : Fresh old n value) : Safe old n (writeField d target value) := by
  rw [writeField]
  cases hparent : target.parent with
  | some parent =>
    exact builds_bind (safe_reflectSet (htarget parent hparent).1 hvalue target.field) fun _ _ _ _ =>
      builds_pure fun _ _ => trivial
  | none => exact builds_pure fun _ _ => trivial

theorem safe_deleteProperty {a : ℕ} (ha : old.heap.length ≤ a) (key : Text) : Safe old n (deleteProperty a key) :=
  safe_change ha fun _ _ _ hnode =>
    ⟨hnode.elements, fun e he => hnode.members e (List.mem_of_mem_filter he), hnode.proto⟩

theorem safe_removeField {target : Target} (htarget : TargetFresh old n target) :
    Safe old n (removeField d target) := by
  rw [removeField]
  cases hparent : target.parent with
  | some parent =>
    refine builds_bind within_readHeap fun heap m hm _ => ?_
    split
    · exact safe_assign (v := .null) (htarget parent hparent).1 trivial _
    · exact builds_bind (safe_deleteProperty (htarget parent hparent).1 _) fun _ _ _ _ =>
        builds_pure fun _ _ => trivial
  | none => exact builds_pure fun _ _ => trivial

/-- What is read at a target is new, unless its field is `__proto__`. -/
theorem readField_cases (hw : Confined old w) {target : Target} (htarget : TargetFresh old w.heap.length target) :
    Fresh old w.heap.length (readField w.heap target) ∨
      target.field = js "__proto__" ∧ IsRoot (readField w.heap target) := by
  rw [readField]
  cases hparent : target.parent with
  | some parent => exact reflectGet_cases hw target.field (htarget parent hparent)
  | none => exact .inl trivial

theorem fresh_readField (hw : Confined old w) {target : Target} (htarget : TargetFresh old w.heap.length target)
    (hfield : target.field ≠ js "__proto__") : Fresh old w.heap.length (readField w.heap target) :=
  (readField_cases hw htarget).resolve_right fun h => hfield h.1

/-! ### Arrays -/

theorem fresh_elements (hw : Confined old w) {a : ℕ} (ha : Fresh old w.heap.length (.object a)) :
    ∀ x ∈ (w.heap[a]?.bind Node.elements).getD [], Fresh old w.heap.length x := by
  intro x hx
  cases hnode : w.heap[a]? with
  | none =>
    rw [hnode] at hx
    exact absurd hx List.not_mem_nil
  | some node =>
    rw [hnode] at hx
    exact (hw.inside a node ha.1 hnode).elements x hx

theorem safe_setElements {a : ℕ} (ha : old.heap.length ≤ a) {xs : List Ref} (hxs : ∀ x ∈ xs, Fresh old n x) :
    Safe old n (setElements a xs) := by
  refine builds_bind (safe_change ha fun m hm node hnode => ?_) fun changed _ _ _ => ?_
  · exact ⟨fun x hx => (hxs x hx).mono hm, hnode.members, hnode.proto⟩
  · split
    · exact builds_pure fun _ _ => trivial
    · exact builds_throw

theorem mem_slicedRefs {k : Number} {xs : List Ref} {x : Ref} (h : x ∈ slicedRefs k xs) : x ∈ xs := by
  rw [slicedRefs] at h
  split at h
  · exact absurd h List.not_mem_nil
  · split at h
    · exact List.mem_of_mem_drop h
    · exact List.mem_of_mem_take h

theorem safe_pushSort (argument : Ref) {current : ℕ} (hcurrent : Fresh old n (.object current)) (each : List Ref) :
    Safe old n (pushSort d argument current each) := by
  refine builds_bind within_readHeap fun heap m hm ⟨hlength, w, hw, hheap⟩ => ?_
  subst hheap hlength
  dsimp only
  split
  · exact builds_pure fun _ _ => trivial
  · split
    · exact safe_refuse _
    · split
      · exact safe_refuse _
      · refine builds_bind (safe_looking _) fun order k hk _ => safe_setElements hcurrent.1 fun x hx => ?_
        obtain ⟨i, -, hi⟩ := List.mem_filterMap.mp hx
        exact (fresh_elements hw (hcurrent.mono hm) x (List.mem_of_getElem? hi)).mono hk

theorem safe_pushSlice {target : Target} (htarget : TargetFresh old n target) (argument : Ref) {current : ℕ}
    (hcurrent : Fresh old n (.object current)) : Safe old n (pushSlice d target argument current) := by
  refine builds_bind within_readHeap fun heap m hm ⟨hlength, w, hw, hheap⟩ => ?_
  subst hheap hlength
  split
  · exact builds_pure fun _ _ => trivial
  · refine builds_bind (within_allocate (inside_arrayOf fun x hx => ?_)) fun r k hk hr => ?_
    · exact fresh_elements hw (hcurrent.mono hm) x (mem_slicedRefs hx)
    · exact safe_writeField d (htarget.mono (hm.trans hk)) hr.1
  · exact safe_refuse _

theorem within_pushTarget {target : Target} (htarget : TargetFresh old n target)
    (hfield : target.field ≠ js "__proto__") :
    Within old n (pushTarget d target) fun m a => Fresh old m (.object a) := by
  refine builds_bind within_readHeap fun heap m hm ⟨hlength, w, hw, hheap⟩ => ?_
  subst hheap hlength
  have hread := fresh_readField hw (htarget.mono hm) hfield
  split
  · refine builds_bind (within_allocate (inside_arrayOf fun _ h => absurd h List.not_mem_nil)) fun r k hk hr => ?_
    refine builds_bind (safe_writeField d (htarget.mono (hm.trans hk)) hr.1) fun _ j hj _ => ?_
    exact builds_pure fun i hi => ⟨hw.length, hr.2.1.trans_le (hj.trans hi)⟩
  · next harray _ =>
    refine builds_pure fun i hi => ?_
    rw [(fresh_arrayAt hw (.inl hread) harray).1] at hread
    exact hread.mono hi
  · exact safe_refuse _

theorem safe_applyPush (stack : ℕ) {target : Target} (htarget : TargetFresh old n target)
    (hfield : target.field ≠ js "__proto__") {argument : Ref} (hargument : Fresh old n argument) :
    Safe old n (applyPush d stack target argument) := by
  refine builds_bind (within_pushTarget d htarget hfield) fun current k hk hcurrent => ?_
  refine builds_bind within_readHeap fun heap m hm ⟨hlength, w, hw, hheap⟩ => ?_
  subst hheap hlength
  have helements := fresh_elements hw (hcurrent.mono hm)
  dsimp only
  split
  · refine builds_bind (safe_looking _) fun _ j hj _ => safe_setElements hcurrent.1 fun x hx => ?_
    rcases List.mem_append.mp hx with hx | hx
    · exact (helements x hx).mono hj
    · rw [List.mem_singleton.mp hx]
      exact hargument.mono (hk.trans (hm.trans hj))
  · split
    · exact safe_refuse _
    · next each items harray =>
      have heach := fresh_reflectGet hw (show js "$each" ≠ js "__proto__" by decide) (hargument.mono (hk.trans hm))
      have hitems := (fresh_arrayAt hw (.inl heach) harray).2
      refine builds_bind (safe_looking _) fun _ j hj _ => ?_
      refine builds_bind (within_orRefuse _) fun index i hi _ => ?_
      refine builds_bind (safe_setElements hcurrent.1 fun x hx => ?_) fun _ l hl _ => ?_
      · refine Inside.mono (hj.trans hi) ?_
        rcases List.mem_append.mp hx with hx | hx
        · rcases List.mem_append.mp hx with hx | hx
          · exact helements x (List.mem_of_mem_take hx)
          · exact hitems x hx
        · exact helements x (List.mem_of_mem_drop hx)
      · have hlater : k ≤ l := hm.trans (hj.trans (hi.trans hl))
        refine builds_bind (safe_pushSort d argument (hcurrent.mono hlater) items) fun _ q hq _ => ?_
        replace hlater := hlater.trans hq
        exact safe_pushSlice d (htarget.mono (hk.trans hlater)) argument (hcurrent.mono hlater)

/-! ### Operators -/

theorem safe_applyArithmetic (operator : Text) {target : Target} (htarget : TargetFresh old n target)
    (argument current : Ref) : Safe old n (applyArithmetic d operator target argument current) := by
  have hwritten : ∀ r : Option Number,
      Safe old n (r.elim (pure ()) fun r => writeField d target (.leaf (.num r))) := by
    intro r
    cases r with
    | none => exact builds_pure fun _ _ => trivial
    | some r => exact safe_writeField d htarget (show Fresh old n (.leaf (.num r)) from trivial)
  rw [applyArithmetic.eq_def]
  split
  · exact hwritten _
  · exact hwritten _
  · exact safe_refuse _
  · exact safe_refuse _

theorem safe_applyRename {document : ℕ} (hdocument : Fresh old n (.object document)) (path : Text)
    {target : Target} (htarget : TargetFresh old n target) {argument current : Ref}
    (hcurrent : Fresh old n current) (hrenamed : ∀ renamed, argument = .leaf (.str renamed) → Passes renamed) :
    Safe old n (applyRename d document path target argument current) := by
  rw [applyRename.eq_def]
  split
  · next renamed =>
    split
    · exact safe_refuse _
    · split
      · exact safe_refuse _
      · split
        · exact builds_pure fun _ _ => trivial
        · refine builds_bind (safe_removeField d htarget) fun _ k hk _ => ?_
          have hwithin := within_modificationTarget d none false true (hrenamed renamed rfl) (hdocument.mono hk)
          refine builds_bind hwithin fun destination j hj hdestination => ?_
          exact safe_writeField d hdestination.1 (hcurrent.mono (hk.trans hj))
  · exact safe_refuse _

theorem within_addToSetItems {argument : Ref} (hargument : Fresh old n argument) :
    Within old n (addToSetItems argument) fun m r => Fresh old m r.1 ∧ ∀ x ∈ r.2, Fresh old m x := by
  refine builds_bind within_readHeap fun heap m hm ⟨hlength, w, hw, hheap⟩ => ?_
  subst hheap hlength
  split
  · next each items _ harray =>
    have heach := fresh_reflectGet hw (show js "$each" ≠ js "__proto__" by decide) (hargument.mono hm)
    obtain ⟨hobject, hitems⟩ := fresh_arrayAt hw (.inl heach) harray
    rw [hobject] at heach
    exact builds_pure fun k hk => ⟨heach.mono hk, fun x hx => (hitems x hx).mono hk⟩
  · have hsingle : ∀ x ∈ [argument], Fresh old w.heap.length x := fun x hx =>
      List.mem_singleton.mp hx ▸ hargument.mono hm
    refine builds_bind (within_allocate (inside_arrayOf hsingle)) fun r k hk hr => ?_
    exact builds_pure fun j hj => ⟨hr.1.mono hj, fun x hx => (hsingle x hx).mono (hk.trans hj)⟩

theorem mem_addToSet {heap : Heap} {items current : List Ref} {x : Ref} (h : x ∈ addToSet d heap items current) :
    x ∈ current ∨ x ∈ items := by
  rw [addToSet] at h
  induction items generalizing current with
  | nil => exact .inl h
  | cons item items ih =>
    rw [List.foldl_cons] at h
    split at h
    · exact (ih h).imp_right (.tail _)
    · rcases ih h with h | h
      · rcases List.mem_append.mp h with h | h
        · exact .inl h
        · exact .inr (List.mem_singleton.mp h ▸ .head _)
      · exact .inr (.tail _ h)

theorem safe_applyAddToSet {target : Target} (htarget : TargetFresh old n target) {argument current : Ref}
    (hargument : Fresh old n argument) (hcurrent : Fresh old n current) :
    Safe old n (applyAddToSet d target argument current) := by
  refine builds_bind (within_addToSetItems hargument) fun found k hk hfound => ?_
  obtain ⟨holder, items⟩ := found
  refine builds_bind within_readHeap fun heap m hm ⟨hlength, w, hw, hheap⟩ => ?_
  subst hheap hlength
  split
  · exact safe_writeField d (htarget.mono (hk.trans hm)) (hfound.1.mono hm)
  · next _ harray =>
    have hin := hcurrent.mono (hk.trans hm)
    obtain ⟨hobject, hxs⟩ := fresh_arrayAt hw (.inl hin) harray
    rw [hobject] at hin
    refine safe_setElements hin.1 fun x hx => ?_
    rcases mem_addToSet d hx with hx | hx
    · exact hxs x hx
    · exact (hfound.2 x hx).mono hm
  · exact safe_refuse _

theorem mem_pull {heap : Heap} {items xs kept : List Ref} (h : pull d heap items xs = .ok kept) {x : Ref}
    (hx : x ∈ kept) : x ∈ xs := by
  induction xs generalizing kept with
  | nil =>
    cases h
    exact hx
  | cons value xs ih =>
    rw [pull] at h
    cases hpulled : items.anyM fun item => d.pullMatches heap value item with
    | error e =>
      rw [hpulled] at h
      cases h
    | ok pulled =>
      rw [hpulled] at h
      cases hrest : pull d heap items xs with
      | error e =>
        rw [hrest] at h
        cases h
      | ok rest =>
        rw [hrest] at h
        cases pulled with
        | true =>
          cases h
          exact .tail _ (ih hrest hx)
        | false =>
          cases h
          rcases List.mem_cons.mp hx with rfl | hx
          · exact .head _
          · exact .tail _ (ih hrest hx)

theorem safe_pullItems (operator : Text) (argument : Ref) :
    Within old n (pullItems operator argument) fun _ _ => True := by
  rw [pullItems]
  split
  · exact builds_pure fun _ _ => trivial
  · refine builds_bind within_readHeap fun heap m hm _ => ?_
    split
    · exact builds_pure fun _ _ => trivial
    · exact safe_refuse _

theorem safe_applyPull (operator : Text) {target : Target} (htarget : TargetFresh old n target)
    (argument : Ref) {current : Ref} (hcurrent : Fresh old n current ∨ IsRoot current) :
    Safe old n (applyPull d operator target argument current) := by
  refine builds_bind within_readHeap fun heap m hm ⟨hlength, w, hw, hheap⟩ => ?_
  subst hheap hlength
  split
  · exact builds_pure fun _ _ => trivial
  · next _ harray =>
    have hxs := (fresh_arrayAt hw (hcurrent.imp_left (Inside.mono hm)) harray).2
    refine builds_bind (safe_pullItems operator argument) fun items k hk _ => ?_
    refine builds_bind (within_looking _) fun kept j hj hkept => ?_
    obtain ⟨heap, hpull⟩ := hkept
    refine builds_bind (within_allocate (inside_arrayOf fun x hx => ?_)) fun r i hi hr => ?_
    · exact (hxs x (mem_pull d hpull hx)).mono (hk.trans hj)
    · exact safe_writeField d (htarget.mono (hm.trans (hk.trans (hj.trans hi)))) hr.1
  · exact safe_refuse _

theorem safe_applyPushAll {target : Target} (htarget : TargetFresh old n target) {argument current : Ref}
    (hargument : Fresh old n argument) (hcurrent : Fresh old n current) :
    Safe old n (applyPushAll d target argument current) := by
  refine builds_bind within_readHeap fun heap m hm ⟨hlength, w, hw, hheap⟩ => ?_
  subst hheap hlength
  split
  · exact safe_refuse _
  · exact safe_writeField d (htarget.mono hm) (hargument.mono hm)
  · next hitems _ harray =>
    have hin := hcurrent.mono hm
    obtain ⟨hobject, hxs⟩ := fresh_arrayAt hw (.inl hin) harray
    rw [hobject] at hin
    refine safe_setElements hin.1 fun x hx => ?_
    rcases List.mem_append.mp hx with hx | hx
    · exact hxs x hx
    · exact (fresh_arrayAt hw (.inl (hargument.mono hm)) hitems).2 x hx
  · exact safe_refuse _

theorem safe_applyPop (argument : Ref) {current : Ref} (hcurrent : Fresh old n current) :
    Safe old n (applyPop argument current) := by
  refine builds_bind within_readHeap fun heap m hm ⟨hlength, w, hw, hheap⟩ => ?_
  subst hheap hlength
  split
  · exact builds_pure fun _ _ => trivial
  · next _ harray =>
    have hin := hcurrent.mono hm
    obtain ⟨hobject, hxs⟩ := fresh_arrayAt hw (.inl hin) harray
    rw [hobject] at hin
    refine safe_setElements hin.1 fun x hx => hxs x ?_
    split at hx
    · exact List.mem_of_mem_tail hx
    · exact List.mem_of_mem_dropLast hx
  · exact safe_refuse _

/-! ### Modifiers -/

/-- The operators that move what they find at their path, or change the array they find there. -/
def moving : List Text := [js "$rename", js "$push", js "$pushAll", js "$addToSet", js "$pop"]

/-- The target of a `$rename`. -/
def TargetPasses : Value → Prop
  | .str renamed => Passes renamed
  | _ => True

instance : (argument : Value) → Decidable (TargetPasses argument)
  | .str renamed => inferInstanceAs (Decidable (Passes renamed))
  | .undefined | .null | .bool _ | .num _ | .date _ | .regexp _ | .binary _ | .arr _ | .obj _ => isTrue trivial

/-- No path of the operator leads onto a shared root. -/
def Clear (operator path : Text) (argument : Value) : Prop :=
  Passes path ∧ (operator ∈ moving → EndsApart path) ∧ (operator = js "$rename" → TargetPasses argument)

instance (operator path : Text) (argument : Value) : Decidable (Clear operator path argument) :=
  inferInstanceAs (Decidable (_ ∧ _ ∧ _))

theorem safe_applyAt (stack : ℕ) (options : ModifyOptions) {document : ℕ}
    (hdocument : Fresh old n (.object document)) {operator path : Text} {argument : Value}
    (hclear : Clear operator path argument) {r : Ref} (hr : IsCopy old argument n r) {target : Target}
    (htarget : TargetFresh old n target) (hfield : EndsApart path → target.field ≠ js "__proto__") :
    Safe old n (applyAt d stack options document operator path r target) := by
  refine builds_bind within_readHeap fun heap m hm ⟨hlength, w, hw, hheap⟩ => ?_
  subst hheap hlength
  replace hdocument := hdocument.mono hm
  replace htarget := htarget.mono hm
  have hargument := hr.1.mono hm
  have hcurrent (hoperator : operator ∈ moving) : Fresh old w.heap.length (readField w.heap target) :=
    fresh_readField hw htarget (hfield (hclear.2.1 hoperator))
  by_cases hset : operator = js "$set"
  · rw [if_pos hset]
    exact builds_bind (safe_looking _) fun _ _ hk _ => safe_writeField d (htarget.mono hk) (hargument.mono hk)
  rw [if_neg hset]
  by_cases hunset : operator = js "$unset"
  · rw [if_pos hunset]
    exact safe_removeField d htarget
  rw [if_neg hunset]
  by_cases harithmetic : operator ∈ Modifier.arithmeticOperators
  · rw [if_pos harithmetic]
    exact safe_applyArithmetic d operator htarget r _
  rw [if_neg harithmetic]
  by_cases hdate : operator = js "$currentDate"
  · rw [if_pos hdate]
    split
    · exact safe_writeField d htarget (show Fresh old _ (.leaf (.date (some options.now))) from trivial)
    · exact safe_refuse _
  rw [if_neg hdate]
  by_cases hrename : operator = js "$rename"
  · rw [if_pos hrename]
    refine safe_applyRename d hdocument path htarget (hcurrent (hrename ▸ by decide)) fun renamed heq => ?_
    have hrenamed := hclear.2.2 hrename
    rw [hr.2 renamed heq] at hrenamed
    exact hrenamed
  rw [if_neg hrename]
  by_cases hpush : operator = js "$push"
  · rw [if_pos hpush]
    exact safe_applyPush d stack htarget (hfield (hclear.2.1 (hpush ▸ by decide))) hargument
  rw [if_neg hpush]
  by_cases hpushAll : operator = js "$pushAll"
  · rw [if_pos hpushAll]
    exact safe_applyPushAll d htarget hargument (hcurrent (hpushAll ▸ by decide))
  rw [if_neg hpushAll]
  by_cases haddToSet : operator = js "$addToSet"
  · rw [if_pos haddToSet]
    exact safe_applyAddToSet d htarget hargument (hcurrent (haddToSet ▸ by decide))
  rw [if_neg haddToSet]
  by_cases hpop : operator = js "$pop"
  · rw [if_pos hpop]
    exact safe_applyPop r (hcurrent (hpop ▸ by decide))
  rw [if_neg hpop]
  by_cases hpull : operator = js "$pull" ∨ operator = js "$pullAll"
  · rw [if_pos hpull]
    exact safe_applyPull d operator htarget r ((readField_cases hw htarget).imp_right And.right)
  rw [if_neg hpull]
  split
  · exact safe_refuse _
  · split
    · exact builds_pure fun _ _ => trivial
    · exact safe_refuse _

/-- The operator does nothing: `$setOnInsert`, on a document that was there. -/
def Idle (isInsert : Bool) (operator : Text) : Prop := operator = js "$setOnInsert" ∧ isInsert = false

instance (isInsert : Bool) (operator : Text) : Decidable (Idle isInsert operator) :=
  inferInstanceAs (Decidable (_ ∧ _))

theorem safe_applyModifierOperator (stack : ℕ) (options : ModifyOptions) {document : ℕ}
    (hdocument : Fresh old n (.object document)) {operator path : Text} {argument : Value}
    (hclear : Idle options.isInsert operator ∨ Clear operator path argument) :
    Safe old n (applyModifierOperator d stack options document operator path argument) := by
  refine builds_bind (within_load d argument) fun r k hk hr => ?_
  split
  · exact builds_pure fun _ _ => trivial
  · next hidle =>
    replace hclear := hclear.resolve_left hidle
    have hactual : Clear (if operator = js "$setOnInsert" then js "$set" else operator) path argument := by
      split
      · exact ⟨hclear.1, fun h => absurd h (by decide), fun h => absurd h (by decide)⟩
      · exact hclear
    have htarget := within_modificationTarget d options.arrayIndices
      ((if operator = js "$setOnInsert" then js "$set" else operator) ∈ Modifier.noCreateOperators)
      ((if operator = js "$setOnInsert" then js "$set" else operator) = js "$rename") hclear.1 (hdocument.mono hk)
    refine builds_bind htarget fun target m hm h => ?_
    exact safe_applyAt d stack options (hdocument.mono (hk.trans hm)) hactual ⟨hr.1.mono hm, hr.2⟩ h.1 h.2

theorem safe_applyFields (stack : ℕ) (options : ModifyOptions) {document : ℕ}
    (hdocument : Fresh old n (.object document)) {operator : Text} {fields : List (Text × Value)}
    (hclear : Idle options.isInsert operator ∨ ∀ e ∈ fields, Clear operator e.1 e.2) :
    Safe old n (applyFields d stack options document operator fields) := by
  induction fields generalizing n with
  | nil => exact builds_pure fun _ _ => trivial
  | cons e fields ih =>
    rw [applyFields]
    split
    · exact safe_refuse _
    · have hfirst := hclear.imp_right fun h => h e (.head _)
      refine builds_bind (safe_applyModifierOperator d stack options hdocument hfirst) fun _ k hk _ => ?_
      exact ih (hdocument.mono hk) (hclear.imp_right fun h e' he => h e' (.tail _ he))

/-- The fields of one operator. -/
def ClearFields (isInsert : Bool) (operator : Text) (fields : Value) : Prop :=
  Idle isInsert operator ∨ ∀ e ∈ (copiedObject fields).getD [], Clear operator e.1 e.2

instance (isInsert : Bool) (operator : Text) (fields : Value) : Decidable (ClearFields isInsert operator fields) :=
  inferInstanceAs (Decidable (_ ∨ _))

theorem safe_applyOperators (stack : ℕ) (options : ModifyOptions) {document : ℕ}
    (hdocument : Fresh old n (.object document)) {ms : List (Text × Value)}
    (hclear : ∀ o ∈ ms, ClearFields options.isInsert o.1 o.2) :
    Safe old n (applyOperators d stack options document ms) := by
  induction ms generalizing n with
  | nil => exact builds_pure fun _ _ => trivial
  | cons o ms ih =>
    have hfields := hclear o (.head _)
    rw [ClearFields] at hfields
    rw [applyOperators]
    cases hcopied : copiedObject o.2 with
    | none => exact safe_refuse _
    | some fields =>
      rw [hcopied, Option.getD_some] at hfields
      refine builds_bind (safe_applyFields d stack options hdocument hfields) fun _ k hk _ => ?_
      exact ih (hdocument.mono hk) fun o' ho => hclear o' (.tail _ ho)

theorem safe_replaceDocument (stack : ℕ) (modifier : Value) {document : ℕ}
    (hdocument : Fresh old n (.object document)) : Safe old n (replaceDocument d stack modifier document) := by
  refine builds_bind (within_load d modifier) fun cloned k hk hcloned => ?_
  refine builds_bind (safe_looking _) fun _ j hj _ => ?_
  refine builds_bind within_readHeap fun heap m hm ⟨hlength, w, hw, hheap⟩ => ?_
  subst hheap hlength
  replace hdocument := hdocument.mono (hk.trans (hj.trans hm))
  have hclonedm := hcloned.1.mono (hj.trans hm)
  have hid := fresh_reflectGet hw (show js "_id" ≠ js "__proto__" by decide) hdocument
  dsimp only
  split
  · exact safe_refuse _
  · refine builds_bind (builds_forM fun m _ => ?_) fun _ i hi _ => ?_
    · refine builds_bind (safe_deleteProperty hdocument.1 m.1) fun deleted _ _ _ => ?_
      split
      · exact builds_pure fun _ _ => trivial
      · exact builds_throw
    · refine builds_bind (safe_assignEach hdocument.1 fun e he => ?_) fun _ l hl _ => ?_
      · refine Inside.mono hi ?_
        cases cloned with
        | leaf v => exact absurd he List.not_mem_nil
        | function => exact absurd he List.not_mem_nil
        | object a =>
          dsimp only at he
          cases hnode : w.heap[a]? with
          | none =>
            rw [hnode] at he
            exact absurd he List.not_mem_nil
          | some node =>
            rw [hnode] at he
            exact (hw.inside a node hclonedm.1 hnode).entries e he
      · split
        · exact builds_pure fun _ _ => trivial
        · exact builds_bind (safe_reflectSet hdocument.1 (hid.mono (hi.trans hl)) _) fun _ _ _ _ =>
            builds_pure fun _ _ => trivial

/-- A replacement, or operators with no path onto a shared root. -/
def ClearModifier (isInsert : Bool) : Value → Prop
  | .obj ms => (∀ o ∈ copiedEntries ms, startsWith (js "$") o.1) →
    ∀ o ∈ copiedEntries ms, ClearFields isInsert o.1 o.2
  | _ => True

instance (isInsert : Bool) : (modifier : Value) → Decidable (ClearModifier isInsert modifier)
  | .obj ms => inferInstanceAs (Decidable
      ((∀ o ∈ copiedEntries ms, startsWith (js "$") o.1) → ∀ o ∈ copiedEntries ms, ClearFields isInsert o.1 o.2))
  | .undefined | .null | .bool _ | .num _ | .str _ | .date _ | .regexp _ | .binary _ | .arr _ => isTrue trivial

/-- What is clear for an insert is clear for an update. -/
theorem ClearModifier.update {modifier : Value} (h : ClearModifier true modifier) :
    ClearModifier false modifier := by
  cases modifier with
  | obj ms => exact fun hall o ho => .inr ((h hall o ho).resolve_left fun hidle => nomatch hidle.2)
  | _ => trivial

theorem safe_modifyDocument (stack : ℕ) (options : ModifyOptions) {modifier : Value}
    (hclear : ClearModifier options.isInsert modifier) {document : ℕ}
    (hdocument : Fresh old n (.object document)) :
    Safe old n (modifyDocument d stack options modifier document) := by
  rw [modifyDocument.eq_def]
  split
  · next ms =>
    dsimp only
    split
    · exact safe_replaceDocument d stack _ hdocument
    · split
      · exact safe_refuse _
      · next hlength =>
        rw [not_not] at hlength
        exact safe_applyOperators d stack options hdocument (hclear (List.length_filter_eq_length_iff.mp hlength))
  · exact safe_refuse _

end TypeFerry.Minimongo.SharedRoot
