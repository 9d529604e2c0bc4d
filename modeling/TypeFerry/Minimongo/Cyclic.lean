import Mathlib.Logic.Relation
import Mathlib.Data.Fintype.Card
import TypeFerry.Lib.Triples
import TypeFerry.Minimongo.Objects
import TypeFerry.Minimongo.Places

/-! # Documents with shared and with cyclic parts

A document given to `insert` is a graph of objects. Where no cycle is reachable
the graph has an unfolding, and that is what the collection stores. The walk that
looks for cycles is the last of three: on a cycle the copy before it never
returns, whatever the call stack holds, so a `RangeError` stands where the
collection means to throw its `TypeError`. -/
namespace TypeFerry.Minimongo.Cyclic
open TypeFerry.Lib.Numeral TypeFerry.Lib.JsonText TypeFerry.Lib.OrderedMap TypeFerry.Lib.Triples
open TypeFerry.Ejson.Clone TypeFerry.Ejson.Canonical TypeFerry.Minimongo.Values
open TypeFerry.Minimongo.Modifier TypeFerry.Minimongo.Objects TypeFerry.Minimongo.Exclusion
open TypeFerry.Minimongo.Places (getOwn_set)

/-! ## Graphs -/

/-- An object refers to another one by an element or an enumerable property. -/
def Refers (heap : Heap) (a b : ℕ) : Prop := ∃ node, heap[a]? = some node ∧ .object b ∈ node.values

abbrev Reaches (heap : Heap) : ℕ → ℕ → Prop := Relation.ReflTransGen (Refers heap)

/-- A cycle is reachable. -/
def HasCycle (heap : Heap) (a : ℕ) : Prop :=
  ∃ b, Reaches heap a b ∧ Relation.TransGen (Refers heap) b b

/-- A plain object or an array, without functions. -/
structure IsValue (node : Node) : Prop where
  keys : (node.members.map Prod.fst).Nodup
  hidden : node.hidden = []
  shape : node.elements = none ∧ (node.proto = .object objectPrototype ∨ node.proto = .null) ∨
    node.elements.isSome ∧ node.members = []
  values : .function ∉ node.values

/-- The objects reachable from `a` are the parts of a document. -/
structure ValueGraph (heap : Heap) (a : ℕ) : Prop where
  document : ∃ node, heap[a]? = some node ∧ node.elements = none
  parts : ∀ b, Reaches heap a b → ∃ node, heap[b]? = some node ∧ IsValue node

/-- The value that a reference stands for, up to a depth. -/
def Unfolds (heap : Heap) : ℕ → Ref → Value → Prop
  | 0, _, _ => False
  | _ + 1, .leaf v, x => x = v.value
  | _ + 1, .function, _ => False
  | depth + 1, .object a, x => ∃ node, heap[a]? = some node ∧
    ((∃ refs xs, node.elements = some refs ∧ node.members = [] ∧ x = .arr xs ∧
        List.Forall₂ (Unfolds heap depth) refs xs) ∨
      ∃ ms, node.elements = none ∧ (node.proto = .object objectPrototype ∨ node.proto = .null) ∧
        x = .obj ms ∧
        List.Forall₂ (fun m m' => m'.1 = m.1 ∧ Unfolds heap depth m.2 m'.2) node.entries ms)

variable {heap heap' : Heap}

theorem forall₂_exists {α β : Type} {R : α → β → Prop} : ∀ {xs : List α},
    (∃ ys, List.Forall₂ R xs ys) ↔ ∀ x ∈ xs, ∃ y, R x y
  | [] => by simp
  | x :: xs => by
    rw [List.forall_mem_cons, ← forall₂_exists]
    constructor
    · intro ⟨ys, h⟩
      cases h with
      | cons hx h => exact ⟨⟨_, hx⟩, _, h⟩
    · intro ⟨⟨y, hy⟩, ys, hys⟩
      exact ⟨y :: ys, .cons hy hys⟩

theorem Node.values_eq {node : Node} (h : node.elements = none) :
    node.values = node.entries.map Prod.snd := by
  rw [Node.values, h]
  rfl

theorem Node.values_arr {node : Node} {refs : List Ref} (h : node.elements = some refs)
    (hmembers : node.members = []) : node.values = refs := by
  rw [Node.values, h, Node.entries, hmembers]
  exact List.append_nil refs

theorem forall₂_left {α β : Type} {P : α → Prop} {xs : List α} {ys : List β}
    (h : List.Forall₂ (fun x _ => P x) xs ys) : ∀ x ∈ xs, P x := by
  intro x hx
  exact (forall₂_exists.mp ⟨ys, h⟩ x hx).choose_spec

/-- The parts of what has an unfolding have one. -/
theorem unfolds_values {depth : ℕ} {a : ℕ} {x : Value} {node : Node}
    (h : Unfolds heap (depth + 1) (.object a) x) (hnode : heap[a]? = some node) :
    ∀ r ∈ node.values, ∃ y, Unfolds heap depth r y := by
  obtain ⟨_, hnode', ⟨refs, xs, helements, hmembers, rfl, hall⟩ | ⟨ms, helements, -, rfl, hall⟩⟩ := h
  · obtain rfl := Option.some.inj (hnode'.symm.trans hnode)
    rw [Node.values_arr helements hmembers]
    exact forall₂_exists.mp ⟨xs, hall⟩
  · obtain rfl := Option.some.inj (hnode'.symm.trans hnode)
    intro r hr
    rw [Node.values_eq helements] at hr
    obtain ⟨m, hm, rfl⟩ := List.mem_map.mp hr
    obtain ⟨m', hm'⟩ := forall₂_exists.mp ⟨ms, hall⟩ m hm
    exact ⟨m'.2, hm'.2⟩

/-- What unfolds in one heap does so in another one that agrees on what is reachable. -/
theorem unfolds_transfer (S : ℕ → Prop)
    (hclosed : ∀ b node c, S b → heap[b]? = some node → .object c ∈ node.values → S c)
    (hagree : ∀ b node, S b → heap[b]? = some node → ∃ node', heap'[b]? = some node' ∧
      { node' with frozen := node.frozen } = node) : ∀ (depth : ℕ) {r : Ref} {x : Value},
    (∀ b, r = .object b → S b) → Unfolds heap depth r x → Unfolds heap' depth r x
  | 0, _, _, _, h => h.elim
  | depth + 1, .leaf _, _, _, h => h
  | depth + 1, .function, _, _, h => h
  | depth + 1, .object a, x, hS, h => by
    obtain ⟨node, hnode, h⟩ := h
    obtain ⟨node', hnode', hsame⟩ := hagree a node (hS a rfl) hnode
    have hvalues : ∀ r ∈ node.values, ∀ b, r = .object b → S b := by
      intro r hr b hb
      exact hclosed a node b (hS a rfl) hnode (hb ▸ hr)
    have ih {r : Ref} (hr : r ∈ node.values) {y : Value} (hy : Unfolds heap depth r y) :
        Unfolds heap' depth r y :=
      unfolds_transfer S hclosed hagree depth (hvalues r hr) hy
    rw [← hsame] at h ih
    refine ⟨node', hnode', ?_⟩
    rcases h with ⟨refs, xs, helements, hmembers, hx, hall⟩ | ⟨ms, helements, hproto, hx, hall⟩
    · refine .inl ⟨refs, xs, helements, hmembers, hx, ?_⟩
      rw [Node.values_arr helements hmembers] at ih
      exact (List.forall₂_iff_zip.mpr ⟨hall.length_eq, fun hmem =>
        ih (List.of_mem_zip hmem).1 (List.forall₂_zip hall hmem)⟩)
    · refine .inr ⟨ms, helements, hproto, hx, ?_⟩
      rw [Node.values_eq helements] at ih
      refine List.forall₂_iff_zip.mpr ⟨hall.length_eq, fun {m m'} hmem => ?_⟩
      have hm := List.forall₂_zip hall hmem
      exact ⟨hm.1, ih (List.mem_map_of_mem (List.of_mem_zip hmem).1) hm.2⟩

theorem unfolds_append {depth : ℕ} {r : Ref} {x : Value} (hs : Heap)
    (h : Unfolds heap depth r x) : Unfolds (heap ++ hs) depth r x := by
  refine unfolds_transfer (fun _ => True) (fun _ _ _ _ _ _ => trivial) (fun b node _ hnode => ?_) depth
    (fun _ _ => trivial) h
  refine ⟨node, ?_, rfl⟩
  rw [List.getElem?_append_left (List.getElem?_eq_some_iff.mp hnode).1]
  exact hnode

theorem unfolds_succ : ∀ (depth : ℕ) {r : Ref} {x : Value},
    Unfolds heap depth r x → Unfolds heap (depth + 1) r x
  | 0, _, _, h => h.elim
  | _ + 1, .leaf _, _, h => h
  | _ + 1, .function, _, h => h
  | depth + 1, .object _, _, ⟨node, hnode, h⟩ => by
    refine ⟨node, hnode, ?_⟩
    rcases h with ⟨refs, xs, helements, hmembers, hx, hall⟩ | ⟨ms, helements, hproto, hx, hall⟩
    · exact .inl ⟨refs, xs, helements, hmembers, hx, hall.imp fun _ _ h => unfolds_succ depth h⟩
    · exact .inr ⟨ms, helements, hproto, hx, hall.imp fun _ _ h => ⟨h.1, unfolds_succ depth h.2⟩⟩

theorem unfolds_le {depth depth' : ℕ} (hle : depth ≤ depth') {r : Ref} {x : Value}
    (h : Unfolds heap depth r x) : Unfolds heap depth' r x := by
  induction hle with
  | refl => exact h
  | step _ ih => exact unfolds_succ _ ih

theorem forall₂_unique {β γ : Type} {R : β → γ → Prop} {xs : List β}
    (h : ∀ x ∈ xs, ∀ y z, R x y → R x z → y = z) {ys zs : List γ} (hys : List.Forall₂ R xs ys)
    (hzs : List.Forall₂ R xs zs) : ys = zs := by
  induction hys generalizing zs with
  | nil =>
    cases hzs
    rfl
  | cons hy _ ih => cases hzs with
    | cons hz hzs =>
      rw [h _ (.head _) _ _ hy hz, ih (fun x hx => h x (.tail _ hx)) hzs]

/-- A reference has one unfolding. -/
theorem unfolds_unique : ∀ (depth : ℕ) {r : Ref} {x y : Value},
    Unfolds heap depth r x → Unfolds heap depth r y → x = y
  | 0, _, _, _, h, _ => h.elim
  | _ + 1, .leaf _, _, _, hx, hy => Eq.trans hx (Eq.symm hy)
  | _ + 1, .function, _, _, h, _ => h.elim
  | depth + 1, .object _, _, _, ⟨node, hnode, hx⟩, ⟨node', hnode', hy⟩ => by
    obtain rfl := Option.some.inj (hnode.symm.trans hnode')
    rcases hx with ⟨refs, xs, helements, -, rfl, hxs⟩ | ⟨ms, helements, -, rfl, hms⟩
    · rcases hy with ⟨refs', ys, helements', -, rfl, hys⟩ | ⟨_, helements', -⟩
      · obtain rfl := Option.some.inj (helements.symm.trans helements')
        rw [forall₂_unique (R := Unfolds heap depth) (fun _ _ _ _ h h' => unfolds_unique depth h h') hxs hys]
      · rw [helements] at helements'
        cases helements'
    · rcases hy with ⟨_, _, helements', -⟩ | ⟨ns, -, -, rfl, hns⟩
      · rw [helements] at helements'
        cases helements'
      · rw [forall₂_unique (fun _ _ _ _ h h' => Prod.ext (h.1.trans h'.1.symm) (unfolds_unique depth h.2 h'.2))
          hms hns]

/-! ## Cycles -/

/-- Along a reference the depth goes down. -/
theorem unfolds_descends {a b : ℕ} (hab : Relation.TransGen (Refers heap) a b) : ∀ {depth : ℕ} {x : Value},
    Unfolds heap depth (.object a) x → ∃ depth' < depth, ∃ y, Unfolds heap depth' (.object b) y := by
  have hstep : ∀ {c d : ℕ}, Refers heap c d → ∀ {depth : ℕ} {x : Value},
      Unfolds heap depth (.object c) x → ∃ depth' < depth, ∃ y, Unfolds heap depth' (.object d) y := by
    intro c d ⟨node, hnode, hd⟩ depth x h
    cases depth with
    | zero => exact h.elim
    | succ depth => exact ⟨depth, depth.lt_succ_self, unfolds_values h hnode _ hd⟩
  induction hab with
  | single hab => exact hstep hab
  | tail _ hbc ih =>
    intro depth x h
    obtain ⟨depth', hlt, y, hy⟩ := ih h
    obtain ⟨depth'', hlt', z, hz⟩ := hstep hbc hy
    exact ⟨depth'', hlt'.trans hlt, z, hz⟩

theorem no_cycle {a : ℕ} (ha : Relation.TransGen (Refers heap) a a) : ∀ (depth : ℕ) (x : Value),
    ¬ Unfolds heap depth (.object a) x := by
  intro depth
  induction depth using Nat.strong_induction_on with
  | _ depth ih =>
    intro x h
    obtain ⟨depth', hlt, y, hy⟩ := unfolds_descends ha h
    exact ih depth' hlt y hy

theorem not_unfolds_of_cyclic {a : ℕ} (h : HasCycle heap a) (depth : ℕ) (x : Value) :
    ¬ Unfolds heap depth (.object a) x := by
  intro hx
  obtain ⟨b, hab, hbb⟩ := h
  rcases Relation.reflTransGen_iff_eq_or_transGen.mp hab with rfl | hab
  · exact no_cycle hbb depth x hx
  · obtain ⟨depth', -, y, hy⟩ := unfolds_descends hab hx
    exact no_cycle hbb depth' y hy

/-- One depth for all the values of a list. -/
theorem common_depth : ∀ {rs : List Ref}, (∀ r ∈ rs, ∃ depth x, Unfolds heap depth r x) →
    ∃ depth, ∀ r ∈ rs, ∃ x, Unfolds heap depth r x
  | [], _ => ⟨0, fun _ h => nomatch h⟩
  | r :: rs, h => by
    obtain ⟨⟨depth, x, hx⟩, h⟩ := List.forall_mem_cons.mp h
    obtain ⟨depth', hrs⟩ := common_depth h
    refine ⟨max depth depth', List.forall_mem_cons.mpr ⟨⟨x, unfolds_le (Nat.le_max_left ..) hx⟩, ?_⟩⟩
    intro s hs
    obtain ⟨y, hy⟩ := hrs s hs
    exact ⟨y, unfolds_le (Nat.le_max_right ..) hy⟩

/-- An object unfolds once its parts do. -/
theorem unfolds_node {a : ℕ} {node : Node} (hnode : heap[a]? = some node) (hvalue : IsValue node) {depth : ℕ}
    (h : ∀ r ∈ node.values, ∃ x, Unfolds heap depth r x) : ∃ x, Unfolds heap (depth + 1) (.object a) x := by
  rcases hvalue.shape with ⟨helements, hproto⟩ | ⟨helements, hmembers⟩
  · rw [Node.values_eq helements] at h
    have hmembers : ∀ m ∈ node.entries, ∃ m' : Text × Value, m'.1 = m.1 ∧ Unfolds heap depth m.2 m'.2 := by
      intro m hm
      obtain ⟨x, hx⟩ := h m.2 (List.mem_map_of_mem hm)
      exact ⟨(m.1, x), rfl, hx⟩
    obtain ⟨ms, hms⟩ := forall₂_exists.mpr hmembers
    exact ⟨.obj ms, node, hnode, .inr ⟨ms, helements, hproto, rfl, hms⟩⟩
  · obtain ⟨refs, hrefs⟩ := Option.isSome_iff_exists.mp helements
    rw [Node.values_arr hrefs hmembers] at h
    obtain ⟨xs, hxs⟩ := forall₂_exists.mpr h
    exact ⟨.arr xs, node, hnode, .inl ⟨refs, xs, hrefs, hmembers, rfl, hxs⟩⟩

/-- **Where no cycle is reachable, the document has an unfolding.** -/
theorem unfolds_of_acyclic {a : ℕ} (hgraph : ValueGraph heap a) (hacyclic : ¬ HasCycle heap a) :
    ∃ depth x, Unfolds heap depth (.object a) x := by
  let Below (c b : Fin heap.length) : Prop :=
    Reaches heap a b ∧ Relation.TransGen (Refers heap) b c
  have htrans : IsTrans (Fin heap.length) Below :=
    ⟨fun _ _ _ hdc hcb => ⟨hcb.1, hcb.2.trans hdc.2⟩⟩
  have hirrefl : Std.Irrefl Below := ⟨fun b hb => hacyclic ⟨b, hb.1, hb.2⟩⟩
  have hunfolds : ∀ b : Fin heap.length, Reaches heap a b →
      ∃ depth x, Unfolds heap depth (.object b) x := by
    intro b
    induction b using (Finite.wellFounded_of_trans_of_irrefl Below).induction with
    | _ b ih =>
      intro hb
      obtain ⟨node, hnode, hvalue⟩ := hgraph.parts b hb
      have hvalues : ∀ r ∈ node.values, ∃ depth x, Unfolds heap depth r x := by
        intro r hr
        cases r with
        | leaf v => exact ⟨1, v.value, rfl⟩
        | function => exact (hvalue.values hr).elim
        | object c =>
          have hbc : Refers heap b c := ⟨node, hnode, hr⟩
          obtain ⟨_, hc, -⟩ := hgraph.parts c (hb.tail hbc)
          exact ih ⟨c, (List.getElem?_eq_some_iff.mp hc).1⟩ ⟨hb, .single hbc⟩ (hb.tail hbc)
      obtain ⟨depth, h⟩ := common_depth hvalues
      exact ⟨depth + 1, unfolds_node hnode hvalue h⟩
  obtain ⟨_, hnode, -⟩ := hgraph.document
  exact hunfolds ⟨a, (List.getElem?_eq_some_iff.mp hnode).1⟩ .refl

/-! ## Writing to a new object -/

section
variable {toNumber : Heap → Ref → Number}

/-- An object as the copy makes it. -/
structure IsNew (node : Node) : Prop where
  elements : node.elements = none
  hidden : node.hidden = []
  proto : node.proto = .object objectPrototype
  frozen : node.frozen = false

theorem own_of_plain {a : ℕ} {node : Node} (hnode : heap[a]? = some node) (helements : node.elements = none)
    (ha : a ≠ objectPrototype) (key : Text) : own heap key a = (node.members.lookup key).map .data := by
  rw [own, hnode, Option.bind_some, Node.indexed, helements, Option.bind_none]
  cases node.members.lookup key with
  | none => exact if_neg fun h => ha h.1
  | some v => rfl

theorem getElem?_roots (hroots : roots <+: heap) : heap[objectPrototype]? = roots[objectPrototype]? := by
  obtain ⟨rest, rfl⟩ := hroots
  exact List.getElem?_append_left (by decide)

theorem lookup_methods {key : Text} {v : Ref} : ∀ {names : List Text},
    (names.map fun name => (name, Ref.function)).lookup key = some v → v = .function
  | [], h => nomatch h
  | name :: names, h => by
    rw [List.map_cons, List.lookup_cons] at h
    split at h
    · exact (Option.some.inj h).symm
    · exact lookup_methods h

/-- What an object has from the shared root is a method. -/
theorem find_root (hroots : roots <+: heap) {key : Text} (hkey : key ≠ js "__proto__") (fuel : ℕ) :
    find heap key fuel (.object objectPrototype) = none ∨ (roots[0].members.lookup key).isSome ∧
      find heap key fuel (.object objectPrototype) = some (objectPrototype, .data .function) := by
  cases fuel with
  | zero => exact .inl rfl
  | succ fuel =>
    have hproto : protoOf heap objectPrototype = .null := by
      rw [protoOf, getElem?_roots hroots]
      rfl
    have hown : own heap key objectPrototype = (roots[0].members.lookup key).map .data := by
      rw [own, getElem?_roots hroots]
      rw [show roots[objectPrototype]? = some roots[0] from rfl, Option.bind_some,
        show roots[0].indexed key = none from rfl]
      cases roots[0].members.lookup key with
      | none => exact if_neg fun h => hkey h.2
      | some v => rfl
    rw [find, hown, hproto]
    cases hlookup : roots[0].members.lookup key with
    | none =>
      left
      cases fuel <;> rfl
    | some v =>
      right
      rw [lookup_methods hlookup]
      exact ⟨rfl, rfl⟩

/-- What a new object has under a key is its own or a method of the shared root. -/
theorem find_new (hroots : roots <+: heap) {a : ℕ} {node : Node} (hnode : heap[a]? = some node)
    (hnew : IsNew node) (ha : a ≠ objectPrototype) {key : Text} (hkey : key ≠ js "__proto__") :
    (∃ v, node.members.lookup key = some v ∧ find heap key heap.length (.object a) = some (a, .data v)) ∨
      node.members.lookup key = none ∧ (find heap key heap.length (.object a) = none ∨
        (roots[0].members.lookup key).isSome ∧ find heap key heap.length (.object a) = some (objectPrototype, .data .function)) := by
  obtain ⟨fuel, hfuel⟩ := Nat.exists_eq_succ_of_ne_zero
    (Nat.ne_zero_of_lt (List.getElem?_eq_some_iff.mp hnode).1)
  have hproto : protoOf heap a = .object objectPrototype := by
    rw [protoOf, hnode]
    exact hnew.proto
  rw [hfuel, find, own_of_plain hnode hnew.elements ha, hproto]
  cases node.members.lookup key with
  | some v => exact .inl ⟨v, rfl, rfl⟩
  | none => exact .inr ⟨rfl, find_root hroots hkey fuel⟩

/-- A member is set. -/
def withMemberAt (key : Text) (v : Ref) (node : Node) : Node :=
  { node with members := setMember key v node.members }

theorem change_run {w : World} {a : ℕ} {node : Node} (hnode : w.heap[a]? = some node)
    (hfrozen : node.frozen = false) (f : Node → Node) :
    change a f w = .ok true { w with heap := w.heap.modify a f } := by
  rw [change, bind_ok (show readHeap w = .ok w.heap w from rfl), hnode, if_neg (by simp [hfrozen])]
  rfl

variable (toNumber) in
theorem assign_new {w : World} (hroots : roots <+: w.heap) {a : ℕ} {node : Node}
    (hnode : w.heap[a]? = some node) (hnew : IsNew node) (ha : a ≠ objectPrototype) {key : Text}
    (hkey : key ≠ js "__proto__") (v : Ref) :
    assign toNumber a key v w = .ok () { w with heap := w.heap.modify a (withMemberAt key v) } := by
  have hdefine : define toNumber a key v w =
      .ok true { w with heap := w.heap.modify a (withMemberAt key v) } := by
    rw [define, bind_ok (show readHeap w = .ok w.heap w from rfl), hnode, Option.bind_some, hnew.elements]
    exact change_run hnode hnew.frozen _
  have hset : reflectSet toNumber a key v w =
      .ok true { w with heap := w.heap.modify a (withMemberAt key v) } := by
    rw [reflectSet, bind_ok (show readHeap w = .ok w.heap w from rfl)]
    rcases find_new hroots hnode hnew ha hkey with ⟨u, -, hfind⟩ | ⟨-, hfind | ⟨-, hfind⟩⟩
    · rw [hfind]
      dsimp only
      rw [hnode, if_neg (by simp [hnew.frozen]), hdefine]
    · rw [hfind]
      exact hdefine
    · rw [hfind]
      dsimp only
      rw [getElem?_roots hroots, if_neg (by decide), hdefine]
  rw [Objects.assign, bind_ok hset]
  rfl

theorem modify_last {node : Node} (f : Node → Node) : ∀ hs : Heap,
    (hs ++ [node]).modify hs.length f = hs ++ [f node]
  | [] => rfl
  | h :: hs => congrArg (h :: ·) (modify_last f hs)

variable (toNumber) in
/-- The members of a copy are set one after the other. -/
theorem assignEach_run : ∀ (done rest : List (Text × Ref)) {w : World} {hs : Heap},
    w.heap = hs ++ [{ plainObject with members := done }] → roots <+: hs →
    ((done ++ rest).map Prod.fst).Nodup → js "__proto__" ∉ rest.map Prod.fst →
    assignEach toNumber hs.length rest w =
      .ok () { w with heap := hs ++ [{ plainObject with members := done ++ rest }] }
  | done, [], w, hs, hheap, _, _, _ => by
    rw [List.append_nil, ← hheap]
    rfl
  | done, (key, v) :: rest, w, hs, hheap, hroots, hnodup, hproto => by
    rw [List.map_cons, List.mem_cons, not_or] at hproto
    have hnode : w.heap[hs.length]? = some { plainObject with members := done } := by
      rw [hheap, List.getElem?_append_right le_rfl, Nat.sub_self]
      rfl
    have hfresh : key ∉ done.map Prod.fst := by
      rw [List.map_append, List.nodup_append] at hnodup
      intro hmem
      exact hnodup.2.2 key hmem key (.head _) rfl
    have hassign := assign_new toNumber (hheap ▸ hroots.trans (List.prefix_append ..)) hnode
      ⟨rfl, rfl, rfl, rfl⟩ (Nat.ne_of_gt (hroots.length_le.trans_lt' (by decide))) (Ne.symm hproto.1) v
    rw [assignEach, bind_ok hassign, assignEach_run (done ++ [(key, v)]) rest _ hroots _ hproto.2]
    · rw [List.append_assoc]
      rfl
    · change w.heap.modify hs.length (withMemberAt key v) = _
      rw [hheap, modify_last, withMemberAt, setMember_fresh hfresh]
    · rwa [List.append_assoc]

/-! ## The copy -/

/-- An object as a copy leaves it, or an array. -/
def NewNode (node : Node) : Prop :=
  IsNew node ∧ inKeyOrder node.members = node.members ∧ (node.members.map Prod.fst).Nodup ∨
    ∃ refs, node = arrayOf refs

/-- A computation that only allocates, on each element of a list. -/
theorem mapM_run {β γ : Type} {f : β → Run γ} {R : Heap → β → γ → Prop} {base : Heap}
    (hR : ∀ {h : Heap} (hs : Heap) {x y}, R h x y → R (h ++ hs) x y) : ∀ {xs : List β},
    (∀ x ∈ xs, ∀ w : World, base <+: w.heap → ∃ y hs, f x w = .ok y { w with heap := w.heap ++ hs } ∧
      R (w.heap ++ hs) x y ∧ ∀ node ∈ hs, NewNode node) →
    ∀ w : World, base <+: w.heap → ∃ ys hs, xs.mapM f w = .ok ys { w with heap := w.heap ++ hs } ∧
      List.Forall₂ (R (w.heap ++ hs)) xs ys ∧ ∀ node ∈ hs, NewNode node
  | [], _, w, _ => ⟨[], [], by rw [List.append_nil]; rfl, .nil, fun _ h => nomatch h⟩
  | x :: xs, h, w, hbase => by
    obtain ⟨y, hs, hy, hRy, hnew⟩ := h x (.head _) w hbase
    obtain ⟨ys, hs', hys, hRys, hnew'⟩ := mapM_run hR (fun z hz => h z (.tail _ hz))
      { w with heap := w.heap ++ hs } (hbase.trans (List.prefix_append ..))
    refine ⟨y :: ys, hs ++ hs', ?_, ?_, fun node hnode => ?_⟩
    · rw [List.mapM_cons, bind_ok hy, bind_ok hys, ← List.append_assoc]
      rfl
    · rw [← List.append_assoc]
      exact .cons (hR hs' hRy) hRys
    · exact (List.mem_append.mp hnode).elim (hnew node) (hnew' node)

theorem forall₂_compose {β γ δ : Type} {R : β → γ → Prop} {S : β → δ → Prop} {T : γ → δ → Prop}
    (h : ∀ x y z, R x y → S x z → T y z) : ∀ {xs : List β} {ys : List γ} {zs : List δ},
    List.Forall₂ R xs ys → List.Forall₂ S xs zs → List.Forall₂ T ys zs
  | _, _, _, .nil, .nil => .nil
  | _, _, _, .cons hR hRs, .cons hS hSs => .cons (h _ _ _ hR hS) (forall₂_compose h hRs hSs)

theorem forall₂_flip_compose {β γ δ : Type} {R : β → δ → Prop} {S : γ → δ → Prop} {T : γ → δ → Prop}
    (h : ∀ x y z, R x z → S y z → T y z) : ∀ {xs : List β} {ys : List γ} {zs : List δ},
    List.Forall₂ R xs zs → List.Forall₂ S ys zs → List.Forall₂ T ys zs
  | _, _, _, .nil, .nil => .nil
  | _, _, _, .cons hR hRs, .cons hS hSs => .cons (h _ _ _ hR hS) (forall₂_flip_compose h hRs hSs)

theorem Node.entries_eq {node : Node} (h : node.hidden = []) : node.entries = inKeyOrder node.members := by
  rw [Node.entries, h, List.filter_eq_self]
  intro _ _
  rfl

theorem inKeyOrder_perm {α : Type} (ms : List (Text × α)) : (inKeyOrder ms).Perm ms := by
  refine ((List.perm_insertionSort _ _).append_right _).trans ?_
  have h := List.filter_append_perm (fun m : Text × α => (arrayIndex? m.1).isSome) ms
  refine (List.Perm.of_eq ?_).trans h
  congr 1
  refine List.filter_congr fun m _ => ?_
  cases arrayIndex? m.1 <;> rfl

theorem keys_of_forall₂ {α β : Type} {ms : List (Text × α)} {ns : List (Text × β)}
    (h : List.Forall₂ (fun m n => n.1 = m.1) ms ns) : ns.map Prod.fst = ms.map Prod.fst := by
  induction h with
  | nil => rfl
  | cons hm _ ih => rw [List.map_cons, List.map_cons, hm, ih]

/-- The addresses whose objects are parts of a document without `__proto__` keys. -/
structure Copied (heap : Heap) (S : ℕ → Prop) : Prop where
  refers : ∀ b c, S b → Refers heap b c → S c
  parts : ∀ b, S b → ∃ node, heap[b]? = some node ∧ IsValue node
  proto : ∀ b node, S b → heap[b]? = some node → js "__proto__" ∉ node.members.map Prod.fst

variable (toNumber) in
/-- **The copy has the same unfolding.** -/
theorem cloneValue_run {base : Heap} (hroots : roots <+: base) {S : ℕ → Prop} (hS : Copied base S) :
    ∀ (depth : ℕ) {r : Ref} {x : Value}, Unfolds base depth r x → (∀ a, r = .object a → S a) →
    ∀ w : World, base <+: w.heap → ∃ r' hs,
      cloneValue toNumber depth r w = .ok r' { w with heap := w.heap ++ hs } ∧
      Unfolds (w.heap ++ hs) depth r' x ∧ (∀ b, r' = .object b → w.heap.length ≤ b) ∧
      ∀ node ∈ hs, NewNode node
  | 0, _, _, h, _, _, _ => h.elim
  | _ + 1, .leaf v, x, h, _, w, _ => ⟨.leaf v, [], by rw [List.append_nil]; rfl, h, nofun, nofun⟩
  | _ + 1, .function, _, h, _, _, _ => h.elim
  | depth + 1, .object a, x, h, hr, w, hbase => by
    obtain ⟨node, hnode, hvalue⟩ := hS.parts a (hr a rfl)
    have hread : w.heap[a]? = some node := by
      obtain ⟨rest, hrest⟩ := hbase
      rw [← hrest, List.getElem?_append_left (List.getElem?_eq_some_iff.mp hnode).1]
      exact hnode
    -- The parts are copied first.
    have ih : ∀ r ∈ node.values, ∀ w : World, base <+: w.heap → ∃ r' hs,
        cloneValue toNumber depth r w = .ok r' { w with heap := w.heap ++ hs } ∧
        (∀ y, Unfolds base depth r y → Unfolds (w.heap ++ hs) depth r' y) ∧ ∀ node ∈ hs, NewNode node := by
      intro r hmem w hbase
      obtain ⟨y, hy⟩ := unfolds_values h hnode r hmem
      obtain ⟨r', hs, hrun, hy', -, hnew⟩ := cloneValue_run hroots hS depth hy
        (fun b hb => hS.refers a b (hr a rfl) ⟨node, hnode, hb ▸ hmem⟩) w hbase
      exact ⟨r', hs, hrun, fun z hz => unfolds_unique depth hy hz ▸ hy', hnew⟩
    obtain ⟨_, hnode', h⟩ := h
    obtain rfl := Option.some.inj (hnode.symm.trans hnode')
    rcases h with ⟨refs, xs, helements, hmembers, rfl, hall⟩ | ⟨ms, helements, hproto, rfl, hall⟩
    · rw [Node.values_arr helements hmembers] at ih
      obtain ⟨copies, hs, hcopies, hrefs, hnew⟩ := mapM_run
        (R := fun h r r' => ∀ y, Unfolds base depth r y → Unfolds h depth r' y)
        (fun hs _ _ hR y hy => unfolds_append hs (hR y hy)) ih w hbase
      refine ⟨.object (w.heap ++ hs).length, hs ++ [arrayOf copies], ?_, ?_, ?_, ?_⟩
      · rw [Objects.cloneValue, bind_ok (show readHeap w = .ok w.heap w from rfl), hread]
        dsimp only
        rw [helements]
        dsimp only
        rw [bind_ok hcopies, ← List.append_assoc]
        rfl
      · rw [← List.append_assoc]
        refine ⟨arrayOf copies, List.getElem?_concat_length, .inl ⟨copies, xs, rfl, rfl, rfl, ?_⟩⟩
        exact forall₂_compose (fun _ _ _ hR hx => unfolds_append _ (hR _ hx)) hrefs hall
      · intro b hb
        cases hb
        rw [List.length_append]
        exact Nat.le_add_right ..
      · intro n hn
        rcases List.mem_append.mp hn with hn | hn
        · exact hnew n hn
        · exact .inr ⟨copies, List.mem_singleton.mp hn⟩
    · rw [Node.values_eq helements] at ih
      obtain ⟨copies, hs, hcopies, hentries, hnew⟩ := mapM_run
        (f := fun m : Text × Ref => do return (m.1, ← Objects.cloneValue toNumber depth m.2))
        (R := fun h (m m' : Text × Ref) =>
          m'.1 = m.1 ∧ ∀ y, Unfolds base depth m.2 y → Unfolds h depth m'.2 y)
        (fun hs _ _ hR => ⟨hR.1, fun y hy => unfolds_append hs (hR.2 y hy)⟩) (fun m hm w hbase => by
          obtain ⟨r', hs, hrun, hy, hnew⟩ := ih m.2 (List.mem_map_of_mem hm) w hbase
          refine ⟨(m.1, r'), hs, ?_, ⟨rfl, hy⟩, hnew⟩
          rw [bind_ok hrun]
          rfl) w hbase
      have hkeys : copies.map Prod.fst = (inKeyOrder node.members).map Prod.fst := by
        rw [← Node.entries_eq hvalue.hidden]
        exact keys_of_forall₂ (hentries.imp fun _ _ hR => hR.1)
      have hperm : (copies.map Prod.fst).Perm (node.members.map Prod.fst) :=
        hkeys ▸ (inKeyOrder_perm node.members).map Prod.fst
      have hnodup : (copies.map Prod.fst).Nodup := hperm.nodup_iff.mpr hvalue.keys
      have horder : inKeyOrder copies = copies :=
        inKeyOrder_eq_iff.mpr (hkeys ▸ pairwise_inKeyOrder node.members)
      have hassign := assignEach_run toNumber [] copies
        (w := { w with heap := w.heap ++ hs ++ [plainObject] }) rfl
        (hroots.trans (hbase.trans (List.prefix_append ..))) hnodup
        fun hmem => hS.proto a node (hr a rfl) hnode (hperm.mem_iff.mp hmem)
      refine ⟨.object (w.heap ++ hs).length, hs ++ [{ plainObject with members := copies }], ?_, ?_, ?_, ?_⟩
      · rw [Objects.cloneValue, bind_ok (show readHeap w = .ok w.heap w from rfl), hread]
        dsimp only
        rw [helements]
        dsimp only
        rw [bind_ok hcopies, ← List.append_assoc]
        rw [bind_ok (show readHeap _ = .ok (w.heap ++ hs) _ from rfl)]
        rw [bind_ok (show allocate plainObject _ = .ok (.object (w.heap ++ hs).length) _ from rfl)]
        rw [bind_ok hassign]
        rfl
      · rw [← List.append_assoc]
        refine ⟨_, List.getElem?_concat_length, .inr ⟨ms, rfl, .inl rfl, rfl, ?_⟩⟩
        rw [Node.entries_eq rfl, horder]
        exact forall₂_compose (fun _ _ _ hR hx => ⟨hx.1.trans hR.1.symm, unfolds_append _ (hR.2 _ hx.2)⟩)
          hentries hall
      · intro b hb
        cases hb
        rw [List.length_append]
        exact Nat.le_add_right ..
      · intro n hn
        rcases List.mem_append.mp hn with hn | hn
        · exact hnew n hn
        · exact .inl (List.mem_singleton.mp hn ▸ ⟨⟨rfl, rfl, rfl, rfl⟩, horder, hnodup⟩)

/-! ## The checks -/

theorem forM_unfolds {depth : ℕ} {f : Ref → Except Thrown Unit} {g : Value → Except Text Unit}
    {refs : List Ref} {xs : List Value} (h : List.Forall₂ (Unfolds heap depth) refs xs)
    (hf : ∀ {r x}, Unfolds heap depth r x → f r = (g x).mapError (⟨.other, ·⟩)) :
    refs.forM f = (xs.forM g).mapError (⟨.other, ·⟩) := by
  induction h with
  | nil => rfl
  | @cons r x refs xs hr _ ih =>
    change (f r >>= fun _ => refs.forM f) = (g x >>= fun _ => xs.forM g).mapError _
    rw [hf hr, ih]
    cases g x <;> rfl

theorem assertElems_eq (xs : List Value) : assertElems xs = xs.forM Modifier.assertValidFieldNames := by
  induction xs with
  | nil => rfl
  | cons x xs ih =>
    rw [assertElems, ih]
    rfl

/-- The check of an object is the check of its unfolding. -/
theorem assertValidFieldNames_eq : ∀ (depth : ℕ) {r : Ref} {x : Value}, Unfolds heap depth r x →
    Objects.assertValidFieldNames heap depth r =
      (Modifier.assertValidFieldNames x).mapError (⟨.other, ·⟩)
  | 0, _, _, h => h.elim
  | _ + 1, .leaf v, x, h => by
    subst h
    cases v <;> rfl
  | _ + 1, .function, _, h => h.elim
  | depth + 1, .object a, x, ⟨node, hnode, h⟩ => by
    rw [Objects.assertValidFieldNames, hnode]
    dsimp only
    rcases h with ⟨refs, xs, helements, -, rfl, hall⟩ | ⟨ms, helements, hproto, rfl, hall⟩
    · rw [helements, Modifier.assertValidFieldNames, assertElems_eq]
      exact forM_unfolds hall (assertValidFieldNames_eq depth)
    · have hplain : Objects.isPlainObject heap (.object a) = true := by
        rw [Objects.isPlainObject, hnode]
        rcases hproto with hproto | hproto <;> simp [helements, hproto]
      rw [helements]
      dsimp only
      rw [if_pos hplain, Modifier.assertValidFieldNames]
      clear helements hproto hplain hnode
      generalize node.entries = entries at hall
      induction hall with
      | nil => rfl
      | @cons m m' entries ms hm _ ih =>
        obtain ⟨key, x⟩ := m'
        obtain ⟨rfl, hm⟩ := hm
        rw [assertMembers]
        cases hreason : invalidFieldNameReason m.1 with
        | some reason =>
          rw [List.forM, hreason]
          rfl
        | none =>
          rw [List.forM, hreason]
          dsimp only
          rw [assertValidFieldNames_eq depth hm, ih]
          cases Modifier.assertValidFieldNames x <;> rfl

/-! ## The id -/

/-- The entries of an object stand for the members of its unfolding. -/
def Stand (heap : Heap) (depth : ℕ) (m : Text × Ref) (m' : Text × Value) : Prop :=
  m'.1 = m.1 ∧ Unfolds heap depth m.2 m'.2

theorem lookup_stand {depth : ℕ} {ms : List (Text × Ref)} {ns : List (Text × Value)}
    (h : List.Forall₂ (Stand heap depth) ms ns) (key : Text) :
    Option.Rel (Unfolds heap depth) (ms.lookup key) (ns.lookup key) := by
  induction h with
  | nil => exact .none
  | @cons m m' ms ns hm _ ih =>
    obtain ⟨k, v⟩ := m
    obtain ⟨k', v'⟩ := m'
    obtain ⟨rfl, hv⟩ := hm
    rw [List.lookup_cons, List.lookup_cons]
    cases key == k' with
    | true => exact .some hv
    | false => exact ih

theorem setMember_stand {depth : ℕ} {ms : List (Text × Ref)} {ns : List (Text × Value)}
    (h : List.Forall₂ (Stand heap depth) ms ns) (key : Text) {r : Ref} {x : Value}
    (hr : Unfolds heap depth r x) :
    List.Forall₂ (Stand heap depth) (setMember key r ms) (setMember key x ns) := by
  induction h with
  | nil => exact .cons ⟨rfl, hr⟩ .nil
  | @cons m m' ms ns hm hms ih =>
    obtain ⟨k, v⟩ := m
    obtain ⟨k', v'⟩ := m'
    obtain ⟨rfl, hv⟩ := hm
    rw [setMember, setMember]
    split
    · exact .cons ⟨rfl, hr⟩ hms
    · exact .cons ⟨rfl, hv⟩ ih

theorem inKeyOrder_map {α β : Type} (f : α → β) (ms : List (Text × α)) :
    inKeyOrder (ms.map fun m => (m.1, f m.2)) = (inKeyOrder ms).map fun m => (m.1, f m.2) := by
  rw [inKeyOrder, inKeyOrder, List.filter_map, List.filter_map, List.map_append]
  congr 1
  exact (List.map_insertionSort (fun m n : Text × α => (arrayIndex? m.1).getD 0 ≤ (arrayIndex? n.1).getD 0)
    (fun m n : Text × β => (arrayIndex? m.1).getD 0 ≤ (arrayIndex? n.1).getD 0) _ _
    fun _ _ _ _ => Iff.rfl).symm

theorem inKeyOrder_stand {depth : ℕ} {ms : List (Text × Ref)} {ns : List (Text × Value)}
    (h : List.Forall₂ (Stand heap depth) ms ns) :
    List.Forall₂ (Stand heap depth) (inKeyOrder ms) (inKeyOrder ns) := by
  -- Both lists come from the one of the pairs, and it is sorted by the same keys.
  obtain ⟨zs, rfl, rfl, hzs⟩ : ∃ zs : List (Text × Ref × Value),
      ms = zs.map (fun z => (z.1, z.2.1)) ∧ ns = zs.map (fun z => (z.1, z.2.2)) ∧
        ∀ z ∈ zs, Unfolds heap depth z.2.1 z.2.2 := by
    induction h with
    | nil => exact ⟨[], rfl, rfl, nofun⟩
    | @cons m m' ms ns hm _ ih =>
      obtain ⟨zs, rfl, rfl, hzs⟩ := ih
      refine ⟨(m.1, m.2, m'.2) :: zs, rfl, ?_, List.forall_mem_cons.mpr ⟨hm.2, hzs⟩⟩
      rw [List.map_cons, ← hm.1]
  rw [inKeyOrder_map, inKeyOrder_map Prod.snd]
  rw [List.forall₂_map_left_iff, List.forall₂_map_right_iff, List.forall₂_same]
  exact fun z hz => ⟨rfl, hzs z ((inKeyOrder_perm zs).mem_iff.mp hz)⟩

/-- An object of the copy as the root of a document. -/
structure IsDocument (heap : Heap) (a : ℕ) (node : Node) : Prop where
  roots : roots <+: heap
  here : heap[a]? = some node
  isNew : IsNew node
  fresh : Objects.roots.length ≤ a

theorem IsDocument.ne_root {a : ℕ} {node : Node} (ha : IsDocument heap a node) : a ≠ objectPrototype :=
  Nat.ne_of_gt (Nat.lt_of_lt_of_le (by decide) ha.fresh)

theorem prefix_modify {base : Heap} (hbase : base <+: heap) {a : ℕ} (ha : base.length ≤ a)
    (f : Node → Node) : base <+: heap.modify a f := by
  rw [List.prefix_iff_getElem?] at hbase ⊢
  intro i hi
  rw [List.getElem?_modify_ne _ _ (Nat.ne_of_gt (hi.trans_le ha)), hbase i hi]

theorem unfolds_document {a : ℕ} {node : Node} (ha : IsDocument heap a node) {depth : ℕ} {x : Value} :
    Unfolds heap (depth + 1) (.object a) x ↔
      ∃ ms, x = .obj ms ∧ List.Forall₂ (Stand heap depth) (inKeyOrder node.members) ms := by
  rw [← Node.entries_eq ha.isNew.hidden]
  constructor
  · intro ⟨_, hnode, h⟩
    obtain rfl := Option.some.inj (ha.here.symm.trans hnode)
    rcases h with ⟨_, _, helements, -⟩ | ⟨ms, -, -, rfl, hall⟩
    · rw [ha.isNew.elements] at helements
      cases helements
    · exact ⟨ms, rfl, hall⟩
  · intro ⟨ms, hx, hall⟩
    exact ⟨node, ha.here, .inr ⟨ms, ha.isNew.elements, .inl ha.isNew.proto, hx, hall⟩⟩

theorem IsDocument.withMember {a : ℕ} {node : Node} (ha : IsDocument heap a node) (id : Text) :
    IsDocument (heap.modify a (withMemberAt (js "_id") (.leaf (.str id)))) a
      (withMemberAt (js "_id") (.leaf (.str id)) node) := by
  refine ⟨prefix_modify ha.roots ha.fresh _, ?_, ⟨ha.isNew.elements, ha.isNew.hidden,
    ha.isNew.proto, ha.isNew.frozen⟩, ha.fresh⟩
  rw [List.getElem?_modify_eq, ha.here]
  rfl

/-- The `_id` of the document. -/
theorem reflectGet_id {a : ℕ} {node : Node} (ha : IsDocument heap a node) :
    reflectGet heap (js "_id") (.object a) = (node.members.lookup (js "_id")).getD .undefined := by
  rw [reflectGet]
  rcases find_new ha.roots ha.here ha.isNew ha.ne_root (show js "_id" ≠ js "__proto__" by decide) with
    ⟨v, hv, hfind⟩ | ⟨hnone, hfind | ⟨hroot, -⟩⟩
  · rw [hfind, hv]
    rfl
  · rw [hfind, hnone]
    rfl
  · exact absurd hroot (by decide)

/-- The `_id` of the document stands for the one of its unfolding. -/
theorem unfolds_id {a : ℕ} {node : Node} (ha : IsDocument heap a node) {depth : ℕ} {x : Value}
    (hx : Unfolds heap (depth + 1) (.object a) x) (horder : inKeyOrder node.members = node.members) :
    Unfolds heap (depth + 1) (reflectGet heap (js "_id") (.object a)) (getKey x (js "_id")) := by
  obtain ⟨ms, rfl, hall⟩ := (unfolds_document ha).mp hx
  rw [horder] at hall
  rw [reflectGet_id ha, getKey, getOwn]
  have hlookup := lookup_stand hall (js "_id")
  generalize node.members.lookup (js "_id") = r, ms.lookup (js "_id") = y at hlookup ⊢
  cases hlookup with
  | none => exact rfl
  | some h => exact unfolds_succ depth h

/-- The document with an `_id` of its own has the unfolding with that `_id`. -/
theorem unfolds_withMember {a : ℕ} {node : Node} (ha : IsDocument heap a node) {depth : ℕ} {x : Value}
    (hx : Unfolds heap (depth + 1) (.object a) x) (horder : inKeyOrder node.members = node.members)
    (id : Text) :
    Unfolds (heap.modify a (withMemberAt (js "_id") (.leaf (.str id)))) (depth + 2) (.object a)
      (withMember (js "_id") (.str id) x) := by
  -- No part of the document refers back to it, so every part is as it was.
  have hclosed : ∀ b node c, Relation.TransGen (Refers heap) a b → heap[b]? = some node →
      .object c ∈ node.values → Relation.TransGen (Refers heap) a c :=
    fun b node c hb hnode hc => hb.tail ⟨node, hnode, hc⟩
  have hagree : ∀ b node, Relation.TransGen (Refers heap) a b → heap[b]? = some node →
      ∃ node', (heap.modify a (withMemberAt (js "_id") (.leaf (.str id))))[b]? = some node' ∧
        { node' with frozen := node.frozen } = node := by
    intro b node hb hnode
    have hne : a ≠ b := by
      rintro rfl
      exact no_cycle hb _ _ hx
    exact ⟨node, by rw [List.getElem?_modify_ne _ _ hne, hnode], rfl⟩
  obtain ⟨ms, rfl, hall⟩ := (unfolds_document ha).mp hx
  refine (unfolds_document (ha.withMember id)).mpr ⟨_, rfl, ?_⟩
  refine inKeyOrder_stand (setMember_stand ?_ _ rfl)
  rw [horder] at hall
  refine List.forall₂_iff_zip.mpr ⟨hall.length_eq, fun {m m'} hmem => ?_⟩
  have hm := List.forall₂_zip hall hmem
  refine ⟨hm.1, unfolds_transfer _ hclosed hagree _ (fun b hb => .single ⟨node, ha.here, ?_⟩) (unfolds_succ depth hm.2)⟩
  rw [Node.values_eq ha.isNew.elements, Node.entries_eq ha.isNew.hidden, horder, ← hb]
  exact List.mem_map_of_mem (List.of_mem_zip hmem).1

theorem lookup_setMember_self {key : Text} {r : Ref} : ∀ ms : List (Text × Ref),
    (setMember key r ms).lookup key = some r
  | [] => by rw [setMember, List.lookup_cons, beq_self_eq_true]
  | (k, v) :: ms => by
    rw [setMember]
    split
    · next h => rw [h, List.lookup_cons, beq_self_eq_true]
    · next h => rw [List.lookup_cons, beq_false_of_ne (Ne.symm h), lookup_setMember_self ms]

variable (toNumber) in
/-- The document has its `_id`, and stands for its unfolding with one. -/
theorem giveRandomId_run {w : World} {a : ℕ} {node : Node} (ha : IsDocument w.heap a node)
    (horder : inKeyOrder node.members = node.members) (hnodup : (node.members.map Prod.fst).Nodup)
    {depth : ℕ} {x : Value} (hx : Unfolds w.heap (depth + 1) (.object a) x) (randomId : Text) :
    ∃ h, giveRandomId toNumber randomId a w = .ok () { w with heap := h } ∧
      Unfolds h (depth + 2) (.object a) (withRandomId randomId x) ∧
      Unfolds h (depth + 2) (reflectGet h (js "_id") (.object a))
        (getKey (withRandomId randomId x) (js "_id")) := by
  have hid := unfolds_id ha hx horder
  have hgiven := unfolds_withMember ha hx horder randomId
  obtain ⟨ms, rfl, hall⟩ := (unfolds_document ha).mp hx
  have hrun : giveRandomId toNumber randomId a w = _ := bind_ok (show readHeap w = .ok w.heap w from rfl)
  have hassign := assign_new toNumber ha.roots ha.here ha.isNew ha.ne_root
    (show js "_id" ≠ js "__proto__" by decide) (.leaf (.str randomId))
  have hset : Unfolds (w.heap.modify a (withMemberAt (js "_id") (.leaf (.str randomId)))) (depth + 2)
      (reflectGet (w.heap.modify a (withMemberAt (js "_id") (.leaf (.str randomId)))) (js "_id") (.object a))
      (getKey (withMember (js "_id") (.str randomId) (.obj ms)) (js "_id")) := by
    have hkeys : ms.map Prod.fst = node.members.map Prod.fst := by
      rw [horder] at hall
      exact keys_of_forall₂ (hall.imp fun _ _ h => h.1)
    rw [reflectGet_id (ha.withMember randomId), withMember, getKey, getOwn_set (hkeys ▸ hnodup) (by decide),
      if_pos rfl]
    change Unfolds _ _ (((setMember (js "_id") _ node.members).lookup (js "_id")).getD _) _
    rw [lookup_setMember_self]
    exact rfl
  have hkept (hid' : withRandomId randomId (.obj ms) = .obj ms)
      (hrun : giveRandomId toNumber randomId a w = .ok () w) : ∃ h,
      giveRandomId toNumber randomId a w = .ok () { w with heap := h } ∧
        Unfolds h (depth + 2) (.object a) (withRandomId randomId (.obj ms)) ∧
        Unfolds h (depth + 2) (reflectGet h (js "_id") (.object a))
          (getKey (withRandomId randomId (.obj ms)) (js "_id")) := by
    rw [hid']
    exact ⟨w.heap, hrun, unfolds_succ _ hx, unfolds_succ _ hid⟩
  have hmissing (hid' : withRandomId randomId (.obj ms) = withMember (js "_id") (.str randomId) (.obj ms))
      (hrun : giveRandomId toNumber randomId a w =
        Objects.assign toNumber a (js "_id") (.leaf (.str randomId)) w) : ∃ h,
      giveRandomId toNumber randomId a w = .ok () { w with heap := h } ∧
        Unfolds h (depth + 2) (.object a) (withRandomId randomId (.obj ms)) ∧
        Unfolds h (depth + 2) (reflectGet h (js "_id") (.object a))
          (getKey (withRandomId randomId (.obj ms)) (js "_id")) := by
    rw [hid']
    exact ⟨_, hrun.trans hassign, hgiven, hset⟩
  cases hr : reflectGet w.heap (js "_id") (.object a) with
  | leaf v =>
    rw [hr] at hid hrun
    have hvalue : getKey (.obj ms) (js "_id") = v.value := hid
    cases v with
    | undefined => exact hmissing (by rw [withRandomId, hvalue]; rfl) hrun
    | null => exact hmissing (by rw [withRandomId, hvalue]; rfl) hrun
    | _ => exact hkept (by rw [withRandomId, hvalue]; rfl) hrun
  | function =>
    rw [hr] at hid
    exact hid.elim
  | object b =>
    rw [hr] at hid hrun
    obtain ⟨_, -, ⟨_, _, -, -, hvalue, -⟩ | ⟨_, -, -, hvalue, -⟩⟩ := hid
    · exact hkept (by rw [withRandomId, hvalue]) hrun
    · exact hkept (by rw [withRandomId, hvalue]) hrun

/-! ## Freezing -/

/-- Two heaps that differ in what is frozen. -/
def SameButFrozen (heap heap' : Heap) : Prop :=
  heap.map (fun node => { node with frozen := false }) = heap'.map fun node => { node with frozen := false }

theorem SameButFrozen.at (h : SameButFrozen heap heap') {a : ℕ} {node : Node} (hnode : heap[a]? = some node) :
    ∃ node', heap'[a]? = some node' ∧ { node' with frozen := node.frozen } = node := by
  have hmap := congrArg (·[a]?) h
  simp only [List.getElem?_map, hnode, Option.map_some] at hmap
  obtain ⟨node', hnode', hsame⟩ := Option.map_eq_some_iff.mp hmap.symm
  refine ⟨node', hnode', ?_⟩
  rw [Node.mk.injEq] at hsame
  obtain ⟨h₁, h₂, h₃, h₄, -⟩ := hsame
  rw [h₁, h₂, h₃, h₄]

theorem SameButFrozen.values (h : SameButFrozen heap heap') {a : ℕ} {node : Node}
    (hnode : heap[a]? = some node) : heap'[a]?.elim [] Node.values = node.values := by
  obtain ⟨node', hnode', hsame⟩ := h.at hnode
  rw [hnode', ← hsame]
  rfl

theorem SameButFrozen.freeze (h : SameButFrozen heap heap') (a : ℕ) :
    SameButFrozen heap (heap'.modify a fun node => { node with frozen := true }) := by
  refine Eq.trans h (List.ext_getElem? fun b => ?_)
  rw [List.getElem?_map, List.getElem?_map, List.getElem?_modify]
  cases heap'[b]? with
  | none => rfl
  | some node =>
    change some _ = some _
    split <;> rfl

theorem SameButFrozen.unfolds (h : SameButFrozen heap heap') {depth : ℕ} {r : Ref} {x : Value}
    (hx : Unfolds heap depth r x) : Unfolds heap' depth r x :=
  unfolds_transfer (fun _ => True) (fun _ _ _ _ _ _ => trivial) (fun _ _ _ hnode => h.at hnode) depth
    (fun _ _ => trivial) hx

/-- A computation that only freezes, on each element of a list. -/
theorem forM_run {base : Heap} {f : Ref → Run Unit} : ∀ {rs : List Ref},
    (∀ r ∈ rs, ∀ w : World, SameButFrozen base w.heap →
      ∃ h, f r w = .ok () { w with heap := h } ∧ SameButFrozen base h) →
    ∀ w : World, SameButFrozen base w.heap →
      ∃ h, rs.forM f w = .ok () { w with heap := h } ∧ SameButFrozen base h
  | [], _, w, hw => ⟨w.heap, rfl, hw⟩
  | r :: rs, hf, w, hw => by
    obtain ⟨h, hrun, hsame⟩ := hf r (.head _) w hw
    obtain ⟨h', hrun', hsame'⟩ := forM_run (fun s hs => hf s (.tail _ hs)) { w with heap := h } hsame
    exact ⟨h', (bind_ok hrun).trans hrun', hsame'⟩

/-- **The walk that looks for cycles finds none in what has an unfolding.** -/
theorem deepFreeze_run {base : Heap} : ∀ (depth : ℕ) {r : Ref} {x : Value}, Unfolds base depth r x →
    ∀ seen : List ℕ, (∀ a, r = .object a → ∀ s ∈ seen, ¬ Reaches base a s) →
    ∀ w : World, SameButFrozen base w.heap →
      ∃ h, deepFreeze depth seen r w = .ok () { w with heap := h } ∧ SameButFrozen base h
  | 0, _, _, h, _, _, _, _ => h.elim
  | _ + 1, .leaf _, _, _, _, _, w, hw => ⟨w.heap, rfl, hw⟩
  | _ + 1, .function, _, h, _, _, _, _ => h.elim
  | depth + 1, .object a, x, h, seen, hseen, w, hw => by
    have hnot : a ∉ seen := fun ha => hseen a rfl a ha .refl
    obtain ⟨node, hnode, -⟩ := id h
    have hchildren : ∀ r ∈ node.values, ∀ w : World, SameButFrozen base w.heap →
        ∃ h, deepFreeze depth (a :: seen) r w = .ok () { w with heap := h } ∧ SameButFrozen base h := by
      intro r hr w hw
      obtain ⟨y, hy⟩ := unfolds_values h hnode r hr
      refine deepFreeze_run depth hy (a :: seen) ?_ w hw
      rintro b rfl s hs hreach
      have hab : Refers base a b := ⟨node, hnode, hr⟩
      rcases List.mem_cons.mp hs with rfl | hs
      · exact no_cycle (Relation.TransGen.head' hab hreach) _ _ h
      · exact hseen a rfl s hs (.head hab hreach)
    obtain ⟨h', hrun, hsame⟩ := forM_run hchildren w hw
    refine ⟨_, ?_, hsame.freeze a⟩
    rw [deepFreeze, if_neg hnot, bind_ok (show readHeap w = .ok w.heap w from rfl), hw.values hnode,
      bind_ok hrun]
    rfl

theorem freezeEvent_run {base : Heap} {depth : ℕ} {a : ℕ} {x : Value} (hx : Unfolds base depth (.object a) x)
    {w : World} (hw : SameButFrozen base w.heap) : ∃ h,
      freezeEvent (.insert (.object a)) (depth + 1) w = .ok () { w with heap := h } ∧ SameButFrozen base h := by
  refine forM_run (f := deepFreeze depth []) (fun r (hr : r ∈ [Ref.object a]) w hw => ?_) w hw
  obtain rfl := List.mem_singleton.mp hr
  exact deepFreeze_run depth hx [] (fun _ _ _ hs => nomatch hs) w hw

/-! ## `insert` -/

/-- The call threw this, and the collection is as it was. -/
def Refused (w : World) (message : Text) (result : EStateM.Result Thrown World Text) : Prop :=
  ∃ e w', result = .error e w' ∧ e.message = message ∧ w'.store = w.store ∧ w'.events = w.events

/-- The outcome of the insertion of the value `x`: it is refused for its field names, for its id or
for a document with the same id, or it is stored under its id, with an event. -/
def StoresAs (w : World) (randomId : Text) (x : Value) (result : EStateM.Result Thrown World Text) : Prop :=
  match prepare randomId x with
  | .error message => Refused w message result
  | .ok stored => ∃ id, idOf stored = some id ∧
    if (w.store.get id).isSome then Refused w (js "Duplicate _id '" ++ id ++ js "'") result
    else ∃ a w' depth, result = .ok id w' ∧ Unfolds w'.heap depth (.object a) stored ∧
      w'.store = w.store.set id (.object a) ∧ w'.events = w.events ++ [.insert (.object a)]

/-- The depth that one unfolding of a value has, all of them have. -/
theorem unfolds_depth : ∀ {depth depth' : ℕ} {r r' : Ref} {x : Value}, Unfolds heap depth r x →
    Unfolds heap' depth' r' x → Unfolds heap' depth r' x
  | 0, _, _, _, _, h, _ => h.elim
  | _ + 1, 0, _, _, _, _, h => h.elim
  | _ + 1, _ + 1, _, .leaf _, _, _, h => h
  | _ + 1, _ + 1, _, .function, _, _, h => h.elim
  | _ + 1, _ + 1, .function, .object _, _, h, _ => h.elim
  | _ + 1, _ + 1, .leaf v, .object _, _, h, h' => by
    subst h
    obtain ⟨_, -, ⟨_, _, -, -, hvalue, -⟩ | ⟨_, -, -, hvalue, -⟩⟩ := h'
    · cases v <;> cases hvalue
    · cases v <;> cases hvalue
  | depth + 1, depth' + 1, .object _, .object _, x, ⟨_, _, h⟩, ⟨node, hnode, h'⟩ => by
    refine ⟨node, hnode, ?_⟩
    rcases h with ⟨_, xs, -, -, rfl, hall⟩ | ⟨ms, -, -, rfl, hall⟩
    · rcases h' with ⟨refs, _, helements, hmembers, hxs, hall'⟩ | ⟨_, -, -, hvalue, -⟩
      · obtain rfl := Value.arr.inj hxs
        refine .inl ⟨refs, xs, helements, hmembers, rfl, ?_⟩
        exact forall₂_flip_compose (T := Unfolds heap' (depth)) (fun _ _ _ (h : Unfolds heap depth _ _)
          (h' : Unfolds heap' depth' _ _) => unfolds_depth h h') hall hall'
      · cases hvalue
    · rcases h' with ⟨_, _, -, -, hvalue, -⟩ | ⟨_, helements, hproto, hms, hall'⟩
      · cases hvalue
      · obtain rfl := Value.obj.inj hms
        refine .inr ⟨ms, helements, hproto, rfl, ?_⟩
        exact forall₂_flip_compose (fun _ _ _ h h' => ⟨h'.1, unfolds_depth h.2 h'.2⟩) hall hall'

theorem assertLocalId_eq {depth : ℕ} {r : Ref} {x : Value} (h : Unfolds heap depth r x) :
    match Modifier.assertLocalId x with
    | .error message => ∃ e, Objects.assertLocalId r = .error e ∧ e.message = message
    | .ok _ => ∃ id, x = .str id ∧ Objects.assertLocalId r = .ok id := by
  cases depth with
  | zero => exact h.elim
  | succ depth => cases r with
    | leaf v =>
      subst h
      cases v with
      | str id =>
        rw [Leaf.value, Modifier.assertLocalId, Objects.assertLocalId]
        by_cases hlocal : isLocalId id = true
        · rw [if_pos hlocal, if_pos hlocal]
          exact ⟨id, rfl, rfl⟩
        · rw [if_neg hlocal, if_neg hlocal]
          exact ⟨_, rfl, rfl⟩
      | _ => exact ⟨_, rfl, rfl⟩
    | function => exact h.elim
    | object a =>
      obtain ⟨_, -, ⟨_, _, -, -, rfl, -⟩ | ⟨_, -, -, rfl, -⟩⟩ := h
      · exact ⟨_, rfl, rfl⟩
      · exact ⟨_, rfl, rfl⟩

/-- The copy of a document is a new object. -/
theorem isDocument_of_unfolds (hroots : roots <+: heap) {hs : Heap} (hnew : ∀ node ∈ hs, NewNode node)
    {r : Ref} (hfresh : ∀ b, r = .object b → heap.length ≤ b) {depth : ℕ} {ms : List (Text × Value)}
    (hr : Unfolds (heap ++ hs) depth r (.obj ms)) : ∃ a node, r = .object a ∧
      IsDocument (heap ++ hs) a node ∧ inKeyOrder node.members = node.members ∧
      (node.members.map Prod.fst).Nodup := by
  cases depth with
  | zero => exact hr.elim
  | succ depth => cases r with
    | leaf v => cases v <;> cases hr
    | function => exact hr.elim
    | object a =>
      obtain ⟨node, hnode, ⟨_, _, -, -, hvalue, -⟩ | ⟨_, helements, -⟩⟩ := hr
      · cases hvalue
      have hmem : node ∈ hs := by
        rw [List.getElem?_append_right (hfresh a rfl)] at hnode
        exact List.mem_of_getElem? hnode
      rcases hnew node hmem with ⟨hisNew, horder, hnodup⟩ | ⟨refs, rfl⟩
      · refine ⟨a, node, rfl, ⟨?_, hnode, hisNew, hroots.length_le.trans (hfresh a rfl)⟩, horder, hnodup⟩
        exact hroots.trans (List.prefix_append ..)
      · cases helements

theorem looking_ok {α : Type} {f : Heap → Except Thrown α} {w : World} {x : α} (h : f w.heap = .ok x) :
    looking f w = .ok x w := by
  rw [looking, bind_ok (show readHeap w = .ok w.heap w from rfl), h]
  rfl

theorem looking_error {α : Type} {f : Heap → Except Thrown α} {w : World} {e : Thrown}
    (h : f w.heap = .error e) : looking f w = .error e w := by
  rw [looking, bind_ok (show readHeap w = .ok w.heap w from rfl), h]
  rfl

theorem insert_run {w : World} (hroots : roots <+: w.heap) {S : ℕ → Prop} (hS : Copied w.heap S) {a : ℕ}
    (ha : S a) {depth : ℕ} {ms : List (Text × Value)} (hx : Unfolds w.heap depth (.object a) (.obj ms))
    {stack : ℕ} (hstack : depth + 2 ≤ stack) (randomId : Text) :
    StoresAs w randomId (.obj ms) (Objects.insert toNumber stack randomId (.object a) w) := by
  obtain ⟨r, hs, hclone, hr, hfresh, hnew⟩ := cloneValue_run toNumber hroots hS stack
    (unfolds_le (Nat.le_of_add_right_le hstack) hx) (fun b hb => Ref.object.inj hb ▸ ha) w List.prefix_rfl
  replace hr := unfolds_depth hx hr
  obtain ⟨b, node, rfl, hb, horder, hnodup⟩ := isDocument_of_unfolds hroots hnew hfresh hr
  obtain ⟨depth, rfl⟩ : ∃ d, depth = d + 1 := Nat.exists_eq_succ_of_ne_zero (by rintro rfl; exact hx)
  obtain ⟨stack, rfl⟩ : ∃ n, stack = n + 1 := Nat.exists_eq_succ_of_ne_zero (by omega)
  have hnames := assertValidFieldNames_eq (stack + 1) (unfolds_le (by omega) hr)
  obtain ⟨h, hgive, hdocument, hid⟩ := giveRandomId_run toNumber
    (w := { w with heap := w.heap ++ hs }) hb horder hnodup hr randomId
  have hlocal := assertLocalId_eq hid
  rw [Objects.insert, bind_ok hclone]
  rw [StoresAs, prepare]
  dsimp only
  cases hvalid : Modifier.assertValidFieldNames (.obj ms) with
  | error message =>
    rw [hvalid] at hnames
    refine ⟨⟨.other, message⟩, { w with heap := w.heap ++ hs }, bind_error ?_, rfl, rfl, rfl⟩
    rw [prepareInsert]
    exact bind_error (looking_error hnames)
  | ok _ =>
    rw [hvalid] at hnames
    replace hnames := looking_ok (w := { w with heap := w.heap ++ hs })
      (f := fun h => Objects.assertValidFieldNames h (stack + 1) (.object b)) hnames
    cases hcheck : Modifier.assertLocalId (getKey (withRandomId randomId (.obj ms)) (js "_id")) with
    | error message =>
      rw [hcheck] at hlocal
      obtain ⟨e, he, hmessage⟩ := hlocal
      replace he := looking_error (w := { w with heap := h })
        (f := fun h => Objects.assertLocalId (reflectGet h (js "_id") (.object b))) he
      refine ⟨e, { w with heap := h }, bind_error ?_, hmessage, rfl, rfl⟩
      rw [prepareInsert, bind_ok hnames, bind_ok hgive]
      exact bind_error he
    | ok _ =>
      rw [hcheck] at hlocal
      obtain ⟨id, hkey, he⟩ := hlocal
      replace he := looking_ok (w := { w with heap := h })
        (f := fun h => Objects.assertLocalId (reflectGet h (js "_id") (.object b))) he
      have hread (h : Heap) : (get : Run World) { w with heap := h } =
          .ok { w with heap := h } { w with heap := h } := rfl
      refine ⟨id, by rw [idOf, hkey], ?_⟩
      cases hstored : (w.store.get id).isSome with
      | true =>
        refine ⟨⟨.other, js "Duplicate _id '" ++ id ++ js "'"⟩, { w with heap := h }, bind_error ?_,
          rfl, rfl, rfl⟩
        rw [prepareInsert, bind_ok hnames, bind_ok hgive, bind_ok he,
          bind_ok (hread h), if_pos hstored]
        rfl
      | false =>
        obtain ⟨h', hfreeze, hsame⟩ := deepFreeze_run (stack + 1) (unfolds_le (by omega) hdocument) []
          (fun _ _ _ hs => absurd hs List.not_mem_nil) { w with heap := h } rfl
        obtain ⟨h'', hevent, hsame'⟩ := freezeEvent_run
          (show Unfolds h stack _ _ from unfolds_le (by omega) hdocument)
          (w := { w with heap := h', store := w.store.set id (.object b) }) hsame
        refine ⟨b, ⟨h'', w.store.set id (.object b), w.events ++ [.insert (.object b)]⟩, depth + 2, ?_,
          hsame'.unfolds hdocument, rfl, rfl⟩
        have hprepare : prepareInsert toNumber (stack + 1) randomId b { w with heap := w.heap ++ hs } =
            .ok id { w with heap := h', store := w.store.set id (.object b) } := by
          rw [prepareInsert, bind_ok hnames, bind_ok hgive, bind_ok he,
            bind_ok (hread h), if_neg (by simp [hstored]),
            putFrozen, bind_assoc, bind_ok hfreeze]
          rfl
        rw [bind_ok hprepare, bind_ok hevent]
        rfl

/-! ## On a cycle -/

/-- What was there before is still there. -/
def Extends (base : Heap) (w : World) : Prop := base <+: w.heap

theorem writable_extends {base : Heap} {a : ℕ} (ha : base.length ≤ a) (v : Ref) :
    Writable (Extends base) a v where
  member _ _ hw _ := prefix_modify hw ha _
  proto _ hw _ := prefix_modify hw ha _
  elements _ _ _ _ _ _ _ hw _ := prefix_modify hw ha _

theorem keeps_allocate {base : Heap} {E : Thrown → Prop} (node : Node) :
    Keeps (Extends base) (allocate node) (fun _ => True) E := by
  refine keeps_bind keeps_readHeap fun heap _ => ?_
  refine keeps_bind (keeps_modify fun w hw => ?_) fun _ _ => keeps_pure trivial
  exact List.IsPrefix.trans hw (List.prefix_append ..)

theorem keeps_assignEach {base : Heap} {b : ℕ} (hb : base.length ≤ b) : ∀ ms : List (Text × Ref),
    Keeps (Extends base) (assignEach toNumber b ms) (fun _ => True) (· ≠ cycles)
  | [] => keeps_pure trivial
  | m :: ms => keeps_bind (keeps_assign (fun _ h => h) (writable_extends hb m.2) m.1) fun _ _ =>
      keeps_assignEach hb ms

variable (toNumber) in
/-- **The copy only returns from what has an unfolding**, and it does not look for cycles. -/
theorem keeps_cloneValue {base : Heap} {S : ℕ → Prop} (hrefers : ∀ b c, S b → Refers base b c → S c)
    (hparts : ∀ b, S b → ∃ node, base[b]? = some node ∧ IsValue node) : ∀ (stack : ℕ) {r : Ref},
    r ≠ .function → (∀ a, r = .object a → S a) →
    Keeps (Extends base) (Objects.cloneValue toNumber stack r) (fun _ => ∃ x, Unfolds base stack r x) (· ≠ cycles)
  | 0, _, _, _ => keeps_throw (by decide)
  | _ + 1, .leaf v, _, _ => keeps_pure ⟨v.value, rfl⟩
  | _ + 1, .function, h, _ => (h rfl).elim
  | stack + 1, .object a, _, hr => by
    obtain ⟨node, hnode, hvalue⟩ := hparts a (hr a rfl)
    have ih : ∀ r ∈ node.values, Keeps (Extends base) (Objects.cloneValue toNumber stack r)
        (fun _ => ∃ x, Unfolds base stack r x) (· ≠ cycles) := by
      intro r hmem
      refine keeps_cloneValue hrefers hparts stack (fun h => hvalue.values (h ▸ hmem)) fun b hb => ?_
      exact hrefers a b (hr a rfl) ⟨node, hnode, hb ▸ hmem⟩
    refine keeps_bind keeps_readHeap fun heap ⟨w, hw, hheap⟩ => ?_
    have hread : heap[a]? = some node := by
      obtain ⟨rest, hrest⟩ := hw
      rw [← hheap, ← hrest, List.getElem?_append_left (List.getElem?_eq_some_iff.mp hnode).1]
      exact hnode
    rw [hread]
    dsimp only
    cases helements : node.elements with
    | some refs =>
      have hmembers : node.members = [] := by
        rcases hvalue.shape with ⟨h, -⟩ | ⟨-, h⟩
        · rw [helements] at h
          cases h
        · exact h
      have hvalues := Node.values_arr helements hmembers
      rw [hvalues] at ih
      refine keeps_bind (keeps_mapM ih) fun copies hcopies => ?_
      refine (keeps_allocate _).mono fun _ _ => unfolds_node hnode hvalue ?_
      rw [hvalues]
      exact forall₂_left hcopies
    | none =>
      have hvalues := Node.values_eq helements
      have hentries : ∀ m ∈ node.entries, Keeps (Extends base)
          (do return (m.1, ← Objects.cloneValue toNumber stack m.2))
          (fun _ => ∃ x, Unfolds base stack m.2 x) (· ≠ cycles) := by
        intro m hm
        exact keeps_bind (ih m.2 (hvalues ▸ List.mem_map_of_mem hm)) fun _ h => keeps_pure h
      refine keeps_bind (keeps_mapM hentries) fun copies hcopies => ?_
      refine keeps_bind keeps_readHeap fun heap' ⟨w', hw', hheap'⟩ => ?_
      refine keeps_bind (keeps_allocate _) fun result _ => ?_
      refine keeps_bind (keeps_assignEach (hheap' ▸ List.IsPrefix.length_le hw') copies) fun _ _ => ?_
      refine keeps_pure (unfolds_node hnode hvalue ?_)
      rw [hvalues, List.forall_mem_map]
      exact forall₂_left hcopies

/-! ## Cyclic documents -/

/-- The check for cycles threw, and the collection is as it was. -/
def RefusesCycle (w : World) (result : EStateM.Result Thrown World Text) : Prop :=
  ∃ w', result = .error cycles w' ∧ w'.store = w.store ∧ w'.events = w.events

/-- A document with a cycle is refused for it; another one is stored as its unfolding. -/
def HandlesCycles (w : World) (randomId : Text) (a : ℕ) (result : EStateM.Result Thrown World Text) : Prop :=
  (HasCycle w.heap a → RefusesCycle w result) ∧
    (¬ HasCycle w.heap a → ∃ depth x, Unfolds w.heap depth (.object a) x ∧ StoresAs w randomId x result)

/-- No part of the document has `__proto__` among its own keys. -/
def NoProtoKeys (heap : Heap) (a : ℕ) : Prop :=
  ∀ b node, Reaches heap a b → heap[b]? = some node → js "__proto__" ∉ node.members.map Prod.fst

variable (toNumber) in
theorem insert_not_cycles {w : World} {a : ℕ} (hgraph : ValueGraph w.heap a) (hcycle : HasCycle w.heap a)
    (stack : ℕ) (randomId : Text) :
    ∃ e w', Objects.insert toNumber stack randomId (.object a) w = .error e w' ∧ e ≠ cycles := by
  have hkeeps := keeps_cloneValue toNumber (fun _ _ => Relation.ReflTransGen.tail) hgraph.parts
    stack (r := .object a) (by simp) (fun b hb => Ref.object.inj hb ▸ .refl)
  cases hrun : Objects.cloneValue toNumber stack (.object a) w with
  | ok r w' =>
    obtain ⟨x, hx⟩ := (hkeeps.ok (s := w) List.prefix_rfl hrun).2
    exact (not_unfolds_of_cyclic hcycle stack x hx).elim
  | error e w' =>
    exact ⟨e, w', bind_error hrun, (hkeeps.error (s := w) List.prefix_rfl hrun).2⟩

/-- **`insert` does with a document what it should, given stack enough, only where no cycle is
reachable; and there it does**, unless a part has `__proto__` among its keys. -/
theorem insert_handles_cycles_iff {w : World} (hroots : roots <+: w.heap) {a : ℕ}
    (hgraph : ValueGraph w.heap a) (randomId : Text) :
    ((∃ least, ∀ stack ≥ least,
        HandlesCycles w randomId a (Objects.insert toNumber stack randomId (.object a) w)) →
      ¬ HasCycle w.heap a) ∧
    (¬ HasCycle w.heap a ∧ NoProtoKeys w.heap a →
      ∃ least, ∀ stack ≥ least,
        HandlesCycles w randomId a (Objects.insert toNumber stack randomId (.object a) w)) := by
  constructor
  · intro ⟨least, h⟩ hcycle
    obtain ⟨w', hrun, -⟩ := (h least le_rfl).1 hcycle
    obtain ⟨e, w'', hrun', hne⟩ := insert_not_cycles toNumber hgraph hcycle least randomId
    rw [hrun] at hrun'
    exact hne (EStateM.Result.error.inj hrun').1.symm
  · intro ⟨hacyclic, hproto⟩
    obtain ⟨depth, x, hx⟩ := unfolds_of_acyclic hgraph hacyclic
    obtain ⟨ms, rfl⟩ : ∃ ms, x = .obj ms := by
      obtain ⟨node, hnode, helements⟩ := hgraph.document
      cases depth with
      | zero => exact hx.elim
      | succ depth =>
        obtain ⟨node', hnode', ⟨_, _, helements', -⟩ | ⟨ms, -, -, rfl, -⟩⟩ := id hx
        · rw [← Option.some.inj (hnode.symm.trans hnode'), helements] at helements'
          cases helements'
        · exact ⟨ms, rfl⟩
    refine ⟨depth + 2, fun stack hstack => ⟨fun h => (hacyclic h).elim, fun _ => ⟨depth, _, hx, ?_⟩⟩⟩
    exact insert_run hroots ⟨fun _ _ => .tail, hgraph.parts, hproto⟩ .refl hx hstack randomId

end

/-- A collection without documents. -/
def emptyWorld (heap : Heap) : World := ⟨roots ++ heap, .empty, []⟩

/-- Two fields with one object. -/
def sharedDocument : World := emptyWorld
  [{ plainObject with members := [(js "x", .null)] },
    { plainObject with members := [(js "a", .object 2), (js "b", .object 2)] }]

theorem sharedDocument_reaches {b : ℕ} (h : Reaches sharedDocument.heap 3 b) : b = 2 ∨ b = 3 := by
  induction h with
  | refl => exact .inr rfl
  | tail _ hbc ih =>
    obtain ⟨node, hnode, hc⟩ := hbc
    rcases ih with rfl | rfl
    · obtain rfl := Option.some.inj hnode
      exact absurd hc (by simp [Node.values, Node.entries, inKeyOrder, plainObject])
    · obtain rfl := Option.some.inj hnode
      left
      have hvalues : Ref.object _ ∈ [Ref.object 2, Ref.object 2] := hc
      simpa using hvalues

theorem insert_sharedDocument : ∃ least, ∀ stack ≥ least, HandlesCycles sharedDocument (js "f") 3
    (Objects.insert (fun _ _ => .nan) stack (js "f") (.object 3) sharedDocument) := by
  have hparts : ∀ b, Reaches sharedDocument.heap 3 b →
      ∃ node, sharedDocument.heap[b]? = some node ∧ IsValue node := by
    intro b hb
    rcases sharedDocument_reaches hb with rfl | rfl
    · exact ⟨_, rfl, ⟨by decide, rfl, .inl ⟨rfl, .inl rfl⟩, by decide⟩⟩
    · exact ⟨_, rfl, ⟨by decide, rfl, .inl ⟨rfl, .inl rfl⟩, by decide⟩⟩
  have hinner : Unfolds sharedDocument.heap 2 (.object 2) (.obj [(js "x", .null)]) :=
    ⟨_, rfl, .inr ⟨_, rfl, .inl rfl, rfl, .cons ⟨rfl, rfl⟩ .nil⟩⟩
  have hdocument : Unfolds sharedDocument.heap 3 (.object 3)
      (.obj [(js "a", .obj [(js "x", .null)]), (js "b", .obj [(js "x", .null)])]) :=
    ⟨_, rfl, .inr ⟨_, rfl, .inl rfl, rfl, .cons ⟨rfl, hinner⟩ (.cons ⟨rfl, hinner⟩ .nil)⟩⟩
  refine (insert_handles_cycles_iff (List.prefix_append roots _) ⟨⟨_, rfl, rfl⟩, hparts⟩ _).2 ⟨?_, ?_⟩
  · exact fun h => not_unfolds_of_cyclic h _ _ hdocument
  · intro b node hb hnode
    rcases sharedDocument_reaches hb with rfl | rfl
    · obtain rfl := Option.some.inj hnode
      decide
    · obtain rfl := Option.some.inj hnode
      decide

/-- An object that is its own field. -/
def cyclicDocument : World := emptyWorld [{ plainObject with members := [(js "self", .object 2)] }]

theorem cloneValue_cyclicDocument (stack : ℕ) :
    Objects.cloneValue (fun _ _ => .nan) stack (.object 2) cyclicDocument =
      .error stackOverflow cyclicDocument := by
  induction stack with
  | zero => rfl
  | succ stack ih =>
    rw [Objects.cloneValue, bind_ok (show readHeap cyclicDocument = .ok cyclicDocument.heap _ from rfl)]
    have hentry : (do return (js "self", ← Objects.cloneValue (fun _ _ => .nan) stack (.object 2)) :
        Run (Text × Ref)) cyclicDocument = .error stackOverflow cyclicDocument := bind_error ih
    have hentries : ([(js "self", Ref.object 2)].mapM fun m => do
        return (m.1, ← Objects.cloneValue (fun _ _ => .nan) stack m.2) : Run (List (Text × Ref)))
        cyclicDocument = .error stackOverflow cyclicDocument := by
      rw [List.mapM_cons]
      exact bind_error hentry
    exact bind_error hentries

/-- Whatever the stack holds, the cycle is not found. -/
theorem insert_cyclicDocument : HasCycle cyclicDocument.heap 2 ∧ ∀ stack, ∃ e,
    Objects.insert (fun _ _ => .nan) stack (js "f") (.object 2) cyclicDocument = .error e cyclicDocument ∧
      e.kind = .rangeError := by
  refine ⟨⟨2, .refl, .single ⟨_, rfl, .head _⟩⟩, fun stack => ⟨stackOverflow, ?_, rfl⟩⟩
  exact bind_error (cloneValue_cyclicDocument stack)

end TypeFerry.Minimongo.Cyclic
