import TypeFerry.Lib.Triples
import TypeFerry.Minimongo.Exclusion
import TypeFerry.Minimongo.Modifier

/-! # The store on objects

Objects with their addresses and prototypes, and `insert` of
`local-collection.ts` on them: the copy of `value-semantics.ts`, the check of the
field names and `deepFreeze`. Each of the three walks the objects by recursion
and uses up the call stack; a walk that is out of it throws a `RangeError`. A
document holds no functions of its own, so none has a `clone` method, and the
views on bytes, dates and expressions are taken for leaves. -/
namespace TypeFerry.Minimongo.Objects
open TypeFerry.Lib.Numeral TypeFerry.Lib.JsonText TypeFerry.Lib.OrderedMap TypeFerry.Ejson.Clone
open TypeFerry.Ejson.Canonical TypeFerry.Minimongo.Values TypeFerry.Minimongo.Modifier
open TypeFerry.Minimongo.Exclusion (inKeyOrder)
open TypeFerry.Lib.Triples

/-! ## Objects -/

/-- A value that no property is written to. -/
inductive Leaf where
  | undefined
  | null
  | bool (b : Bool)
  | num (n : Number)
  | str (s : Text)
  | date (time : Option ℤ)
  | regexp (r : RegExp)
  | binary (bytes : List UInt8)
  deriving DecidableEq

def Leaf.value : Leaf → Value
  | .undefined => .undefined
  | .null => .null
  | .bool b => .bool b
  | .num n => .num n
  | .str s => .str s
  | .date time => .date time
  | .regexp r => .regexp r
  | .binary bytes => .binary bytes

inductive Ref where
  | leaf (v : Leaf)
  | function
  | object (address : ℕ)
  deriving DecidableEq

abbrev Ref.undefined : Ref := .leaf .undefined

abbrev Ref.null : Ref := .leaf .null

/-- An object: its own properties, of which the `hidden` ones are not enumerable, and its
prototype. An array has its elements beside them. -/
structure Node where
  elements : Option (List Ref)
  members : List (Text × Ref)
  hidden : List Text
  proto : Ref
  frozen : Bool
  deriving DecidableEq

abbrev Heap := List Node

/-- `Object.prototype`. -/
def objectPrototype : ℕ := 0

/-- `Array.prototype`. -/
def arrayPrototype : ℕ := 1

/-- `{}`. -/
def plainObject : Node := ⟨none, [], [], .object objectPrototype, false⟩

/-- `[...xs]`. -/
def arrayOf (xs : List Ref) : Node := ⟨some xs, [], [], .object arrayPrototype, false⟩

/-- An object whose own properties are methods. -/
def methods (elements : Option (List Ref)) (names : List Text) (proto : Ref) : Node :=
  ⟨elements, names.map fun name => (name, .function), names, proto, false⟩

/-- The two shared objects as the engine makes them. -/
def roots : Heap :=
  [methods none (["constructor", "__defineGetter__", "__defineSetter__", "hasOwnProperty",
      "__lookupGetter__", "__lookupSetter__", "isPrototypeOf", "propertyIsEnumerable", "toString",
      "valueOf", "toLocaleString"].map js) .null,
    methods (some []) (["at", "concat", "copyWithin", "fill", "find", "findIndex", "findLast",
      "findLastIndex", "lastIndexOf", "pop", "push", "reverse", "shift", "unshift", "slice", "sort",
      "splice", "includes", "indexOf", "join", "keys", "entries", "values", "forEach", "filter",
      "flat", "flatMap", "map", "every", "some", "reduce", "reduceRight", "toLocaleString",
      "toReversed", "toSorted", "toSpliced", "toString", "with", "constructor"].map js)
      (.object objectPrototype)]

/-- `Object.entries`, without the elements of an array. -/
def Node.entries (node : Node) : List (Text × Ref) :=
  (inKeyOrder node.members).filter fun m => m.1 ∉ node.hidden

/-- `Object.values`. -/
def Node.values (node : Node) : List Ref := node.elements.getD [] ++ node.entries.map Prod.snd

/-- `isPlainObject`. -/
def isPlainObject (heap : Heap) : Ref → Bool
  | .object a => heap[a]?.any fun node =>
    node.elements.isNone && (node.proto == .object objectPrototype || node.proto == .null)
  | _ => false

/-! ## One property -/

/-- An own property: a value, or the `__proto__` of `Object.prototype`, which gives and sets
the prototype of the object it is used on. -/
inductive Property where
  | data (v : Ref)
  | accessor

/-- The own property of an array for its length or an index. -/
def Node.indexed (key : Text) (node : Node) : Option Ref :=
  node.elements.bind fun xs =>
    if key = js "length" then some (.leaf (.num (.finite (ofInt xs.length))))
    else (arrayKey? key).bind fun i => xs[i]?

def own (heap : Heap) (key : Text) (a : ℕ) : Option Property :=
  heap[a]?.bind fun node => match node.indexed key, node.members.lookup key with
    | some v, _ | none, some v => some (.data v)
    | none, none => if a = objectPrototype ∧ key = js "__proto__" then some .accessor else none

def protoOf (heap : Heap) (a : ℕ) : Ref := heap[a]?.elim .undefined Node.proto

/-- The property of the object or of the first of its prototypes that has it, with where it is. -/
def find (heap : Heap) (key : Text) : ℕ → Ref → Option (ℕ × Property)
  | fuel + 1, .object a => match own heap key a with
    | some property => some (a, property)
    | none => find heap key fuel (protoOf heap a)
  | _, _ => none

/-- `Reflect.get(target, key)`, on an object. -/
def reflectGet (heap : Heap) (key : Text) : Ref → Ref
  | .object a => match find heap key heap.length (.object a) with
    | some (_, .data v) => v
    | some (_, .accessor) => protoOf heap a
    | none => .undefined
  | _ => .undefined

/-! ## The state of a collection -/

inductive ErrorKind where
  | rangeError
  | typeError
  | other
  deriving DecidableEq

/-- What was thrown. -/
structure Thrown where
  kind : ErrorKind
  message : Text
  deriving DecidableEq

def stackOverflow : Thrown := ⟨.rangeError, js "Maximum call stack size exceeded"⟩

def typeError (message : String) : Thrown := ⟨.typeError, js message⟩

/-- What `deepFreeze` throws on a cycle. -/
def cycles : Thrown := typeError "Local collection documents must not contain cycles."

/-- An event, with the documents in it. -/
inductive Event where
  | insert (document : Ref)
  | update (previous document : Ref)
  deriving DecidableEq

def Event.documents : Event → List Ref
  | .insert document => [document]
  | .update previous document => [previous, document]

structure World where
  heap : Heap
  store : OMap Text Ref
  events : List Event

abbrev Run := EStateM Thrown World

def readHeap : Run Heap := do return (← get).heap

def onHeap (f : Heap → Heap) : Run Unit := modify fun w => { w with heap := f w.heap }

/-- What only looks at the objects. -/
def looking {α : Type} (f : Heap → Except Thrown α) : Run α := do
  match f (← readHeap) with
  | .ok a => return a
  | .error e => throw e

def allocate (node : Node) : Run Ref := do
  let heap ← readHeap
  onHeap (· ++ [node])
  return .object heap.length

/-- The object is changed, if it is not frozen; whether it was. -/
def change (a : ℕ) (f : Node → Node) : Run Bool := do
  if (← readHeap)[a]?.any Node.frozen then return false
  else
    onHeap (List.modify · a f)
    return true

/-- The addresses on the chain of prototypes. -/
def chain (heap : Heap) : ℕ → Ref → List ℕ
  | fuel + 1, .object a => a :: chain heap fuel (protoOf heap a)
  | _, _ => []

/-- An object or `null`. -/
def isPrototype : Ref → Bool
  | .leaf .null | .leaf (.date _) | .leaf (.regexp _) | .leaf (.binary _) | .function | .object _ => true
  | .leaf _ => false

/-- The setter of `__proto__`. A value that is neither an object nor `null` is passed over. -/
def setPrototype (a : ℕ) (v : Ref) : Run Bool := do
  let heap ← readHeap
  if !isPrototype v || v == protoOf heap a then return true
  else if a = objectPrototype then
    throw (typeError "Immutable prototype object cannot have its prototype set")
  else if a ∈ chain heap heap.length v then throw (typeError "Cyclic __proto__ value")
  else if ← change a fun node => { node with proto := v } then return true
  else throw (typeError "Object is not extensible")

/-- An array with `v` at place `i`; places up to there are holes. -/
def placed (i : ℕ) (v : Ref) (xs : List Ref) : List Ref :=
  if i < xs.length then xs.set i v else xs ++ List.replicate (i - xs.length) .undefined ++ [v]

/-- An array with its length set to `n`. -/
def resized (n : Number) (xs : List Ref) : Option (List Ref) :=
  match toInt? n with
  | some i => if 0 ≤ i ∧ i < 2 ^ 32 then
      some (xs.take i.toNat ++ List.replicate (i.toNat - xs.length) .undefined)
    else none
  | none => none

/-- An own property of the object is set. -/
def define (toNumber : Heap → Ref → Number) (a : ℕ) (key : Text) (v : Ref) : Run Bool := do
  let heap ← readHeap
  match heap[a]?.bind Node.elements with
  | none => change a fun node => { node with members := setMember key v node.members }
  | some xs =>
    if key = js "length" then match resized (toNumber heap v) xs with
      | some ys => change a fun node => { node with elements := some ys }
      | none => throw ⟨.rangeError, js "Invalid array length"⟩
    else match arrayKey? key with
      | some i => change a fun node => { node with elements := some (placed i v xs) }
      | none => change a fun node => { node with members := setMember key v node.members }

/-- `Reflect.set(target, key, v)`, on an object: a property that a frozen prototype has is
not set. -/
def reflectSet (toNumber : Heap → Ref → Number) (a : ℕ) (key : Text) (v : Ref) : Run Bool := do
  let heap ← readHeap
  match find heap key heap.length (.object a) with
  | some (_, .accessor) => setPrototype a v
  | some (b, .data _) =>
    if heap[b]?.any Node.frozen then return false else define toNumber a key v
  | none => define toNumber a key v

/-- `target[key] = v`, on an object. -/
def assign (toNumber : Heap → Ref → Number) (a : ℕ) (key : Text) (v : Ref) : Run Unit := do
  if ← reflectSet toNumber a key v then return ()
  else throw (typeError "Cannot assign to read only property")

/-- `Object.freeze(object)`. -/
def freeze (a : ℕ) : Run Unit := onHeap (List.modify · a fun node => { node with frozen := true })

/-! ## The walks -/

section
variable (toNumber : Heap → Ref → Number)

/-- The assignments to a new object in a copy. -/
def assignEach (a : ℕ) : List (Text × Ref) → Run Unit
  | [] => return ()
  | (key, v) :: rest => do
    assign toNumber a key v
    assignEach a rest

/-- `cloneValue(value)`. The addresses of the copies are in the order in which they are done. -/
def cloneValue : ℕ → Ref → Run Ref
  | 0, _ => throw stackOverflow
  | stack + 1, .object a => do
    match (← readHeap)[a]? with
    | none => return .undefined
    | some node => match node.elements with
      | some xs => allocate (arrayOf (← xs.mapM (cloneValue stack)))
      | none =>
        let copies ← node.entries.mapM fun m => do return (m.1, ← cloneValue stack m.2)
        let b := (← readHeap).length
        let result ← allocate plainObject
        assignEach toNumber b copies
        return result
  | _ + 1, value => return value

/-- `assertValidFieldNames(value)`. -/
def assertValidFieldNames (heap : Heap) : ℕ → Ref → Except Thrown Unit
  | 0, _ => .error stackOverflow
  | stack + 1, .object a => match heap[a]? with
    | none => .ok ()
    | some node => match node.elements with
      | some xs => xs.forM (assertValidFieldNames heap stack)
      | none =>
        if isPlainObject heap (.object a) then node.entries.forM fun m =>
          match invalidFieldNameReason m.1 with
          | some reason => .error ⟨.other, js "Key " ++ m.1 ++ js " must not " ++ reason⟩
          | none => assertValidFieldNames heap stack m.2
        else .ok ()
  | _ + 1, _ => .ok ()

/-- `deepFreeze(value, seen)`. -/
def deepFreeze : ℕ → List ℕ → Ref → Run Unit
  | 0, _, _ => throw stackOverflow
  | stack + 1, seen, .object a => do
    if a ∈ seen then throw cycles
    else
      let children := (← readHeap)[a]?.elim [] Node.values
      children.forM (deepFreeze stack (a :: seen))
      freeze a
  | _ + 1, _, _ => return ()

/-- `deepFreeze(event)`, of the object around the documents. -/
def freezeEvent (event : Event) : ℕ → Run Unit
  | 0 => throw stackOverflow
  | stack + 1 => event.documents.forM (deepFreeze stack [])

/-- `this.emit(name, event)`; the listeners only record what they are given. -/
def emit (event : Event) : Run Unit := modify fun w => { w with events := w.events ++ [event] }

/-! ## `insert` -/

/-- `assertLocalId(value)`. -/
def assertLocalId : Ref → Except Thrown Text
  | .leaf (.str id) =>
    if isLocalId id then .ok id
    else .error (typeError "Local collection _id must be a lowercase 24-character hexadecimal string.")
  | _ => .error (typeError "Local collection _id must be a lowercase 24-character hexadecimal string.")

/-- `document._id ??= randomId()`. -/
def giveRandomId (randomId : Text) (a : ℕ) : Run Unit := do
  match reflectGet (← readHeap) (js "_id") (.object a) with
  | .leaf .undefined | .leaf .null => assign toNumber a (js "_id") (.leaf (.str randomId))
  | _ => return ()

/-- `this.store.set(id, deepFreeze(document))`. -/
def putFrozen (stack : ℕ) (id : Text) (a : ℕ) : Run Unit := do
  deepFreeze stack [] (.object a)
  modify fun w => { w with store := w.store.set id (.object a) }

/-- `prepareInsert(document)`, with the id of the stored document. -/
def prepareInsert (stack : ℕ) (randomId : Text) (a : ℕ) : Run Text := do
  looking fun heap => assertValidFieldNames heap stack (.object a)
  giveRandomId toNumber randomId a
  let id ← looking fun heap => assertLocalId (reflectGet heap (js "_id") (.object a))
  if ((← get).store.get id).isSome then throw ⟨.other, js "Duplicate _id '" ++ id ++ js "'"⟩
  else
    putFrozen stack id a
    return id

/-- `insert(document)`, of an object, up to the observers. -/
def insert (stack : ℕ) (randomId : Text) (document : Ref) : Run Text := do
  match ← cloneValue toNumber stack document with
  | .object a =>
    let id ← prepareInsert toNumber stack randomId a
    freezeEvent (.insert (.object a)) stack
    emit (.insert (.object a))
    return id
  | _ => throw (typeError "Cannot create property '_id'")

end

/-! ## What a write keeps -/

/-- The condition stays when the object at `a`, which is not frozen, is changed so. -/
def Stable (I : World → Prop) (a : ℕ) (f : Node → Node) : Prop :=
  ∀ w, I w → (∀ node, w.heap[a]? = some node → node.frozen = false) → I { w with heap := w.heap.modify a f }

/-- The condition stays when `v` is written to the object at `a`. -/
structure Writable (I : World → Prop) (a : ℕ) (v : Ref) : Prop where
  member : ∀ key, Stable I a fun node => { node with members := setMember key v node.members }
  proto : Stable I a fun node => { node with proto := v }
  elements : ∀ w xs, I w → w.heap[a]?.bind Node.elements = some xs → ∀ ys,
    (∀ r ∈ ys, r ∈ xs ∨ r = v ∨ r = .undefined) → Stable I a fun node => { node with elements := some ys }

section
variable {I : World → Prop} {E : Thrown → Prop} {a : ℕ} {v : Ref}

/-- What is read is the heap of a state in which the condition holds. -/
theorem keeps_readHeap : Keeps I readHeap (fun heap => ∃ w, I w ∧ w.heap = heap) E :=
  fun w hw => ⟨hw, w, hw, rfl⟩

theorem keeps_change {f : Node → Node} (h : Stable I a f) : Keeps I (change a f) (fun _ => True) E := by
  intro w hw
  rw [change, bind_ok (show readHeap w = .ok w.heap w from rfl)]
  by_cases hfrozen : w.heap[a]?.any Node.frozen
  · rw [if_pos hfrozen]
    exact ⟨hw, trivial⟩
  · rw [if_neg hfrozen]
    refine ⟨h w hw fun node hnode => ?_, trivial⟩
    rw [hnode, Option.any_some, Bool.not_eq_true] at hfrozen
    exact hfrozen

theorem mem_placed {i : ℕ} {xs : List Ref} {r : Ref} (h : r ∈ placed i v xs) :
    r ∈ xs ∨ r = v ∨ r = .undefined := by
  rw [placed] at h
  split at h
  · rcases List.mem_or_eq_of_mem_set h with h | h
    · exact .inl h
    · exact .inr (.inl h)
  · rw [List.mem_append, List.mem_append, List.mem_replicate, List.mem_singleton] at h
    rcases h with (h | ⟨-, h⟩) | h
    · exact .inl h
    · exact .inr (.inr h)
    · exact .inr (.inl h)

theorem mem_resized {n : Number} {xs ys : List Ref} (hys : resized n xs = some ys) {r : Ref} (h : r ∈ ys) :
    r ∈ xs ∨ r = .undefined := by
  rw [resized] at hys
  split at hys
  · split at hys
    · cases hys
      rcases List.mem_append.mp h with h | h
      · exact .inl (List.mem_of_mem_take h)
      · exact .inr (List.mem_replicate.mp h).2
    · cases hys
  · cases hys

variable (hE : ∀ e, e ≠ cycles → E e)
include hE

theorem keeps_setPrototype (h : Writable I a v) : Keeps I (setPrototype a v) (fun _ => True) E := by
  refine keeps_bind keeps_readHeap fun heap _ => ?_
  split
  · exact keeps_pure trivial
  split
  · exact keeps_throw (hE _ (by decide))
  split
  · exact keeps_throw (hE _ (by decide))
  refine keeps_bind (keeps_change h.proto) fun changed _ => ?_
  split
  · exact keeps_pure trivial
  · exact keeps_throw (hE _ (by decide))

theorem keeps_define {toNumber : Heap → Ref → Number} (h : Writable I a v) (key : Text) :
    Keeps I (define toNumber a key v) (fun _ => True) E := by
  refine keeps_bind keeps_readHeap fun heap ⟨w, hw, hheap⟩ => ?_
  subst hheap
  split
  · exact keeps_change (h.member key)
  · next xs hxs =>
    split
    · split
      · next ys hys =>
        refine keeps_change (h.elements w xs hw hxs ys fun r hr => ?_)
        exact (mem_resized hys hr).imp_right .inr
      · exact keeps_throw (hE _ (by decide))
    · split
      · exact keeps_change (h.elements w xs hw hxs _ fun r hr => mem_placed hr)
      · exact keeps_change (h.member key)

theorem keeps_reflectSet {toNumber : Heap → Ref → Number} (h : Writable I a v) (key : Text) :
    Keeps I (reflectSet toNumber a key v) (fun _ => True) E := by
  refine keeps_bind keeps_readHeap fun heap _ => ?_
  split
  · exact keeps_setPrototype hE h
  · split
    · exact keeps_pure trivial
    · exact keeps_define hE h key
  · exact keeps_define hE h key

theorem keeps_assign {toNumber : Heap → Ref → Number} (h : Writable I a v) (key : Text) :
    Keeps I (assign toNumber a key v) (fun _ => True) E := by
  refine keeps_bind (keeps_reflectSet hE h key) fun set _ => ?_
  split
  · exact keeps_pure trivial
  · exact keeps_throw (hE _ (by decide))

end

end TypeFerry.Minimongo.Objects
