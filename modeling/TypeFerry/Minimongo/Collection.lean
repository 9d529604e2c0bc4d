import TypeFerry.Lib.OrderedMap
import TypeFerry.Minimongo.Matcher

/-! # The local collection

`local-collection.ts`: a store of documents by their `_id`, the calls that change
it, the events they emit and the observers they notify. What a selector, a
modifier and a document are is left to the runtime of the collection. Listeners
only record what they are given here; an observer looks at the store and may
throw. -/
namespace TypeFerry.Minimongo.Collection
open TypeFerry.Lib.Numeral TypeFerry.Lib.OrderedMap TypeFerry.Minimongo.Values TypeFerry.Minimongo.Matcher

/-- What a collection takes from its `LocalStoreRuntime`, over documents `D` with keys `ι`,
selectors `S` and modifiers `M`. -/
structure LocalStoreRuntime (D ι S M : Type) where
  idOf : D → ι
  /-- `values.clone` -/
  clone : D → D
  /-- `query.matcher(selector, { isUpdate })` -/
  matcher : Bool → S → Except Text (D → Except Text MatchResult)
  /-- `mutations.modify(mutable, modifier, { arrayIndices })` -/
  modify : D → M → Option (List ArrayStep) → Except Text D
  /-- `mutations.createUpsert` -/
  createUpsert : S → M → Except Text D
  /-- `if (!document._id) document._id = insertedId` -/
  giveId : Text → D → D
  /-- The checks of `prepareInsert` on the document alone, which gets the id from `randomId()`
  where it has none. -/
  prepare : Text → D → Except Text D

/-- An event of a collection. -/
inductive Event (D : Type) where
  | insert (document : D)
  | update (previous document : D)
  | remove (document : D)

/-- What a call leaves behind: the store, the events it emitted, how many observers it called
and what it returned or threw. -/
structure Outcome (D ι α : Type) where
  store : OMap ι D
  events : List (Event D)
  notified : ℕ
  result : Except Text α

def Outcome.map {D ι α β : Type} (f : α → β) (o : Outcome D ι α) : Outcome D ι β :=
  ⟨o.store, o.events, o.notified, o.result.map f⟩

/-- `UpsertResult`. -/
structure UpsertResult (ι : Type) where
  numberAffected : ℕ
  insertedId : Option ι

section
variable {D ι S M : Type} [DecidableEq ι] (rt : LocalStoreRuntime D ι S M)
variable (observers : List (OMap ι D → Except Text Unit))

/-- `notifyObservers`: one after the other, until one throws. -/
def notifyObservers : List (OMap ι D → Except Text Unit) → OMap ι D → ℕ × Except Text Unit
  | [], _ => (0, .ok ())
  | observer :: rest, store => match observer store with
    | .error e => (1, .error e)
    | .ok _ => ((notifyObservers rest store).1 + 1, (notifyObservers rest store).2)

/-- The end of a call that got through: its events, then its observers. -/
def announce {α : Type} (store : OMap ι D) (events : List (Event D)) (result : α) : Outcome D ι α :=
  ⟨store, events, (notifyObservers observers store).1,
    (notifyObservers observers store).2.map fun _ => result⟩

/-- The documents that a matcher selects; the first one it throws on ends it. -/
def filterDocuments (documentMatches : D → Except Text MatchResult) : List D → Except Text (List D)
  | [] => .ok []
  | document :: rest => do
    let match' ← documentMatches document
    let others ← filterDocuments documentMatches rest
    .ok (if match'.result then document :: others else others)

/-- `matchedDocuments(selector)`. -/
def matchedDocuments (store : OMap ι D) (selector : S) : Except Text (List D) := do
  filterDocuments (← rt.matcher true selector) store.values

/-- `prepareInsert(document)`, up to writing it. -/
def prepareInsert (store : OMap ι D) (randomId : Text) (document : D) : Except Text D := do
  let stored ← rt.prepare randomId document
  if (store.get (rt.idOf stored)).isSome then .error (js "Duplicate _id") else .ok stored

def insert (store : OMap ι D) (randomId : Text) (document : D) : Outcome D ι ι :=
  match prepareInsert rt store randomId (rt.clone document) with
  | .error e => ⟨store, [], 0, .error e⟩
  | .ok stored =>
    announce observers (store.set (rt.idOf stored) stored) [.insert stored] (rt.idOf stored)

def remove (store : OMap ι D) (selector : S) : Outcome D ι ℕ :=
  match matchedDocuments rt store selector with
  | .error e => ⟨store, [], 0, .error e⟩
  | .ok documents =>
    announce observers (documents.foldl (fun store document => store.delete (rt.idOf document)) store)
      (documents.map .remove) documents.length

/-- What `update` makes of one matched document. -/
def modified (selector : S) (modifier : M) (previous : D) : Except Text D := do
  let match' ← (← rt.matcher true selector) previous
  rt.modify (rt.clone previous) modifier match'.arrayIndices

/-- The loop of `update`: the store, the pairs of previous and new documents, and what was
thrown. -/
def updateLoop (selector : S) (modifier : M) (multi : Bool) :
    List D → OMap ι D → List (D × D) → OMap ι D × List (D × D) × Option Text
  | [], store, updates => (store, updates, none)
  | previous :: rest, store, updates => match modified rt selector modifier previous with
    | .error e => (store, updates, some e)
    | .ok document =>
      if multi then updateLoop selector modifier multi rest (store.set (rt.idOf previous) document)
        (updates ++ [(previous, document)])
      else (store.set (rt.idOf previous) document, updates ++ [(previous, document)], none)

def update (store : OMap ι D) (selector : S) (modifier : M) (multi : Bool) : Outcome D ι ℕ :=
  match matchedDocuments rt store selector with
  | .error e => ⟨store, [], 0, .error e⟩
  | .ok documents => match updateLoop rt selector modifier multi documents store [] with
    | (written, _, some e) => ⟨written, [], 0, .error e⟩
    | (written, [], none) => ⟨written, [], 0, .ok 0⟩
    | (written, u :: us, none) =>
      announce observers written ((u :: us).map fun u => .update u.1 u.2) (u :: us).length

def upsert (store : OMap ι D) (randomId : Text) (selector : S) (modifier : M) (multi : Bool)
    (insertedId : Option Text) : Outcome D ι (UpsertResult ι) :=
  let updated := update rt observers store selector modifier multi
  match updated.result with
  | .error e => { updated with result := .error e }
  | .ok (n + 1) => { updated with result := .ok ⟨n + 1, none⟩ }
  | .ok 0 =>
    let prepared := do
      let document ← rt.createUpsert selector modifier
      prepareInsert rt updated.store randomId (insertedId.elim document fun id => rt.giveId id document)
    match prepared with
    | .error e => { updated with result := .error e }
    | .ok stored =>
      announce observers (updated.store.set (rt.idOf stored) stored) [.insert stored]
        ⟨1, some (rt.idOf stored)⟩

end

/-- A call that changes a collection, with what `randomId()` gives it. -/
inductive Call (D S M : Type) where
  | insert (randomId : Text) (document : D)
  | remove (selector : S)
  | update (selector : S) (modifier : M) (multi : Bool)
  | upsert (randomId : Text) (selector : S) (modifier : M) (multi : Bool) (insertedId : Option Text)

/-- A call and the number of documents it affected. -/
def perform {D ι S M : Type} [DecidableEq ι] (rt : LocalStoreRuntime D ι S M)
    (observers : List (OMap ι D → Except Text Unit)) (store : OMap ι D) : Call D S M → Outcome D ι ℕ
  | .insert randomId document => (insert rt observers store randomId document).map fun _ => 1
  | .remove selector => remove rt observers store selector
  | .update selector modifier multi => update rt observers store selector modifier multi
  | .upsert randomId selector modifier multi insertedId =>
    (upsert rt observers store randomId selector modifier multi insertedId).map
      UpsertResult.numberAffected

end TypeFerry.Minimongo.Collection
