import TypeFerry.Ejson.Canonical

/-! # Identifiers, documents and messages of live views

The data of `types.ts`. A generation is a fresh UUID in the source; here it is a
number, never empty and never given twice. -/
namespace TypeFerry.Live.Types
open TypeFerry.Lib.Numeral TypeFerry.Lib.JsonText
open TypeFerry.Ejson.Clone TypeFerry.Ejson.Convert TypeFerry.Ejson.Equals TypeFerry.Ejson.Canonical

/-! ## Identifiers -/

/-- A lower-case hexadecimal digit. -/
def isHexDigit (u : UInt16) : Bool :=
  (48 ≤ u.toNat && u.toNat ≤ 57) || (97 ≤ u.toNat && u.toNat ≤ 102)

/-- A MongoDB `ObjectId`, known by its hexadecimal text. -/
structure ObjectId where
  toHexString : Text
  valid : toHexString.length = 24 ∧ toHexString.all isHexDigit = true
  deriving DecidableEq

def negZero : Decimal := ⟨true, 0, 0, Decimal.zero.normal⟩

/-- `MongoLiveSourceId`. The database takes the two zeros for one id, so a
number is known without the sign of zero. -/
inductive SourceId where
  | objectId (id : ObjectId)
  | str (s : Text)
  | num (n : Number) (unsigned : n ≠ .finite negZero)
  deriving DecidableEq

/-- The `_id` of a stored document. -/
inductive StoredId where
  | live (id : SourceId)
  | other
  deriving DecidableEq

/-- `readLiveId`. -/
def readLiveId : StoredId → Option SourceId
  | .live id => some id
  | .other => none

/-- `MongoLiveId`. -/
inductive LiveId where
  | objectId (hex : Text)
  | str (s : Text)
  | num (n : Number)
  deriving DecidableEq

def LiveId.toValue : LiveId → Value
  | objectId hex => .obj [(js "$objectId", .str hex)]
  | str s => .str s
  | num n => .num n

def toClientId (typedObjectIds : Bool) : SourceId → LiveId
  | .objectId id => if typedObjectIds then .objectId id.toHexString else .str id.toHexString
  | .str s => .str s
  | .num n _ => .num n

/-- A runtime that knows no custom types. -/
def bareRuntime : Runtime := ⟨fun _ => .nan, fun _ _ => none, fun _ => none⟩

/-- `canonicalId`: the canonical EJSON text of an identifier. -/
def canonicalId (id : LiveId) : Text := (stringifyCanonical bareRuntime id.toValue).getD []

/-! ### Keys -/

/-- The JSON value of an identifier. -/
def idJson : LiveId → Json
  | .objectId hex => .obj [(js "$objectId", .str hex)]
  | .str s => .str s
  | .num (.finite d) => .num d
  | .num .nan => .obj [(js "$InfNaN", .num (ofInt 0))]
  | .num (.infinity neg) => .obj [(js "$InfNaN", .num (ofInt (if neg then -1 else 1)))]

/-- The registered types play no part in the text of an identifier. -/
theorem stringifyCanonical_id (rt : Runtime) (id : LiveId) :
    stringifyCanonical rt id.toValue = some (stringify (idJson id)) := by
  cases id with
  | objectId hex => rfl
  | str s => rfl
  | num n =>
    cases n with
    | finite d => rfl
    | nan => rfl
    | infinity neg => cases neg <;> rfl

theorem canonicalId_eq (id : LiveId) : canonicalId id = stringify (idJson id) := by
  rw [canonicalId, stringifyCanonical_id, Option.getD_some]

theorem idJson_wf (id : LiveId) : WF (idJson id) := by
  rcases id with hex | s | (d | _ | neg) <;> simp [idJson, WF, WFMembers]

theorem idJson_of_canonicalId {a b : LiveId} (h : canonicalId a = canonicalId b) :
    dropNegZero (idJson a) = dropNegZero (idJson b) := by
  have ha := parse_stringify (idJson_wf a)
  have hb := parse_stringify (idJson_wf b)
  rw [canonicalId_eq, canonicalId_eq] at h
  rw [h, hb] at ha
  exact (Option.some.inj ha).symm

theorem eq_zero_of_sig {d : Decimal} (h : d.sig = 0) (hn : d ≠ negZero) : d = .zero := by
  obtain ⟨neg, sig, exp, normal⟩ := d
  obtain rfl : sig = 0 := h
  obtain rfl : exp = 0 := by
    rcases normal with h | h
    · exact h.2
    · exact absurd rfl h
  cases neg with
  | true => exact absurd rfl hn
  | false => rfl

theorem eq_of_dropNegZero {d e : Decimal} (hd : d ≠ negZero) (he : e ≠ negZero)
    (h : d.dropNegZero = e.dropNegZero) : d = e := by
  unfold Decimal.dropNegZero at h
  split at h <;> split at h
  · next h₁ h₂ => rw [eq_zero_of_sig h₁ hd, eq_zero_of_sig h₂ he]
  · next h₁ h₂ => exact absurd (h ▸ rfl) h₂
  · next h₁ h₂ => exact absurd (h ▸ rfl) h₁
  · exact h

theorem num_of_idJson {m n : Number} (hm : m ≠ .finite negZero) (hn : n ≠ .finite negZero)
    (h : dropNegZero (idJson (.num m)) = dropNegZero (idJson (.num n))) : m = n := by
  have h₀ : (ofInt 0).dropNegZero ≠ (ofInt 1).dropNegZero := by decide
  have h₁ : (ofInt 0).dropNegZero ≠ (ofInt (-1)).dropNegZero := by decide
  have h₂ : (ofInt 1).dropNegZero ≠ (ofInt (-1)).dropNegZero := by decide
  rcases m with d | _ | (_ | _) <;> rcases n with e | _ | (_ | _) <;>
    simp_all [idJson, dropNegZero, dropNegZeroMembers]
  exact eq_of_dropNegZero hm hn h

/-- **Typed identifiers do not collide.** With the discriminated form of
`ObjectId`s, identifiers with one key are one identifier. -/
theorem typed_key_injective {a b : SourceId}
    (h : canonicalId (toClientId true a) = canonicalId (toClientId true b)) : a = b := by
  have h := idJson_of_canonicalId h
  have hkey : js "$objectId" ≠ js "$InfNaN" := by decide
  cases a with
  | objectId a =>
    rcases b with ⟨hex, hv⟩ | s | ⟨d | _ | neg, hn⟩ <;>
      simp_all [toClientId, idJson, dropNegZero, dropNegZeroMembers]
    cases a
    simp_all
  | str s =>
    rcases b with ⟨hex, hv⟩ | s' | ⟨d | _ | neg, hn⟩ <;>
      simp_all [toClientId, idJson, dropNegZero]
  | num m hm =>
    rcases b with ⟨hex, hv⟩ | s | ⟨n, hn⟩
    · rcases m with d | _ | neg <;>
        simp_all [toClientId, idJson, dropNegZero, dropNegZeroMembers, eq_comm]
    · rcases m with d | _ | neg <;> simp_all [toClientId, idJson, dropNegZero]
    · have hmn := num_of_idJson hm hn (by simpa [toClientId] using h)
      subst hmn
      rfl

theorem canonicalId_of_equals {a b : LiveId} (h : equals false a.toValue b.toValue = true) :
    canonicalId a = canonicalId b := by
  rcases a with hex | s | m <;> rcases b with hex' | s' | n <;>
    simp [LiveId.toValue, equals, isKeyed, ownEntries] at h
  · simp [compareKeysUnordered, getOwn, equals] at h
    rw [h]
  · rw [h]
  · rw [canonicalId_eq, canonicalId_eq]
    rcases m with d | _ | neg <;> rcases n with e | _ | neg' <;> simp [numEquals] at h
    · rcases h with rfl | ⟨hd, he⟩
      · rfl
      · simp [idJson, stringify, Decimal.toText, hd, he]
    · rfl
    · rw [h]

/-! ## Documents -/

/-- A stored document: its `_id` and its other fields. -/
structure Document where
  _id : StoredId
  fields : List (Text × Value)
  deriving DecidableEq

/-- `MongoLiveClientDocument`: the identity and the projected fields, none of
which is `_id`. -/
structure ClientDocument where
  _id : LiveId
  fields : List (Text × Value)
  deriving DecidableEq

namespace ClientDocument

def toValue (d : ClientDocument) : Value := .obj ((js "_id", d._id.toValue) :: d.fields)

/-- The key a document is stored under. -/
def key (d : ClientDocument) : Text := canonicalId d._id

/-- `EJSON.equals` on documents. -/
def equals (a b : ClientDocument) : Bool := Ejson.Equals.equals false a.toValue b.toValue

theorem key_of_equals {a b : ClientDocument} (h : a.equals b = true) : a.key = b.key := by
  obtain ⟨-, h⟩ := equals_obj.mp h
  have hid : getOwn (js "_id") ((js "_id", a._id.toValue) :: a.fields) = some a._id.toValue := by
    simp [getOwn]
  obtain ⟨y, hy, heq⟩ := compareKeysUnordered_getOwn h hid
  simp only [getOwn, List.lookup_cons, beq_self_eq_true, Option.some.injEq] at hy
  exact canonicalId_of_equals (hy ▸ heq)

end ClientDocument

/-! ## Messages -/

abbrev Generation := Nat
abbrev SubscriptionId := Nat

/-- `MongoLiveWindowSpliceOperation`. -/
structure WindowSplice where
  index : Number
  deleteCount : Number
  documents : List ClientDocument
  deriving DecidableEq

/-- `MongoLiveOperation`. -/
inductive Operation where
  | added (document : ClientDocument)
  | changed (document : ClientDocument)
  | removed (id : LiveId)
  | windowSplice (splice : WindowSplice)
  deriving DecidableEq

/-- `MongoLiveDelta`. -/
structure Delta where
  subscriptionId : SubscriptionId
  generation : Generation
  sequence : Nat
  operations : List Operation
  deriving DecidableEq

/-- `MongoLiveSnapshot`. -/
structure Snapshot where
  subscriptionId : SubscriptionId
  generation : Generation
  sequence : Nat
  ordered : Bool
  documents : List ClientDocument
  deriving DecidableEq

/-- `MongoLiveEvent`. -/
inductive Event where
  | delta (d : Delta)
  | resyncRequired (subscriptionId : SubscriptionId) (staleGeneration : Generation)
  deriving DecidableEq

/-! ## Notices of the change source -/

inductive ResetReason where
  | invalidated
  | resumeFailed
  deriving DecidableEq

/-- `MongoLiveSourceNotice`. -/
inductive Notice where
  | change (sequence : Nat) (id : SourceId) (deleted : Bool)
  | reset (sequence : Nat) (reason : ResetReason)
  deriving DecidableEq

end TypeFerry.Live.Types
