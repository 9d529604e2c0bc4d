import TypeFerry.Minimongo.Selection
import TypeFerry.Minimongo.SortKeys

/-! # A result is a window of the sorted documents

`fetch` sorts the matching documents by their keys, keeps the documents of one key in the order of the store, and
cuts the window out. Without `$near` there are no distances, which would come before the keys. -/
namespace TypeFerry.Minimongo.SortedWindow
open TypeFerry.Lib.Numeral TypeFerry.Lib.JsonText TypeFerry.Lib.Comparison TypeFerry.Ejson.Clone
open TypeFerry.Minimongo.Values TypeFerry.Minimongo.Matcher TypeFerry.Minimongo.Sorter TypeFerry.Minimongo.Cursors
open TypeFerry.Minimongo.Selection TypeFerry.Minimongo.SortKeys

/-! ## Without `$near` there are no distances -/

/-- A matcher that never tells a distance. -/
def NoDistance {α : Type} (m : α → Except Text MatchResult) : Prop := ∀ x r, m x = .ok r → r.distance = none

theorem noDistance_only {α : Type} (b : Bool) : NoDistance fun _ : α => .ok (.only b) := by
  rintro x r ⟨⟩
  rfl

theorem noDistance_elementMatcher (predicate : Value → Except Text Bool) (expand skipArrays : Bool) :
    NoDistance (elementMatcher predicate expand skipArrays) := by
  intro branches r h
  rw [elementMatcher] at h
  generalize (if expand then expandArrays branches skipArrays else branches) = expanded at h
  induction expanded with
  | nil =>
    cases h
    rfl
  | cons branch rest ih =>
    obtain ⟨found, -, h⟩ := bind_eq_ok h
    split at h
    · cases h
      rfl
    · exact ih h

theorem noDistance_anyElement (predicate : Value → Bool) : NoDistance (anyElement predicate) :=
  noDistance_elementMatcher _ _ _

theorem noDistance_invert (m : BranchMatcher) : NoDistance (invert m) := by
  intro branches r h
  obtain ⟨found, -, h⟩ := bind_eq_ok h
  cases h
  rfl

theorem noDistance_literal (p : Platform) (v : Value) : NoDistance (literal p v) := by
  cases v <;> exact noDistance_elementMatcher _ _ _

theorem noDistance_elemMatchIn {matches' : Value → Except Text Bool} {arrayIndices : Option (List ArrayStep)} :
    NoDistance (elemMatchIn matches' arrayIndices) := by
  intro elements r h
  induction elements with
  | nil =>
    cases h
    rfl
  | cons e rest ih =>
    obtain ⟨found, -, h⟩ := bind_eq_ok h
    split at h
    · cases h
      rfl
    · exact ih h

theorem noDistance_elemMatch (matches' : Value → Except Text Bool) : NoDistance (elemMatch matches') := by
  intro branches r h
  induction branches with
  | nil =>
    cases h
    rfl
  | cons branch rest ih =>
    rw [elemMatch] at h
    split at h
    · obtain ⟨found, hfound, h⟩ := bind_eq_ok h
      split at h
      · cases h
        exact noDistance_elemMatchIn _ _ hfound
      · exact ih h
    · exact ih h

/-- What compiles to a matcher that never tells a distance, or does not compile. -/
def QuietCompile {α : Type} (compiled : Except Text (α → Except Text MatchResult)) : Prop :=
  ∀ m, compiled = .ok m → NoDistance m

theorem quiet_ok {α : Type} {m : α → Except Text MatchResult} (h : NoDistance m) : QuietCompile (.ok m) := by
  rintro _ ⟨⟩
  exact h

theorem quiet_error {α : Type} (e : Text) : QuietCompile (.error e : Except Text (α → Except Text MatchResult)) := by
  rintro _ ⟨⟩

theorem quiet_ite {α : Type} {P : Prop} {_ : Decidable P} {a b : Except Text (α → Except Text MatchResult)} (ha : QuietCompile a)
    (hb : QuietCompile b) : QuietCompile (if P then a else b) := by
  split <;> assumption

theorem quiet_bind {α β : Type} {x : Except Text β} {f : β → Except Text (α → Except Text MatchResult)}
    (h : ∀ b, QuietCompile (f b)) : QuietCompile (x >>= f) := by
  intro m hm
  obtain ⟨b, -, hm⟩ := bind_eq_ok hm
  exact h b m hm

theorem quiet_compileRegex (p : Platform) (operand : Value) (selector : List (Text × Value)) :
    QuietCompile (compileRegex p operand selector) := by
  have hcompiled : ∀ regex, QuietCompile (match regex with
      | some regex => .ok (regexMatcher p false regex)
      | none => .error (js "Invalid regular expression") : Except Text BranchMatcher) := by
    intro regex
    cases regex with
    | none => exact quiet_error _
    | some regex => exact quiet_ok (noDistance_elementMatcher _ _ _)
  cases operand with
  | str s => exact quiet_ite (quiet_error _) (hcompiled _)
  | regexp r => exact quiet_ite (quiet_error _) (hcompiled _)
  | _ => exact quiet_error _

theorem quiet_compileType (operand : Value) : QuietCompile (compileType operand) := by
  cases operand with
  | num n => exact quiet_ite (quiet_error _) (quiet_ok (noDistance_elementMatcher _ _ _))
  | str s =>
    unfold compileType
    dsimp only
    split
    · exact quiet_ite (quiet_error _) (quiet_ok (noDistance_elementMatcher _ _ _))
    · exact quiet_error _
  | _ => exact quiet_error _

theorem quiet_compileOperator (p : Platform) (selector : List (Text × Value)) (operator : Text) (operand : Value)
    (asValue : Except Text BranchMatcher) (asDocument : Except Text DocumentMatcher) :
    QuietCompile (compileOperator p none selector operator operand asValue asDocument) := by
  have hcomparison : ∀ test, NoDistance (comparison operand test) := by
    intro test
    unfold comparison
    dsimp only
    split
    · exact noDistance_only false
    · exact noDistance_anyElement _
  unfold compileOperator
  refine quiet_ite (quiet_ok (hcomparison _)) (quiet_ite (quiet_ok (hcomparison _)) ?_)
  refine quiet_ite (quiet_ok (hcomparison _)) (quiet_ite (quiet_ok (hcomparison _)) ?_)
  refine quiet_ite (quiet_ok (noDistance_anyElement _)) (quiet_ite (quiet_ok (noDistance_invert _)) ?_)
  refine quiet_ite ?_ (quiet_ite ?_ ?_)
  · cases operand with
    | arr options =>
      refine quiet_ok ?_
      split
      · exact noDistance_invert _
      · exact noDistance_elementMatcher _ _ _
    | _ => exact quiet_error _
  · refine quiet_ok ?_
    split
    · exact noDistance_invert _
    · exact noDistance_anyElement _
  refine quiet_ite (quiet_bind fun m => quiet_ok (noDistance_invert m)) ?_
  refine quiet_ite (quiet_ite (quiet_ok (noDistance_only true)) (quiet_error _)) ?_
  refine quiet_ite (quiet_compileRegex p operand selector) (quiet_ite ?_ (quiet_ite ?_ ?_))
  · dsimp only
    split
    · exact quiet_ok (noDistance_elementMatcher _ _ _)
    · exact quiet_error _
  · split
    · exact quiet_ok (noDistance_only false)
    · refine quiet_bind fun found => quiet_ite (quiet_error _) (quiet_ok fun branches r h => ?_)
      obtain ⟨all, -, h⟩ := bind_eq_ok h
      cases h
      rfl
    · exact quiet_error _
  refine quiet_ite (quiet_ite (quiet_ok (noDistance_elemMatch _)) (quiet_error _)) (quiet_ite ?_ ?_)
  · split
    · exact quiet_ok (noDistance_anyElement _)
    · exact quiet_error _
  refine quiet_ite (quiet_compileType operand) ?_
  refine quiet_ite (quiet_bind fun mask => quiet_ok (noDistance_anyElement _)) ?_
  refine quiet_ite (quiet_ite (quiet_ok (noDistance_only true)) (quiet_error _)) ?_
  exact quiet_ite (quiet_error _) (quiet_error _)

theorem noDistance_compileOperators {p : Platform} {root : Option NearMatcher} {selector : List (Text × Value)} :
    ∀ {es : List (Text × Value)} {ms : List BranchMatcher}, root = none ∨ nearOperators selector es = [] →
    compileOperators p root selector es = .ok ms → ∀ m ∈ ms, NoDistance m
  | [], ms, _, h => by
    cases h
    exact fun m hm => absurd hm List.not_mem_nil
  | (operator, operand) :: rest, ms, hroot, h => by
    rw [compileOperators] at h
    obtain ⟨m, hm, h⟩ := bind_eq_ok h
    obtain ⟨others, hothers, h⟩ := bind_eq_ok h
    cases h
    rw [List.forall_mem_cons]
    rcases hroot with rfl | hnear
    · exact ⟨quiet_compileOperator _ _ _ _ _ _ m hm, noDistance_compileOperators (.inl rfl) hothers⟩
    · rw [nearOperators] at hnear
      split at hnear
      · next hop =>
        -- A `$near` that is no condition does not compile.
        split at hnear
        · cases hnear
        · next e he =>
          cases root with
          | none => exact ⟨quiet_compileOperator _ _ _ _ _ _ m hm, noDistance_compileOperators (.inl rfl) hothers⟩
          | some nearMatcher =>
            rw [hop, compileOperator_near, he] at hm
            cases hm
      · next hop =>
        rw [compileOperator_of_ne hop root none] at hm
        exact ⟨quiet_compileOperator _ _ _ _ _ _ m hm, noDistance_compileOperators (.inr hnear) hothers⟩

theorem noDistance_matchEach {ms : List BranchMatcher} (h : ∀ m ∈ ms, NoDistance m) : NoDistance (matchEach ms) := by
  intro branches r hr
  obtain ⟨results, hresults, hr⟩ := bind_eq_ok hr
  cases hr
  have hnone : ∀ result ∈ results, result.distance = none := by
    clear * - h hresults
    induction ms generalizing results with
    | nil =>
      cases hresults
      exact fun result hresult => absurd hresult List.not_mem_nil
    | cons m ms ih =>
      rw [List.mapM_cons] at hresults
      obtain ⟨first, hfirst, hresults⟩ := bind_eq_ok hresults
      obtain ⟨others, hothers, hresults⟩ := bind_eq_ok hresults
      cases hresults
      rw [List.forall_mem_cons]
      exact ⟨h m (.head _) _ _ hfirst, ih (fun m hm => h m (.tail _ hm)) others hothers⟩
  exact List.findSome?_eq_none_iff.mpr hnone

/-- A conjunction goes on behind a part that matches. -/
theorem noDistance_andThen {m : DocumentMatcher} {next : MatchResult → DocumentMatcher} (hm : NoDistance m)
    (hnext : ∀ first, first.distance = none → NoDistance (next first)) :
    NoDistance fun document => m document >>= fun first =>
      if !first.result then .ok (.only false) else next first document := by
  intro document r hr
  obtain ⟨first, hfirst, hr⟩ := bind_eq_ok hr
  split at hr
  · cases hr
    rfl
  · exact hnext first (hm _ _ hfirst) _ _ hr

theorem noDistance_matchAll : ∀ {ms : List DocumentMatcher} {i : Option (List ArrayStep)}, (∀ m ∈ ms, NoDistance m) →
    NoDistance (matchAll ms none i)
  | [], _, _ => by
    rintro document r ⟨⟩
    rfl
  | m :: ms, _, h => by
    rw [List.forall_mem_cons] at h
    refine noDistance_andThen h.1 fun first hfirst => ?_
    rw [hfirst]
    exact noDistance_matchAll h.2

theorem noDistance_matchAnd : ∀ {ms : List DocumentMatcher} {i : Option (List ArrayStep)}, (∀ m ∈ ms, NoDistance m) →
    NoDistance (matchAnd ms none i)
  | [], _, _ => by
    rintro document r ⟨⟩
    rfl
  | m :: ms, _, h => by
    rw [List.forall_mem_cons] at h
    refine noDistance_andThen h.1 fun first hfirst => ?_
    rw [hfirst]
    exact noDistance_matchAnd h.2

theorem quiet_compileLogical {operator : Text} {entries : Option (Except Text (List DocumentMatcher))}
    (h : ∀ ms, entries = some (.ok ms) → ∀ m ∈ ms, NoDistance m) : QuietCompile (compileLogical operator entries) := by
  unfold compileLogical
  refine quiet_ite (quiet_ok (noDistance_only true)) (quiet_ite (quiet_error _) ?_)
  cases entries with
  | none => exact quiet_error _
  | some compiled =>
    intro m hm
    obtain ⟨matchers, hmatchers, hm⟩ := bind_eq_ok hm
    have hquiet := h matchers (by rw [hmatchers])
    have hsome : ∀ f : Bool → Bool, NoDistance (fun document => do .ok (.only (f (← matchSome matchers document)))) := by
      intro f document r hr
      obtain ⟨found, -, hr⟩ := bind_eq_ok hr
      cases hr
      rfl
    refine quiet_ite (quiet_ok (noDistance_matchAnd hquiet)) (quiet_ite ?_ (quiet_ok (hsome not))) m hm
    split
    · exact quiet_ok (hquiet _ (.head _))
    · exact quiet_ok (hsome id)

theorem quiet_compileValue {p : Platform} {root : Option NearMatcher} {path : Text} {value : Value}
    (hpath : ¬startsWith (js "$") path = true) (hroot : root = none ∨ nearField path value = []) :
    QuietCompile (compileValue p root value) := by
  unfold nearField at hroot
  rw [if_neg hpath] at hroot
  cases value with
  | obj es =>
    rw [compileValue]
    refine quiet_bind fun isOperator => quiet_ite (fun m h => ?_) (quiet_ok (noDistance_literal p _))
    obtain ⟨ms, hms, h⟩ := bind_eq_ok h
    cases h
    exact noDistance_matchEach (noDistance_compileOperators hroot hms)
  | _ => exact quiet_ok (noDistance_literal p _)

mutual

theorem noDistance_compileDocument {p : Platform} {root : Option NearMatcher} : ∀ {es : List (Text × Value)}
    {ms : List DocumentMatcher}, root = none ∨ nearFields es = [] → compileDocument p root es = .ok ms →
    ∀ m ∈ ms, NoDistance m
  | [], ms, _, h => by
    cases h
    exact fun m hm => absurd hm List.not_mem_nil
  | (path, value) :: rest, ms, hroot, h => by
    rw [compileDocument] at h
    obtain ⟨m, hm, h⟩ := bind_eq_ok h
    obtain ⟨others, hothers, h⟩ := bind_eq_ok h
    cases h
    rw [nearFields, List.append_eq_nil_iff, List.map_eq_nil_iff] at hroot
    rw [List.forall_mem_cons]
    refine ⟨?_, noDistance_compileDocument (hroot.imp_right And.right) hothers⟩
    rw [compileField] at hm
    split at hm
    · exact quiet_compileLogical (fun ms hms => noDistance_compileOperands hms) m hm
    · next hpath =>
      obtain ⟨valueMatcher, hvalue, hm⟩ := bind_eq_ok hm
      cases hm
      exact fun document r hr => quiet_compileValue hpath (hroot.imp_right And.left) valueMatcher hvalue _ r hr

theorem noDistance_compileOperands {p : Platform} : ∀ {value : Value} {ms : List DocumentMatcher},
    compileOperands p value = some (.ok ms) → ∀ m ∈ ms, NoDistance m
  | .arr (x :: xs), ms, h => by
    rw [compileOperands] at h
    exact noDistance_compileEntries (Option.some.inj h)
  | .arr [], _, h | .undefined, _, h | .null, _, h | .bool _, _, h | .num _, _, h | .str _, _, h | .date _, _, h
  | .regexp _, _, h | .binary _, _, h | .obj _, _, h => by cases h

theorem noDistance_compileEntries {p : Platform} : ∀ {xs : List Value} {ms : List DocumentMatcher},
    compileEntries p xs = .ok ms → ∀ m ∈ ms, NoDistance m
  | [], ms, h => by
    cases h
    exact fun m hm => absurd hm List.not_mem_nil
  | .obj es :: rest, ms, h => by
    rw [compileEntries] at h
    obtain ⟨matchers, hmatchers, h⟩ := bind_eq_ok h
    obtain ⟨others, hothers, h⟩ := bind_eq_ok h
    cases h
    rw [List.forall_mem_cons]
    exact ⟨noDistance_matchAll (noDistance_compileDocument (.inl rfl) hmatchers), noDistance_compileEntries hothers⟩
  | .undefined :: _, _, h | .null :: _, _, h | .bool _ :: _, _, h | .num _ :: _, _, h | .str _ :: _, _, h
  | .date _ :: _, _, h | .regexp _ :: _, _, h | .binary _ :: _, _, h | .arr _ :: _, _, h => by cases h

end

/-- A selector without `$near` conditions tells no distances. -/
theorem noDistance_compileSelector {p : Platform} {nearMatcher : NearMatcher} {selector : Value} {m : DocumentMatcher}
    (h : compileSelector p nearMatcher selector = .ok m) (hnear : nearConditions selector = []) : NoDistance m := by
  cases selector with
  | obj es =>
    rw [nearConditions] at hnear
    rw [compileSelector] at h
    split at h
    · cases h
      exact noDistance_only false
    · next hid =>
      rw [if_neg hid] at hnear
      obtain ⟨ms, hms, h⟩ := bind_eq_ok h
      cases h
      exact noDistance_matchAll (noDistance_compileDocument (.inr hnear) hms)
  | str id =>
    cases h
    rintro document r ⟨⟩
    rfl
  | _ =>
    rw [compileSelector] at h
    · split at h
      · cases h
        exact noDistance_only false
      · cases h
    all_goals rintro _ ⟨⟩

/-! ## Sorting by keys -/

section
variable {parts : List SortPart}

/-- The comparator of a specification. -/
def comparator (parts : List SortPart) (a b : Value) : Except Text ℤ := do
  .ok (compareKeys parts (← documentKey parts a) (← documentKey parts b))

/-- The comparator makes no difference between the two. -/
def sameKey (parts : List SortPart) (a b : Value) : Bool :=
  match comparator parts a b with
  | .ok r => r = 0
  | .error _ => false

/-- `sorted` are the documents in the order of the specification, those of one key in their order. -/
structure SortedBy (parts : List SortPart) (documents sorted : List Value) : Prop where
  perm : sorted.Perm documents
  ordered : sorted.Pairwise fun a b => ∀ left right, documentKey parts a = .ok left →
    documentKey parts b = .ok right → KeyLE parts left right
  stable : ∀ d ∈ documents, sorted.filter (sameKey parts d) = documents.filter (sameKey parts d)

theorem sortedBy_self {documents : List Value} (h : parts = [] ∨ documents.length < 2) :
    SortedBy parts documents documents where
  perm := List.Perm.refl _
  ordered := by
    rcases h with rfl | h
    · exact List.pairwise_of_forall fun _ _ _ _ _ _ => by simp [KeyLE]
    · cases documents with
      | nil => exact List.Pairwise.nil
      | cons d documents =>
        obtain rfl : documents = [] := List.length_eq_zero_iff.mp (Nat.lt_one_iff.mp (Nat.lt_of_succ_lt_succ h))
        exact List.pairwise_singleton _ d
  stable _ _ := rfl

theorem documentKey_of_comparator {documents : List Value}
    (h : ∀ a ∈ documents, ∀ b ∈ documents, ∃ r, comparator parts a b = .ok r) {d : Value} (hd : d ∈ documents) :
    ∃ key, documentKey parts d = .ok key := by
  obtain ⟨r, hr⟩ := h d hd d hd
  obtain ⟨key, hkey, -⟩ := bind_eq_ok hr
  exact ⟨key, hkey⟩

theorem sameKey_iff {a b : Value} {left right : List Value} (ha : documentKey parts a = .ok left)
    (hb : documentKey parts b = .ok right) : sameKey parts a b = true ↔ compareKeys parts left right = 0 := by
  have hcomparator : comparator parts a b = .ok (compareKeys parts left right) := by
    rw [comparator, ha, hb]
    rfl
  rw [sameKey, hcomparator, decide_eq_true_iff]

/-- The documents with their keys. -/
theorem keyed_ok : ∀ {documents : List Value}, (∀ d ∈ documents, ∃ key, documentKey parts d = .ok key) →
    ∃ keyed : List (List Value × Value), (documents.mapM fun document => do
        .ok (← documentKey parts document, document)) = (.ok keyed : Except Text _) ∧
      ∀ e ∈ keyed, documentKey parts e.2 = .ok e.1
  | [], _ => ⟨[], rfl, fun e he => absurd he List.not_mem_nil⟩
  | d :: documents, h => by
    obtain ⟨key, hkey⟩ := h d (.head _)
    obtain ⟨keyed, hkeyed, hkeys⟩ := keyed_ok fun d hd => h d (.tail _ hd)
    refine ⟨(key, d) :: keyed, ?_, ?_⟩
    · rw [List.mapM_cons, hkeyed, hkey]
      rfl
    · rw [List.forall_mem_cons]
      exact ⟨hkey, hkeys⟩

theorem sortByParts_ok {documents : List Value} (hdocuments : ∀ d ∈ documents, JsonLike d)
    (hkeys : ∀ d ∈ documents, ∃ key, documentKey parts d = .ok key) :
    ∃ sorted, sortByParts parts documents = .ok sorted ∧ SortedBy parts documents sorted := by
  rw [sortByParts]
  split
  · next hshort => exact ⟨documents, rfl, sortedBy_self (.inr hshort)⟩
  · obtain ⟨keyed, hkeyed, hkey⟩ := keyed_ok hkeys
    have hsnd : keyed.map Prod.snd = documents := keyed_documents hkeyed
    have hjson : ∀ e ∈ keyed, JsonLike e.2 := fun e he => hdocuments e.2 (hsnd ▸ List.mem_map_of_mem he)
    have hisKey : ∀ e ∈ keyed, IsKey parts e.1 := fun e he =>
      (documentKey_least (hkey e he) (hjson e he)).1.isKey (hjson e he)
    have horder : IsOrder (fun a b : List Value × Value => compareKeys parts a.1 b.1) {e | IsKey parts e.1} :=
      (compareKeys_isOrder parts).comap fun e he => he
    rw [hkeyed]
    refine ⟨_, rfl, ?_, ?_, ?_⟩
    · rw [← hsnd]
      exact (List.perm_insertionSort _ keyed).map Prod.snd
    · rw [List.pairwise_map]
      refine (horder.pairwise_insertionSort hisKey).imp_of_mem fun {a b} ha hb hab left right hleft hright => ?_
      rw [List.mem_insertionSort] at ha hb
      rw [hkey a ha] at hleft
      rw [hkey b hb] at hright
      cases hleft
      cases hright
      exact (keyLE_iff (hisKey a ha) (hisKey b hb)).mpr hab
    · intro d hd
      obtain ⟨e, he, rfl⟩ := List.mem_map.mp (hsnd ▸ hd)
      have hstable : (keyed.insertionSort fun a b => compareKeys parts a.1 b.1 ≤ 0).filter
          (sameKey parts e.2 ∘ Prod.snd) = keyed.filter (sameKey parts e.2 ∘ Prod.snd) := by
        refine filter_insertionSort _ fun a ha b hb hea heb => ?_
        have ha' := (sameKey_iff (hkey e he) (hkey a ha)).mp hea
        have hb' := (sameKey_iff (hkey e he) (hkey b hb)).mp heb
        have hswap : compareKeys parts e.1 a.1 = -compareKeys parts a.1 e.1 := horder.1 e (hisKey e he) a (hisKey a ha)
        have hae : compareKeys parts a.1 e.1 ≤ 0 := by omega
        exact horder.2 a (hisKey a ha) e (hisKey e he) b (hisKey b hb) hae (le_of_eq hb')
      rw [List.filter_map, hstable, ← List.filter_map, hsnd]

end

/-! ## Which documents -/

/-- A document for which the matcher returns that it is met. -/
def isMatch (m : DocumentMatcher) (d : Value) : Bool :=
  match m d with
  | .ok r => r.result
  | .error _ => false

section
variable (string : Value → Text) {m : DocumentMatcher}

theorem selectDocuments_ok (hquiet : NoDistance m) : ∀ {documents : List Value}, (∀ d ∈ documents, ∃ r, m d = .ok r) →
    selectDocuments string m documents = .ok (documents.filter (isMatch m), [])
  | [], _ => rfl
  | d :: documents, h => by
    obtain ⟨r, hr⟩ := h d (.head _)
    have hisMatch : isMatch m d = r.result := by rw [isMatch, hr]
    rw [selectDocuments, hr, selectDocuments_ok hquiet fun d hd => h d (.tail _ hd), List.filter_cons, hisMatch]
    simp only [bind, Except.bind, hquiet d r hr]
    split <;> rfl

theorem selectDocuments_error : ∀ {documents : List Value}, (∃ d ∈ documents, ∃ e, m d = .error e) →
    ∃ e, selectDocuments string m documents = .error e
  | [], h => by
    obtain ⟨d, hd, -⟩ := h
    cases hd
  | d :: documents, h => by
    rw [selectDocuments]
    cases hd : m d with
    | error e => exact ⟨e, rfl⟩
    | ok r =>
      have hrest : ∃ d ∈ documents, ∃ e, m d = .error e := by
        obtain ⟨d', hd', e, he⟩ := h
        rcases List.mem_cons.mp hd' with rfl | hd'
        · rw [hd] at he
          cases he
        · exact ⟨d', hd', e, he⟩
      obtain ⟨e, he⟩ := selectDocuments_error hrest
      rw [he]
      exact ⟨e, rfl⟩

end

/-! ## The window -/

/-- A natural number. -/
def natural (n : ℕ) : Number := .finite (ofInt n)

/-- A sum of natural numbers is exact up to `2 ^ 53`, and no greater one is rounded below it. -/
structure AddsNaturals (p : Platform) : Prop where
  add_eq : ∀ m n : ℕ, m + n ≤ 2 ^ 53 → p.add (natural m) (natural n) = natural (m + n)
  add_large : ∀ m n : ℕ, 2 ^ 53 < m + n →
    p.add (natural m) (natural n) = .infinity false ∨ ∃ k ≥ 2 ^ 53, p.add (natural m) (natural n) = natural k

theorem toInteger_natural (bound n : ℕ) : toInteger bound (natural n) = n := by
  obtain ⟨hexp, hsig, hneg⟩ := ofInt_spec n
  rw [natural, toInteger, hneg, truncNat, if_pos hexp, hsig]
  simp

theorem sliceIndex_natural (length n : ℕ) : sliceIndex length (natural n) = min n length := by
  rw [sliceIndex, toInteger_natural]
  simp

theorem sliceIndex_add {p : Platform} (hadd : AddsNaturals p) {length : ℕ} (hlength : length < 2 ^ 32) (skip limit : ℕ) :
    sliceIndex length (p.add (natural skip) (natural limit)) = min (skip + limit) length := by
  by_cases hsum : skip + limit ≤ 2 ^ 53
  · rw [hadd.add_eq skip limit hsum, sliceIndex_natural]
  · rcases hadd.add_large skip limit (by omega) with hinf | ⟨k, hk, heq⟩
    · have hbound : sliceIndex length (.infinity false) = length := by simp [sliceIndex, toInteger]
      rw [hinf, hbound]
      omega
    · rw [heq, sliceIndex_natural]
      omega

/-- The slice from `min start length` to `min stop length` is the one from `start` to `stop`. -/
theorem slice_min {α : Type*} (l : List α) (start stop : ℕ) :
    (l.take (min stop l.length)).drop (min start l.length) = (l.take stop).drop start := by
  rw [← List.take_eq_take_min]
  by_cases h : start ≤ l.length
  · rw [Nat.min_eq_left h]
  · rw [Nat.min_eq_right (by omega), List.drop_eq_nil_of_le, List.drop_eq_nil_of_le]
    · rw [List.length_take]
      omega
    · rw [List.length_take]
      omega

/-! ## The result -/

section
variable {p : Platform} {selector specifier : Value} {parts : List SortPart} {skip limit : ℕ} {c : Cursor}

/-- What the constructor of a cursor with these options makes. -/
theorem find_sorted (hparts : normalizeSort specifier = .ok parts)
    (hfind : find p selector ⟨some (.spec specifier), some (natural skip), some (natural limit), []⟩ = .ok c) :
    matcher p false selector = .ok c.documentMatches ∧ (c.sorter = some (.parts parts) ∨ parts = [] ∧ c.sorter = none) ∧
      (∀ length, c.window length =
        (sliceIndex length (natural skip), sliceIndex length (p.add (natural skip) (natural limit)))) ∧
      ∀ d, c.outputDocument d = d := by
  obtain ⟨m, hm, hfind⟩ := bind_eq_ok hfind
  obtain ⟨sorter, hsorter, hfind⟩ := bind_eq_ok hfind
  obtain ⟨projection, -, hfind⟩ := bind_eq_ok hfind
  cases hfind
  refine ⟨hm, ?_, fun _ => rfl, fun _ => rfl⟩
  unfold makeSorter at hsorter
  dsimp only at hsorter
  split at hsorter
  · next hfalsy =>
    unfold normalizeSort at hparts
    rw [if_pos hfalsy] at hparts
    cases hparts
    cases hsorter
    split
    · exact .inl rfl
    · exact .inr ⟨rfl, rfl⟩
  · rw [hparts] at hsorter
    cases hsorter
    exact .inl rfl

/-- Without distances the documents are sorted by their keys. -/
theorem sort_ok {documents : List Value} (hsorter : c.sorter = some (.parts parts) ∨ parts = [] ∧ c.sorter = none)
    (hdocuments : ∀ d ∈ documents, JsonLike d) (hkeys : ∀ d ∈ documents, ∃ key, documentKey parts d = .ok key) :
    ∃ sorted, c.sorter.elim (.ok documents) (fun sorter => sorter.sort [] documents) = .ok sorted ∧
      SortedBy parts documents sorted := by
  rcases hsorter with hsorter | ⟨rfl, hsorter⟩
  · rw [hsorter]
    cases parts with
    | nil =>
      have hdistance (d : Value) : distanceOf [] d = none := by
        unfold distanceOf
        split <;> rfl
      have hsort : (documents.insertionSort fun a b => compareDistances (distanceOf [] a) (distanceOf [] b) ≤ 0) =
          documents := by
        refine List.Pairwise.insertionSort_eq (List.pairwise_of_forall fun a b => ?_)
        rw [hdistance, hdistance]
        simp [compareDistances, numLt]
      exact ⟨_, rfl, by rw [hsort]; exact sortedBy_self (.inl rfl)⟩
    | cons part parts => exact sortByParts_ok hdocuments hkeys
  · rw [hsorter]
    exact ⟨documents, rfl, sortedBy_self (.inl rfl)⟩

end

/-! ## Two documents -/

theorem toInt?_natural (n : ℕ) : toInt? (natural n) = some (n : ℤ) := by
  obtain ⟨hexp, hsig, hneg⟩ := ofInt_spec n
  have hsig' : ((ofInt n).sig : ℤ) * 10 ^ (ofInt n).exp.toNat = n := by exact_mod_cast hsig
  rw [natural, toInt?, if_pos hexp, hneg, hsig']
  simp

theorem integral_add (m n : ℕ) : Platform.integral.add (natural m) (natural n) = natural (m + n) := by
  change Platform.integral.lift (· + ·) (natural m) (natural n) = natural (m + n)
  rw [Platform.integral.lift, toInt?_natural, toInt?_natural]
  simp [natural]

theorem addsNaturals_integral : AddsNaturals Platform.integral where
  add_eq m n _ := integral_add m n
  add_large m n hmn := .inr ⟨m + n, hmn.le, integral_add m n⟩

/-- `{ a: [3, 1] }` and `{ a: 2 }`. -/
def numbered : List Value :=
  [.obj [(js "a", .arr [.num (natural 3), .num (natural 1)])], .obj [(js "a", .num (natural 2))]]

/-- `{ a: -1 }` -/
def descending : Value := .obj [(js "a", .num (.finite (ofInt (-1))))]

end TypeFerry.Minimongo.SortedWindow
