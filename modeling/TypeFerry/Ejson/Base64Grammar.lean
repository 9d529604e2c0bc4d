import TypeFerry.Ejson.Base64

/-! # What the base64 decoder accepts

The decoder reads whole groups of four characters and a last group of two or three. Nothing behind the
first `=` is looked at, and neither is a group that breaks off behind one character or none. -/
namespace TypeFerry.Ejson.Base64Grammar
open TypeFerry.Lib.Numeral TypeFerry.Ejson.Base64

/-- A character of the standard or the URL-safe alphabet. -/
def isSymbol (u : UInt16) : Bool := (base64Lookup u).isSome

/-- The number of characters in front of the first `=`. -/
def validLength (s : Text) : ℕ := s.findIdx (· = 61)

def placeholderLength (s : Text) : ℕ := if validLength s = s.length then 0 else 4 - validLength s % 4

/-- The number of characters that are looked at. -/
def checkedLength (s : Text) : ℕ :=
  if validLength s = s.length then validLength s
  else if validLength s % 4 = 0 then validLength s - 4
  else if validLength s % 4 = 1 then validLength s - 1
  else validLength s

/-- The texts that are decoded. -/
def Accepted (s : Text) : Prop :=
  s.length % 4 = 0 ∧ (s = [] ∨ 0 < validLength s) ∧ ∀ u ∈ s.take (checkedLength s), isSymbol u = true

/-- Symbols, and up to two `=` behind them. -/
def Grammar (s : Text) : Prop :=
  s.length % 4 = 0 ∧ ∃ body padding, s = body ++ List.replicate padding 61 ∧ padding ≤ 2 ∧ ∀ u ∈ body, isSymbol u = true

/-! ## Single reads -/

section
variable {α β : Type}

theorem bind_eq_ok {x : Except Text α} {f : α → Except Text β} {b : β} :
    x >>= f = .ok b ↔ ∃ a, x = .ok a ∧ f a = .ok b := by
  cases x with
  | error e => exact ⟨fun h => (nomatch h), fun ⟨_, h, _⟩ => (nomatch h)⟩
  | ok a => exact ⟨fun h => ⟨a, rfl, h⟩, fun ⟨_, heq, h⟩ => Except.ok.inj heq ▸ h⟩

/-- It is returned. -/
def Returns (x : Except Text α) : Prop := ∃ a, x = .ok a

theorem returns_ok (a : α) : Returns (.ok a : Except Text α) := ⟨a, rfl⟩

theorem not_returns_error {e : Text} : ¬Returns (.error e : Except Text α) := by
  intro h
  obtain ⟨_, h⟩ := h
  cases h

theorem returns_bind {x : Except Text α} {f : α → Except Text β} {P : Prop}
    (h : ∀ a, x = .ok a → (Returns (f a) ↔ P)) : Returns (x >>= f) ↔ Returns x ∧ P := by
  cases x with
  | error e => exact iff_of_false not_returns_error fun h => not_returns_error h.1
  | ok a => exact (h a rfl).trans ⟨fun hP => ⟨returns_ok a, hP⟩, And.right⟩

end

/-- The first `n` characters are there and are symbols. -/
def Readable (n : ℕ) (s : Text) : Prop := n ≤ s.length ∧ ∀ u ∈ s.take n, isSymbol u = true

theorem readable_zero (s : Text) : Readable 0 s := ⟨Nat.zero_le _, by simp⟩

theorem returns_read {s : Text} : Returns (readBase64Char s[0]?) ↔ Readable 1 s := by
  cases s with
  | nil => simp [Readable, readBase64Char, Returns]
  | cons u s =>
    have hlookup : Readable 1 (u :: s) ↔ (base64Lookup u).isSome = true := by simp [Readable, isSymbol]
    rw [hlookup, List.getElem?_cons_zero, readBase64Char]
    cases base64Lookup u with
    | none => simp [Returns]
    | some n => simp [Returns]

theorem readable_add {m n : ℕ} {s : Text} : Readable (m + n) s ↔ Readable m s ∧ Readable n (s.drop m) := by
  simp only [Readable, List.length_drop, List.take_add, List.forall_mem_append]
  constructor
  · rintro ⟨hlength, hm, hn⟩
    exact ⟨⟨by omega, hm⟩, by omega, hn⟩
  · rintro ⟨⟨hm, hmtake⟩, hn, hntake⟩
    refine ⟨?_, hmtake, hntake⟩
    by_cases hzero : n = 0
    · omega
    · omega

/-! ## The loops -/

theorem decodeChunks_ok {n : ℕ} {s : Text} {r : List UInt8 × Text} (h : decodeChunks n s = .ok r) :
    r.1.length = 3 * n ∧ r.2 = s.drop (4 * n) := by
  induction n generalizing s r with
  | zero =>
    cases h
    exact ⟨rfl, rfl⟩
  | succ n ih =>
    rw [decodeChunks] at h
    obtain ⟨c0, -, h⟩ := bind_eq_ok.mp h
    obtain ⟨c1, -, h⟩ := bind_eq_ok.mp h
    obtain ⟨c2, -, h⟩ := bind_eq_ok.mp h
    obtain ⟨c3, -, h⟩ := bind_eq_ok.mp h
    obtain ⟨rest, hrest, h⟩ := bind_eq_ok.mp h
    cases h
    obtain ⟨hlength, htext⟩ := ih hrest
    refine ⟨?_, ?_⟩
    · simp only [List.length_cons, hlength]
      omega
    · dsimp only
      rw [htext, List.drop_drop]
      congr 1
      omega

/-- The reads of a group, one after the other. -/
theorem returns_reads {s : Text} {i n : ℕ} {P : Prop} (h : P ↔ Readable n (s.drop (i + 1))) :
    Returns (readBase64Char s[i]?) ∧ P ↔ Readable (n + 1) (s.drop i) := by
  have hread : s[i]? = (s.drop i)[0]? := by rw [List.getElem?_drop, Nat.add_zero]
  rw [hread, returns_read, h, Nat.add_comm n 1, readable_add, List.drop_drop]

theorem returns_decodeChunks {n : ℕ} {s : Text} : Returns (decodeChunks n s) ↔ Readable (4 * n) s := by
  induction n generalizing s with
  | zero => exact iff_of_true (returns_ok _) (readable_zero s)
  | succ n ih =>
    rw [decodeChunks]
    refine (returns_bind fun c0 _ => returns_bind fun c1 _ => returns_bind fun c2 _ => returns_bind fun c3 _ =>
      (returns_bind fun rest _ => iff_of_true (returns_ok _) trivial).trans ((and_iff_left trivial).trans ih)).trans ?_
    exact returns_reads (returns_reads (returns_reads (returns_reads (i := 3) Iff.rfl)))

/-- The length of the last group and of its bytes. -/
theorem returns_decodeTail {p : ℕ} {s : Text} : Returns (decodeTail p s) ↔
    Readable (if p = 2 then 2 else if p = 1 then 3 else 0) s := by
  rw [decodeTail]
  split
  · refine (returns_bind fun c0 _ => (returns_bind fun c1 _ => iff_of_true (returns_ok _) trivial)).trans ?_
    exact returns_reads (returns_reads (i := 1) (n := 0) (iff_of_true trivial (readable_zero _)))
  · split
    · refine (returns_bind fun c0 _ => returns_bind fun c1 _ => returns_bind fun c2 _ =>
        iff_of_true (returns_ok _) trivial).trans ?_
      exact returns_reads (returns_reads (returns_reads (i := 2) (n := 0) (iff_of_true trivial (readable_zero _))))
    · exact iff_of_true (returns_ok _) (readable_zero s)

/-! ## The decoder -/

theorem validLength_le (s : Text) : validLength s ≤ s.length := List.findIdx_le_length

/-- The rounds of the loop. -/
def rounds (s : Text) : ℕ :=
  ((if 0 < placeholderLength s then (validLength s : ℤ) - 4 else validLength s).toNat + 3) / 4

/-- The bytes that are allocated. -/
def outputLength (s : Text) : ℕ := (validLength s + placeholderLength s) * 3 / 4 - placeholderLength s

/-- The loop and the last group. -/
def decodeGroups (s : Text) : Except Text (List UInt8) := do
  let chunks ← decodeChunks (rounds s) s
  let tail ← decodeTail (placeholderLength s) chunks.2
  .ok (fillBinary (outputLength s) (chunks.1 ++ tail))

theorem decodeBase64_of_length {s : Text} (h : s.length % 4 = 0) : decodeBase64 s =
    if (validLength s + placeholderLength s) * 3 / 4 < placeholderLength s then
      .error (js "Invalid array buffer length")
    else decodeGroups s := by
  rw [decodeBase64, getBase64Lengths, if_neg (not_not.mpr h)]
  rfl

theorem returns_decodeGroups {s : Text} : Returns (decodeGroups s) ↔ Readable (4 * rounds s +
    (if placeholderLength s = 2 then 2 else if placeholderLength s = 1 then 3 else 0)) s := by
  rw [decodeGroups, readable_add, ← returns_decodeChunks]
  refine returns_bind fun chunks hchunks => ?_
  rw [(decodeChunks_ok hchunks).2, ← returns_decodeTail]
  exact (returns_bind fun tail _ => iff_of_true (returns_ok _) trivial).trans (and_iff_left trivial)

/-- The groups that are read make up the checked characters. -/
theorem rounds_checkedLength {s : Text} (h : s.length % 4 = 0) :
    4 * rounds s + (if placeholderLength s = 2 then 2 else if placeholderLength s = 1 then 3 else 0) =
      checkedLength s := by
  have hle := validLength_le s
  have hplaceholder : placeholderLength s = if validLength s = s.length then 0 else 4 - validLength s % 4 := rfl
  rw [rounds, checkedLength]
  generalize placeholderLength s = p at *
  generalize validLength s = v at *
  split at hplaceholder <;> split_ifs <;> omega

theorem returns_decodeBase64 {s : Text} : Returns (decodeBase64 s) ↔ Accepted s := by
  rw [Accepted]
  by_cases hmod : s.length % 4 = 0
  · have hle := validLength_le s
    have hallocated : (validLength s + placeholderLength s) * 3 / 4 < placeholderLength s ↔
        ¬(s = [] ∨ 0 < validLength s) := by
      rw [← List.length_eq_zero_iff, placeholderLength]
      split_ifs <;> omega
    rw [decodeBase64_of_length hmod, and_iff_right hmod]
    by_cases hpositive : s = [] ∨ 0 < validLength s
    · rw [if_neg (mt hallocated.mp (not_not.mpr hpositive)), and_iff_right hpositive, returns_decodeGroups,
        rounds_checkedLength hmod, Readable]
      refine and_iff_right ?_
      rw [checkedLength]
      split_ifs <;> omega
    · rw [if_pos (hallocated.mpr hpositive)]
      exact iff_of_false not_returns_error fun h => hpositive h.1
  · rw [decodeBase64, getBase64Lengths, if_pos hmod]
    exact iff_of_false not_returns_error fun h => hmod h.1

theorem length_decodeBase64 {s : Text} {bytes : List UInt8} (h : decodeBase64 s = .ok bytes) :
    bytes.length = outputLength s := by
  by_cases hmod : s.length % 4 = 0
  · rw [decodeBase64_of_length hmod] at h
    split at h
    · cases h
    · obtain ⟨chunks, -, h⟩ := bind_eq_ok.mp h
      obtain ⟨tail, -, h⟩ := bind_eq_ok.mp h
      cases h
      rw [fillBinary, List.length_take, List.length_append, List.length_replicate]
      omega
  · rw [decodeBase64, getBase64Lengths, if_pos hmod] at h
    cases h

/-! ## The grammar -/

theorem validLength_append {body : Text} (padding : ℕ) (h : ∀ u ∈ body, isSymbol u = true) :
    validLength (body ++ List.replicate padding 61) = body.length := by
  have hnone : ∀ u ∈ body, ¬decide (u = 61) = true := fun u hu heq => by
    have hsymbol := h u hu
    rw [of_decide_eq_true heq] at hsymbol
    exact absurd hsymbol (by decide)
  rw [validLength, List.findIdx_append, List.findIdx_eq_length.mpr fun u hu => by simpa using hnone u hu]
  cases padding with
  | zero => simp
  | succ n => simp [List.replicate_succ, List.findIdx_cons]

/-- What the grammar allows is decoded. -/
theorem accepted_of_grammar {body : Text} {padding : ℕ} (hlength : (body ++ List.replicate padding 61).length % 4 = 0)
    (hpadding : padding ≤ 2) (h : ∀ u ∈ body, isSymbol u = true) :
    Accepted (body ++ List.replicate padding 61) ∧ placeholderLength (body ++ List.replicate padding 61) = padding := by
  have hvalid := validLength_append padding h
  rw [Accepted, checkedLength, placeholderLength, hvalid, List.length_append, List.length_replicate] at *
  have hchecked : (if body.length = body.length + padding then body.length
      else if body.length % 4 = 0 then body.length - 4
      else if body.length % 4 = 1 then body.length - 1 else body.length) = body.length := by
    split_ifs <;> omega
  refine ⟨⟨hlength, ?_, ?_⟩, ?_⟩
  · rw [← List.length_eq_zero_iff, List.length_append, List.length_replicate]
    omega
  · rw [hchecked, List.take_append_of_le_length le_rfl, List.take_length]
    exact h
  · split_ifs <;> omega

/-- **The decoder's grammar.** It returns exactly for the texts that are accepted, among them all that the
grammar allows, and gives three bytes for four characters, less one for every character of padding that
fills the group of the first `=`. -/
theorem decodeBase64_grammar (s : Text) :
    ((∃ bytes, decodeBase64 s = .ok bytes) ↔ Accepted s) ∧
      (∀ bytes, decodeBase64 s = .ok bytes → bytes.length = outputLength s) ∧
      (Grammar s → ∃ bytes, decodeBase64 s = .ok bytes ∧ bytes.length = 3 * s.length / 4 - s.count 61) := by
  refine ⟨returns_decodeBase64, fun bytes => length_decodeBase64, ?_⟩
  rintro ⟨hlength, body, padding, rfl, hpadding, hbody⟩
  obtain ⟨haccepted, hplaceholder⟩ := accepted_of_grammar hlength hpadding hbody
  obtain ⟨bytes, hbytes⟩ := returns_decodeBase64.mpr haccepted
  refine ⟨bytes, hbytes, ?_⟩
  have hcount : body.count 61 = 0 := List.count_eq_zero.mpr fun hin => absurd (hbody 61 hin) (by decide)
  rw [length_decodeBase64 hbytes, outputLength, hplaceholder, validLength_append padding hbody, List.count_append, hcount,
    List.count_replicate_self, List.length_append, List.length_replicate, Nat.mul_comm, Nat.zero_add]

/-- What follows the first `=` is passed over. -/
theorem accepted_not_grammar : decodeBase64 (js "AA=x") = .ok [0] ∧ ¬Grammar (js "AA=x") := by
  refine ⟨by decide, ?_⟩
  rintro ⟨-, body, padding, heq, -, hbody⟩
  cases padding with
  | zero =>
    rw [List.replicate_zero, List.append_nil] at heq
    exact absurd (hbody 61 (heq ▸ by decide)) (by decide)
  | succ n =>
    have hlast := congrArg List.getLast? heq
    rw [List.replicate_succ', ← List.append_assoc, List.getLast?_concat] at hlast
    exact absurd hlast (by decide)

end TypeFerry.Ejson.Base64Grammar
