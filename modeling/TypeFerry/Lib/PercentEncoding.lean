import TypeFerry.Lib.JsonText
import TypeFerry.Lib.Unicode

/-! # Percent-encoding

`encodeURIComponent` and `decodeURIComponent` of ECMAScript, over UTF-16 code units. A
character that is not unreserved is written as the octets of its UTF-8 form; reading collects
the octets of one character and accepts them only if they are that form. -/
namespace TypeFerry.Lib.PercentEncoding
open TypeFerry.Lib.Numeral TypeFerry.Lib.Unicode TypeFerry.Lib.JsonText

/-! ## Writing -/

/-- The characters of well-formed text; a surrogate without its partner has none. -/
def characters : Text → Option Str
  | [] => some []
  | u :: rest =>
    if isHigh u then
      match rest with
      | v :: rest =>
        if isLow v then
          (characters rest).map (Char.ofNat (0x10000 + (u.toNat - 0xD800) * 0x400 + (v.toNat - 0xDC00)) :: ·)
        else none
      | [] => none
    else if isLow u then none
    else (characters rest).map (Char.ofNat u.toNat :: ·)

/-- Letters, digits and the marks `-_.!~*'()`. -/
def isUnreserved (c : Char) : Bool := c.isAlphanum || c ∈ "-_.!~*'()".toList

def percent : UInt16 := 37

/-- A hexadecimal digit, in upper case. -/
def hexDigit (n : ℕ) : UInt16 := if n < 10 then UInt16.ofNat (48 + n) else UInt16.ofNat (55 + n)

def escapeOctet (b : UInt8) : Text := [percent, hexDigit (b.toNat / 16), hexDigit (b.toNat % 16)]

def encodeCharacter (c : Char) : Text :=
  if isUnreserved c then utf16EncodeChar c else (String.utf8EncodeChar c).flatMap escapeOctet

/-- `encodeURIComponent`; nothing is its `URIError`. -/
def encodeURIComponent (text : Text) : Option Text :=
  (characters text).map fun s => s.flatMap encodeCharacter

/-! ## Reading -/

/-- A code unit as it stands, or an escaped octet. -/
inductive Piece where
  | unit (u : UInt16)
  | octet (b : UInt8)
  deriving DecidableEq

def pieces : Text → Option (List Piece)
  | [] => some []
  | u :: rest =>
    if u = percent then
      match rest with
      | a :: b :: rest =>
        match hexVal a, hexVal b with
        | some a, some b => (pieces rest).map (.octet (UInt8.ofNat (a * 16 + b)) :: ·)
        | _, _ => none
      | _ => none
    else (pieces rest).map (.unit u :: ·)

/-- How many octets follow the first one of a character. -/
def following (b : UInt8) : Option ℕ :=
  let n := b.toNat
  if n < 0x80 then some 0
  else if n < 0xC0 then none
  else if n < 0xE0 then some 1
  else if n < 0xF0 then some 2
  else if n < 0xF8 then some 3
  else none

/-- The bits of a sequence of octets. -/
def codePoint : List UInt8 → ℕ
  | [a] => a.toNat
  | [a, b] => a.toNat % 0x20 * 0x40 + b.toNat % 0x40
  | [a, b, c] => a.toNat % 0x10 * 0x1000 + b.toNat % 0x40 * 0x40 + c.toNat % 0x40
  | [a, b, c, d] => a.toNat % 0x8 * 0x40000 + b.toNat % 0x40 * 0x1000 + c.toNat % 0x40 * 0x40 + d.toNat % 0x40
  | _ => 0

/-- The character that has these octets as its UTF-8 form. -/
def decodeOctets (bs : List UInt8) : Option Char :=
  let c := Char.ofNat (codePoint bs)
  if String.utf8EncodeChar c = bs then some c else none

/-- `needed` octets are missing behind those that have been read. -/
def assemble (needed : ℕ) (octets : List UInt8) : List Piece → Option Text
  | [] => if needed = 0 then some [] else none
  | .unit u :: rest => if needed = 0 then (assemble 0 [] rest).map (u :: ·) else none
  | .octet b :: rest =>
    let finish (octets : List UInt8) := (decodeOctets octets).bind fun c =>
      (assemble 0 [] rest).map (utf16EncodeChar c ++ ·)
    match needed with
    | 0 => match following b with
      | none => none
      | some 0 => finish [b]
      | some (n + 1) => assemble (n + 1) [b] rest
    | 1 => finish (octets ++ [b])
    | n + 2 => assemble (n + 1) (octets ++ [b]) rest

/-- `decodeURIComponent`; nothing is its `URIError`. -/
def decodeURIComponent (text : Text) : Option Text := (pieces text).bind (assemble 0 [])

/-! ## The round trip -/

theorem toNat_unit {n : ℕ} (h : n < 65536) : (UInt16.ofNat n).toNat = n := by
  rw [UInt16.toNat_ofNat', Nat.mod_eq_of_lt h]

theorem toNat_octet {n : ℕ} (h : n < 256) : (UInt8.ofNat n).toNat = n := by
  rw [UInt8.toNat_ofNat', Nat.mod_eq_of_lt h]

/-- The code points of characters. -/
theorem val_cases (c : Char) : c.val.toNat < 0xD800 ∨ 0xDFFF < c.val.toNat ∧ c.val.toNat < 0x110000 := c.valid

theorem characters_append (c : Char) (rest : Text) :
    characters (utf16EncodeChar c ++ rest) = (characters rest).map (c :: ·) := by
  have hvalid := val_cases c
  have hof : Char.ofNat c.val.toNat = c := Char.ofNat_toNat c
  unfold utf16EncodeChar
  dsimp only
  split
  · next hsmall =>
    have hunit := toNat_unit (n := c.val.toNat) (by omega)
    have hhigh : isHigh (UInt16.ofNat c.val.toNat) = false := by
      rw [isHigh, hunit]
      simp only [Bool.and_eq_false_iff, decide_eq_false_iff_not]
      omega
    have hlow : isLow (UInt16.ofNat c.val.toNat) = false := by
      rw [isLow, hunit]
      simp only [Bool.and_eq_false_iff, decide_eq_false_iff_not]
      omega
    rw [List.singleton_append, characters.eq_def]
    dsimp only
    rw [if_neg (Bool.eq_false_iff.mp hhigh), if_neg (Bool.eq_false_iff.mp hlow), hunit, hof]
  · next hbig =>
    have hfirst := toNat_unit (n := 0xD800 + (c.val.toNat - 0x10000) / 0x400) (by omega)
    have hsecond := toNat_unit (n := 0xDC00 + (c.val.toNat - 0x10000) % 0x400) (by omega)
    have hhigh : isHigh (UInt16.ofNat (0xD800 + (c.val.toNat - 0x10000) / 0x400)) = true := by
      rw [isHigh, hfirst]
      simp only [Bool.and_eq_true, decide_eq_true_eq]
      omega
    have hlow : isLow (UInt16.ofNat (0xDC00 + (c.val.toNat - 0x10000) % 0x400)) = true := by
      rw [isLow, hsecond]
      simp only [Bool.and_eq_true, decide_eq_true_eq]
      omega
    rw [List.cons_append, List.singleton_append, characters.eq_def]
    dsimp only
    rw [if_pos hhigh, if_pos hlow, hfirst, hsecond]
    rw [show 0x10000 + (0xD800 + (c.val.toNat - 0x10000) / 0x400 - 0xD800) * 0x400 +
      (0xDC00 + (c.val.toNat - 0x10000) % 0x400 - 0xDC00) = c.val.toNat by omega, hof]

theorem characters_utf16 (s : Str) : characters (utf16 s) = some s := by
  induction s with
  | nil => rfl
  | cons c s ih => rw [utf16, List.flatMap_cons, characters_append, ← utf16, ih, Option.map_some]

/-! ### Octets -/

theorem hexVal_hexDigit {n : ℕ} (h : n < 16) : hexVal (hexDigit n) = some n := by
  interval_cases n <;> rfl

theorem pieces_octet (b : UInt8) (rest : Text) :
    pieces (escapeOctet b ++ rest) = (pieces rest).map (.octet b :: ·) := by
  have hb : b.toNat < 256 := b.toNat_lt
  have hback : UInt8.ofNat (b.toNat / 16 * 16 + b.toNat % 16) = b := by
    rw [Nat.div_add_mod', UInt8.ofNat_toNat]
  rw [escapeOctet, List.cons_append, List.cons_append, List.cons_append, List.nil_append, pieces.eq_def]
  dsimp only
  rw [if_pos rfl, hexVal_hexDigit (by omega), hexVal_hexDigit (by omega)]
  dsimp only
  rw [hback]

theorem pieces_octets (bs : List UInt8) (rest : Text) :
    pieces (bs.flatMap escapeOctet ++ rest) = (pieces rest).map (bs.map .octet ++ ·) := by
  induction bs with
  | nil => simp
  | cons b bs ih =>
    rw [List.flatMap_cons, List.append_assoc, pieces_octet, ih, Option.map_map]
    rfl

/-- The octets behind the first one. -/
theorem assemble_rest {c : Char} {rest : List Piece} : ∀ (bs octets : List UInt8), bs ≠ [] →
    decodeOctets (octets ++ bs) = some c → assemble bs.length octets (bs.map .octet ++ rest) =
      (assemble 0 [] rest).map (utf16EncodeChar c ++ ·)
  | [b], octets, _, h => by
    rw [List.map_singleton, List.singleton_append, List.length_singleton, assemble]
    dsimp only
    rw [h, Option.bind_some]
  | b :: b' :: bs, octets, _, h => by
    rw [List.map_cons, List.cons_append, List.length_cons, List.length_cons, assemble]
    exact assemble_rest (b' :: bs) (octets ++ [b]) (List.cons_ne_nil _ _) (by rwa [List.append_assoc])

theorem assemble_sequence {c : Char} {rest : List Piece} {b : UInt8} {bs : List UInt8}
    (hfollowing : following b = some bs.length) (h : decodeOctets (b :: bs) = some c) :
    assemble 0 [] ((b :: bs).map .octet ++ rest) = (assemble 0 [] rest).map (utf16EncodeChar c ++ ·) := by
  rw [List.map_cons, List.cons_append, assemble]
  cases bs with
  | nil =>
    rw [hfollowing]
    dsimp only [List.length_nil]
    rw [h, Option.bind_some]
    rfl
  | cons b' bs =>
    rw [hfollowing]
    exact assemble_rest (b' :: bs) [b] (List.cons_ne_nil _ _) h

/-- The UTF-8 form of a character: the first octet says how many follow, and the bits are its code point. -/
theorem utf8_shape (c : Char) : ∃ b bs, String.utf8EncodeChar c = b :: bs ∧ following b = some bs.length ∧
    codePoint (b :: bs) = c.val.toNat := by
  have hvalid := val_cases c
  unfold String.utf8EncodeChar
  dsimp only
  generalize c.val.toNat = v at *
  split
  · refine ⟨_, _, rfl, ?_, ?_⟩
    · rw [following, toNat_octet (by omega)]
      exact if_pos (by omega)
    · exact toNat_octet (by omega)
  · split
    · refine ⟨_, _, rfl, ?_, ?_⟩
      · rw [following, toNat_octet (by omega)]
        rw [if_neg (by omega), if_neg (by omega), if_pos (by omega)]
        rfl
      · rw [codePoint, toNat_octet (by omega), toNat_octet (by omega)]
        omega
    · split
      · refine ⟨_, _, rfl, ?_, ?_⟩
        · rw [following, toNat_octet (by omega)]
          rw [if_neg (by omega), if_neg (by omega), if_neg (by omega), if_pos (by omega)]
          rfl
        · rw [codePoint, toNat_octet (by omega), toNat_octet (by omega), toNat_octet (by omega)]
          omega
      · refine ⟨_, _, rfl, ?_, ?_⟩
        · rw [following, toNat_octet (by omega)]
          rw [if_neg (by omega), if_neg (by omega), if_neg (by omega), if_neg (by omega), if_pos (by omega)]
          rfl
        · rw [codePoint, toNat_octet (by omega), toNat_octet (by omega), toNat_octet (by omega), toNat_octet (by omega)]
          omega

/-- The octets of a character are read as the character. -/
theorem assemble_octets (c : Char) (rest : List Piece) :
    assemble 0 [] ((String.utf8EncodeChar c).map .octet ++ rest) =
      (assemble 0 [] rest).map (utf16EncodeChar c ++ ·) := by
  obtain ⟨b, bs, hbs, hfollowing, hpoint⟩ := utf8_shape c
  have hdecode : decodeOctets (b :: bs) = some c := by
    rw [decodeOctets, hpoint, show Char.ofNat c.val.toNat = c from Char.ofNat_toNat c]
    exact if_pos hbs
  rw [hbs]
  exact assemble_sequence hfollowing hdecode

theorem unreserved_range {c : Char} (h : isUnreserved c = true) :
    c.val.toNat < 128 ∧ c.val.toNat ≠ 37 ∧ c.val.toNat ≠ 59 := by
  rw [isUnreserved, Bool.or_eq_true] at h
  rcases h with h | h
  · delta Char.isAlphanum Char.isAlpha Char.isUpper Char.isLower Char.isDigit at h
    simp only [Bool.or_eq_true, Bool.and_eq_true, decide_eq_true_eq, ge_iff_le, UInt32.le_iff_toNat_le] at h
    have hval : c.val.toNat = c.toNat := rfl
    simp at h
    omega
  · have hmarks : ("-_.!~*'()".toList.all fun c => c.val.toNat < 128 ∧ c.val.toNat ≠ 37 ∧ c.val.toNat ≠ 59) = true := by
      decide
    exact of_decide_eq_true (List.all_eq_true.mp hmarks c (of_decide_eq_true h))

/-- An unreserved character is one code unit, and no percent sign. -/
theorem unreserved_unit {c : Char} (h : isUnreserved c = true) :
    ∃ u, utf16EncodeChar c = [u] ∧ u ≠ percent ∧ u ≠ 59 := by
  obtain ⟨hlt, hpercent, hsemicolon⟩ := unreserved_range h
  have hunit := toNat_unit (n := c.val.toNat) (by omega)
  refine ⟨UInt16.ofNat c.val.toNat, if_pos (by omega), fun heq => hpercent ?_, fun heq => hsemicolon ?_⟩
  · rw [← hunit, heq]
    rfl
  · rw [← hunit, heq]
    rfl

theorem decode_unreserved {c : Char} (h : isUnreserved c = true) (rest : Text) :
    decodeURIComponent (utf16EncodeChar c ++ rest) =
      (decodeURIComponent rest).map (utf16EncodeChar c ++ ·) := by
  obtain ⟨u, hu, hpercent, -⟩ := unreserved_unit h
  rw [hu, List.singleton_append, decodeURIComponent, pieces.eq_def]
  dsimp only
  rw [if_neg hpercent, decodeURIComponent]
  cases pieces rest <;> rfl

theorem decode_octets (c : Char) (rest : Text) :
    decodeURIComponent ((String.utf8EncodeChar c).flatMap escapeOctet ++ rest) =
      (decodeURIComponent rest).map (utf16EncodeChar c ++ ·) := by
  rw [decodeURIComponent, pieces_octets, decodeURIComponent]
  cases pieces rest with
  | none => rfl
  | some ps => exact assemble_octets c ps

theorem decode_encoded (s : Str) : decodeURIComponent (s.flatMap encodeCharacter) = some (utf16 s) := by
  induction s with
  | nil => rfl
  | cons c s ih =>
    rw [List.flatMap_cons, encodeCharacter]
    split
    · next h => rw [decode_unreserved h, ih, Option.map_some, utf16, utf16, List.flatMap_cons]
    · rw [decode_octets, ih, Option.map_some, utf16, utf16, List.flatMap_cons]

/-- **The round trip.** Well-formed text is written, and what is written is read as the text. -/
theorem decode_encode (s : Str) : (encodeURIComponent (utf16 s)).bind decodeURIComponent = some (utf16 s) := by
  rw [encodeURIComponent, characters_utf16]
  exact decode_encoded s

/-- What is written has no semicolon. -/
theorem semicolon_notMem (s : Str) : (59 : UInt16) ∉ s.flatMap encodeCharacter := by
  intro hmem
  obtain ⟨c, -, hin⟩ := List.mem_flatMap.mp hmem
  rw [encodeCharacter] at hin
  split at hin
  · next h =>
    obtain ⟨u, hu, -, hsemicolon⟩ := unreserved_unit h
    rw [hu, List.mem_singleton] at hin
    exact hsemicolon hin.symm
  · obtain ⟨b, -, hin⟩ := List.mem_flatMap.mp hin
    have hdigit : ∀ n, n < 16 → (59 : UInt16) ≠ hexDigit n := by decide
    have hb : b.toNat < 256 := b.toNat_lt
    simp only [escapeOctet, List.mem_cons, List.not_mem_nil, or_false] at hin
    rcases hin with hin | hin | hin
    · exact absurd hin (by decide)
    · exact hdigit _ (by omega) hin
    · exact hdigit _ (by omega) hin

end TypeFerry.Lib.PercentEncoding
