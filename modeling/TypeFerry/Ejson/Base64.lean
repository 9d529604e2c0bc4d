import TypeFerry.Lib.Numeral

/-! # Base64

`encodeBase64` and `decodeBase64` as the EJSON codec computes them, over code
units. The decoder allocates its result from the position of the first `=` and
then fills it, so bytes it does not write stay zero and bytes past the end are
dropped. -/
namespace TypeFerry.Ejson.Base64
open TypeFerry.Lib.Numeral

def base64Alphabet : Text :=
  js "ABCDEFGHIJKLMNOPQRSTUVWXYZabcdefghijklmnopqrstuvwxyz0123456789+/"

/-- The character of a six-bit value. -/
def base64Char (n : Nat) : UInt16 := base64Alphabet.getD n 0

/-- `BASE64_LOOKUP`, with the two URL-safe characters. -/
def base64Lookup (u : UInt16) : Option Nat :=
  if u = 45 then some 62
  else if u = 95 then some 63
  else base64Alphabet.findIdx? (· = u)

/-- The 24-bit chunk of three bytes. -/
def chunkOf (byte0 byte1 byte2 : UInt8) : Nat :=
  (byte0.toNat <<< 16) ||| (byte1.toNat <<< 8) ||| byte2.toNat

/-- The encoder, three bytes at a time; missing bytes count as zero. -/
def encodeBase64 : List UInt8 → Text
  | [] => []
  | [byte0] =>
    let chunk := chunkOf byte0 0 0
    [base64Char ((chunk >>> 18) &&& 63), base64Char ((chunk >>> 12) &&& 63), 61, 61]
  | [byte0, byte1] =>
    let chunk := chunkOf byte0 byte1 0
    [base64Char ((chunk >>> 18) &&& 63), base64Char ((chunk >>> 12) &&& 63),
      base64Char ((chunk >>> 6) &&& 63), 61]
  | byte0 :: byte1 :: byte2 :: rest =>
    let chunk := chunkOf byte0 byte1 byte2
    base64Char ((chunk >>> 18) &&& 63) :: base64Char ((chunk >>> 12) &&& 63) ::
      base64Char ((chunk >>> 6) &&& 63) :: base64Char (chunk &&& 63) :: encodeBase64 rest

structure Base64Lengths where
  validLength : Nat
  placeholderLength : Nat

def getBase64Lengths (value : Text) : Except Text Base64Lengths :=
  if value.length % 4 ≠ 0 then .error (js "Invalid base64 string length")
  else
    let validLength := value.findIdx (· = 61)
    .ok ⟨validLength, if validLength = value.length then 0 else 4 - validLength % 4⟩

def readBase64Char : Option UInt16 → Except Text Nat
  | none => .error (js "Invalid base64 character")
  | some u => match base64Lookup u with
    | none => .error (js "Invalid base64 character")
    | some n => .ok n

/-- The loop over full chunks; also the text after them. -/
def decodeChunks : Nat → Text → Except Text (List UInt8 × Text)
  | 0, s => .ok ([], s)
  | n + 1, s => do
    let c0 ← readBase64Char s[0]?
    let c1 ← readBase64Char s[1]?
    let c2 ← readBase64Char s[2]?
    let c3 ← readBase64Char s[3]?
    let chunk := (c0 <<< 18) ||| (c1 <<< 12) ||| (c2 <<< 6) ||| c3
    let rest ← decodeChunks n (s.drop 4)
    .ok (UInt8.ofNat (chunk >>> 16) :: UInt8.ofNat (chunk >>> 8) :: UInt8.ofNat chunk :: rest.1,
      rest.2)

/-- The bytes of a last chunk with padding. -/
def decodeTail (placeholderLength : Nat) (s : Text) : Except Text (List UInt8) :=
  if placeholderLength = 2 then do
    let c0 ← readBase64Char s[0]?
    let c1 ← readBase64Char s[1]?
    .ok [UInt8.ofNat ((c0 <<< 2) ||| (c1 >>> 4))]
  else if placeholderLength = 1 then do
    let c0 ← readBase64Char s[0]?
    let c1 ← readBase64Char s[1]?
    let c2 ← readBase64Char s[2]?
    let chunk := (c0 <<< 10) ||| (c1 <<< 4) ||| (c2 >>> 2)
    .ok [UInt8.ofNat (chunk >>> 8), UInt8.ofNat chunk]
  else .ok []

/-- `newBinary(n)` filled from its start: writes past the end are ignored. -/
def fillBinary (n : Nat) (bytes : List UInt8) : List UInt8 :=
  (bytes ++ List.replicate n 0).take n

def decodeBase64 (value : Text) : Except Text (List UInt8) := do
  let lengths ← getBase64Lengths value
  let v := lengths.validLength
  let p := lengths.placeholderLength
  if (v + p) * 3 / 4 < p then .error (js "Invalid array buffer length")
  else
    let last : Int := if 0 < p then v - 4 else v
    -- the loop runs for the indices 0, 4, 8, … below `last`
    let chunks ← decodeChunks ((last.toNat + 3) / 4) value
    let tail ← decodeTail p chunks.2
    .ok (fillBinary ((v + p) * 3 / 4 - p) (chunks.1 ++ tail))

/-! ## One character -/

theorem base64Char_spec {n : Nat} (h : n < 64) : base64Lookup (base64Char n) = some n ∧ base64Char n ≠ 61 := by
  have key : ∀ n, n < 64 → base64Lookup (base64Char n) = some n ∧ base64Char n ≠ 61 := by decide +kernel
  exact key n h

theorem base64Lookup_char {n : Nat} (h : n < 64) : base64Lookup (base64Char n) = some n := (base64Char_spec h).1

theorem base64Char_ne {n : Nat} (h : n < 64) : base64Char n ≠ 61 := (base64Char_spec h).2

theorem readBase64Char_char {n : Nat} (h : n < 64) :
    readBase64Char (some (base64Char n)) = .ok n := by
  simp [readBase64Char, base64Lookup_char h]

/-! ## Bits as arithmetic -/

theorem and_63 (n : Nat) : n &&& 63 = n % 64 := by simpa using Nat.and_two_pow_sub_one_eq_mod n 6

theorem chunkOf_eq (a b c : UInt8) :
    chunkOf a b c = a.toNat * 65536 + b.toNat * 256 + c.toNat := by
  have ha := a.toNat_lt
  have hb := b.toNat_lt
  have hc := c.toNat_lt
  rw [chunkOf, ← Nat.shiftLeft_add_eq_or_of_lt (a := a.toNat) (b := b.toNat <<< 8) (i := 16)
      (by rw [Nat.shiftLeft_eq]; omega),
    show a.toNat <<< 16 + b.toNat <<< 8 = (a.toNat * 256 + b.toNat) <<< 8 by
      simp only [Nat.shiftLeft_eq]; omega,
    ← Nat.shiftLeft_add_eq_or_of_lt (by omega), Nat.shiftLeft_eq]
  omega

theorem or_shift {a b : Nat} (i : Nat) (h : b < 2 ^ i) : (a <<< i) ||| b = a * 2 ^ i + b := by
  rw [← Nat.shiftLeft_add_eq_or_of_lt h, Nat.shiftLeft_eq]

/-- A 24-bit number is its four groups of six bits. -/
theorem sextets {k : Nat} (h : k < 16777216) : ((k >>> 18 &&& 63) <<< 18) |||
    ((k >>> 12 &&& 63) <<< 12) ||| ((k >>> 6 &&& 63) <<< 6) ||| (k &&& 63) = k := by
  have h6 : (k >>> 6 &&& 63) <<< 6 ||| (k &&& 63) = k % 4096 := by
    rw [and_63, and_63, or_shift 6 (by omega), Nat.shiftRight_eq_div_pow]
    omega
  have h12 : (k >>> 12 &&& 63) <<< 12 ||| k % 4096 = k % 262144 := by
    rw [and_63, or_shift 12 (by omega), Nat.shiftRight_eq_div_pow]
    omega
  have h18 : (k >>> 18 &&& 63) <<< 18 ||| k % 262144 = k := by
    rw [and_63, or_shift 18 (by omega), Nat.shiftRight_eq_div_pow]
    omega
  rw [Nat.or_assoc, Nat.or_assoc, h6, h12, h18]

/-! ## What the encoder writes -/

theorem length_encodeBase64 (b : List UInt8) :
    (encodeBase64 b).length = 4 * ((b.length + 2) / 3) := by
  induction b using encodeBase64.induct with
  | case1 => rfl
  | case2 | case3 => simp [encodeBase64]
  | case4 byte0 byte1 byte2 rest ih =>
    rw [encodeBase64]
    simp only [List.length_cons, ih]
    omega

theorem mem_encodeBase64 {b : List UInt8} {u : UInt16} (h : u ∈ encodeBase64 b) :
    u = 61 ∨ ∃ n < 64, u = base64Char n := by
  have h64 : ∀ m, m &&& 63 < 64 := fun m => by rw [and_63]; omega
  have hchar : ∀ m, ∃ n < 64, base64Char (m &&& 63) = base64Char n := fun m => ⟨_, h64 m, rfl⟩
  induction b using encodeBase64.induct with
  | case1 => cases h
  | case2 byte0 =>
    simp only [encodeBase64, List.mem_cons, List.not_mem_nil, or_false] at h
    rcases h with rfl | rfl | rfl | rfl
    · exact .inr (hchar _)
    · exact .inr (hchar _)
    · exact .inl rfl
    · exact .inl rfl
  | case3 byte0 byte1 =>
    simp only [encodeBase64, List.mem_cons, List.not_mem_nil, or_false] at h
    rcases h with rfl | rfl | rfl | rfl
    · exact .inr (hchar _)
    · exact .inr (hchar _)
    · exact .inr (hchar _)
    · exact .inl rfl
  | case4 byte0 byte1 byte2 rest ih =>
    simp only [encodeBase64, List.mem_cons] at h
    rcases h with rfl | rfl | rfl | rfl | h
    · exact .inr (hchar _)
    · exact .inr (hchar _)
    · exact .inr (hchar _)
    · exact .inr (hchar _)
    · exact ih h

/-- Where the padding starts. -/
theorem findIdx_encodeBase64 (b : List UInt8) : (encodeBase64 b).findIdx (· = 61) =
    4 * (b.length / 3) + (if b.length % 3 = 0 then 0 else b.length % 3 + 1) := by
  have hc : ∀ n, (decide (base64Char (n &&& 63) = 61)) = false := fun n =>
    decide_eq_false (base64Char_ne (by rw [and_63]; omega))
  induction b using encodeBase64.induct with
  | case1 => rfl
  | case2 byte0 => rw [encodeBase64]; simp [List.findIdx_cons, hc]
  | case3 byte0 byte1 => rw [encodeBase64]; simp [List.findIdx_cons, hc]
  | case4 byte0 byte1 byte2 rest ih =>
    rw [encodeBase64]
    simp only [List.findIdx_cons, hc, cond_false, ih, List.length_cons]
    rw [show (rest.length + 1 + 1 + 1) / 3 = rest.length / 3 + 1 by omega,
      show (rest.length + 1 + 1 + 1) % 3 = rest.length % 3 by omega]
    omega

/-! ## Bytes back from their groups of six bits -/

theorem bytes_three (a b c : UInt8) :
    let chunk := (chunkOf a b c >>> 18 &&& 63) <<< 18 ||| (chunkOf a b c >>> 12 &&& 63) <<< 12 |||
      (chunkOf a b c >>> 6 &&& 63) <<< 6 ||| (chunkOf a b c &&& 63)
    UInt8.ofNat (chunk >>> 16) = a ∧ UInt8.ofNat (chunk >>> 8) = b ∧ UInt8.ofNat chunk = c := by
  have ha := a.toNat_lt
  have hb := b.toNat_lt
  have hc := c.toNat_lt
  have hk := chunkOf_eq a b c
  rw [sextets (by omega)]
  refine ⟨?_, ?_, ?_⟩ <;> apply UInt8.toNat_inj.mp <;>
    simp only [UInt8.toNat_ofNat', Nat.shiftRight_eq_div_pow] <;> omega

theorem byte_one (a : UInt8) :
    UInt8.ofNat ((chunkOf a 0 0 >>> 18 &&& 63) <<< 2 ||| (chunkOf a 0 0 >>> 12 &&& 63) >>> 4) = a := by
  have ha := a.toNat_lt
  apply UInt8.toNat_inj.mp
  simp only [chunkOf_eq, and_63, Nat.shiftRight_eq_div_pow]
  rw [or_shift 2 (by simp; omega), UInt8.toNat_ofNat']
  simp
  omega

theorem bytes_two (a b : UInt8) :
    let chunk := (chunkOf a b 0 >>> 18 &&& 63) <<< 10 ||| (chunkOf a b 0 >>> 12 &&& 63) <<< 4 |||
      (chunkOf a b 0 >>> 6 &&& 63) >>> 2
    UInt8.ofNat (chunk >>> 8) = a ∧ UInt8.ofNat chunk = b := by
  have ha := a.toNat_lt
  have hb := b.toNat_lt
  have hchunk : (chunkOf a b 0 >>> 18 &&& 63) <<< 10 ||| (chunkOf a b 0 >>> 12 &&& 63) <<< 4 |||
      (chunkOf a b 0 >>> 6 &&& 63) >>> 2 = a.toNat * 256 + b.toNat := by
    simp only [chunkOf_eq, and_63, Nat.shiftRight_eq_div_pow]
    rw [Nat.or_assoc, or_shift 4 (by simp; omega), or_shift 10 (by simp; omega)]
    simp
    omega
  rw [hchunk]
  constructor <;> apply UInt8.toNat_inj.mp <;> simp only [UInt8.toNat_ofNat', Nat.shiftRight_eq_div_pow] <;> omega

/-! ## What the decoder reads -/

/-- Four characters of a full chunk give its three bytes back. -/
theorem chunk_bytes (a b c : UInt8) (n : Nat) (s : Text) :
    decodeChunks (n + 1) (base64Char ((chunkOf a b c >>> 18) &&& 63) ::
      base64Char ((chunkOf a b c >>> 12) &&& 63) :: base64Char ((chunkOf a b c >>> 6) &&& 63) ::
      base64Char (chunkOf a b c &&& 63) :: s) =
    (decodeChunks n s).map fun rest => (a :: b :: c :: rest.1, rest.2) := by
  have h64 : ∀ m, m &&& 63 < 64 := fun m => by rw [and_63]; omega
  obtain ⟨h0, h1, h2⟩ := bytes_three a b c
  rw [decodeChunks]
  simp only [List.getElem?_cons_zero, List.getElem?_cons_succ, readBase64Char_char (h64 _), bind,
    Except.bind, List.drop_succ_cons, List.drop_zero]
  cases decodeChunks n s with
  | error e => rfl
  | ok rest => simp only [h0, h1, h2, Except.map]

theorem decodeChunks_encodeBase64 (b : List UInt8) :
    decodeChunks (b.length / 3) (encodeBase64 b) =
      .ok (b.take (3 * (b.length / 3)), encodeBase64 (b.drop (3 * (b.length / 3)))) := by
  induction b using encodeBase64.induct with
  | case1 => rfl
  | case2 | case3 => simp [decodeChunks]
  | case4 byte0 byte1 byte2 rest ih =>
    have hl : (byte0 :: byte1 :: byte2 :: rest).length / 3 = rest.length / 3 + 1 := by
      simp only [List.length_cons]; omega
    rw [hl, encodeBase64, chunk_bytes, ih]
    simp [Nat.mul_add, Except.map]

theorem decodeTail_one (a : UInt8) : decodeTail 2 (encodeBase64 [a]) = .ok [a] := by
  have h64 : ∀ m, m &&& 63 < 64 := fun m => by rw [and_63]; omega
  simp only [encodeBase64, decodeTail, if_true, List.getElem?_cons_zero, List.getElem?_cons_succ,
    readBase64Char_char (h64 _), bind, Except.bind, byte_one]

theorem decodeTail_two (a b : UInt8) : decodeTail 1 (encodeBase64 [a, b]) = .ok [a, b] := by
  have h64 : ∀ m, m &&& 63 < 64 := fun m => by rw [and_63]; omega
  obtain ⟨h0, h1⟩ := bytes_two a b
  simp only [encodeBase64, decodeTail, if_true, List.getElem?_cons_zero, List.getElem?_cons_succ,
    readBase64Char_char (h64 _), bind, Except.bind, h0, h1]
  rw [if_neg (by decide)]

theorem fillBinary_exact (b : List UInt8) : fillBinary b.length b = b := by
  simp [fillBinary]

/-- The last bytes of an encoded list, after its full chunks. -/
theorem decodeTail_encodeBase64 (b : List UInt8) (h : b.length < 3) :
    decodeTail (if b.length % 3 = 0 then 0 else 3 - b.length % 3) (encodeBase64 b) = .ok b := by
  match b with
  | [] => rfl
  | [a] => exact decodeTail_one a
  | [a, b] => exact decodeTail_two a b
  | _ :: _ :: _ :: _ => simp only [List.length_cons] at h; omega

/-- **Base64 round trip.** -/
theorem decodeBase64_encodeBase64 (b : List UInt8) : decodeBase64 (encodeBase64 b) = .ok b := by
  have hmod : (encodeBase64 b).length % 4 = 0 := by rw [length_encodeBase64]; omega
  have hidx := findIdx_encodeBase64 b
  have hlen := length_encodeBase64 b
  have htail := decodeTail_encodeBase64 (b.drop (3 * (b.length / 3)))
    (by rw [List.length_drop]; omega)
  rw [List.length_drop, show (b.length - 3 * (b.length / 3)) % 3 = b.length % 3 by omega] at htail
  have hp : (if (encodeBase64 b).findIdx (· = 61) = (encodeBase64 b).length then 0
      else 4 - (encodeBase64 b).findIdx (· = 61) % 4) =
      if b.length % 3 = 0 then 0 else 3 - b.length % 3 := by
    rw [hidx, hlen]
    split_ifs <;> omega
  simp only [decodeBase64, getBase64Lengths, hmod, ne_eq, not_true_eq_false, if_false, bind,
    Except.bind, hp]
  rw [hidx]
  by_cases h3 : b.length % 3 = 0
  · have hz : ¬ 0 < 0 := by omega
    simp only [h3, if_true, hz, if_false, Nat.not_lt_zero, Nat.sub_zero, Nat.add_zero] at htail ⊢
    rw [show (((4 * (b.length / 3) : Nat) : Int).toNat + 3) / 4 = b.length / 3 by omega,
      decodeChunks_encodeBase64]
    simp only [htail, List.take_append_drop]
    rw [show 4 * (b.length / 3) * 3 / 4 = b.length by omega, fillBinary_exact]
  · simp only [h3, if_false] at htail ⊢
    rw [if_neg (by omega), if_pos (by omega),
      show ((((4 * (b.length / 3) + (b.length % 3 + 1) : Nat) : Int) - 4).toNat + 3) / 4 =
        b.length / 3 by omega, decodeChunks_encodeBase64]
    simp only [htail, List.take_append_drop]
    rw [show (4 * (b.length / 3) + (b.length % 3 + 1) + (3 - b.length % 3)) * 3 / 4 -
      (3 - b.length % 3) = b.length by omega, fillBinary_exact]

/-! ## Base64 as characters -/

def charOf (u : UInt16) : Char := Char.ofNat u.toNat

def unitOf (c : Char) : UInt16 := UInt16.ofNat c.toNat

def encodeChars (b : List UInt8) : List Char := (encodeBase64 b).map charOf

def decodeChars (s : List Char) : Option (List UInt8) := (decodeBase64 (s.map unitOf)).toOption

theorem spelled {u : UInt16} (h : u = 61 ∨ ∃ n < 64, u = base64Char n) :
    unitOf (charOf u) = u ∧ (String.utf8EncodeChar (charOf u)).length = 1 ∧ charOf u ≠ '-' ∧ charOf u ≠ '_' := by
  have hall : ∀ n < 64, unitOf (charOf (base64Char n)) = base64Char n ∧
      (String.utf8EncodeChar (charOf (base64Char n))).length = 1 ∧
      charOf (base64Char n) ≠ '-' ∧ charOf (base64Char n) ≠ '_' := by decide +kernel
  rcases h with rfl | ⟨n, hn, rfl⟩
  · decide
  · exact hall n hn

theorem decodeChars_encodeChars (b : List UInt8) : decodeChars (encodeChars b) = some b := by
  have hunits : (encodeChars b).map unitOf = encodeBase64 b := by
    rw [encodeChars, List.map_map]
    exact (List.map_congr_left fun u hu => (spelled (mem_encodeBase64 hu)).1).trans (List.map_id _)
  rw [decodeChars, hunits, decodeBase64_encodeBase64]
  rfl

theorem length_encodeChars (b : List UInt8) : (encodeChars b).length = 4 * ((b.length + 2) / 3) := by
  rw [encodeChars, List.length_map, length_encodeBase64]

/-- The characters are ASCII, and none of them is one of the URL-safe characters. -/
theorem mem_encodeChars {b : List UInt8} {c : Char} (h : c ∈ encodeChars b) :
    (String.utf8EncodeChar c).length = 1 ∧ c ≠ '-' ∧ c ≠ '_' := by
  obtain ⟨u, hu, rfl⟩ := List.mem_map.mp h
  exact (spelled (mem_encodeBase64 hu)).2

end TypeFerry.Ejson.Base64
