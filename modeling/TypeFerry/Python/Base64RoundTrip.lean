import TypeFerry.Ejson.Base64Grammar
import TypeFerry.Python.Base64

/-! # Base64: one encoding in two ports

What a decoder gives depends on the length of the text, on the place of its first `=` and on what is read at
each index. Both decoders are compared with one that is given these (`decoded`). -/
namespace TypeFerry.Python.Base64RoundTrip
open TypeFerry.Lib.Numeral TypeFerry.Lib.Unicode TypeFerry.Ejson.Base64
open TypeFerry.Python.Base64 hiding decodeTail lookup

/-! ## A decoder by reads -/

section
variable (read : ℕ → Option ℕ)

/-- The bytes of `n` groups. -/
def readGroups : ℕ → ℕ → Option (List UInt8)
  | 0, _ => some []
  | n + 1, index => do
    let c0 ← read index
    let c1 ← read (index + 1)
    let c2 ← read (index + 2)
    let c3 ← read (index + 3)
    let chunk := c0 <<< 18 ||| c1 <<< 12 ||| c2 <<< 6 ||| c3
    let rest ← readGroups n (index + 4)
    some (UInt8.ofNat (chunk >>> 16) :: UInt8.ofNat (chunk >>> 8) :: UInt8.ofNat chunk :: rest)

/-- The bytes of the last group. -/
def readTail (placeholderLength index : ℕ) : Option (List UInt8) :=
  if placeholderLength = 2 then do
    let c0 ← read index
    let c1 ← read (index + 1)
    some [UInt8.ofNat (c0 <<< 2 ||| c1 >>> 4)]
  else if placeholderLength = 1 then do
    let c0 ← read index
    let c1 ← read (index + 1)
    let c2 ← read (index + 2)
    let chunk := c0 <<< 10 ||| c1 <<< 4 ||| c2 >>> 2
    some [UInt8.ofNat (chunk >>> 8), UInt8.ofNat chunk]
  else some []

def decoded (length validLength : ℕ) : Option (List UInt8) :=
  let placeholderLength := if validLength = length then 0 else 4 - validLength % 4
  let rounds := ((if 0 < placeholderLength then (validLength : ℤ) - 4 else validLength).toNat + 3) / 4
  if length % 4 ≠ 0 ∨ (validLength + placeholderLength) * 3 / 4 < placeholderLength then none
  else do
    let chunks ← readGroups read rounds 0
    let tail ← readTail read placeholderLength (4 * rounds)
    some (fillBinary ((validLength + placeholderLength) * 3 / 4 - placeholderLength) (chunks ++ tail))

end

theorem toOption_ok {ε α : Type} (a : α) : (Except.ok a : Except ε α).toOption = some a := rfl

theorem toOption_bind {ε α β : Type} (x : Except ε α) (f : α → Except ε β) :
    (x >>= f).toOption = x.toOption.bind fun a => (f a).toOption := by
  cases x <;> rfl

theorem of_toOption {ε α : Type} {x : Except ε α} {a : α} (h : x.toOption = some a) : x = .ok a := by
  cases x with
  | error e => cases h
  | ok a' => exact congrArg Except.ok (Option.some.inj h)

/-! ## TypeScript -/

def readUnit (s : Text) (index : ℕ) : Option ℕ := (readBase64Char s[index]?).toOption

theorem decodeChunks_eq (s : Text) : ∀ n index : ℕ, (decodeChunks n (s.drop index)).toOption =
    (readGroups (readUnit s) n index).map fun bytes => (bytes, s.drop (index + 4 * n))
  | 0, _ => rfl
  | n + 1, index => by
    have hrest := decodeChunks_eq s n (index + 4)
    rw [decodeChunks, readGroups]
    simp only [toOption_bind, List.getElem?_drop, List.drop_drop, hrest, Option.bind_eq_bind, Option.map_bind,
      Function.comp_def, readUnit, Nat.add_zero]
    refine Option.bind_congr fun c0 _ => Option.bind_congr fun c1 _ => Option.bind_congr fun c2 _ =>
      Option.bind_congr fun c3 _ => ?_
    cases readGroups (readUnit s) n (index + 4) with
    | none => rfl
    | some bytes =>
      rw [show index + 4 * (n + 1) = index + 4 + 4 * n by omega]
      rfl

theorem decodeTail_eq (s : Text) (placeholderLength index : ℕ) :
    (decodeTail placeholderLength (s.drop index)).toOption = readTail (readUnit s) placeholderLength index := by
  rw [decodeTail, readTail]
  split_ifs
  · simp only [toOption_bind, List.getElem?_drop, Option.bind_eq_bind, readUnit, Nat.add_zero]
    rfl
  · simp only [toOption_bind, List.getElem?_drop, Option.bind_eq_bind, readUnit, Nat.add_zero]
    rfl
  · rfl

theorem decodeBase64_eq (s : Text) :
    (decodeBase64 s).toOption = decoded (readUnit s) s.length (s.findIdx (· = 61)) := by
  rw [decoded]
  by_cases hmod : s.length % 4 = 0
  · rw [Ejson.Base64Grammar.decodeBase64_of_length hmod]
    by_cases hallocated : (Ejson.Base64Grammar.validLength s + Ejson.Base64Grammar.placeholderLength s) * 3 / 4 <
        Ejson.Base64Grammar.placeholderLength s
    · rw [if_pos hallocated]
      exact (if_pos (.inr hallocated)).symm
    · rw [if_neg hallocated]
      refine Eq.trans ?_ (if_neg (not_or.mpr ⟨not_not.mpr hmod, hallocated⟩)).symm
      have hchunks := decodeChunks_eq s (Ejson.Base64Grammar.rounds s) 0
      rw [List.drop_zero] at hchunks
      rw [Ejson.Base64Grammar.decodeGroups, toOption_bind, hchunks, Option.bind_map]
      refine congrArg _ (funext fun bytes => ?_)
      show Except.toOption (_ >>= _) = _
      rw [toOption_bind, decodeTail_eq, Nat.zero_add]
      rfl
  · rw [decodeBase64, getBase64Lengths, if_pos hmod]
    exact (if_pos (.inl hmod)).symm

/-! ## Python -/

def readAt (s : Str) (index : ℕ) : Option ℕ := (readChar s index).toOption

theorem write_append (done : List UInt8) (old byte : UInt8) (rest : List UInt8) :
    write (done ++ old :: rest) done.length byte = .ok (done ++ byte :: rest) := by
  rw [write, if_pos (by simp)]
  simp

/-- The loop writes the bytes of its groups where they belong. -/
theorem decodeLoop_eq (s : Str) (stop : ℤ) : ∀ (n index : ℕ) (done rest : List UInt8),
    n = ((stop - index).toNat + 3) / 4 → 3 * n ≤ rest.length →
    (decodeLoop s stop index done.length (done ++ rest)).toOption =
      (readGroups (readAt s) n index).map fun bytes =>
        (done ++ bytes ++ rest.drop (3 * n), index + 4 * n, done.length + 3 * n)
  | 0, index, done, rest, hn, _ => by
    rw [decodeLoop, if_neg (by omega)]
    simp [readGroups, Except.toOption]
  | n + 1, index, done, rest, hn, hrest => by
    obtain ⟨x, y, z, rest, rfl⟩ : ∃ x y z rest', rest = x :: y :: z :: rest' := by
      match rest, hrest with
      | x :: y :: z :: rest, _ => exact ⟨x, y, z, rest, rfl⟩
      | [], h | [_], h | [_, _], h => simp at h <;> omega
    rw [decodeLoop, if_pos (by omega), readGroups]
    simp only [toOption_bind, Option.bind_eq_bind, Option.map_bind, Function.comp_def, readAt]
    refine Option.bind_congr fun c0 _ => Option.bind_congr fun c1 _ => Option.bind_congr fun c2 _ =>
      Option.bind_congr fun c3 _ => ?_
    have second (b0 : UInt8) := write_append (done ++ [b0]) y
    have third (b0 b1 : UInt8) := write_append (done ++ [b0, b1]) z
    have hrest (b0 b1 b2 : UInt8) :=
      decodeLoop_eq s stop n (index + 4) (done ++ [b0, b1, b2]) rest (by omega) (by simp at hrest; omega)
    simp only [List.append_assoc, List.cons_append, List.nil_append, List.length_append, List.length_cons,
      List.length_nil, Nat.zero_add, Nat.reduceAdd] at second third hrest
    simp only [write_append, second, third, hrest, toOption_ok, Option.bind_some]
    cases readGroups (readAt s) n (index + 4) with
    | none => rfl
    | some bytes =>
      rw [show 3 * (n + 1) = 3 * n + 3 by omega, show 4 * (n + 1) = 4 + 4 * n by omega]
      simp [Nat.add_assoc, Nat.add_comm 3]

theorem length_readGroups (read : ℕ → Option ℕ) : ∀ {n index : ℕ} {bytes : List UInt8},
    readGroups read n index = some bytes → bytes.length = 3 * n
  | 0, _, _, h => by
    cases h
    rfl
  | n + 1, index, bytes, h => by
    simp only [readGroups, Option.bind_eq_bind, Option.bind_eq_some_iff] at h
    obtain ⟨c0, -, c1, -, c2, -, c3, -, rest, hrest, h⟩ := h
    cases h
    simp only [List.length_cons, length_readGroups read hrest]
    omega

theorem fillBinary_of_le {n : ℕ} {bytes : List UInt8} (h : bytes.length ≤ n) :
    fillBinary n bytes = bytes ++ List.replicate (n - bytes.length) 0 := by
  rw [fillBinary, List.take_append, List.take_of_length_le h, List.take_replicate, Nat.min_eq_left (by omega)]

/-- The last group fits the room that is left for it. -/
theorem decodeTail_room (s : Str) {placeholderLength room : ℕ} (index : ℕ) (done : List UInt8)
    (htwo : placeholderLength = 2 → room = 1) (hone : placeholderLength = 1 → room = 2) :
    (Python.Base64.decodeTail s placeholderLength index done.length (done ++ List.replicate room 0)).toOption =
      (readTail (readAt s) placeholderLength index).map fun tail => fillBinary (done.length + room) (done ++ tail) := by
  rw [Python.Base64.decodeTail, readTail]
  split_ifs with h2 h1
  · obtain rfl := htwo h2
    simp only [toOption_bind, Option.bind_eq_bind, Option.map_bind, Function.comp_def, readAt]
    refine Option.bind_congr fun c0 _ => Option.bind_congr fun c1 _ => ?_
    rw [List.replicate_one, write_append, toOption_ok, Option.map_some, fillBinary_of_le (by simp)]
    simp
  · obtain rfl := hone h1
    simp only [toOption_bind, Option.bind_eq_bind, Option.map_bind, Function.comp_def, readAt]
    refine Option.bind_congr fun c0 _ => Option.bind_congr fun c1 _ => Option.bind_congr fun c2 _ => ?_
    have second (b0 byte : UInt8) := write_append (done ++ [b0]) 0 byte []
    simp only [List.append_assoc, List.cons_append, List.nil_append, List.length_append, List.length_cons,
      List.length_nil, Nat.zero_add] at second
    rw [List.replicate_succ, List.replicate_one, write_append, toOption_ok, Option.bind_some, second, toOption_ok,
      Option.map_some, fillBinary_of_le (by simp)]
    simp
  · rw [Option.map_some, fillBinary_of_le (by simp)]
    simp [Except.toOption]

theorem decode_base64_eq (s : Str) :
    (decode_base64 s).toOption = decoded (readAt s) s.length (s.findIdx (· = '=')) := by
  have hvalid : s.findIdx (· = '=') ≤ s.length := List.findIdx_le_length
  rw [decode_base64, decoded]
  generalize s.findIdx (· = '=') = validLength at *
  by_cases hmod : s.length % 4 = 0
  · rw [if_neg (not_not.mpr hmod)]
    simp only
    generalize hplaceholder : (if validLength = s.length then 0 else 4 - validLength % 4) = placeholderLength
    generalize houtput : (validLength + placeholderLength) * 3 / 4 = output
    by_cases hallocated : output < placeholderLength
    · rw [if_pos (by omega), if_pos (.inr hallocated)]
      rfl
    · rw [if_neg (by omega), if_neg (not_or.mpr ⟨not_not.mpr hmod, hallocated⟩)]
      generalize hstop : (if 0 < placeholderLength then (validLength : ℤ) - 4 else validLength) = stop
      generalize hrounds : (stop.toNat + 3) / 4 = rounds
      have hroom : 3 * rounds ≤ output - placeholderLength ∧
          (placeholderLength = 2 → output - placeholderLength - 3 * rounds = 1) ∧
          (placeholderLength = 1 → output - placeholderLength - 3 * rounds = 2) := by
        split_ifs at hplaceholder hstop <;> omega
      have hloop := decodeLoop_eq s stop rounds 0 [] (List.replicate (output - placeholderLength) 0) (by simpa using hrounds.symm)
        (by simpa using hroom.1)
      simp only [List.nil_append, List.length_nil, List.drop_replicate, Nat.zero_add] at hloop
      rw [show ((output : ℤ) - (placeholderLength : ℤ)).toNat = output - placeholderLength by omega, toOption_bind, hloop,
        Option.bind_map]
      refine Option.bind_congr fun bytes hbytes => ?_
      have hlength := length_readGroups _ hbytes
      have htail := decodeTail_room s (4 * rounds) bytes hroom.2.1 hroom.2.2
      rw [hlength, show 3 * rounds + (output - placeholderLength - 3 * rounds) = output - placeholderLength by omega] at htail
      refine htail.trans ?_
      rw [Option.map_eq_bind]
      rfl
  · rw [if_pos hmod, if_pos (.inl hmod)]
    rfl

/-! ## Texts that are read alike -/

/-- Lists that agree in what is read and in where padding is are decoded alike. -/
theorem decoded_alike {α β : Type} {f : α → Option ℕ} {g : β → Option ℕ} {p : α → Bool} {q : β → Bool} {s : List α}
    {t : List β} (h : List.Forall₂ (fun a b => f a = g b ∧ p a = q b) s t) :
    decoded (fun index : ℕ => s[index]?.bind f) s.length (s.findIdx p) =
      decoded (fun index : ℕ => t[index]?.bind g) t.length (t.findIdx q) := by
  have hread (index : ℕ) : s[index]?.bind f = t[index]?.bind g := by
    induction h generalizing index with
    | nil => rfl
    | cons hab _ ih =>
      cases index with
      | zero => simpa using hab.1
      | succ index => simpa using ih index
  have hfind : s.findIdx p = t.findIdx q := by
    induction h with
    | nil => rfl
    | cons hab _ ih => rw [List.findIdx_cons, List.findIdx_cons, hab.2, ih fun index => by simpa using hread (index + 1)]
  rw [funext hread, hfind, h.length_eq]

theorem readUnit_eq (s : Text) : readUnit s = fun index => s[index]?.bind base64Lookup := by
  funext index
  rw [readUnit]
  cases s[index]? with
  | none => rfl
  | some u =>
    rw [Option.bind_some, readBase64Char]
    cases base64Lookup u <;> rfl

def readSymbol (c : Char) : Option ℕ := (Python.Base64.lookup c).toOption.join

theorem readAt_eq (s : Str) : readAt s = fun index => s[index]?.bind readSymbol := by
  funext index
  rw [readAt, readChar]
  cases s[index]? with
  | none => rfl
  | some c =>
    rw [Option.bind_some, readSymbol]
    simp only
    rcases Python.Base64.lookup c with _ | _ | _ <;> rfl

/-! ## The encoders -/

/-- The two alphabets write and read one character alike. -/
theorem symbol_alike {n : ℕ} (h : n < 64) : symbol n = charOf (base64Char n) ∧
    utf16EncodeChar (charOf (base64Char n)) = [base64Char n] ∧
    readSymbol (charOf (base64Char n)) = base64Lookup (base64Char n) ∧
    decide (charOf (base64Char n) = '=') = decide (base64Char n = 61) := by
  have key : ∀ n < 64, symbol n = charOf (base64Char n) ∧
      utf16EncodeChar (charOf (base64Char n)) = [base64Char n] ∧
      readSymbol (charOf (base64Char n)) = base64Lookup (base64Char n) ∧
      decide (charOf (base64Char n) = '=') = decide (base64Char n = 61) := by decide +kernel
  exact key n h

theorem symbol_eq {n : ℕ} (h : n < 64) : symbol n = charOf (base64Char n) := (symbol_alike h).1

theorem encodeRound_succ (b0 b1 b2 : UInt8) (rest : List UInt8) (round : ℕ) :
    encodeRound (b0 :: b1 :: b2 :: rest) (3 * (round + 1)) = encodeRound rest (3 * round) := by
  rw [encodeRound, encodeRound]
  have hlength : (b0 :: b1 :: b2 :: rest).length - 3 * (round + 1) = rest.length - 3 * round := by simp; omega
  rw [hlength, show 3 * (round + 1) = 3 * round + 3 by omega]
  simp

theorem encode_base64_eq (b : List UInt8) : encode_base64 b = encodeChars b := by
  have h64 (m : ℕ) : m &&& 63 < 64 := by
    rw [and_63]
    omega
  rw [encode_base64, encodeChars]
  induction b using encodeBase64.induct with
  | case1 => rfl
  | case2 byte0 => simp [encodeRound, encodeBase64, symbol_eq (h64 _), show charOf 61 = '=' from rfl]
  | case3 byte0 byte1 => simp [encodeRound, encodeBase64, symbol_eq (h64 _), show charOf 61 = '=' from rfl]
  | case4 byte0 byte1 byte2 rest ih =>
    have hrounds : ((byte0 :: byte1 :: byte2 :: rest).length + 2) / 3 = (rest.length + 2) / 3 + 1 := by
      simp only [List.length_cons]
      omega
    have hfirst : encodeRound (byte0 :: byte1 :: byte2 :: rest) (3 * 0) = (encodeBase64 [byte0, byte1, byte2]).map charOf := by
      simp [encodeRound, encodeBase64, symbol_eq (h64 _)]
    rw [hrounds, List.range_succ_eq_map, List.flatMap_cons, List.flatMap_map, hfirst]
    simp only [encodeRound_succ, ih, encodeBase64, List.map_cons, List.map_nil, List.cons_append, List.nil_append]

theorem utf16_encodeChars (b : List UInt8) : utf16 (encodeChars b) = encodeBase64 b := by
  rw [utf16, encodeChars, List.flatMap_map]
  refine (List.flatMap_congr fun u hu => ?_).trans (List.flatMap_singleton' _)
  rcases mem_encodeBase64 hu with rfl | ⟨n, hn, rfl⟩
  · decide
  · exact (symbol_alike hn).2.1

/-- What the encoders write is read alike by both decoders. -/
theorem decoded_encodeChars (b : List UInt8) :
    decoded (readAt (encodeChars b)) (encodeChars b).length ((encodeChars b).findIdx (· = '=')) =
      decoded (readUnit (encodeBase64 b)) (encodeBase64 b).length ((encodeBase64 b).findIdx (· = 61)) := by
  rw [readAt_eq, readUnit_eq]
  refine decoded_alike (List.forall₂_map_left_iff.mpr (List.forall₂_same.mpr fun u hu => ?_))
  rcases mem_encodeBase64 hu with rfl | ⟨n, hn, rfl⟩
  · decide
  · exact (symbol_alike hn).2.2

theorem decode_base64_encode_base64 (b : List UInt8) : decode_base64 (encode_base64 b) = .ok b := by
  have h := decode_base64_eq (encodeChars b)
  rw [decoded_encodeChars, ← decodeBase64_eq, decodeBase64_encodeBase64] at h
  rw [encode_base64_eq]
  exact of_toOption h

/-! ## URL-safe spellings -/

/-- `t` is `s` with some plus signs replaced by minus signs and some slashes by underscores. -/
def Respelled {α : Type} (plus minus slash underscore : α) (s t : List α) : Prop :=
  List.Forall₂ (fun a b => b = a ∨ a = plus ∧ b = minus ∨ a = slash ∧ b = underscore) s t

theorem decodeBase64_respelled {s t : Text} {b : List UInt8} (h : Respelled 43 45 47 95 s t)
    (hs : decodeBase64 s = .ok b) : decodeBase64 t = .ok b := by
  refine of_toOption ?_
  rw [← toOption_ok (ε := Text) b, ← hs, decodeBase64_eq, decodeBase64_eq, readUnit_eq, readUnit_eq]
  refine (decoded_alike (h.imp fun u v huv => ?_)).symm
  rcases huv with rfl | ⟨rfl, rfl⟩ | ⟨rfl, rfl⟩
  · exact ⟨rfl, rfl⟩
  · decide
  · decide

theorem decode_base64_respelled {s t : Str} {b : List UInt8} (h : Respelled '+' '-' '/' '_' s t)
    (hs : decode_base64 s = .ok b) : decode_base64 t = .ok b := by
  refine of_toOption ?_
  rw [← toOption_ok (ε := Error) b, ← hs, decode_base64_eq, decode_base64_eq, readAt_eq, readAt_eq]
  refine (decoded_alike (h.imp fun c d hcd => ?_)).symm
  rcases hcd with rfl | ⟨rfl, rfl⟩ | ⟨rfl, rfl⟩
  · exact ⟨rfl, rfl⟩
  · decide
  · decide

/-- **Base64 round trip.** -/
theorem base64_round_trip (b : List UInt8) :
    decodeBase64 (encodeBase64 b) = .ok b ∧ decode_base64 (encode_base64 b) = .ok b ∧
      utf16 (encode_base64 b) = encodeBase64 b ∧
      (∀ t, Respelled 43 45 47 95 (encodeBase64 b) t → decodeBase64 t = .ok b) ∧
      ∀ t, Respelled '+' '-' '/' '_' (encode_base64 b) t → decode_base64 t = .ok b := by
  refine ⟨decodeBase64_encodeBase64 b, decode_base64_encode_base64 b, ?_, fun t h => ?_, fun t h => ?_⟩
  · rw [encode_base64_eq, utf16_encodeChars]
  · exact decodeBase64_respelled h (decodeBase64_encodeBase64 b)
  · exact decode_base64_respelled h (decode_base64_encode_base64 b)

end TypeFerry.Python.Base64RoundTrip
