import TypeFerry.Ejson.Base64
import TypeFerry.Lib.Unicode

/-! # Base64 of the Rust port

`base64::encode` and `base64::decode`. The decoder computes in `usize` and with bounds-checked
slices: what goes wrong there is a panic, and not an error that is returned. -/
namespace TypeFerry.Rust.Base64
open TypeFerry.Lib.Unicode
open TypeFerry.Ejson.Base64 (chunkOf and_63 bytes_three bytes_two byte_one)

inductive Base64Error where
  | InvalidLength
  | InvalidChar
  deriving DecidableEq

inductive Failure where
  | panic
  | error (e : Base64Error)
  deriving DecidableEq

/-! ## Checked arithmetic -/

def checkedSub (a b : ℕ) : Except Failure ℕ := if b ≤ a then .ok (a - b) else .error .panic

def checkedMul (a b : ℕ) : Except Failure ℕ := if a * b < 2 ^ 64 then .ok (a * b) else .error .panic

/-- `slice[index] = byte` -/
def write (slice : List UInt8) (index : ℕ) (byte : UInt8) : Except Failure (List UInt8) :=
  if index < slice.length then .ok (slice.set index byte) else .error .panic

/-! ## The code -/

def ALPHABET : Str := str "ABCDEFGHIJKLMNOPQRSTUVWXYZabcdefghijklmnopqrstuvwxyz0123456789+/"

def symbol (n : ℕ) : Char := ALPHABET.getD n '='

def encode : List UInt8 → Str
  | [] => []
  | [b0] =>
    let chunk := chunkOf b0 0 0
    [symbol (chunk >>> 18 &&& 63), symbol (chunk >>> 12 &&& 63), '=', '=']
  | [b0, b1] =>
    let chunk := chunkOf b0 b1 0
    [symbol (chunk >>> 18 &&& 63), symbol (chunk >>> 12 &&& 63), symbol (chunk >>> 6 &&& 63), '=']
  | b0 :: b1 :: b2 :: rest =>
    let chunk := chunkOf b0 b1 b2
    symbol (chunk >>> 18 &&& 63) :: symbol (chunk >>> 12 &&& 63) :: symbol (chunk >>> 6 &&& 63) ::
      symbol (chunk &&& 63) :: encode rest

/-- `build_lookup` -/
def lookup (byte : UInt8) : Option ℕ :=
  if byte = 45 then some 62 else if byte = 95 then some 63
  else ALPHABET.findIdx? fun c => c.toNat = byte.toNat

/-- The byte at an index, looked up. -/
def read (bytes : List UInt8) (index : ℕ) : Except Failure ℕ :=
  match bytes[index]? with
  | none => .error .panic
  | some byte => match lookup byte with
    | none => .error (.error .InvalidChar)
    | some v => .ok v

/-- `bytes.iter().position(|&b| b == b'=').unwrap_or(bytes.len())` -/
def validLength (bytes : List UInt8) : ℕ := bytes.findIdx (· = 61)

def placeholderLength (bytes : List UInt8) : ℕ :=
  if validLength bytes = bytes.length then 0 else 4 - validLength bytes % 4

/-- `end` of the loop -/
def loopEnd (valid placeholder : ℕ) : Except Failure ℕ := if 0 < placeholder then checkedSub valid 4 else .ok valid

/-- `while index < end`, with the output and both indices. -/
def decodeLoop (bytes : List UInt8) (stop index byteIndex : ℕ) (out : List UInt8) :
    Except Failure (List UInt8 × ℕ × ℕ) :=
  if index < stop then do
    let c0 ← read bytes index
    let c1 ← read bytes (index + 1)
    let c2 ← read bytes (index + 2)
    let c3 ← read bytes (index + 3)
    let chunk := c0 <<< 18 ||| c1 <<< 12 ||| c2 <<< 6 ||| c3
    let out ← write out byteIndex (UInt8.ofNat (chunk >>> 16))
    let out ← write out (byteIndex + 1) (UInt8.ofNat (chunk >>> 8))
    let out ← write out (byteIndex + 2) (UInt8.ofNat chunk)
    decodeLoop bytes stop (index + 4) (byteIndex + 3) out
  else .ok (out, index, byteIndex)
termination_by stop - index

def decodeTail (bytes : List UInt8) (placeholder index byteIndex : ℕ) (out : List UInt8) :
    Except Failure (List UInt8) :=
  if placeholder = 2 then do
    let c0 ← read bytes index
    let c1 ← read bytes (index + 1)
    write out byteIndex (UInt8.ofNat (c0 <<< 2 ||| c1 >>> 4))
  else if placeholder = 1 then do
    let c0 ← read bytes index
    let c1 ← read bytes (index + 1)
    let c2 ← read bytes (index + 2)
    let chunk := c0 <<< 10 ||| c1 <<< 4 ||| c2 >>> 2
    let out ← write out byteIndex (UInt8.ofNat (chunk >>> 8))
    write out (byteIndex + 1) (UInt8.ofNat chunk)
  else .ok out

def decode (value : Str) : Except Failure (List UInt8) :=
  let bytes := utf8 value
  if bytes.length % 4 ≠ 0 then .error (.error .InvalidLength)
  else do
    let valid := validLength bytes
    let placeholder := placeholderLength bytes
    let outputLength ← checkedSub ((← checkedMul (valid + placeholder) 3) / 4) placeholder
    let stop ← loopEnd valid placeholder
    let (out, index, byteIndex) ← decodeLoop bytes stop 0 0 (List.replicate outputLength 0)
    decodeTail bytes placeholder index byteIndex out

/-! ## When the decoder returns -/

/-- The first `=` is not among the first four bytes, and three times the length that counts is a
`usize`. -/
def Decodable (value : Str) : Prop :=
  (utf8 value).length % 4 = 0 →
    (validLength (utf8 value) = (utf8 value).length ∨ 4 ≤ validLength (utf8 value)) ∧
      (validLength (utf8 value) + placeholderLength (utf8 value)) * 3 < 2 ^ 64

instance (value : Str) : Decidable (Decodable value) :=
  inferInstanceAs (Decidable (_ → _))

/-- It returns, with a result or an error. -/
def Returns {α : Type} (r : Except Failure α) (p : α → Prop) : Prop :=
  match r with
  | .ok a => p a
  | .error .panic => False
  | .error (.error _) => True

-- The equations are made here, before the many proofs that ask for them side by side.
section
attribute [local simp] checkedSub checkedMul write decodeLoop validLength decodeTail decode loopEnd encode read
end

section
variable {α β : Type}

theorem Returns.bind {r : Except Failure α} {p : α → Prop} {f : α → Except Failure β} {q : β → Prop}
    (h : Returns r p) (hf : ∀ a, p a → Returns (f a) q) : Returns (r >>= f) q := by
  cases r with
  | ok a => exact hf a h
  | error e => cases e with
    | panic => exact h.elim
    | error e => trivial

theorem Returns.ne_panic {r : Except Failure α} {p : α → Prop} (h : Returns r p) : r ≠ .error .panic := by
  rintro rfl
  exact h

theorem returns_read {bytes : List UInt8} {index : ℕ} (h : index < bytes.length) :
    Returns (read bytes index) fun _ => True := by
  rw [read, List.getElem?_eq_getElem h]
  dsimp only
  cases lookup bytes[index] <;> trivial

theorem returns_write {slice : List UInt8} {index : ℕ} (h : index < slice.length) (byte : UInt8) :
    Returns (write slice index byte) fun slice' => slice'.length = slice.length := by
  rw [write, if_pos h]
  exact List.length_set

/-- After `k` of `rounds` rounds. -/
theorem returns_decodeLoop {bytes : List UInt8} {stop rounds : ℕ} (hstop : rounds = (stop + 3) / 4)
    (hbytes : 4 * rounds ≤ bytes.length) : ∀ (left k : ℕ) (out : List UInt8), k + left = rounds →
      3 * rounds ≤ out.length → Returns (decodeLoop bytes stop (4 * k) (3 * k) out) fun r =>
        r.1.length = out.length ∧ r.2 = (4 * rounds, 3 * rounds)
  | 0, k, out, hk, _ => by
    rw [decodeLoop, if_neg (by omega)]
    exact ⟨rfl, by rw [← hk]; rfl⟩
  | left + 1, k, out, hk, hout => by
    rw [decodeLoop, if_pos (by omega)]
    refine (returns_read (by omega)).bind fun c0 _ => (returns_read (by omega)).bind fun c1 _ =>
      (returns_read (by omega)).bind fun c2 _ => (returns_read (by omega)).bind fun c3 _ => ?_
    refine (returns_write (by omega) _).bind fun out₁ h₁ => (returns_write (by omega) _).bind fun out₂ h₂ =>
      (returns_write (by omega) _).bind fun out₃ h₃ => ?_
    have hrest := returns_decodeLoop hstop hbytes left (k + 1) out₃ (by omega) (by omega)
    rwa [h₃, h₂, h₁, Nat.mul_add, Nat.mul_add] at hrest

end

theorem returns_decodeTail {bytes out : List UInt8} {placeholder index byteIndex : ℕ}
    (h : placeholder = 2 ∧ index + 1 < bytes.length ∧ byteIndex < out.length ∨
      placeholder = 1 ∧ index + 2 < bytes.length ∧ byteIndex + 1 < out.length ∨
      placeholder ≠ 1 ∧ placeholder ≠ 2) :
    Returns (decodeTail bytes placeholder index byteIndex out) fun _ => True := by
  rcases h with ⟨rfl, hindex, hout⟩ | ⟨rfl, hindex, hout⟩ | ⟨hone, htwo⟩
  · refine (returns_read (by omega)).bind fun c0 _ => (returns_read hindex).bind fun c1 _ => ?_
    rw [write, if_pos hout]
    trivial
  · refine (returns_read (by omega)).bind fun c0 _ => (returns_read (by omega)).bind fun c1 _ =>
      (returns_read hindex).bind fun c2 _ => (returns_write (by omega) _).bind fun out₁ h₁ => ?_
    rw [write, if_pos (by omega)]
    trivial
  · rw [decodeTail, if_neg htwo, if_neg hone]
    trivial

theorem validLength_le (bytes : List UInt8) : validLength bytes ≤ bytes.length := List.findIdx_le_length

theorem decode_panics {value : Str} (h : ¬ Decodable value) : decode value = .error .panic := by
  obtain ⟨hmod, h⟩ := Classical.not_imp.mp h
  rw [decode, if_neg (not_not.mpr hmod)]
  dsimp only
  by_cases hmul : (validLength (utf8 value) + placeholderLength (utf8 value)) * 3 < 2 ^ 64
  · have hearly : validLength (utf8 value) ≠ (utf8 value).length ∧ validLength (utf8 value) < 4 := by
      rw [← not_le, ← not_or]
      exact fun hlong => h ⟨hlong, hmul⟩
    have hpad : placeholderLength (utf8 value) = 4 - validLength (utf8 value) % 4 := if_neg hearly.1
    have hstop : loopEnd (validLength (utf8 value)) (placeholderLength (utf8 value)) = .error .panic := by
      rw [loopEnd, if_pos (by omega), checkedSub, if_neg (by omega)]
    rw [checkedMul, if_pos hmul, hstop]
    show checkedSub _ _ >>= _ = _
    rw [checkedSub]
    split <;> rfl
  · rw [checkedMul, if_neg hmul]
    rfl

theorem decode_returns {value : Str} (h : Decodable value) : Returns (decode value) fun _ => True := by
  rw [decode]
  dsimp only
  by_cases hmod : (utf8 value).length % 4 = 0
  · obtain ⟨hpad, hmul⟩ := h hmod
    rw [if_neg (not_not.mpr hmod)]
    have hle := validLength_le (utf8 value)
    have hplaceholder : placeholderLength (utf8 value) = if validLength (utf8 value) = (utf8 value).length then 0
      else 4 - validLength (utf8 value) % 4 := rfl
    generalize hbytes : utf8 value = bytes at *
    generalize validLength bytes = valid at *
    generalize placeholderLength bytes = placeholder at *
    rw [checkedMul, if_pos hmul]
    show Returns (checkedSub ((valid + placeholder) * 3 / 4) placeholder >>= _) _
    rw [checkedSub, if_pos (by split at hplaceholder <;> omega)]
    show Returns (loopEnd valid placeholder >>= _) _
    have hstop : loopEnd valid placeholder = .ok (if 0 < placeholder then valid - 4 else valid) := by
      rw [loopEnd]
      split
      · rw [checkedSub, if_pos (by split at hplaceholder <;> omega)]
      · rfl
    rw [hstop]
    generalize hend : (if 0 < placeholder then valid - 4 else valid) = stop
    have hrounds : 4 * ((stop + 3) / 4) ≤ bytes.length ∧
        3 * ((stop + 3) / 4) ≤ (valid + placeholder) * 3 / 4 - placeholder := by
      split at hplaceholder <;> split at hend <;> omega
    refine (returns_decodeLoop rfl hrounds.1 _ 0 _ (Nat.zero_add _) ?_).bind fun r hr => ?_
    · rw [List.length_replicate]
      exact hrounds.2
    · obtain ⟨out, index, byteIndex⟩ := r
      obtain ⟨hlength, hindex⟩ := hr
      rw [List.length_replicate] at hlength
      obtain ⟨rfl, rfl⟩ := Prod.mk.inj hindex
      refine returns_decodeTail ?_
      dsimp only at hlength ⊢
      split at hplaceholder <;> split at hend <;> omega
  · rw [if_pos hmod]
    trivial

/-- Every text is decoded or refused, unless the arithmetic goes wrong. -/
theorem decode_returns_iff (value : Str) : decode value ≠ .error .panic ↔ Decodable value := by
  refine ⟨fun hreturns => ?_, fun h => (decode_returns h).ne_panic⟩
  by_contra h
  exact hreturns (decode_panics h)

/-! ## The decoder on what the encoder writes -/

/-- The byte of a symbol. -/
def byteOf (n : ℕ) : UInt8 := UInt8.ofNat (symbol n).toNat

theorem byteOf_spec {n : ℕ} (h : n < 64) :
    String.utf8EncodeChar (symbol n) = [byteOf n] ∧ lookup (byteOf n) = some n ∧ byteOf n ≠ 61 := by
  have hall : ∀ n < 64, String.utf8EncodeChar (symbol n) = [byteOf n] ∧ lookup (byteOf n) = some n ∧
      byteOf n ≠ 61 := by decide +kernel
  exact hall n h

theorem and_63_lt (n : ℕ) : n &&& 63 < 64 := by
  rw [and_63]
  omega

theorem utf8_symbol (n : ℕ) (s : Str) : utf8 (symbol (n &&& 63) :: s) = byteOf (n &&& 63) :: utf8 s := by
  rw [utf8, List.flatMap_cons, (byteOf_spec (and_63_lt n)).1]
  rfl

theorem read_byteOf {bytes : List UInt8} {index n : ℕ} (h : bytes[index]? = some (byteOf (n &&& 63))) :
    read bytes index = .ok (n &&& 63) := by
  rw [read, h]
  dsimp only
  rw [(byteOf_spec (and_63_lt n)).2.1]

/-- The bytes of three bytes, encoded. -/
def group (a b c : UInt8) : List UInt8 :=
  [byteOf (chunkOf a b c >>> 18 &&& 63), byteOf (chunkOf a b c >>> 12 &&& 63), byteOf (chunkOf a b c >>> 6 &&& 63),
    byteOf (chunkOf a b c &&& 63)]

theorem utf8_encode_three (a b c : UInt8) (rest : List UInt8) :
    utf8 (encode (a :: b :: c :: rest)) = group a b c ++ utf8 (encode rest) := by
  simp only [encode, utf8_symbol, group, List.cons_append, List.nil_append]

theorem utf8_encode_one (a : UInt8) :
    utf8 (encode [a]) = [byteOf (chunkOf a 0 0 >>> 18 &&& 63), byteOf (chunkOf a 0 0 >>> 12 &&& 63), 61, 61] := by
  simp only [encode, utf8_symbol]
  rfl

theorem utf8_encode_two (a b : UInt8) :
    utf8 (encode [a, b]) = [byteOf (chunkOf a b 0 >>> 18 &&& 63), byteOf (chunkOf a b 0 >>> 12 &&& 63),
      byteOf (chunkOf a b 0 >>> 6 &&& 63), 61] := by
  simp only [encode, utf8_symbol]
  rfl

theorem length_encode (b : List UInt8) : (utf8 (encode b)).length = 4 * ((b.length + 2) / 3) := by
  induction b using encode.induct with
  | case1 => rfl
  | case2 a => simp [utf8_encode_one]
  | case3 a b => simp [utf8_encode_two]
  | case4 a b c rest ih =>
    rw [utf8_encode_three, List.length_append, ih]
    simp only [group, List.length_cons, List.length_nil]
    omega

theorem validLength_encode (b : List UInt8) : validLength (utf8 (encode b)) =
    4 * (b.length / 3) + if b.length % 3 = 0 then 0 else b.length % 3 + 1 := by
  have hne : ∀ n, decide (byteOf (n &&& 63) = 61) = false := fun n =>
    decide_eq_false (byteOf_spec (and_63_lt n)).2.2
  induction b using encode.induct with
  | case1 => rfl
  | case2 a => rw [utf8_encode_one, validLength]; simp [List.findIdx_cons, hne]
  | case3 a b => rw [utf8_encode_two, validLength]; simp [List.findIdx_cons, hne]
  | case4 a b c rest ih =>
    rw [validLength] at ih
    rw [utf8_encode_three, validLength]
    simp only [group, List.cons_append, List.nil_append, List.findIdx_cons, hne, cond_false, ih, List.length_cons]
    rw [show (rest.length + 1 + 1 + 1) / 3 = rest.length / 3 + 1 by omega,
      show (rest.length + 1 + 1 + 1) % 3 = rest.length % 3 by omega]
    omega

theorem placeholderLength_encode (b : List UInt8) :
    placeholderLength (utf8 (encode b)) = if b.length % 3 = 0 then 0 else 3 - b.length % 3 := by
  rw [placeholderLength, validLength_encode, length_encode]
  split_ifs <;> omega

theorem write_append (done : List UInt8) (old byte : UInt8) (rest : List UInt8) :
    write (done ++ old :: rest) done.length byte = .ok (done ++ byte :: rest) := by
  rw [write, if_pos (by simp)]
  simp

/-- One round of the loop, over a group of the encoder. -/
theorem decodeLoop_group (stop : ℕ) (before after done rest : List UInt8) (a b c x y z : UInt8)
    (h : before.length < stop) :
    decodeLoop (before ++ (group a b c ++ after)) stop before.length done.length (done ++ x :: y :: z :: rest) =
      decodeLoop (before ++ (group a b c ++ after)) stop (before.length + 4) (done.length + 3)
        (done ++ a :: b :: c :: rest) := by
  obtain ⟨h0, h1, h2⟩ := bytes_three a b c
  have hget : ∀ i < 4, (before ++ (group a b c ++ after))[before.length + i]? = (group a b c)[i]? := fun i hi => by
    rw [List.getElem?_append_right (Nat.le_add_right ..), Nat.add_sub_cancel_left,
      List.getElem?_append_left (by simpa [group] using hi)]
  have hwrite1 : write (done ++ x :: y :: z :: rest) done.length a = .ok (done ++ a :: y :: z :: rest) :=
    write_append ..
  have hwrite2 : write (done ++ a :: y :: z :: rest) (done.length + 1) b = .ok (done ++ a :: b :: z :: rest) := by
    simpa using write_append (done ++ [a]) y b (z :: rest)
  have hwrite3 : write (done ++ a :: b :: z :: rest) (done.length + 2) c = .ok (done ++ a :: b :: c :: rest) := by
    simpa using write_append (done ++ [a, b]) z c rest
  have hread0 := read_byteOf (hget 0 (by omega))
  rw [Nat.add_zero] at hread0
  rw [decodeLoop, if_pos h, hread0, read_byteOf (hget 1 (by omega)), read_byteOf (hget 2 (by omega)),
    read_byteOf (hget 3 (by omega))]
  simp only [bind, Except.bind, h0, h1, h2, hwrite1, hwrite2, hwrite3]

/-- The loop over the full groups of the encoder. -/
theorem decodeLoop_encode (stop : ℕ) (b : List UInt8) : ∀ (before done rest : List UInt8),
    stop ≤ before.length + 4 * (b.length / 3) → before.length + 4 * (b.length / 3) < stop + 4 →
    decodeLoop (before ++ utf8 (encode b)) stop before.length done.length
        (done ++ List.replicate (3 * (b.length / 3)) 0 ++ rest) =
      .ok (done ++ b.take (3 * (b.length / 3)) ++ rest, before.length + 4 * (b.length / 3),
        done.length + 3 * (b.length / 3)) := by
  induction b using encode.induct with
  | case1 | case2 | case3 =>
    intro before done rest hstop _
    rw [decodeLoop, if_neg (by simpa using hstop)]
    simp
  | case4 a b c tail ih =>
    intro before done rest hstop hbound
    rw [show (a :: b :: c :: tail).length / 3 = tail.length / 3 + 1 by
      simp only [List.length_cons]; omega] at hstop hbound ⊢
    have hrest := ih (before ++ group a b c) (done ++ [a, b, c]) rest
    simp only [List.length_append, show (group a b c).length = 4 from rfl, List.length_cons, List.length_nil,
      List.append_assoc] at hrest
    rw [utf8_encode_three, show 3 * (tail.length / 3 + 1) = 3 * (tail.length / 3) + 3 by omega]
    have hround := decodeLoop_group stop before (utf8 (encode tail)) done
      (List.replicate (3 * (tail.length / 3)) 0 ++ rest) a b c 0 0 0 (by omega)
    rw [List.append_assoc, show List.replicate (3 * (tail.length / 3) + 3) (0 : UInt8) ++ rest =
      0 :: 0 :: 0 :: (List.replicate (3 * (tail.length / 3)) 0 ++ rest) by simp [List.replicate_succ], hround]
    refine Eq.trans (hrest (by omega) (by omega)) ?_
    simp only [List.take_succ_cons, List.cons_append, List.nil_append, List.append_assoc]
    congr 3 <;> omega

/-- The text of what is left after the full groups. -/
theorem utf8_encode_split (b : List UInt8) : ∃ before, before.length = 4 * (b.length / 3) ∧
    utf8 (encode b) = before ++ utf8 (encode (b.drop (3 * (b.length / 3)))) := by
  induction b using encode.induct with
  | case1 | case2 | case3 => exact ⟨[], by simp, by simp⟩
  | case4 a b c tail ih =>
    obtain ⟨before, hlength, heq⟩ := ih
    rw [show (a :: b :: c :: tail).length / 3 = tail.length / 3 + 1 by simp only [List.length_cons]; omega,
      show 3 * (tail.length / 3 + 1) = 3 * (tail.length / 3) + 3 by omega]
    refine ⟨group a b c ++ before, ?_, ?_⟩
    · rw [List.length_append, hlength, show (group a b c).length = 4 from rfl]
      omega
    · rw [utf8_encode_three, heq, List.append_assoc]
      rfl

theorem decodeTail_encode (before done last : List UInt8) (h : last.length < 3) :
    decodeTail (before ++ utf8 (encode last)) (if last.length = 0 then 0 else 3 - last.length) before.length
      done.length (done ++ List.replicate last.length 0) = .ok (done ++ last) := by
  have hget : ∀ {bytes : List UInt8} (i : ℕ), (before ++ bytes)[before.length + i]? = bytes[i]? := fun i => by
    rw [List.getElem?_append_right (Nat.le_add_right ..), Nat.add_sub_cancel_left]
  match last, h with
  | [], _ => rfl
  | [a], _ =>
    have hread0 : read (before ++ utf8 (encode [a])) (before.length + 0) = .ok (chunkOf a 0 0 >>> 18 &&& 63) :=
      read_byteOf ((hget 0).trans (by rw [utf8_encode_one]; rfl))
    have hread1 : read (before ++ utf8 (encode [a])) (before.length + 1) = .ok (chunkOf a 0 0 >>> 12 &&& 63) :=
      read_byteOf ((hget 1).trans (by rw [utf8_encode_one]; rfl))
    rw [Nat.add_zero] at hread0
    show decodeTail _ 2 _ _ _ = _
    rw [decodeTail, if_pos rfl, hread0, hread1]
    show write _ _ _ = _
    rw [byte_one]
    exact write_append ..
  | [a, b], _ =>
    obtain ⟨h0, h1⟩ := bytes_two a b
    have hread0 : read (before ++ utf8 (encode [a, b])) (before.length + 0) = .ok (chunkOf a b 0 >>> 18 &&& 63) :=
      read_byteOf ((hget 0).trans (by rw [utf8_encode_two]; rfl))
    have hread1 : read (before ++ utf8 (encode [a, b])) (before.length + 1) = .ok (chunkOf a b 0 >>> 12 &&& 63) :=
      read_byteOf ((hget 1).trans (by rw [utf8_encode_two]; rfl))
    have hread2 : read (before ++ utf8 (encode [a, b])) (before.length + 2) = .ok (chunkOf a b 0 >>> 6 &&& 63) :=
      read_byteOf ((hget 2).trans (by rw [utf8_encode_two]; rfl))
    rw [Nat.add_zero] at hread0
    have hwrite : write (done ++ a :: [0]) (done.length + 1) b = .ok (done ++ [a, b]) := by
      simpa using write_append (done ++ [a]) 0 b []
    show decodeTail _ 1 _ _ _ = _
    rw [decodeTail, if_neg (by decide), if_pos rfl, hread0, hread1, hread2]
    show (write (done ++ 0 :: [0]) done.length _ >>= fun out => write out _ _) = _
    rw [h0, h1, write_append]
    exact hwrite
  | _ :: _ :: _ :: _, h => exact absurd h (by simp)

/-- What comes back: not one byte, and not two. -/
def Readable (b : List UInt8) : Prop := b.length ≠ 1 ∧ b.length ≠ 2 ∧ 4 * ((b.length + 2) / 3) * 3 < 2 ^ 64

instance (b : List UInt8) : Decidable (Readable b) := inferInstanceAs (Decidable (_ ∧ _ ∧ _))

theorem decode_encode {b : List UInt8} (h : Readable b) : decode (encode b) = .ok b := by
  obtain ⟨hone, htwo, hmul⟩ := h
  have hvalid := validLength_encode b
  have hplaceholder := placeholderLength_encode b
  have hsum : validLength (utf8 (encode b)) + placeholderLength (utf8 (encode b)) = 4 * ((b.length + 2) / 3) := by
    rw [hvalid, hplaceholder]
    split_ifs <;> omega
  obtain ⟨before, hbefore, hsplit⟩ := utf8_encode_split b
  have hlast : (b.drop (3 * (b.length / 3))).length = b.length % 3 := by
    rw [List.length_drop]
    omega
  have hloop := decodeLoop_encode
    (if 0 < placeholderLength (utf8 (encode b)) then validLength (utf8 (encode b)) - 4
      else validLength (utf8 (encode b))) b [] [] (List.replicate (b.length % 3) 0)
    (by rw [hvalid, hplaceholder]; simp only [List.length_nil]; split_ifs <;> omega)
    (by rw [hvalid, hplaceholder]; simp only [List.length_nil]; split_ifs <;> omega)
  simp only [List.nil_append, List.length_nil, Nat.zero_add, List.replicate_append_replicate,
    Nat.div_add_mod] at hloop
  have htail := decodeTail_encode before (b.take (3 * (b.length / 3))) (b.drop (3 * (b.length / 3))) (by omega)
  rw [hlast, List.take_append_drop, ← hsplit, hbefore, List.length_take, Nat.min_eq_left (by omega)] at htail
  have hlength : (utf8 (encode b)).length % 4 = 0 := by
    rw [length_encode]
    omega
  have houtput : checkedSub (4 * ((b.length + 2) / 3) * 3 / 4) (placeholderLength (utf8 (encode b))) =
      .ok b.length := by
    rw [checkedSub, hplaceholder, if_pos (by split_ifs <;> omega)]
    congr 1
    split_ifs <;> omega
  have hstop : loopEnd (validLength (utf8 (encode b))) (placeholderLength (utf8 (encode b))) =
      .ok (if 0 < placeholderLength (utf8 (encode b)) then validLength (utf8 (encode b)) - 4
        else validLength (utf8 (encode b))) := by
    rw [loopEnd, checkedSub]
    split
    · rw [if_pos (by rw [hvalid]; split_ifs <;> omega)]
    · rfl
  rw [decode, if_neg (not_not.mpr hlength)]
  dsimp only
  rw [hsum, checkedMul, if_pos hmul]
  show (checkedSub (4 * ((b.length + 2) / 3) * 3 / 4) _ >>= _) = _
  rw [houtput, hstop]
  show (decodeLoop _ _ 0 0 (List.replicate b.length 0) >>= _) = _
  rw [hloop]
  show decodeTail _ (placeholderLength (utf8 (encode b))) _ _ _ = _
  rw [hplaceholder]
  exact htail

theorem decode_encode_iff (b : List UInt8) : decode (encode b) = .ok b ↔ Readable b := by
  refine ⟨fun h => ?_, decode_encode⟩
  have hdecodable : Decodable (encode b) := (decode_returns_iff _).mp (by rw [h]; simp)
  obtain ⟨hpad, hmul⟩ := hdecodable (by rw [length_encode]; omega)
  rw [validLength_encode, length_encode] at hpad
  rw [validLength_encode, placeholderLength_encode] at hmul
  refine ⟨?_, ?_, ?_⟩
  · intro hone
    rw [hone] at hpad
    simp at hpad
  · intro htwo
    rw [htwo] at hpad
    simp at hpad
  · split_ifs at hmul <;> omega

end TypeFerry.Rust.Base64
