import TypeFerry.Ejson.Base64
import TypeFerry.Lib.Unicode

/-! # Base64 of the Python port

`encode_base64` and `decode_base64` of `base64.py`. The encoder goes over the indices of its groups, and the
decoder writes into a byte array; an index that is out of range raises `IndexError`. -/
namespace TypeFerry.Python.Base64
open TypeFerry.Lib.Unicode
open TypeFerry.Ejson.Base64 (chunkOf)

inductive Error where
  | ValueError (message : String)
  | IndexError
  deriving DecidableEq

def BASE64_ALPHABET : Str := str "ABCDEFGHIJKLMNOPQRSTUVWXYZabcdefghijklmnopqrstuvwxyz0123456789+/"

/-- `BASE64_ALPHABET[n]`, for six bits -/
def symbol (n : ℕ) : Char := BASE64_ALPHABET.getD n '='

/-- `_LOOKUP[ord(c)]`: nothing for `_INVALID_CHAR`. -/
def lookup (c : Char) : Except Error (Option ℕ) :=
  if c.toNat < 256 then
    .ok (if c = '-' then some 62 else if c = '_' then some 63 else BASE64_ALPHABET.findIdx? (· = c))
  else .error .IndexError

def readChar (value : Str) (index : ℕ) : Except Error ℕ :=
  match value[index]? with
  | none => .error .IndexError
  | some c => match lookup c with
    | .error e => .error e
    | .ok none => .error (.ValueError "Invalid base64 character")
    | .ok (some decoded) => .ok decoded

/-- What one round of the encoder appends. -/
def encodeRound (data : List UInt8) (index : ℕ) : Str :=
  let chunk := chunkOf (data.getD index 0) (data.getD (index + 1) 0) (data.getD (index + 2) 0)
  let remaining := data.length - index
  [symbol (chunk >>> 18 &&& 63), symbol (chunk >>> 12 &&& 63),
    if remaining > 1 then symbol (chunk >>> 6 &&& 63) else '=', if remaining > 2 then symbol (chunk &&& 63) else '=']

/-- The rounds are those of `range(0, length, 3)`. -/
def encode_base64 (data : List UInt8) : Str :=
  (List.range ((data.length + 2) / 3)).flatMap fun round => encodeRound data (3 * round)

/-- `out[index] = byte` -/
def write (out : List UInt8) (index : ℕ) (byte : UInt8) : Except Error (List UInt8) :=
  if index < out.length then .ok (out.set index byte) else .error .IndexError

/-- `while index < end`, with the output and both indices. -/
def decodeLoop (value : Str) (stop : ℤ) (index byteIndex : ℕ) (out : List UInt8) :
    Except Error (List UInt8 × ℕ × ℕ) :=
  if (index : ℤ) < stop then do
    let c0 ← readChar value index
    let c1 ← readChar value (index + 1)
    let c2 ← readChar value (index + 2)
    let c3 ← readChar value (index + 3)
    let chunk := c0 <<< 18 ||| c1 <<< 12 ||| c2 <<< 6 ||| c3
    let out ← write out byteIndex (UInt8.ofNat (chunk >>> 16))
    let out ← write out (byteIndex + 1) (UInt8.ofNat (chunk >>> 8))
    let out ← write out (byteIndex + 2) (UInt8.ofNat chunk)
    decodeLoop value stop (index + 4) (byteIndex + 3) out
  else .ok (out, index, byteIndex)
termination_by (stop - index).toNat

/-- The last group. -/
def decodeTail (value : Str) (placeholderLength index byteIndex : ℕ) (out : List UInt8) : Except Error (List UInt8) :=
  if placeholderLength = 2 then do
    let c0 ← readChar value index
    let c1 ← readChar value (index + 1)
    write out byteIndex (UInt8.ofNat (c0 <<< 2 ||| c1 >>> 4))
  else if placeholderLength = 1 then do
    let c0 ← readChar value index
    let c1 ← readChar value (index + 1)
    let c2 ← readChar value (index + 2)
    let chunk := c0 <<< 10 ||| c1 <<< 4 ||| c2 >>> 2
    let out ← write out byteIndex (UInt8.ofNat (chunk >>> 8))
    write out (byteIndex + 1) (UInt8.ofNat chunk)
  else .ok out

def decode_base64 (value : Str) : Except Error (List UInt8) :=
  if value.length % 4 ≠ 0 then .error (.ValueError "Invalid base64 string length")
  else
    let validLength := value.findIdx (· = '=')
    let placeholderLength := if validLength = value.length then 0 else 4 - validLength % 4
    let outputLength : ℤ := ((validLength + placeholderLength) * 3 / 4 : ℕ) - (placeholderLength : ℤ)
    if outputLength < 0 then .error (.ValueError "negative count")
    else do
      let stop : ℤ := if 0 < placeholderLength then validLength - 4 else validLength
      let (out, index, byteIndex) ← decodeLoop value stop 0 0 (List.replicate outputLength.toNat 0)
      decodeTail value placeholderLength index byteIndex out

end TypeFerry.Python.Base64
