import SyncSpirit.Base32
import SyncSpirit.Lib.Wire

/-!
# Device ids (`model/device_id.cpp`, `proto/luhn32.cpp`)

The text of a device id are the 52 letters of its digest, with a check digit after each 13 of them and a dash
between each 7 of what is then there. `from_sha256` makes the text, `from_string` reads one: it takes out the
dashes wherever they are, compares the check digits, and keeps the text as it was given.

A failed assertion, and a read behind the end of a table, are `none`; a text that is refused is `some none`.
-/

namespace SyncSpirit

namespace DeviceText

open Base32

/-! ## `luhn32` -/

/-- The loop of `calc`. It runs over bytes, and a byte that is no letter fails an assertion. -/
def calcLoop : List UInt8 → Nat → Nat → Option Nat
  | [], _, sum => some sum
  | c :: cs, factor, sum =>
    match outAlphabet[c.toNat]? with
    | none => none
    | some codePoint =>
      if 0 ≤ codePoint then
        let addend := factor * codePoint.toNat
        calcLoop cs (if factor = 2 then 1 else 2) (sum + (addend / 32 + addend % 32))
      else none

/-- `luhn32::calculate`. -/
def calculate (text : List UInt8) : Option UInt8 :=
  (calcLoop text 1 0).map fun sum => letter ((32 - sum % 32) % 32)

/-- `luhn32::validate`. -/
def validate (text : List UInt8) : Option Bool :=
  if text.length = 0 then some false else (calculate text.dropLast).map fun digit => text.getLast? = some digit

/-! ## The id -/

/-- A SHA-256 digest. -/
structure Digest where
  bytes : List UInt8
  size : bytes.length = 32
  deriving DecidableEq

/-- `device_id_t`. -/
structure Id where
  value : List UInt8
  sha256 : Digest
  deriving DecidableEq

def dash : UInt8 := '-'.toNat.toUInt8

/-- The constructor asserts the size of the digest. -/
def make (value sha256 : List UInt8) : Option Id :=
  if h : sha256.length = 32 then some ⟨value, ⟨sha256, h⟩⟩ else none

/-- `get_short`. -/
def getShort (id : Id) : List UInt8 := id.value.take 7

/-! ## `from_sha256` -/

/-- A check digit after each 13 letters. -/
def luhnize : Nat → List UInt8 → Option (List UInt8)
  | 0, _ => some []
  | n + 1, letters => do
    let digit ← calculate (letters.take 13)
    let rest ← luhnize n (letters.drop 13)
    return letters.take 13 ++ digit :: rest

/-- Groups of seven with a dash between them. -/
def dashed : Nat → List UInt8 → List UInt8
  | 0, _ => []
  | 1, letters => letters.take 7
  | n + 1, letters => letters.take 7 ++ dash :: dashed n (letters.drop 7)

def fromSha256 (sha256 : List UInt8) : Option (Option Id) := do
  let letters ← encode sha256
  if letters.length ≠ 52 then return none
  else
    let luhnized ← luhnize 4 letters
    let id ← make (dashed 8 luhnized) sha256
    return some id

/-! ## `from_string` -/

/-- The dashes are taken out in place: behind what is left the end of the text stays as it was. -/
def compact (text : List UInt8) : List UInt8 :=
  text.filter (· ≠ dash) ++ text.drop (text.filter (· ≠ dash)).length

/-- One of the four pieces that have a check digit. -/
def piece (text : List UInt8) (i : Nat) : List UInt8 := ((compact text).drop (14 * i)).take 14

/-- The pieces from `i` on, up to the first one that is not valid. -/
def validateFrom (text : List UInt8) : List Nat → Option Bool
  | [] => some true
  | i :: is =>
    match validate (piece text i) with
    | none => none
    | some false => some false
    | some true => validateFrom text is

/-- The check digits are taken out; `c` counts the letters of a piece. -/
def removeCheckDigits : Nat → List UInt8 → List UInt8
  | _, [] => []
  | c, x :: xs => if c = 13 then removeCheckDigits 0 xs else x :: removeCheckDigits (c + 1) xs

def fromString (text : List UInt8) : Option (Option Id) :=
  if text.length ≠ 63 then some none
  else
    match validateFrom text (List.range 4) with
    | none => none
    | some false => some none
    | some true =>
      match decode (removeCheckDigits 0 ((compact text).take 56)) with
      | none => none
      | some none => some none
      | some (some sha256) => (make text sha256).map some

/-! ## Short ids -/

/-- The order of the bytes of a number in memory. -/
inductive Endian where
  | little
  | big
  deriving DecidableEq, Repr

/-- The bytes of a `std::uint64_t`, and the number that they are. -/
def store : Endian → Nat → List UInt8
  | .little, n => (Wire.encode 8 n).reverse
  | .big, n => Wire.encode 8 n

def load : Endian → List UInt8 → Nat
  | .little, bytes => Wire.decode bytes.reverse
  | .big, bytes => Wire.decode bytes

/-- `native_to_big`. -/
def nativeToBig : Endian → Nat → Nat
  | .little, n => load .little (store .little n).reverse
  | .big, n => n

/-- `get_uint`. -/
def getUint (host : Endian) (id : Id) : Nat := nativeToBig host (load host (id.sha256.bytes.take 8))

/-- The letters of the first five bytes, without the last one. -/
def shortLetters (bytes : List UInt8) : Option (List UInt8) := (encode (bytes.take 5)).map fun text => text.take 7

/-- `make_short` of a number. -/
def makeShort (host : Endian) (value : Nat) : Option (List UInt8) :=
  if value = 0 then some [] else shortLetters (store host (nativeToBig host value))

/-- `make_short` of a digest. -/
def makeShortOf (host : Endian) (sha256 : List UInt8) : Option (List UInt8) :=
  shortLetters (store host (nativeToBig host (load host (sha256.take 8))))

end DeviceText

end SyncSpirit
