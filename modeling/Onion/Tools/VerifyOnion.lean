import Onion.Io.TorKeyWriter
import Onion.Lib.Fips202
import Mathlib.Data.List.DropRight

/-!
# `verify_onion.py`: the independent check of a result directory

Integers are unbounded, `%` is the remainder of a floor division, and points are 4-tuples of
integers.  `hashlib.sha3_256` is that of FIPS 202, `base64.b32encode` that of RFC 4648.
-/

namespace Onion.VerifyOnion

def P : Nat := 2^255 - 19

/-- `pow(x, e, m)` -/
def pow (x : Int) (e m : Nat) : Int := (powMod m (e.log2 + 1) 1 (x % m).toNat e % m : Nat)

def inv (x : Int) : Int := pow x (P - 2) P

def D : Int := -121665 * inv 121666 % P

def BY : Int := 4 * inv 5 % P

def xrecover (y : Int) : Int :=
  let xx := (y * y - 1) * inv (D * y * y + 1) % P
  let x := pow xx ((P + 3) / 8) P
  let x := if (x * x - xx) % P ≠ 0 then x * pow 2 ((P - 1) / 4) P % P else x
  if x % 2 ≠ 0 then P - x else x

def BX : Int := xrecover BY

abbrev Tuple := Int × Int × Int × Int

def B : Tuple := (BX, BY, 1, BX * BY % P)

def identity : Tuple := (0, 1, 1, 0)

def ptAdd : Tuple → Tuple → Tuple
  | (x1, y1, z1, t1), (x2, y2, z2, t2) =>
    let a := (y1 - x1) * (y2 - x2) % P
    let b := (y1 + x1) * (y2 + x2) % P
    let c := 2 * t1 * t2 * D % P
    let d := 2 * z1 * z2 % P
    let e := b - a
    let f := d - c
    let g := d + c
    let h := b + a
    (e * f % P, g * h % P, f * g % P, e * h % P)

/-- the loop of `scalarmult`, low bit first -/
def scalarmultLoop (p q : Tuple) (e : Nat) : Tuple :=
  if e > 0 then scalarmultLoop (ptAdd p p) (if e &&& 1 ≠ 0 then ptAdd q p else q) (e >>> 1)
  else q
termination_by e
decreasing_by
  rw [Nat.shiftRight_one]
  omega

def scalarmult (p : Tuple) (e : Nat) : Tuple := scalarmultLoop p identity e

/-- `y | ((x & 1) << 255)`, where both are reduced and so not negative -/
def encodepoint : Tuple → List UInt8
  | (x, y, z, _) =>
    let zi := inv z
    let x := x * zi % P
    let y := y * zi % P
    leBytes 32 (y.toNat ||| (x.toNat &&& 1) <<< 255)

def onionAddress (pub : List UInt8) : List Char :=
  let chk := (Fips202.sha3_256 (asciiBytes ".onion checksum".toList ++ pub ++ [0x03])).take 2
  (Rfc4648.b32encode (pub ++ chk ++ [0x03])).map Char.toLower ++ ".onion".toList

def secretTag : List UInt8 := asciiBytes "== ed25519v1-secret: type0 ==".toList ++ List.replicate 3 0

def publicTag : List UInt8 := asciiBytes "== ed25519v1-public: type0 ==".toList ++ List.replicate 3 0

/-! ## text files -/

/-- the encoding of text, which the locale decides: every locale reads ASCII as ASCII -/
structure Encoding where
  decode : List UInt8 → Option (List Char)
  ascii : ∀ s : List Char, (∀ c ∈ s, c.toNat < 128) → decode (asciiBytes s) = some s

theorem utf8Encode_ascii {s : List Char} (h : ∀ c ∈ s, c.toNat < 128) :
    (asciiBytes s).toByteArray = s.utf8Encode := by
  have hs : asciiBytes s = s.flatMap String.utf8EncodeChar := by
    induction s with
    | nil => rfl
    | cons c s ih =>
      have hc : c.toNat < 128 := h c (by simp)
      have hsize : c.utf8Size = 1 := by
        rw [Char.utf8Size_eq_one_iff, UInt32.le_iff_toNat_le]
        exact Nat.le_of_lt_succ hc
      have hbyte : UInt8.ofNat c.toNat = c.val.toUInt8 := rfl
      rw [List.flatMap_cons, String.utf8EncodeChar_eq_singleton hsize, ← hbyte,
        ← ih fun x hx => h x (List.mem_cons_of_mem _ hx)]
      rfl
  rw [hs]
  rfl

def utf8 : Encoding where
  decode b := b.toByteArray.utf8Decode?.map Array.toList
  ascii s hs := by
    rw [utf8Encode_ascii hs, List.utf8Decode?_utf8Encode]
    rfl

/-- any line end is read as `\n` -/
def universalNewlines : List Char → List Char
  | [] => []
  | '\r' :: '\n' :: s => '\n' :: universalNewlines s
  | c :: s => (if c = '\r' then '\n' else c) :: universalNewlines s

/-- `str.isspace` of one character -/
def isspace (c : Char) : Bool :=
  let n := c.toNat
  (0x09 ≤ n && n ≤ 0x0d) || (0x1c ≤ n && n ≤ 0x20) || n = 0x85 || n = 0xa0 || n = 0x1680 ||
    (0x2000 ≤ n && n ≤ 0x200a) || n = 0x2028 || n = 0x2029 || n = 0x202f || n = 0x205f ||
    n = 0x3000

def strip (s : List Char) : List Char := (s.dropWhile isspace).rdropWhile isspace

/-! ## `check_dir` -/

inductive CheckError where
  | fileNotFound (name : String)
  | unicodeDecodeError
  | fail (msg : String)
deriving DecidableEq

def readBytes (dir : String → Option (List UInt8)) (name : String) :
    Except CheckError (List UInt8) :=
  match dir name with
  | some b => .ok b
  | none => .error (.fileNotFound name)

def readText (enc : Encoding) (dir : String → Option (List UInt8)) (name : String) :
    Except CheckError (List Char) := do
  let b ← readBytes dir name
  match enc.decode b with
  | some s => .ok (universalNewlines s)
  | none => .error .unicodeDecodeError

/-- the tests on the three texts, in the order of the source -/
def checkFiles (secret pub : List UInt8) (hostname : List Char) : Except CheckError Unit :=
  if secret.length ≠ 96 ∨ secret.take 32 ≠ secretTag then
    .error (.fail "malformed hs_ed25519_secret_key")
  else if pub.length ≠ 64 ∨ pub.take 32 ≠ publicTag then
    .error (.fail "malformed hs_ed25519_public_key")
  else
    let a := le ((secret.take 64).drop 32)
    if a &&& 7 ≠ 0 then .error (.fail "scalar low 3 bits not clear (clamping violated)")
    else
      let derivedPub := encodepoint (scalarmult B a)
      if derivedPub ≠ pub.drop 32 then
        .error (.fail "public key file does not equal scalar*B")
      else if onionAddress derivedPub ≠ hostname then
        .error (.fail "hostname does not match address derived from key")
      else .ok ()

/-- the host name that is printed after `OK: ` -/
def checkDir (enc : Encoding) (dir : String → Option (List UInt8)) :
    Except CheckError (List Char) := do
  let secret ← readBytes dir "hs_ed25519_secret_key"
  let pub ← readBytes dir "hs_ed25519_public_key"
  let hostname := strip (← readText enc dir "hostname")
  checkFiles secret pub hostname
  return hostname

end Onion.VerifyOnion
