import CrossCall.Text.Lines
/-!
Reading bytes as UTF-8 text when some of them may be wrong. A wrong byte is judged together with
those that follow it as far as they could still begin a character; what is judged wrong is dropped
or replaced as one.
-/
namespace CrossCall.Text

/-- What to do with bytes that are no text. -/
inductive OnInvalid where
  | drop
  | replace
deriving Repr, DecidableEq

/-- How a sequence goes on after its first byte: the number of further bytes, the bits of the first
byte, and the range of the second byte. -/
def leadByte? (b : UInt8) : Option (Nat × Nat × UInt8 × UInt8) :=
  if b < 0xc2 then none
  else if b < 0xe0 then some (1, b.toNat - 0xc0, 0x80, 0xbf)
  else if b = 0xe0 then some (2, 0, 0xa0, 0xbf)
  else if b = 0xed then some (2, 13, 0x80, 0x9f)
  else if b < 0xf0 then some (2, b.toNat - 0xe0, 0x80, 0xbf)
  else if b = 0xf0 then some (3, 0, 0x90, 0xbf)
  else if b < 0xf4 then some (3, b.toNat - 0xf0, 0x80, 0xbf)
  else if b = 0xf4 then some (3, 4, 0x80, 0x8f)
  else none

/-- The further bytes of a sequence: how many fit, and the value if all do. -/
def followers : Nat → Nat → UInt8 → UInt8 → List UInt8 → Nat × Option Nat
  | 0, acc, _, _, _ => (0, some acc)
  | _ + 1, _, _, _, [] => (0, none)
  | n + 1, acc, lo, hi, b :: rest =>
    if lo ≤ b ∧ b ≤ hi then
      let (k, v) := followers n (acc * 64 + (b.toNat - 0x80)) 0x80 0xbf rest
      (k + 1, v)
    else (0, none)

/-- The first character with the number of bytes after the first that it takes, or the number of
bytes after the first that are wrong together with it. -/
def firstChar (b : UInt8) (rest : List UInt8) : Nat × Option Char :=
  if b < 0x80 then (0, some (Char.ofNat b.toNat))
  else match leadByte? b with
    | none => (0, none)
    | some (n, bits, lo, hi) =>
      let (k, v) := followers n bits lo hi rest
      (k, v.map Char.ofNat)

def decodeFrom (mode : OnInvalid) : Nat → List UInt8 → List Char
  | _, [] => []
  | k + 1, _ :: rest => decodeFrom mode k rest
  | 0, b :: rest =>
    match firstChar b rest, mode with
    | (k, some c), _ => c :: decodeFrom mode k rest
    | (k, none), .drop => decodeFrom mode k rest
    | (k, none), .replace => '�' :: decodeFrom mode k rest

/-- The text of a file: decoded, with all line ends turned into newlines. -/
def decode (mode : OnInvalid) (bytes : ByteArray) : String :=
  String.ofList (unifyNewlines (decodeFrom mode 0 bytes.toList))

end CrossCall.Text
