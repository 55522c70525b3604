/-!
Decimal numerals read as 64-bit binary floating-point numbers and written with the fewest digits
that read back as the same number. All arithmetic is exact.
-/
namespace CrossCall.Text.Binary64

/-- A non-negative finite number `mantissa * 2 ^ exponent`. -/
structure Finite where
  mantissa : Nat
  exponent : Int
deriving Repr, DecidableEq

/-- The quotient rounded to the nearest integer, a half to the even neighbour. -/
def roundDiv (num den : Nat) : Nat :=
  let q := num / den
  let r := num % den
  if 2 * r < den then q else if 2 * r > den then q + 1 else q + q % 2

/-- `num * base ^ e` as a fraction, for an integer `e`. -/
def scaled (base num : Nat) (e : Int) : Nat × Nat :=
  if 0 ≤ e then (num * base.pow e.toNat, 1) else (num, base.pow (-e).toNat)

/-- The exponent `e` with `2 ^ e ≤ num / den < 2 ^ (e + 1)`. -/
def binaryExponent (num den : Nat) : Int :=
  let e : Int := (num.log2 : Int) - den.log2
  let (a, b) := scaled 2 1 e
  if a * den ≤ num * b then e else e - 1

/-- The nearest number to `num / den`, or nothing if it is too large. -/
def nearest? (num den : Nat) : Option Finite :=
  if num = 0 then some ⟨0, -1074⟩
  else
    let q := max (binaryExponent num den - 52) (-1074)
    let (a, b) := scaled 2 1 (-q)
    let m := roundDiv (num * a) (den * b)
    let (m, q) := if m = Nat.pow 2 53 then (Nat.pow 2 52, q + 1) else (m, q)
    if q > 971 then none else some ⟨m, q⟩

/-- Does `num / den` read back as the number? -/
def readsBack (x : Finite) (num den : Nat) : Bool := nearest? num den == some x

/-- The number of digits before the decimal point of `num / den`, negative for leading zeros after
it. -/
def decimalPoint (num den : Nat) : Nat → Int → Int
  | 0, k => k
  | n + 1, k =>
    let (a, b) := scaled 10 1 k
    let (c, d) := scaled 10 1 (k - 1)
    if num * b ≥ a * den then decimalPoint num den n (k + 1)
    else if num * d < c * den then decimalPoint num den n (k - 1)
    else k

/-- The candidate with `n` digits: the nearer of the two neighbours that read back. -/
def candidate? (x : Finite) (num den : Nat) (point : Int) (n : Nat) : Option Nat :=
  let (a, b) := scaled 10 1 (n - point)
  let low := num * a / (den * b)
  let ok (c : Nat) : Bool := readsBack x (c * b) a
  match ok low, ok (low + 1) with
  | true, true => some (if 2 * (num * a) ≤ (2 * low + 1) * (den * b) then low else low + 1)
  | true, false => some low
  | false, true => some (low + 1)
  | false, false => none

/-- The fewest digits that read back, with the place of the point. -/
def shortest (x : Finite) : List Char × Int :=
  let (num, den) := scaled 2 x.mantissa x.exponent
  let guess : Int := (binaryExponent num den * 30103).fdiv 100000 + 1
  let point := decimalPoint num den 4 guess
  match (List.range 17).findSome? fun i => (candidate? x num den point (i + 1)).map (i + 1, ·) with
  | none => (['0'], 1)
  | some (n, c) =>
    let digits := (toString c).toList
    let trimmed := (digits.reverse.dropWhile (· == '0')).reverse
    (trimmed, point + (digits.length - n : Int))

def padZeros (n : Nat) : String := String.ofList (List.replicate n '0')

/-- Positional between a ten-thousandth and ten to the sixteenth, with a digit after the point;
otherwise with an exponent of two digits at least. -/
def layout (digits : List Char) (point : Int) : String :=
  let s := String.ofList digits
  let n : Int := digits.length
  if -4 < point ∧ point ≤ 16 then
    if point ≤ 0 then "0." ++ padZeros (-point).toNat ++ s
    else if n ≤ point then s ++ padZeros (point - n).toNat ++ ".0"
    else String.ofList (digits.take point.toNat) ++ "." ++ String.ofList (digits.drop point.toNat)
  else
    let e := point - 1
    let mag := toString e.natAbs
    let mag := if mag.length < 2 then "0" ++ mag else mag
    let tail := if digits.length > 1 then "." ++ String.ofList (digits.drop 1) else ""
    String.ofList (digits.take 1) ++ tail ++ "e" ++ (if e < 0 then "-" else "+") ++ mag

/-- The text of `digits * 10 ^ exponent`, read as a floating-point number and written back. -/
def canonical (negative : Bool) (digits : Nat) (exponent : Int) : String :=
  let sign := if negative then "-" else ""
  let size : Int := (toString digits).length + exponent
  if digits = 0 ∨ size < -330 then sign ++ "0.0"
  else if size > 310 then sign ++ "Infinity"
  else
    let (num, den) := scaled 10 digits exponent
    match nearest? num den with
    | none => sign ++ "Infinity"
    | some x =>
      if x.mantissa = 0 then sign ++ "0.0"
      else
        let (ds, point) := shortest x
        sign ++ layout ds point

end CrossCall.Text.Binary64
