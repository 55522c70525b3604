import CrossCall.Parse.Source
/-!
Numbers for source spans. A span, given by its first and its last point, is hashed by a chain of
64-bit multiplications and rotations, and the result is reduced to six decimal digits.
-/
namespace CrossCall.SpanHash

def start : UInt64 := 2870177450012600261

def rotateLeft31 (x : UInt64) : UInt64 := (x <<< 31) ||| (x >>> 33)

/-- Takes one more item into the running value. -/
def mix (acc item : UInt64) : UInt64 :=
  rotateLeft31 (acc + item * 14029467366897019727) * 11400714785074694791

/-- Hashes a sequence. The value with all bits set is never returned. -/
def combine (items : List UInt64) : UInt64 :=
  let acc := items.foldl mix start + (items.length.toUInt64 ^^^ (start ^^^ 3527539))
  if acc = 18446744073709551615 then 1546275796 else acc

def ofPoint (p : Point) : UInt64 := combine [p.row.toUInt64, p.column.toUInt64]

/-- The number of a span: the hash, read as a signed word, modulo one million. -/
def ofSpan (first last : Point) : Int :=
  (combine [ofPoint first, ofPoint last]).toInt64.toInt % 1000000

end CrossCall.SpanHash
