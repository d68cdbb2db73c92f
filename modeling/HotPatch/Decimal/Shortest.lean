/-!
# Shortest decimals

The reals that round to a given finite double form an interval, whose ends
belong to it exactly when the significand is even. `shortest` returns the
decimal with the fewest digits inside it: it walks through finer and finer
grids of powers of ten and tests the double's two neighbours on each. Of two
neighbours that both qualify the nearer wins, and the upper one on a tie.
-/

namespace HotPatch.Decimal

/-- The positive value `significand * 2 ^ exponent`. Just above a power of two, the gap to the next
smaller double is half the gap to the next larger one. -/
structure Dyadic where
  significand : Nat
  exponent : Int
  narrowBelow : Bool
  deriving DecidableEq, Repr

/-- The magnitude of a finite double with the given bits. -/
def Dyadic.ofBits (bits : UInt64) : Dyadic :=
  let exponent : Nat := bits.toNat / 0x10000000000000 % 0x800
  let fraction : Nat := bits.toNat % 0x10000000000000
  if exponent = 0 then ⟨fraction, -1074, false⟩
  else ⟨0x10000000000000 + fraction, (exponent : Int) - 1075, fraction == 0 && 1 < exponent⟩

/-- The value `digits * 10 ^ exponent`. -/
structure Scaled where
  digits : Nat
  exponent : Int
  deriving DecidableEq, Repr

/-- Compares `a * 10 ^ i` with `n * 2 ^ j` by clearing denominators. -/
def compareScaled (a : Nat) (i : Int) (n : Nat) (j : Int) : Ordering :=
  compare (a * Nat.pow 10 i.toNat * Nat.pow 2 (-j).toNat) (n * Nat.pow 2 j.toNat * Nat.pow 10 (-i).toNat)

/-- Whether a decimal lies among the reals that round to the double. -/
def Dyadic.covers (x : Dyadic) (d : Scaled) : Bool :=
  let low := compareScaled d.digits d.exponent
    (4 * x.significand - if x.narrowBelow then 1 else 2) (x.exponent - 2)
  let high := compareScaled d.digits d.exponent (4 * x.significand + 2) (x.exponent - 2)
  let closed := x.significand % 2 == 0
  (low == .gt || (closed && low == .eq)) && (high == .lt || (closed && high == .eq))

/-- The least `k` with `x < 10 ^ k`. The first power of ten to try is read off the binary
logarithm and is too small by at most three. -/
def Dyadic.scale (x : Dyadic) : Int :=
  let start := Int.fdiv (((x.significand.log2 : Int) + x.exponent) * 30103) 100000
  ([start, start + 1, start + 2].find? fun k =>
    compareScaled 1 k x.significand x.exponent == .gt).getD (start + 3)

/-- The greatest multiple of `10 ^ i` that is at most `x`, divided by `10 ^ i`. -/
def Dyadic.floorOn (x : Dyadic) (i : Int) : Nat :=
  (x.significand * Nat.pow 2 x.exponent.toNat * Nat.pow 10 (-i).toNat) /
    (Nat.pow 2 (-x.exponent).toNat * Nat.pow 10 i.toNat)

/-- The decimal on the grid of multiples of `10 ^ i` that reads back as `x`, if there is one. -/
def Dyadic.onGrid? (x : Dyadic) (i : Int) : Option Scaled :=
  let below := x.floorOn i
  let lower : Scaled := ⟨below, i⟩
  let upper : Scaled := ⟨below + 1, i⟩
  match x.covers lower, x.covers upper with
  | true, true =>
    -- twice the value against the sum of the two neighbours
    if compareScaled (2 * below + 1) i (2 * x.significand) x.exponent == .gt then some lower else some upper
  | true, false => some lower
  | false, true => some upper
  | false, false => none

/-- The exact value, for a double on which no grid succeeds. -/
def Dyadic.exact (x : Dyadic) : Scaled :=
  if 0 ≤ x.exponent then ⟨x.significand * Nat.pow 2 x.exponent.toNat, 0⟩
  else ⟨x.significand * Nat.pow 5 (-x.exponent).toNat, x.exponent⟩

def Dyadic.shortest (x : Dyadic) : Scaled :=
  let k := x.scale
  ((List.range 17).findSome? fun n : Nat => x.onGrid? (k - (n + 1))).getD x.exact

/-- The same value without trailing zeros, of which there are at most `fuel`. -/
def Scaled.strip : Nat → Scaled → Scaled
  | 0, d => d
  | fuel + 1, d =>
    if d.digits ≠ 0 ∧ d.digits % 10 = 0 then strip fuel ⟨d.digits / 10, d.exponent + 1⟩ else d

end HotPatch.Decimal
