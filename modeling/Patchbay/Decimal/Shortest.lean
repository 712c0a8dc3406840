/-!
# Shortest decimals

The shortest decimal that stands for a double. A finite double is `mantissa · 2 ^ exponent`,
and the reals that round to it form an interval around it. On the grid of the multiples of
`10 ^ k` only the two neighbours of the double can be the closest points, so the coarsest grid
with a neighbour inside the interval gives the fewest digits, and of two such neighbours the
nearer one is taken (of two at equal distance the even one). All comparisons are exact, in
natural numbers.
-/

namespace Patchbay

structure Decimal where
  digits : Nat
  exponent : Int
  deriving DecidableEq, Repr, Inhabited

structure Dyadic where
  mantissa : Nat
  exponent : Int
  deriving DecidableEq, Repr, Inhabited

namespace Dyadic

def ofFloat (x : Float) : Dyadic :=
  let bits := x.toBits.toNat
  let biased : Nat := bits / Nat.pow 2 52 % Nat.pow 2 11
  let fraction : Nat := bits % Nat.pow 2 52
  if biased = 0 then ⟨fraction, -1074⟩ else ⟨fraction + Nat.pow 2 52, biased - 1075⟩

/-- Whether the next smaller double is only half as far away as the next larger one: the
mantissa is the smallest one of its exponent, and the exponent is not the smallest. -/
def narrowBelow (x : Dyadic) : Bool := x.mantissa == Nat.pow 2 52 && x.exponent > -1074

/-- The two scales that make multiples of `2 ^ (exponent - 2)` and of `10 ^ k` comparable:
`v · 2 ^ (exponent - 2)` against `c · 10 ^ k` is `v * (scales k).1` against
`c * (scales k).2`. -/
def scales (x : Dyadic) (k : Int) : Nat × Nat :=
  let q := x.exponent - 2
  (Nat.pow 2 q.toNat * Nat.pow 10 (-k).toNat, Nat.pow 10 k.toNat * Nat.pow 2 (-q).toNat)

/-- Whether `c · 10 ^ k` rounds to the double. The ends of the interval round to the double
with the even mantissa. -/
def covers (x : Dyadic) (k : Int) (c : Nat) : Bool :=
  let (binary, decimal) := x.scales k
  let low := (4 * x.mantissa - if x.narrowBelow then 1 else 2) * binary
  let high := (4 * x.mantissa + 2) * binary
  let point := c * decimal
  if x.mantissa % 2 = 0 then low ≤ point && point ≤ high else low < point && point < high

/-- The largest multiple of `10 ^ k` that is not above the double, as a count. -/
def floorAt (x : Dyadic) (k : Int) : Nat :=
  let (binary, decimal) := x.scales k
  4 * x.mantissa * binary / decimal

/-- The point of the grid of `10 ^ k` that stands for the double, if one of its two
neighbours does. -/
def pointAt? (x : Dyadic) (k : Int) : Option Nat :=
  let below := x.floorAt k
  let above := below + 1
  match x.covers k below, x.covers k above with
  | false, false => none
  | true, false => some below
  | false, true => some above
  | true, true =>
    let (binary, decimal) := x.scales k
    let toBelow := 4 * x.mantissa * binary - below * decimal
    let toAbove := above * decimal - 4 * x.mantissa * binary
    if toBelow < toAbove then some below
    else if toAbove < toBelow then some above
    else if below % 2 = 0 then some below else some above

/-- A grid too coarse to hold a point for the double by more than a factor of ten at most:
ten to this power is above the double. -/
def coarsest (x : Dyadic) : Int :=
  (x.mantissa.log2 + x.exponent) * 30103 / 100000 + 2

/-- The first grid with a point for the double, from `10 ^ k` downwards through `steps`
further grids. -/
def search (x : Dyadic) (k : Int) : Nat → Decimal
  | 0 => ⟨x.floorAt k, k⟩
  | steps + 1 =>
    match x.pointAt? k with
    | some c => ⟨c, k⟩
    | none => x.search (k - 1) steps

/-- The shortest decimal that stands for a double other than zero. Seventeen digits always
suffice, and the search starts at most two grids above the first digit. -/
def shortest (x : Dyadic) : Decimal := x.search x.coarsest 20

end Dyadic

end Patchbay
