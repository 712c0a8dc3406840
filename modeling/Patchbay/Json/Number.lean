import Patchbay.Decimal.Layout
import Patchbay.Double

/-!
# Numbers of the JSON format

An integer literal that fits 64 bits stays an integer; every other literal is a double. The two
are different values even where they are the same number: `1` is not `1.0`.

A double is read by scaling its leading digits, those that fit 64 bits, with a power of ten in
double arithmetic. A literal beyond the largest double denotes no value.
-/

namespace Patchbay.Json

/-- A number as a JSON value carries it. The reader makes integers from `-2^63` up to `2^64 - 1`;
doubles are finite, as the format has neither infinities nor NaN. -/
inductive Number where
  | int (value : Int)
  | float (value : Float) (finite : value.isFinite = true)
  deriving Inhabited

namespace Number

/-- Integers are compared with integers and doubles with doubles, so that `-0.0` equals `0.0`
and no integer equals a double. -/
protected def beq : Number → Number → Bool
  | .int a, .int b => a == b
  | .float a _, .float b _ => a == b
  | _, _ => false

instance : BEq Number := ⟨Number.beq⟩

protected theorem beq_refl : ∀ a : Number, a.beq a = true
  | .int z => by simp [Number.beq]
  | .float _ h => Double.beq_self_of_isFinite h

protected theorem beq_symm : ∀ {a b : Number}, a.beq b = true → b.beq a = true
  | .int x, .int y, h => BEq.symm (show (x == y) = true from h)
  | .float x _, .float y _, h => BEq.symm (show (x == y) = true from h)

protected theorem beq_trans : ∀ {a b c : Number}, a.beq b = true → b.beq c = true →
    a.beq c = true
  | .int x, .int y, .int z, h, h' =>
    BEq.trans (show (x == y) = true from h) (show (y == z) = true from h')
  | .float x _, .float y _, .float z _, h, h' =>
    BEq.trans (show (x == y) = true from h) (show (y == z) = true from h')

instance : EquivBEq Number where
  rfl {a} := a.beq_refl
  symm h := Number.beq_symm h
  trans h h' := Number.beq_trans h h'

def ofFloat? (x : Float) : Option Number :=
  if h : x.isFinite = true then some (.float x h) else none

def toFloat : Number → Float
  | .int z => Float.ofInt z
  | .float x _ => x

def toNat? : Number → Option Nat
  | .int (.ofNat n) => some n
  | _ => none

/-- Doubles are positional from `0.00001` up to below `10 ^ 16`. -/
def floatLayout : Layout := ⟨-5, 15⟩

def text : Number → String
  | .int z => toString z
  | .float x _ => floatLayout.write x

end Number

structure NumberLiteral where
  negative : Bool
  whole : List Char
  fraction : Option (List Char)
  exponent : Option (Bool × List Char)

namespace NumberLiteral

def digitValue (c : Char) : Nat := c.toNat - '0'.toNat

def digitsValue (ds : List Char) : Nat := ds.foldl (fun n c => 10 * n + digitValue c) 0

/-- Append digits to a significand while it fits 64 bits; the second part counts the digits
that are left out. -/
def absorb (significand : Nat) : List Char → Nat × Nat
  | [] => (significand, 0)
  | c :: rest =>
    let longer := 10 * significand + digitValue c
    if longer < Nat.pow 2 64 then absorb longer rest else (significand, rest.length + 1)

/-- The power of ten as a double; the caller asks for no more than `10 ^ 308`. -/
def powerOfTen (n : Nat) : Float := Float.ofScientific 1 false n

/-- `x / 10 ^ n`, through steps of `10 ^ 308` while the quotient is not zero. -/
def scaleDown (x : Float) (n : Nat) : Float :=
  if _h : n ≤ 308 then x / powerOfTen n
  else if x == 0 then x
  else scaleDown (x / powerOfTen 308) (n - 308)
termination_by n

/-- `significand · 10 ^ exponent` in double arithmetic; nothing if that overflows. -/
def scale? (significand : Nat) (exponent : Int) : Option Float :=
  let x := Float.ofNat significand
  match exponent with
  | .ofNat n =>
    if n ≤ 308 then
      let y := x * powerOfTen n
      if y.isInf then none else some y
    else if x == 0 then some x else none
  | .negSucc n => some (scaleDown x (n + 1))

def float? (l : NumberLiteral) : Option Float :=
  let (whole, beyond) := absorb 0 l.whole
  let fraction := l.fraction.getD []
  let (significand, unread) := absorb whole fraction
  let written : Int := match l.exponent with
    | none => 0
    | some (negative, ds) => if negative then -(digitsValue ds : Int) else digitsValue ds
  let exponent : Int := beyond - (fraction.length - unread : Nat) + written
  (scale? significand exponent).map fun x => if l.negative then -x else x

/-- The number that the literal denotes. A minus sign in front of zero makes a double, since
no integer is negative zero. -/
def value? (l : NumberLiteral) : Option Number :=
  let n := digitsValue l.whole
  if l.fraction.isNone && l.exponent.isNone && n < Nat.pow 2 64 then
    if !l.negative then some (.int n)
    else if 0 < n && n ≤ Nat.pow 2 63 then some (.int (-n))
    else Number.ofFloat? (-Float.ofNat n)
  else l.float?.bind Number.ofFloat?

end NumberLiteral

end Patchbay.Json
