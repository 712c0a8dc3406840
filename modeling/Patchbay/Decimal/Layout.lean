import Patchbay.Decimal.Shortest

/-!
# Layouts of decimals

How the digits of a double are written: positionally while the exponent of the first digit
stays inside given bounds, and in scientific notation outside of them. A positional number
always shows a decimal point, so that it is told apart from an integer.
-/

namespace Patchbay

/-- The least and the greatest exponent of the first digit that is written positionally. -/
structure Layout where
  least : Int
  greatest : Int
  deriving DecidableEq, Repr

/-- Whether a number whose first digit has this exponent is written positionally. -/
def Layout.admits (l : Layout) (exponent : Int) : Bool :=
  l.least ≤ exponent && exponent ≤ l.greatest

namespace Decimal

def digitText (d : Decimal) : List Char := Nat.toDigits 10 d.digits

def leading (d : Decimal) : Int := d.digitText.length - 1 + d.exponent

def positionalText (d : Decimal) : List Char :=
  let ds := d.digitText
  let whole := (ds.length : Int) + d.exponent
  if d.exponent ≥ 0 then ds ++ List.replicate d.exponent.toNat '0' ++ ['.', '0']
  else if whole > 0 then ds.take whole.toNat ++ '.' :: ds.drop whole.toNat
  else '0' :: '.' :: List.replicate (-whole).toNat '0' ++ ds

def scientificText (d : Decimal) : List Char :=
  let e := d.leading
  let mantissa := match d.digitText with
    | first :: second :: rest => first :: '.' :: second :: rest
    | ds => ds
  let sign := if e < 0 then '-' else '+'
  mantissa ++ 'e' :: sign :: Nat.toDigits 10 e.natAbs

def text (d : Decimal) (l : Layout) : List Char :=
  if l.admits d.leading then d.positionalText else d.scientificText

end Decimal

/-- The text of a finite double: its sign, also that of a zero, and its shortest decimal. -/
def Layout.write (l : Layout) (x : Float) : String :=
  let sign := if x.toBits.toNat ≥ Nat.pow 2 63 then ['-'] else []
  let magnitude := Dyadic.ofFloat x
  let body := if magnitude.mantissa = 0 then ['0', '.', '0'] else magnitude.shortest.text l
  String.ofList (sign ++ body)

end Patchbay
