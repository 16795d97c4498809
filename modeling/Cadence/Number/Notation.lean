import Cadence.Number.Decimal

/-!
# Written numbers

How a number is laid out as text. Three notations share one layout: running text writes every
number positionally, the debugging view and the JSON format switch to an exponent for very small
and very large numbers. Fixed notation gives a number of places after the point instead.
-/

namespace Cadence.Number

/-- The decisions of one notation for numbers. -/
structure Layout where
  /-- Exponents of the leading digit from this one on are written positionally; absent when small
  numbers always are. -/
  plainFrom : Option Int
  /-- Exponents of the leading digit below this one are written positionally; absent when large
  numbers always are. -/
  plainBelow : Option Int
  /-- Whole numbers end in `.0`. -/
  wholePoint : Bool
  /-- A positive exponent carries a plus sign. -/
  signedExponent : Bool
  /-- Which of two equally near shortest decimals is taken. -/
  tie : Tie
  /-- The text of an undefined number. -/
  undefinedText : String
  /-- The text of positive infinity. -/
  infiniteText : String

/-- Numbers in messages: positional, without a superfluous point. -/
def Layout.running : Layout where
  plainFrom := none
  plainBelow := none
  wholePoint := false
  signedExponent := false
  tie := .upwards
  undefinedText := "NaN"
  infiniteText := "inf"

/-- Numbers in the debugging view of a value. -/
def Layout.debugging : Layout where
  plainFrom := some (-4)
  plainBelow := some 16
  wholePoint := true
  signedExponent := false
  tie := .upwards
  undefinedText := "NaN"
  infiniteText := "inf"

/-- Numbers in JSON text, which has no word for numbers that are not finite. -/
def Layout.json : Layout where
  plainFrom := some (-5)
  plainBelow := some 16
  wholePoint := true
  signedExponent := true
  tie := .toEven
  undefinedText := "null"
  infiniteText := "null"

/-- Numbers in configuration files: positional, with a point that tells them from integers. -/
def Layout.settings : Layout where
  plainFrom := none
  plainBelow := none
  wholePoint := true
  signedExponent := false
  tie := .upwards
  undefinedText := "nan"
  infiniteText := "inf"

/-- A number of zeros. -/
def zeros (n : Nat) : String := String.ofList (List.replicate n '0')

/-- The digits of a decimal written positionally. -/
def Decimal.plain (d : Decimal) (wholePoint : Bool) : String :=
  let digits := toString d.digits
  let point : Int := digits.length + d.exponent
  if 0 ≤ d.exponent then
    digits ++ zeros d.exponent.toNat ++ (if wholePoint then ".0" else "")
  else if point ≤ 0 then "0." ++ zeros (-point).toNat ++ digits
  else
    String.ofList (digits.toList.take point.toNat) ++ "."
      ++ String.ofList (digits.toList.drop point.toNat)

/-- The digits of a decimal written with a power of ten after the leading digit. -/
def Decimal.scientific (d : Decimal) (signedExponent : Bool) : String :=
  let digits := toString d.digits
  let power : Int := digits.length + d.exponent - 1
  let mantissa :=
    if digits.length ≤ 1 then digits
    else String.ofList (digits.toList.take 1) ++ "." ++ String.ofList (digits.toList.drop 1)
  mantissa ++ "e" ++ (if 0 ≤ power ∧ signedExponent then "+" else "") ++ toString power

/-- The notation writes a decimal positionally. Zero always is. -/
def Layout.isPlain (l : Layout) (d : Decimal) : Bool :=
  d.digits = 0 ||
    (l.plainFrom.all (· ≤ d.leading) && l.plainBelow.all (d.leading < ·))

/-- A number in the given notation. -/
def Layout.render (l : Layout) (x : Float) : String :=
  let sign := if isNegative x then "-" else ""
  match magnitude? x with
  | some m =>
    let d := m.shortest l.tie
    sign ++ (if l.isPlain d then d.plain l.wholePoint else d.scientific l.signedExponent)
  | none =>
    if x.isNaN then l.undefinedText
    else sign ++ l.infiniteText

/-- A number with a fixed number of places after the point: its exact value rounded, ties to even.
The sign of a negative number stays even when every digit written is zero. -/
def fixed (places : Nat) (x : Float) : String :=
  let sign := if isNegative x then "-" else ""
  match magnitude? x with
  | some m =>
    let digits := toString (m.toPlaces places)
    let padded := (zeros (places + 1 - digits.length) ++ digits).toList
    let whole := padded.length - places
    let text := String.ofList (padded.take whole)
    sign ++ (if places = 0 then text else text ++ "." ++ String.ofList (padded.drop whole))
  | none => if x.isNaN then "NaN" else sign ++ "inf"

/-- A number as messages write it. -/
def text (x : Float) : String := Layout.running.render x

end Cadence.Number
