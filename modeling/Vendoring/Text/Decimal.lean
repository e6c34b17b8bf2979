/-!
# Decimal text of binary numbers

A number that a document holds where none is expected is shown in the message, in the fewest digits
that read back as the same binary number.  The number of a document is read the quick way: its
digits as one integer, then one multiplication or division by a power of ten.
-/
namespace Vendoring

namespace Decimal

/-- `n · 10 ^ e` as a binary number, by at most one rounding for each step of 308 powers; none when
it grows beyond every binary number. -/
def scale : Nat → Float → Int → Option Float
  | 0, f, _ => some f
  | fuel + 1, f, e =>
    if e.natAbs ≤ 308 then
      if 0 ≤ e then
        let g := f * Float.ofScientific 1 false e.natAbs
        if g.isInf then none else some g
      else some (f / Float.ofScientific 1 false e.natAbs)
    else if f == 0 then some f
    else if 0 ≤ e then none
    else scale fuel (f / Float.ofScientific 1 false 308) (e + 308)

def ofDigits (digits : UInt64) (exponent : Int) : Option Float := scale 8 digits.toFloat exponent

/-! ## The fewest digits

A binary number `m · 2 ^ q` stands for every number between the midpoints to its neighbours.  Of all
decimal grids the coarsest that has a point in there is taken, and of its points the nearest. -/

/-- Four times the lower end, the value and the upper end, all in units of `2 ^ (q - 2)`. -/
structure Interval where
  low : Nat
  value : Nat
  high : Nat
  exponent : Int
  closed : Bool

def interval (f : Float) : Interval :=
  let bits := f.toBits.toNat
  let fraction := bits % Nat.pow 2 52
  let field := bits / Nat.pow 2 52 % Nat.pow 2 11
  let m := if field == 0 then fraction else fraction + Nat.pow 2 52
  let q := Int.ofNat (if field == 0 then 1 else field) - 1075
  let narrow := fraction == 0 && 1 < field
  ⟨4 * m - (if narrow then 1 else 2), 4 * m, 4 * m + 2, q - 2, m % 2 == 0⟩

/-- The nearest point of the grid of step `10 ^ k` that lies in the interval. -/
def gridPoint? (i : Interval) (k : Int) : Option Nat :=
  let up := Nat.pow 2 i.exponent.toNat * Nat.pow 10 (-k).toNat
  let down := Nat.pow 2 (-i.exponent).toNat * Nat.pow 10 k.toNat
  let inside (c : Nat) : Bool :=
    let x := c * down
    (i.low * up < x || (i.closed && i.low * up == x)) &&
      (x < i.high * up || (i.closed && i.high * up == x))
  let below := i.value * up / down
  let above := below + 1
  match inside below, inside above with
  | true, true =>
    if 2 * (i.value * up) ≤ (below + above) * down then some below else some above
  | true, false => some below
  | false, true => some above
  | false, false => none

/-- Digits and the power of ten of the last one. -/
def shortest (f : Float) : Nat × Int :=
  let i := interval f
  ((List.range 700).findSome? (fun n =>
    let k := 320 - Int.ofNat n
    (gridPoint? i k).map (fun c => (c, k)))).getD (0, 0)

/-- A finite number as text: positional from `10 ^ -5` up to `10 ^ 16`, always with a point there,
else with an exponent. -/
def text (f : Float) : String :=
  let sign := if f.toBits.toNat / Nat.pow 2 63 == 1 then "-" else ""
  if f == 0 then sign ++ "0.0"
  else
    let (c, k) := shortest f.abs
    let digits := Nat.toDigits 10 c
    let point : Int := digits.length + k
    sign ++ String.ofList (
      if 0 ≤ k && point ≤ 16 then digits ++ List.replicate k.toNat '0' ++ ['.', '0']
      else if 0 < point && point ≤ 16 then
        digits.take point.toNat ++ '.' :: digits.drop point.toNat
      else if -5 < point && point ≤ 0 then
        '0' :: '.' :: (List.replicate (-point).toNat '0' ++ digits)
      else
        let exponent := (toString (point - 1)).toList
        match digits with
        | [d] => d :: 'e' :: exponent
        | d :: ds => d :: '.' :: (ds ++ 'e' :: exponent)
        | [] => [])

end Decimal

end Vendoring
