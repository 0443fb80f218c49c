import Statecraft.Double.Exact

/-! The remainder of a division that is truncated toward zero, computed without
rounding. The result has the sign of the dividend. -/
namespace Statecraft.Double

/-- The remainder of two finite magnitudes on the grid of the finer of them. -/
def magnitudeRemainder (m : Nat) (p : Int) (n : Nat) (q : Int) : Nat × Int :=
  let unit := min p q
  (m * Nat.pow 2 (p - unit).toNat % (n * Nat.pow 2 (q - unit).toNat), unit)

/-- There is no remainder of an infinite dividend or by zero, and a finite
dividend is its own remainder by an infinite divisor. -/
def remainder (x y : Float) : Float :=
  let undefined : Float := 0.0 / 0.0
  match exact x, exact y with
  | .finite negative m p, .finite _ n q =>
      if n = 0 then undefined
      else
        let (rest, unit) := magnitudeRemainder m p n q
        let (num, den) := scaled rest 1 (-unit)
        withSign negative ((nearest? num den).getD undefined)
  | .finite .., .infinite _ => x
  | _, _ => undefined

end Statecraft.Double
