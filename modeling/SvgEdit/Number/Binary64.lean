/-!
# Binary numbers of 64 bits

A finite number is a whole count of the smallest steps, 2^-1074 each, with a sign of its own. Every
operation is the exact result rounded once: to 53 significant bits, a tie going to the even
neighbour, and to infinity from 2^1024 on.
-/
namespace SvgEdit

/-- A binary number of 64 bits. -/
inductive Binary64
  | nan
  | infinite (negative : Bool)
  /-- `steps` times 2^-1074. -/
  | finite (negative : Bool) (steps : Nat)
deriving DecidableEq, Repr

/-- The whole number nearest to `num / den`; a tie goes to the even one. -/
def roundHalfEven (num den : Nat) : Nat :=
  let whole := num / den
  let rest := num % den
  if 2 * rest < den then whole
  else if den < 2 * rest then whole + 1
  else if whole % 2 = 0 then whole else whole + 1

namespace Binary64

/-- The steps that make up one. -/
def one : Nat := Nat.pow 2 1074

/-- The steps from which on a number is infinite. -/
def overflow : Nat := Nat.pow 2 2098

/-- The distance between neighbours around a count of steps: 53 bits are significant. -/
def unitAt (steps : Nat) : Nat := Nat.pow 2 (steps.log2 - 52)

/-- The number nearest to `num / den` steps. -/
def ofSteps (negative : Bool) (num den : Nat) : Binary64 :=
  let unit := unitAt (num / den)
  let steps := roundHalfEven num (den * unit) * unit
  if steps < overflow then finite negative steps else infinite negative

/-- The number nearest to `num / den`. -/
def ofRatio (negative : Bool) (num den : Nat) : Binary64 := ofSteps negative (num * one) den

def ofNat (n : Nat) : Binary64 := ofRatio false n 1

def ofInt (n : Int) : Binary64 := ofRatio (n < 0) n.natAbs 1

def zero : Binary64 := finite false 0

def isFinite : Binary64 → Bool
  | finite .. => true
  | _ => false

/-- Neither zero has a value. -/
def isZero (x : Binary64) : Bool :=
  match x with
  | finite _ steps => steps = 0
  | _ => false

def isInfinite : Binary64 → Bool
  | infinite _ => true
  | _ => false

def neg : Binary64 → Binary64
  | nan => nan
  | infinite negative => infinite !negative
  | finite negative steps => finite (!negative) steps

def mul : Binary64 → Binary64 → Binary64
  | finite a m, finite b n => ofSteps (a ^^ b) (m * n) one
  | infinite a, infinite b => infinite (a ^^ b)
  | infinite a, finite b n => if n = 0 then nan else infinite (a ^^ b)
  | finite a m, infinite b => if m = 0 then nan else infinite (a ^^ b)
  | _, _ => nan

def div : Binary64 → Binary64 → Binary64
  | finite a m, finite b n =>
    if n = 0 then (if m = 0 then nan else infinite (a ^^ b)) else ofRatio (a ^^ b) m n
  | infinite a, finite b _ => infinite (a ^^ b)
  | finite a _, infinite b => finite (a ^^ b) 0
  | _, _ => nan

/-- Whether the magnitude of the first is below that of the second. -/
def magnitudeLt : Binary64 → Binary64 → Bool
  | finite _ m, finite _ n => m < n
  | finite .., infinite _ => true
  | _, _ => false

/-- The nearest whole number; a tie goes away from zero. -/
def roundHalfAway : Binary64 → Binary64
  | finite negative steps => ofRatio negative ((2 * steps + one) / (2 * one)) 1
  | x => x

/-- `a` to the power of `n` times `r`, by repeated squaring. -/
def powTimes (r a : Binary64) (n : Nat) : Binary64 :=
  let r := if n % 2 = 1 then r.mul a else r
  if n / 2 = 0 then r else powTimes r (a.mul a) (n / 2)
termination_by n
decreasing_by omega

/-- Ten to the power of `-n`, as the reciprocal of the rounded power. -/
def tenthPower (n : Nat) : Binary64 := (ofNat 1).div (powTimes (ofNat 1) (ofNat 10) n)

end Binary64
end SvgEdit
