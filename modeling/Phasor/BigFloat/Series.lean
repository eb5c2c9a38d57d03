import Phasor.Dyadic.Rounding

namespace Phasor

open Dyadic

class Arithmetic (α : Type) extends Neg α where
  ofDyadic : Dyadic → α
  mulTo : Nat → α → α → α
  divTo : Nat → α → α → α

instance : Arithmetic Dyadic where
  ofDyadic x := x
  mulTo := Dyadic.mulTo
  divTo := Dyadic.divTo

structure Summation where
  value : Dyadic
  /-- Whether the summation ended at a negligible term rather than at the limit on their number. -/
  converged : Bool

structure Series (α : Type) where
  step : Nat → α → α
  term : Nat → α → α

namespace Series

section Recurrences

variable {α : Type} [Arithmetic α]

open Arithmetic

def oddQuotients (w : Nat) (y : α) : Series α where
  step _ power := mulTo w power y
  term n power := divTo w power (ofDyadic (2 * n + 1 : Nat))

def quotients (w : Nat) (y : α) (divisor : Nat → Nat) : Series α where
  step n power := divTo w (mulTo w power y) (ofDyadic (divisor n : Nat))
  term _ power := power

def halves (w : Nat) : Series α where
  step _ power := power
  term n _ := divTo w (ofDyadic 1) (ofDyadic (scaled n n))

def alternated (s : Series α) : Series α where
  step n power := -s.step n power
  term := s.term

@[simp] theorem alternated_step (s : Series α) (n : Nat) (power : α) :
    s.alternated.step n power = -s.step n power := rfl

@[simp] theorem alternated_term (s : Series α) : s.alternated.term = s.term := rfl

end Recurrences

section Dyadic

variable (w n : Nat) (y power : Dyadic)

@[simp] theorem oddQuotients_step : (oddQuotients w y).step n power = power.mulTo w y := rfl

@[simp] theorem oddQuotients_term : (oddQuotients w y).term n power = power.divTo w (2 * n + 1 : Nat) := rfl

@[simp] theorem quotients_step (divisor : Nat → Nat) :
    (quotients w y divisor).step n power = (power.mulTo w y).divTo w (divisor n : Nat) := rfl

@[simp] theorem quotients_term (divisor : Nat → Nat) : (quotients w y divisor).term n power = power := rfl

end Dyadic

def negligible (w : Nat) (term sum : Dyadic) : Bool :=
  term = 0 || (sum ≠ 0 && term.top < sum.top - (w + 2))

def sumFrom (s : Series Dyadic) (w : Nat) : (limit n : Nat) → (power sum : Dyadic) → Summation
  | 0, _, _, sum => ⟨sum, false⟩
  | limit + 1, n, power, sum =>
    let power := s.step n power
    let term := s.term n power
    if negligible w term sum then ⟨sum, true⟩
    else s.sumFrom w limit (n + 1) power (sum.addTo w term)

def termLimit : Nat := 1999

def oddFactors (n : Nat) : Nat := 2 * n * (2 * n + 1)

def evenFactors (n : Nat) : Nat := (2 * n - 1) * (2 * n)

def atan (w : Nat) (x : Dyadic) : Summation :=
  (oddQuotients w (x.mulTo w x)).alternated.sumFrom w termLimit 1 x x

def logTwo (w : Nat) : Summation :=
  (halves w).sumFrom w termLimit 1 0 0

def exp (w : Nat) (x : Dyadic) : Summation :=
  (quotients w x id).sumFrom w termLimit 1 1 1

def artanh (w : Nat) (z : Dyadic) : Summation :=
  (oddQuotients w (z.mulTo w z)).sumFrom w (termLimit / 2) 1 z z

def sin (w : Nat) (x : Dyadic) : Summation :=
  (quotients w (x.mulTo w x) oddFactors).alternated.sumFrom w termLimit 1 x x

def cos (w : Nat) (x : Dyadic) : Summation :=
  (quotients w (x.mulTo w x) evenFactors).alternated.sumFrom w termLimit 1 1 1

def sinh (w : Nat) (x : Dyadic) : Summation :=
  (quotients w (x.mulTo w x) oddFactors).sumFrom w termLimit 1 x x

end Series

end Phasor
