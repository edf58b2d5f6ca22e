/-!
# Sums

`sum` adds up numbers.
-/

namespace Markers

/-- The sum of some numbers. -/
def sum : List Nat → Nat
  | [] => 0
  | n :: numbers => n + sum numbers

@[simp] theorem sum_nil : sum [] = 0 := rfl

@[simp] theorem sum_cons (n : Nat) (numbers : List Nat) :
    sum (n :: numbers) = n + sum numbers := rfl

end Markers
