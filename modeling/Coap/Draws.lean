/-
# Random draws

Some values of the protocol are chosen at random.  A source of random values is a sequence
that was fixed beforehand, together with how much of it has been used; statements about all
choices are statements about all sequences.
-/

namespace Coap

/-- A sequence of values to be drawn in turn. -/
structure Draws (α : Type) where
  value : Nat → α
  drawn : Nat := 0

namespace Draws

variable {α : Type}

/-- The next value, and the source without it. -/
def next (d : Draws α) : α × Draws α := (d.value d.drawn, { d with drawn := d.drawn + 1 })

/-- The next `n` values in order, and the source without them. -/
def take (d : Draws α) : Nat → List α × Draws α
  | 0 => ([], d)
  | n + 1 =>
    let (x, d) := d.next
    let (rest, d) := d.take n
    (x :: rest, d)

/-- The source that always yields `x`. -/
def constant (x : α) : Draws α := { value := fun _ => x }

/-- The source that goes through a list over and over again; `x` stands in for the values of
an empty list. -/
def cycle (x : α) (xs : List α) : Draws α :=
  let values := xs.toArray
  { value := fun i => (values[i % values.size]?).getD x }

theorem length_take (d : Draws α) (n : Nat) : (d.take n).1.length = n := by
  induction n generalizing d with
  | zero => rfl
  | succ n ih => simp [take, ih]

end Draws

end Coap
