/-
# The options of a message

A message maps option numbers to lists of values.  The map is kept as one list of entries
in ascending order of the numbers, the order in which a datagram carries them; entries of
one number stand in the order in which they were added.  So a number without values leaves
no trace, and two messages have the same options exactly if their lists are equal.
-/
import Coap.Option.Value

namespace Coap

/-- One occurrence of an option. -/
structure OptionEntry where
  number : OptionNumber
  value : OptionValue
deriving DecidableEq

/-- The options of a message in ascending order of their numbers. -/
structure Options where
  entries : List OptionEntry
  ascending : entries.Pairwise (fun a b => a.number.toNat ≤ b.number.toNat)
deriving DecidableEq

namespace Options

/-- No options. -/
def empty : Options := ⟨[], .nil⟩

/-- Places an entry behind all entries whose number is not greater. -/
def place (x : OptionEntry) : List OptionEntry → List OptionEntry
  | [] => [x]
  | y :: rest => if x.number.toNat < y.number.toNat then x :: y :: rest else y :: place x rest

theorem mem_place {x y : OptionEntry} {l : List OptionEntry} :
    y ∈ place x l ↔ y = x ∨ y ∈ l := by
  induction l with
  | nil => simp [place]
  | cons z rest ih =>
    by_cases h : x.number.toNat < z.number.toNat
    · simp [place, h]
    · simp only [place, h, if_false, List.mem_cons, ih]
      constructor
      · rintro (rfl | rfl | h) <;> simp_all
      · rintro (rfl | rfl | h) <;> simp_all

theorem pairwise_place (x : OptionEntry) {l : List OptionEntry}
    (h : l.Pairwise (fun a b => a.number.toNat ≤ b.number.toNat)) :
    (place x l).Pairwise (fun a b => a.number.toNat ≤ b.number.toNat) := by
  induction l with
  | nil => simp [place]
  | cons z rest ih =>
    obtain ⟨hz, hrest⟩ := List.pairwise_cons.mp h
    by_cases hx : x.number.toNat < z.number.toNat
    · simp only [place, hx, if_true, List.pairwise_cons]
      refine ⟨?_, hz, hrest⟩
      intro a ha
      rcases List.mem_cons.mp ha with rfl | ha
      · omega
      · have := hz a ha
        omega
    · simp only [place, hx, if_false, List.pairwise_cons]
      refine ⟨?_, ih hrest⟩
      intro a ha
      rcases mem_place.mp ha with rfl | ha
      · omega
      · exact hz a ha

/-- Adds a value behind the values the option already has. -/
def add (o : Options) (n : OptionNumber) (v : OptionValue) : Options :=
  ⟨place ⟨n, v⟩ o.entries, pairwise_place _ o.ascending⟩

/-- Drops every value of an option. -/
def remove (o : Options) (n : OptionNumber) : Options :=
  ⟨o.entries.filter (·.number != n), o.ascending.filter _⟩

/-- The values of an option in the order in which they were added. -/
def values (o : Options) (n : OptionNumber) : List OptionValue :=
  (o.entries.filter (·.number == n)).map (·.value)

/-- Whether an option has a value. -/
def has (o : Options) (n : OptionNumber) : Bool := o.entries.any (·.number == n)

/-- The first value of an option. -/
def first? (o : Options) (n : OptionNumber) : Option OptionValue := (o.values n).head?

end Options

end Coap
