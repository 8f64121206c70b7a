/-!
Reservoir sampling. The first values are all kept; when the reservoir is full, the `i`-th
value takes the place of the one in a slot drawn from `i` slots, if there is such a place.
Where the slots come from is left open.
-/
namespace Relatedness

/-- A source of slots: a random generator, or a list of slots that are known beforehand. -/
class SlotSource (G : Type) where
  ofSeed : UInt64 → G
  /-- Draws one of so many slots, counted from zero. Where there are none, what is drawn is left
  open. -/
  draw : G → Nat → Nat × G

structure Reservoir (S : Type) where
  sample : Array S
  /-- The number of values offered so far, which starts from zero again when the word is full. -/
  count : UInt64

namespace Reservoir

variable {S : Type}

def empty : Reservoir S := ⟨#[], 0⟩

def observed (r : Reservoir S) : Nat := r.count.toNat

/-- Takes in a value for which the given slot was drawn. The slot counts only when the
reservoir, of the given capacity, is full. -/
def offer (r : Reservoir S) (capacity : Nat) (x : S) (slot : Nat) : Reservoir S where
  count := r.count + 1
  sample :=
    if r.sample.size < capacity then r.sample.push x
    else if slot < capacity then r.sample.setIfInBounds slot x
    else r.sample

/-- Whether a slot has to be drawn for the next value. -/
def isFull (r : Reservoir S) (capacity : Nat) : Bool := 0 < capacity && capacity ≤ r.sample.size

/-- Takes in a value, drawing a slot if one is needed. -/
def observe {G : Type} [SlotSource G] (r : Reservoir S) (capacity : Nat) (g : G) (x : S) :
    Reservoir S × G :=
  if r.isFull capacity then
    let (slot, g) := SlotSource.draw g (r.count + 1).toNat
    (r.offer capacity x slot, g)
  else (r.offer capacity x 0, g)

end Reservoir
end Relatedness
