import Mathlib.Data.Nat.Basic

namespace Besm.Util

/-- The half-open interval from `leftBorder` to `rightBorder`. -/
structure Range (α : Type) where
  leftBorder : α
  rightBorder : α
  deriving DecidableEq, Repr

namespace Range

variable {α : Type} [LE α] [LT α] [DecidableLE α] [DecidableLT α]

def contains (r : Range α) (position : α) : Bool :=
  r.leftBorder ≤ position && position < r.rightBorder

def containsRange (r range : Range α) : Bool :=
  r.leftBorder ≤ range.leftBorder && range.rightBorder < r.rightBorder

def intersects (r range : Range α) : Bool :=
  r.contains range.leftBorder || r.contains range.rightBorder ||
    range.contains r.leftBorder || range.contains r.rightBorder

def size {α : Type} [Sub α] (r : Range α) : α := r.rightBorder - r.leftBorder

theorem contains_iff {r : Range α} {position : α} :
    r.contains position = true ↔ r.leftBorder ≤ position ∧ position < r.rightBorder := by
  simp [contains]

end Range

end Besm.Util
