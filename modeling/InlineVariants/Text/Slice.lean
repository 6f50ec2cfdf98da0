/-!
# Slices of a sequence

A slice keeps the elements from one offset up to, and without, another. Offsets past the end are
cut to the length, and a negative offset counts from the end, so every pair of integers has a slice.
-/

namespace InlineVariants.Text

/-- The place of an offset: a negative one counts from the end. -/
def place (l : List α) (i : Int) : Nat :=
  if i < 0 then (l.length + i).toNat else i.toNat

/-- The elements from offset `a` up to, and without, offset `b`. -/
def slice (l : List α) (a b : Int) : List α :=
  (l.drop (place l a)).take (place l b - place l a)

@[simp] theorem place_natCast (l : List α) (n : Nat) : place l (n : Int) = n := by
  have h : ¬ (n : Int) < 0 := by omega
  simp [place, h]

theorem slice_natCast (l : List α) (a b : Nat) :
    slice l (a : Int) (b : Int) = (l.drop a).take (b - a) := by
  simp [slice]

end InlineVariants.Text
