import Mathlib.Algebra.Order.Group.Defs
import Mathlib.Tactic.Abel

/-!
# Rectangles and their sides

Rectangles in a plane whose origin is at the top left and whose second
coordinate grows downwards. A rectangle in another one is described by its four
distances from the sides of that one.
-/

universe u

inductive Side where
  | top
  | left
  | right
  | bottom
  deriving DecidableEq

/-- Upside down. -/
def Side.mirror : Side → Side
  | .top => .bottom
  | .left => .left
  | .right => .right
  | .bottom => .top

def Side.opposite : Side → Side
  | .top => .bottom
  | .left => .right
  | .right => .left
  | .bottom => .top

theorem Side.ne_opposite (s : Side) : s ≠ s.opposite := by
  cases s <;> decide

structure CGSize (R : Type u) where
  width : R
  height : R

@[ext] structure CGRect (R : Type u) where
  x : R
  y : R
  width : R
  height : R

namespace CGRect
variable {R : Type u} [AddCommGroup R]

def ofSize (size : CGSize R) : CGRect R := ⟨0, 0, size.width, size.height⟩

/-- How far `inner` keeps away from a side of `outer`; negative where it sticks out. -/
def gap (outer inner : CGRect R) : Side → R
  | .top => inner.y - outer.y
  | .left => inner.x - outer.x
  | .right => (outer.x + outer.width) - (inner.x + inner.width)
  | .bottom => (outer.y + outer.height) - (inner.y + inner.height)

/-- How far a strip along a side reaches into the rectangle. -/
def thickness (r : CGRect R) : Side → R
  | .top | .bottom => r.height
  | .left | .right => r.width

/-- What is left of a rectangle when a strip is taken off at every side. -/
def inset (r : CGRect R) (d : Side → R) : CGRect R where
  x := r.x + d .left
  y := r.y + d .top
  width := r.width - d .left - d .right
  height := r.height - d .top - d .bottom

/-- The strip of thickness `t` along the whole of a side. -/
def strip (r : CGRect R) (t : R) : Side → CGRect R
  | .top => { r with height := t }
  | .left => { r with width := t }
  | .right => { r with x := r.x + r.width - t, width := t }
  | .bottom => { r with y := r.y + r.height - t, height := t }

/-- The rectangle moved to the right and downwards. -/
def moved (r : CGRect R) (dx dy : R) : CGRect R := { r with x := r.x + dx, y := r.y + dy }

/-- How far such a move leads away from a side. -/
def away (dx dy : R) : Side → R
  | .top => dy
  | .left => dx
  | .right => -dx
  | .bottom => -dy

variable {outer inner r : CGRect R} {dx dy t : R} {s s' : Side}

omit [AddCommGroup R] in
theorem forall_side {P : Side → Prop} :
    (∀ s, P s) ↔ P .top ∧ P .left ∧ P .right ∧ P .bottom :=
  ⟨fun h => ⟨h _, h _, h _, h _⟩, fun ⟨ht, hl, hr, hb⟩ s => by cases s <;> assumption⟩

theorem moved_eq_self_iff : r.moved dx dy = r ↔ dx = 0 ∧ dy = 0 := by
  simp [moved, CGRect.ext_iff]

theorem gap_moved : outer.gap (inner.moved dx dy) s = outer.gap inner s + away dx dy s := by
  cases s <;> simp only [gap, moved, away] <;> abel

theorem gap_strip_opposite : r.gap (r.strip t s) s.opposite = r.thickness s - t := by
  cases s <;> simp only [gap, strip, thickness, Side.opposite] <;> abel

/-- A strip touches its own side and reaches from one end of it to the other. -/
theorem gap_strip_of_ne (h : s' ≠ s.opposite) : r.gap (r.strip t s) s' = 0 := by
  cases s <;> cases s' <;> simp [gap, strip, Side.opposite] at h ⊢

section Order
variable [LinearOrder R] [IsOrderedAddMonoid R]

def Inside (inner outer : CGRect R) : Prop := ∀ s, 0 ≤ outer.gap inner s

/-- `strip` lies in `r` along the side `s` and is as thick as `t`. -/
structure StripAt (r strip : CGRect R) (s : Side) (t : R) : Prop where
  inside : strip.Inside r
  flush : r.gap strip s = 0
  thick : strip.thickness s = t

/-- A strip that runs along the whole of its side is in place only where it is. -/
theorem stripAt_moved_iff (fits : t ≤ r.thickness s) :
    r.StripAt ((r.strip t s).moved dx dy) s t ↔ dx = 0 ∧ dy = 0 := by
  constructor
  · intro h
    have stays : ∀ s' ≠ s.opposite, 0 ≤ away dx dy s' := by
      intro s' hs'
      have inside := h.inside s'
      rwa [gap_moved, gap_strip_of_ne hs', zero_add] at inside
    have flush := h.flush
    rw [gap_moved, gap_strip_of_ne s.ne_opposite, zero_add] at flush
    cases s with
    | top =>
      have level := le_antisymm (neg_nonneg.mp (stays .right (by decide))) (stays .left (by decide))
      exact ⟨level, flush⟩
    | left =>
      have level := le_antisymm (neg_nonneg.mp (stays .bottom (by decide))) (stays .top (by decide))
      exact ⟨flush, level⟩
    | right =>
      have level := le_antisymm (neg_nonneg.mp (stays .bottom (by decide))) (stays .top (by decide))
      exact ⟨neg_eq_zero.mp flush, level⟩
    | bottom =>
      have level := le_antisymm (neg_nonneg.mp (stays .right (by decide))) (stays .left (by decide))
      exact ⟨level, neg_eq_zero.mp flush⟩
  · rintro ⟨rfl, rfl⟩
    rw [moved_eq_self_iff.mpr ⟨rfl, rfl⟩]
    refine ⟨fun s' => ?_, gap_strip_of_ne s.ne_opposite, ?_⟩
    · by_cases hs' : s' = s.opposite
      · rw [hs', gap_strip_opposite]
        exact sub_nonneg.mpr fits
      · exact (gap_strip_of_ne hs').ge
    · cases s <;> rfl

end Order

end CGRect
