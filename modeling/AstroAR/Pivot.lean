import Mathlib.Tactic.Linarith
import Mathlib.Tactic.Ring
import AstroAR.Runs
import AstroAR.VirtualLabel

/-!
# Where a label is anchored

The pivot decides which point of the plane of a label lies at the position of its
node. `setPivotLocation` computes it from the bounding box with the wrong sign of
the vertical coordinate, and `setText` replaces the plane and leaves the pivot.
-/

namespace AstroAR

open Runs

universe u
variable {R : Type u} [Field R]

inductive LabelOperation where
  | setPivotLocation (location : PivotLocation)
  | setText (text : String)

namespace PivotLocation

/-- Half way between the left and the right edge. -/
def MidX : PivotLocation → Prop
  | .center | .topMid | .bottomMid => True
  | .topLeft | .topRight | .bottomLeft | .bottomRight | .leftMid | .rightMid => False

/-- Half way between the upper and the lower edge. -/
def MidY : PivotLocation → Prop
  | .center | .leftMid | .rightMid => True
  | .topLeft | .topRight | .bottomLeft | .bottomRight | .topMid | .bottomMid => False

variable [LinearOrder R] [IsStrictOrderedRing R] {a b : CGSize R} (location : PivotLocation)

theorem anchor_x_iff : (location.anchor a).x = (location.anchor b).x ↔
    location.MidX ∨ a.width = b.width := by
  cases location <;> simp [anchor, MidX]

theorem neg_anchor_y_iff : -(location.anchor a).y = (location.anchor b).y ↔
    location.MidY ∨ a.height + b.height = 0 := by
  have half : -(a.height / 2) = b.height / 2 ↔ a.height + b.height = 0 := by
    constructor <;> intro h <;> linarith
  have half' : a.height / 2 = -(b.height / 2) ↔ a.height + b.height = 0 := by
    constructor <;> intro h <;> linarith
  cases location <;> simp [anchor, MidY, half, half']

end PivotLocation

namespace VirtualLabel

/-- The size of the plane; without one the bounding box is empty. -/
def planeSize (l : VirtualLabel R) : CGSize R :=
  match l.rootNode.geometry with
  | some plane => ⟨plane.width, plane.height⟩
  | none => ⟨0, 0⟩

def step (size : String → FontAttrs R → CGSize R) (l : VirtualLabel R) :
    LabelOperation → Option (VirtualLabel R)
  | .setPivotLocation location => some (l.setPivotLocation location)
  | .setText text => some (l.setText size text)

/-- The location chosen last, with the size that the plane had then. -/
def choose (l : VirtualLabel R) (chosen : PivotLocation × CGSize R) :
    LabelOperation → PivotLocation × CGSize R
  | .setPivotLocation location => (location, l.planeSize)
  | .setText _ => chosen

/-- The pivot is the point of the plane that the location names. -/
def Anchored (l : VirtualLabel R) (location : PivotLocation) : Prop :=
  l.rootNode.pivot = location.anchor l.planeSize

variable {size : String → FontAttrs R → CGSize R} {l l' : VirtualLabel R}

theorem render_pivot : (l.render size).rootNode.pivot = l.rootNode.pivot := by
  unfold render
  split_ifs <;> rfl

/-- The pivot still stands for the plane as it was when the location was chosen. -/
def PivotChosen (l : VirtualLabel R) (chosen : PivotLocation × CGSize R) : Prop :=
  l.rootNode.pivot = ⟨(chosen.1.anchor chosen.2).x, -(chosen.1.anchor chosen.2).y⟩

section Order
variable [LinearOrder R] [IsStrictOrderedRing R]

/-- The case split of `setPivotLocation` finds the right point of the bounding box. -/
theorem pivotPoint_eq (location : PivotLocation) :
    pivotPoint l.rootNode.boundingBox location = location.anchor l.planeSize := by
  have half : ∀ x : R, -(x / 2) + (x / 2 - -(x / 2)) / 2 = 0 := by
    intro x
    ring
  cases hplane : l.rootNode.geometry with
  | none => cases location <;> simp [pivotPoint, LabelNode.boundingBox, planeSize, hplane,
      PivotLocation.anchor]
  | some plane => cases location <;> simp only [pivotPoint, LabelNode.boundingBox, planeSize,
      hplane, PivotLocation.anchor, neg_div, half]

/-- It is then turned upside down. -/
theorem setPivotLocation_pivot (location : PivotLocation) :
    (l.setPivotLocation location).rootNode.pivot =
      ⟨(location.anchor l.planeSize).x, -(location.anchor l.planeSize).y⟩ := by
  rw [← pivotPoint_eq]
  rfl

theorem PivotChosen.step {chosen : PivotLocation × CGSize R} {op : LabelOperation}
    (h : l.PivotChosen chosen) (hstep : l.step size op = some l') :
    l'.PivotChosen (l.choose chosen op) := by
  cases op with
  | setPivotLocation location =>
    cases hstep
    exact setPivotLocation_pivot location
  | setText text =>
    cases hstep
    exact render_pivot.trans h

/-- In every state that any sequence of calls reaches, the label is anchored where it was asked to
be last exactly when the location is half way between the left and the right edge or the plane
is as wide as it was then, and the location is half way between the upper and the lower edge or
the plane has no height now and had none then. -/
theorem anchored_iff {location : PivotLocation} {chosen : CGSize R}
    (run : Run (shadow (step size) choose) (fun _ _ => True)
      ((l.render size).setPivotLocation .center, (.center, (l.render size).planeSize))
      (l', (location, chosen))) :
    l'.Anchored location ↔ (location.MidX ∨ chosen.width = l'.planeSize.width) ∧
      (location.MidY ∨ chosen.height + l'.planeSize.height = 0) := by
  have pivot : l'.PivotChosen (location, chosen) := by
    refine run.invariant (I := fun s => s.1.PivotChosen s.2) (setPivotLocation_pivot .center)
      fun s op t h _ hstep => ?_
    obtain ⟨hstep, hchoose⟩ := shadow_eq_some.mp hstep
    rw [← hchoose]
    exact h.step hstep
  rw [Anchored, pivot, Point.ext_iff, location.anchor_x_iff, location.neg_anchor_y_iff]

end Order

/-- A label asked to hang at the left end of its upper edge is anchored at the lower edge. -/
theorem pivot_upside_down : ¬ ∀ (size : String → FontAttrs ℚ → CGSize ℚ) (theme text : String)
    (l : VirtualLabel ℚ) (location : PivotLocation) (chosen : CGSize ℚ),
    Run (shadow (step size) choose) (fun _ _ => True)
      (init size theme text, (.center, ((themed theme text).render size).planeSize))
      (l, (location, chosen)) → l.Anchored location := by
  intro claim
  let size : String → FontAttrs ℚ → CGSize ℚ := fun _ _ => ⟨120, 70⟩
  have anchored := claim size "wintermute" "hello" _ .topLeft _
    (.snoc (a := .setPivotLocation .topLeft) .refl trivial rfl)
  have hplane : (init size "wintermute" "hello").planeSize =
      ⟨(120 + 100 + 100 + 0 + 0) * (1 / 1000), (70 + 50 + 50 + 0 + 0) * (1 / 1000)⟩ := rfl
  have pivot := anchored.symm.trans (setPivotLocation_pivot .topLeft)
  have same : ((init size "wintermute" "hello").setPivotLocation .topLeft).planeSize =
      (init size "wintermute" "hello").planeSize := rfl
  rw [same, hplane] at pivot
  norm_num [PivotLocation.anchor] at pivot

/-- The middle of the left edge of a label whose new text is as wide as the old one. -/
theorem anchored_iff_leftMid : ∃ l : VirtualLabel ℚ, l.text = "later" ∧ l.Anchored .leftMid := by
  let size : String → FontAttrs ℚ → CGSize ℚ := fun _ _ => ⟨120, 70⟩
  let start : VirtualLabel ℚ := (themed "wintermute" "hello").render size
  let left := (start.setPivotLocation .center).setPivotLocation .leftMid
  have run : Run (shadow (step size) choose) (fun _ _ => True)
      (start.setPivotLocation .center, (.center, start.planeSize))
      (left.setText size "later", (.leftMid, start.planeSize)) :=
    .snoc (a := .setText "later") (.snoc (a := .setPivotLocation .leftMid) .refl trivial rfl)
      trivial rfl
  exact ⟨_, rfl, (anchored_iff run).mpr ⟨Or.inr rfl, Or.inl trivial⟩⟩

end VirtualLabel

end AstroAR
