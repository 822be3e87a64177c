import Mathlib.Algebra.Order.Ring.Rat
import Mathlib.Tactic.NormNum
import Mathlib.Tactic.Ring
import AstroAR.VirtualLabel

/-!
# The box model of a label

An image has a margin around its cell, borders along the inner sides of the cell,
and a padding between the cell and the text. `render` and `resizeToText` give the
rectangles side by side, and some coordinates use another side than their own or
leave out where the cell starts.
-/

namespace AstroAR

universe u
variable {R : Type u}

/-- The rectangles that are filled, in order. -/
def UIImage.fills (image : UIImage R) : List (CGRect R) :=
  image.commands.filterMap fun
    | .fill _ rect => some rect
    | .draw _ _ _ => none

/-- The rectangles in which text is drawn. -/
def UIImage.texts (image : UIImage R) : List (CGRect R) :=
  image.commands.filterMap fun
    | .fill _ _ => none
    | .draw _ rect _ => some rect

variable [Field R]

namespace VirtualLabel

/-- The sides for which the coordinates of `render` and `resizeToText` come out right. -/
def SidesAgree (l : VirtualLabel R) : Prop :=
  l.marginSize .left = 0 ∧ l.marginSize .top = 0 ∧ l.marginSize .bottom = 0 ∧
    if l.textAlignment = "center" then l.paddingSize .left = 0 ∧ l.paddingSize .top = 0
    else l.paddingSize .top = l.paddingSize .bottom

/-- The label with its rectangles in place. -/
def placed (size : String → FontAttrs R → CGSize R) (l : VirtualLabel R) : VirtualLabel R :=
  (l.resizeToText size).placeBorder

variable {size : String → FontAttrs R → CGSize R} {l : VirtualLabel R}

theorem render_image (draws : l.canDrawOverlay = true) (auto : l.allow_auto_resize = true) :
    (l.render size).image = some ((l.placed size).drawImage size) := by
  simp only [render, draws, auto, if_true, placed]

/-! ## How far the rectangles are displaced -/

/-- The cell keeps the vertical margins the wrong way round. -/
theorem cell_gap (s : Side) :
    (CGRect.ofSize ((l.placed size).drawImage size).size).gap (l.placed size).cell s =
      l.marginSize s.mirror := by
  cases s <;>
    simp only [placed, placeBorder, resizeToText, drawImage, CGRect.ofSize, CGRect.gap,
      Side.mirror] <;> ring

/-- How far `render` draws a border from where it belongs. -/
def borderShift (l : VirtualLabel R) : Side → R × R
  | .top | .left => (0, l.marginSize .top - l.marginSize .bottom)
  | .right => (-l.marginSize .left, l.marginSize .top - l.marginSize .bottom)
  | .bottom => (0, -l.marginSize .bottom)

/-- How far it draws the text from where that belongs. -/
def textShift (l : VirtualLabel R) : R × R :=
  if l.textAlignment = "center" then
    (-l.marginSize .left - l.paddingSize .left, -l.marginSize .bottom - l.paddingSize .top)
  else (-l.marginSize .left, l.paddingSize .bottom - l.marginSize .bottom - l.paddingSize .top)

theorem border_eq (s : Side) : (l.placed size).border s =
    ((l.placed size).cell.strip (l.borderSize s) s).moved (l.borderShift s).1
      (l.borderShift s).2 := by
  ext <;> cases s <;> simp only [placed, placeBorder, resizeToText, CGRect.strip, CGRect.moved,
    borderShift] <;> ring

theorem drawRect_eq : (l.placed size).drawRect size =
    ((l.placed size).cell.inset l.paddingSize).moved l.textShift.1 l.textShift.2 := by
  have hdraw : (l.placed size).drawRect size = if l.textAlignment = "center"
      then ⟨0, 0, (l.stringSize size).width, (l.stringSize size).height⟩
      else (l.resizeToText size).nucleus := by
    have hsize : (l.placed size).stringSize size = l.stringSize size := rfl
    have hnucleus : (l.placed size).nucleus = (l.resizeToText size).nucleus := rfl
    have halign : (l.placed size).textAlignment = l.textAlignment := rfl
    simp only [drawRect, hsize, hnucleus, halign, resizeToText, sub_self]
  rw [hdraw, textShift]
  split_ifs <;> ext <;> simp only [placed, placeBorder, resizeToText, CGRect.inset,
    CGRect.moved] <;> ring

/-- The text of a label without left and bottom margin keeps its padding when the vertical
paddings agree, or, if it is centred, when there are no left and top paddings. -/
theorem padding_iff (hleft : l.marginSize .left = 0) (hbottom : l.marginSize .bottom = 0) :
    (l.placed size).drawRect size = (l.placed size).cell.inset l.paddingSize ↔
      if l.textAlignment = "center" then l.paddingSize .left = 0 ∧ l.paddingSize .top = 0
      else l.paddingSize .top = l.paddingSize .bottom := by
  rw [drawRect_eq, CGRect.moved_eq_self_iff, textShift, hleft, hbottom]
  split_ifs
  · simp only [neg_zero, zero_sub, neg_eq_zero]
  · simp only [neg_zero, sub_zero, true_and, sub_eq_zero]
    exact eq_comm

end VirtualLabel

variable [LinearOrder R] [IsStrictOrderedRing R]

/-- In the image the cell keeps the margins, every strip of the border lies along its side of the
cell, and the text keeps the padding. -/
structure BoxModel (l : VirtualLabel R) (image : UIImage R) (cell : CGRect R)
    (strip : Side → CGRect R) (text : CGRect R) : Prop where
  fills : image.fills = [cell, strip .top, strip .left, strip .right, strip .bottom]
  texts : image.texts = [text]
  inside : cell.Inside (.ofSize image.size)
  margin : ∀ s, (CGRect.ofSize image.size).gap cell s = l.marginSize s
  border : ∀ s, cell.StripAt (strip s) s (l.borderSize s)
  padding : text = cell.inset l.paddingSize

namespace VirtualLabel
variable (size : String → FontAttrs R → CGSize R) (l : VirtualLabel R)

/-- The image that `render` draws follows the box model. -/
def FollowsBoxModel : Prop :=
  ∃ image cell strip text, (l.render size).image = some image ∧ BoxModel l image cell strip text

/-- The borders are no wider than the cell. -/
def BordersFit : Prop :=
  ∀ s, 0 ≤ l.borderSize s ∧ l.borderSize s ≤ (l.resizeToText size).cell.thickness s

variable {size l}

omit [IsStrictOrderedRing R] in
/-- The seven rectangles of the image are those of the label. -/
theorem followsBoxModel_iff (draws : l.canDrawOverlay = true) (auto : l.allow_auto_resize = true) :
    l.FollowsBoxModel size ↔
      BoxModel l ((l.placed size).drawImage size) (l.placed size).cell (l.placed size).border
        ((l.placed size).drawRect size) := by
  constructor
  · rintro ⟨image, cell, strip, text, himage, box⟩
    rw [render_image draws auto] at himage
    cases himage
    have fills : [(l.placed size).cell, (l.placed size).border .top, (l.placed size).border .left,
        (l.placed size).border .right, (l.placed size).border .bottom] =
        [cell, strip .top, strip .left, strip .right, strip .bottom] := box.fills
    have texts : [(l.placed size).drawRect size] = [text] := box.texts
    simp only [List.cons.injEq, and_true] at fills texts
    obtain ⟨rfl, htop, hleft, hright, hbottom⟩ := fills
    have hstrip : (l.placed size).border = strip := by
      funext s
      cases s <;> assumption
    rw [hstrip, texts]
    exact box
  · intro box
    exact ⟨_, _, _, _, render_image draws auto, box⟩

theorem border_at_iff (fit : l.BordersFit size) (s : Side) :
    (l.placed size).cell.StripAt ((l.placed size).border s) s (l.borderSize s) ↔
      (l.borderShift s).1 = 0 ∧ (l.borderShift s).2 = 0 := by
  rw [border_eq]
  exact CGRect.stripAt_moved_iff (fit s).2

/-- The strips are in place exactly when the cell starts at the corner of the image. -/
theorem border_iff (fit : l.BordersFit size) :
    (∀ s, (l.placed size).cell.StripAt ((l.placed size).border s) s (l.borderSize s)) ↔
      l.marginSize .left = 0 ∧ l.marginSize .top = 0 ∧ l.marginSize .bottom = 0 := by
  simp only [border_at_iff fit, CGRect.forall_side, borderShift, true_and, neg_eq_zero,
    sub_eq_zero]
  constructor
  · rintro ⟨h, _, ⟨hleft, _⟩, hbottom⟩
    exact ⟨hleft, h.trans hbottom, hbottom⟩
  · rintro ⟨hleft, htop, hbottom⟩
    have h := htop.trans hbottom.symm
    exact ⟨h, h, ⟨hleft, h⟩, hbottom⟩

/-- A drawn label, resized to its text, with any margins and paddings and with borders that fit,
follows the box model exactly when its left, top and bottom margins are zero and its text is not
displaced by its paddings. -/
theorem box_model_iff (draws : l.canDrawOverlay = true) (auto : l.allow_auto_resize = true)
    (margins : ∀ s, 0 ≤ l.marginSize s) (fit : l.BordersFit size) :
    l.FollowsBoxModel size ↔ l.SidesAgree := by
  rw [followsBoxModel_iff draws auto]
  constructor
  · intro box
    obtain ⟨hleft, htop, hbottom⟩ := (border_iff fit).mp box.border
    exact ⟨hleft, htop, hbottom, (padding_iff hleft hbottom).mp box.padding⟩
  · rintro ⟨hleft, htop, hbottom, hpadding⟩
    exact {
      fills := rfl
      texts := rfl
      inside := fun s => by
        rw [cell_gap]
        exact margins s.mirror
      margin := by
        intro s
        rw [cell_gap]
        cases s <;> simp only [Side.mirror, htop, hbottom]
      border := (border_iff fit).mpr ⟨hleft, htop, hbottom⟩
      padding := (padding_iff hleft hbottom).mpr hpadding }

/-- The title of the leader board has a bottom margin, padding and border only, and its bottom
border lies across the text instead of along the bottom of the cell. -/
theorem title_border_displaced : ¬ ∀ (size : String → FontAttrs ℚ → CGSize ℚ)
    (l : VirtualLabel ℚ), l.canDrawOverlay = true → l.allow_auto_resize = true →
    (∀ s, 0 ≤ l.marginSize s) → (∀ s, 0 ≤ l.paddingSize s) → l.BordersFit size →
    l.FollowsBoxModel size := by
  intro claim
  let size : String → FontAttrs ℚ → CGSize ℚ := fun _ _ => ⟨700, 160⟩
  let title : VirtualLabel ℚ := themed "leaderBoardTitle" "Scores"
  have margins : ∀ s, 0 ≤ title.marginSize s := by
    have below : (0 : ℚ) ≤ 40 := by norm_num
    exact CGRect.forall_side.mpr ⟨le_rfl, le_rfl, le_rfl, below⟩
  have paddings : ∀ s, 0 ≤ title.paddingSize s := by
    have below : (0 : ℚ) ≤ 60 := by norm_num
    exact CGRect.forall_side.mpr ⟨le_rfl, le_rfl, le_rfl, below⟩
  have fit : title.BordersFit size := by
    have wide : (0 : ℚ) ≤ 700 + 0 + 0 := by norm_num
    have high : (0 : ℚ) ≤ 160 + 0 + 60 := by norm_num
    have below : (0 : ℚ) ≤ 10 ∧ (10 : ℚ) ≤ 160 + 0 + 60 := by norm_num
    exact CGRect.forall_side.mpr ⟨⟨le_rfl, high⟩, ⟨le_rfl, wide⟩, ⟨le_rfl, wide⟩, below⟩
  have box := claim size title rfl rfl margins paddings fit
  have border := ((followsBoxModel_iff rfl rfl).mp box).border .bottom
  have margin : title.marginSize .bottom = 40 := rfl
  have zero : -title.marginSize .bottom = 0 := ((border_at_iff fit .bottom).mp border).2
  rw [margin] at zero
  norm_num at zero

/-- A log message, padded by 50 above and below and by 100 at its sides. -/
theorem box_model_iff_wintermute : (themed "wintermute" "hello" : VirtualLabel ℚ).FollowsBoxModel
    fun _ _ => ⟨120, 70⟩ := by
  refine (box_model_iff rfl rfl (fun s => le_rfl) fun s => ?_).mpr ⟨rfl, rfl, rfl, rfl⟩
  cases s <;> norm_num [themed, theme, setFont, setPadding, empty, resizeToText, stringSize,
    CGRect.thickness]

end VirtualLabel

end AstroAR
