import Mathlib.Algebra.Order.Field.Basic
import Mathlib.Logic.Function.Basic
import AstroAR.Rectangles

/-!
# Labels

A label draws its text, with margin, border and padding, into an image that
covers a plane in the scene. How large a text is in a font is a function `size`
of the drawing library. Arithmetic is exact.
-/

namespace AstroAR

universe u

structure UIColor (R : Type u) where
  red : ℕ
  green : ℕ
  blue : ℕ
  alpha : R

structure UIFont (R : Type u) where
  name : String
  size : R

inductive NSTextAlignment where
  | natural
  | left
  | center
  deriving DecidableEq

structure FontAttrs (R : Type u) where
  font : UIFont R
  alignment : NSTextAlignment
  foregroundColor : UIColor R

inductive DrawCommand (R : Type u) where
  | fill (color : UIColor R) (rect : CGRect R)
  | draw (text : String) (rect : CGRect R) (attrs : FontAttrs R)

structure UIImage (R : Type u) where
  size : CGSize R
  commands : List (DrawCommand R)

structure SCNPlane (R : Type u) where
  width : R
  height : R
  cornerRadius : R
  contents : Option (UIImage R)
  isDoubleSided : Bool

/-- A point of the plane in which labels lie, the second coordinate upwards. -/
@[ext] structure Point (R : Type u) where
  x : R
  y : R

/-- The node of a label. `pivot` is the translation of its pivot, `scale` the same in every
direction. -/
structure LabelNode (R : Type u) where
  geometry : Option (SCNPlane R)
  position : Point R
  pivot : Point R
  scale : R

inductive PivotLocation where
  | center
  | topLeft
  | topRight
  | bottomLeft
  | bottomRight
  | leftMid
  | topMid
  | rightMid
  | bottomMid
  deriving DecidableEq

structure VirtualLabel (R : Type u) where
  text : String
  rootNode : LabelNode R
  totalWidth : R
  totalHeight : R
  marginSize : Side → R
  paddingSize : Side → R
  borderSize : Side → R
  border : Side → CGRect R
  cell : CGRect R
  nucleus : CGRect R
  image : Option (UIImage R)
  font : UIFont R
  color : UIColor R
  backgroundColor : UIColor R
  borderColor : Side → UIColor R
  cornerRadius : R
  canDrawOverlay : Bool
  textAlignment : String
  allow_auto_resize : Bool
  isButton : Bool

variable {R : Type u} [Field R]

namespace UIColor

def ofRGB (rgb : ℕ) : UIColor R := ⟨rgb / 65536 % 256, rgb / 256 % 256, rgb % 256, 1⟩

def zeroColor : UIColor R := ⟨0x00, 0x00, 0x00, 0⟩
def persianGreen : UIColor R := ⟨0x00, 0xA6, 0xA6, 1⟩
def periwinkle : UIColor R := ⟨0xB8, 0xB8, 0xFF, 1⟩
def cgBlue : UIColor R := ⟨0x12, 0x82, 0xA2, 1⟩
def platinum : UIColor R := ⟨0xE6, 0xEB, 0xE0, 1⟩

end UIColor

namespace PivotLocation

/-- The point of a plane of the given size, centred on the origin, that a location names. -/
def anchor (size : CGSize R) : PivotLocation → Point R
  | .center => ⟨0, 0⟩
  | .topLeft => ⟨-(size.width / 2), size.height / 2⟩
  | .topRight => ⟨size.width / 2, size.height / 2⟩
  | .bottomLeft => ⟨-(size.width / 2), -(size.height / 2)⟩
  | .bottomRight => ⟨size.width / 2, -(size.height / 2)⟩
  | .leftMid => ⟨-(size.width / 2), 0⟩
  | .rightMid => ⟨size.width / 2, 0⟩
  | .topMid => ⟨0, size.height / 2⟩
  | .bottomMid => ⟨0, -(size.height / 2)⟩

end PivotLocation

namespace LabelNode

/-- The bounding box of a node is that of its plane, which is centred on the origin. -/
def boundingBox (n : LabelNode R) : Point R × Point R :=
  match n.geometry with
  | some plane => (⟨-plane.width / 2, -plane.height / 2⟩, ⟨plane.width / 2, plane.height / 2⟩)
  | none => (⟨0, 0⟩, ⟨0, 0⟩)

end LabelNode

namespace VirtualLabel

/-- The factor from points of the image to lengths in the scene. -/
def scale : R := 1 / 1000

/-- The fields before `init` sets any. -/
def empty : VirtualLabel R where
  text := ""
  rootNode := ⟨none, ⟨0, 0⟩, ⟨0, 0⟩, 1⟩
  totalWidth := 0
  totalHeight := 0
  marginSize := fun _ => 0
  paddingSize := fun _ => 0
  borderSize := fun _ => 0
  border := fun _ => ⟨0, 0, 0, 0⟩
  cell := ⟨0, 0, 0, 0⟩
  nucleus := ⟨0, 0, 0, 0⟩
  image := none
  font := ⟨"", 0⟩
  color := ⟨0, 0, 0, 1⟩
  backgroundColor := ⟨0, 0, 0, 0⟩
  borderColor := fun _ => ⟨255, 255, 255, 0⟩
  cornerRadius := 0
  canDrawOverlay := true
  textAlignment := "left"
  allow_auto_resize := true
  isButton := false

def setFont (l : VirtualLabel R) (selectedFont : String) (size : R) : VirtualLabel R :=
  { l with font := ⟨selectedFont, size⟩ }

/-- The padding of all four sides, set one by one. -/
def setPadding (l : VirtualLabel R) (left right top bottom : R) : VirtualLabel R :=
  { l with paddingSize := fun
    | .left => left
    | .right => right
    | .top => top
    | .bottom => bottom }

def theme (l : VirtualLabel R) : String → VirtualLabel R
  | "neuromancer" =>
    { l with backgroundColor := .zeroColor, color := .platinum, textAlignment := "left" }.setFont
      "Arial" 100
  | "wintermute" =>
    ({ l with backgroundColor := .zeroColor, color := .platinum, textAlignment := "left" }.setFont
      "Arial" 60).setPadding 100 100 50 50
  | "leaderBoardName" =>
    ({ l with
      backgroundColor := .ofRGB 0x13293D, color := .platinum, textAlignment := "left" }.setFont
      "Arial" 100).setPadding 20 20 20 20
  | "towerLabel" =>
    ({ l with
      backgroundColor := .ofRGB 0xEE4266, color := .platinum, textAlignment := "left"
      cornerRadius := 1 / 20 }.setFont "Arial" 100).setPadding 20 20 20 20
  | "leaderBoardTitle" =>
    { l with
      backgroundColor := .zeroColor, color := .platinum, textAlignment := "left"
      paddingSize := Function.update l.paddingSize .bottom 60
      marginSize := Function.update l.marginSize .bottom 40
      borderSize := Function.update l.borderSize .bottom 10
      borderColor := Function.update l.borderColor .bottom (.ofRGB 0xCC2936) }.setFont "Arial" 140
  | "leaderBoardScore" =>
    ({ l with
      backgroundColor := .ofRGB 0x13293D, color := .platinum, textAlignment := "left" }.setFont
      "Arial" 100).setPadding 100 20 20 20
  | "button" =>
    ({ l with
      backgroundColor := .cgBlue, color := .platinum, textAlignment := "left"
      cornerRadius := 1 / 20, isButton := true
      rootNode := { l.rootNode with scale := 1 / 2 } }.setFont "Arial" 200).setPadding 100 100 50 50
  | "button_02" =>
    ({ l with
      backgroundColor := .zeroColor, color := .platinum, textAlignment := "left"
      cornerRadius := 1 / 100, isButton := true
      borderColor := fun _ => .platinum
      borderSize := fun _ => 10
      rootNode := { l.rootNode with scale := 1 / 2 } }.setFont "Arial" 200).setPadding 100 100 50 50
  | "editButton" =>
    ({ l with
      backgroundColor := .periwinkle, color := .platinum, textAlignment := "left"
      cornerRadius := 10, isButton := true }.setFont "Arial" 80).setPadding 75 75 30 30
  | "playButton" =>
    ({ l with
      backgroundColor := .persianGreen, color := .platinum, textAlignment := "left"
      cornerRadius := 10, isButton := true }.setFont "Arial" 80).setPadding 75 75 30 30
  | _ =>
    { l with backgroundColor := .zeroColor, color := .platinum, textAlignment := "left" }.setFont
      "Arial" 200

section Render
variable (size : String → FontAttrs R → CGSize R)

/-- `NSMutableParagraphStyle()` is natural until one of the two tests sets it. -/
def paragraphAlignment (l : VirtualLabel R) : NSTextAlignment :=
  if l.textAlignment = "center" then .center
  else if l.textAlignment = "left" then .left
  else .natural

def fontAttrs (l : VirtualLabel R) : FontAttrs R := ⟨l.font, l.paragraphAlignment, l.color⟩

/-- `text.size(withAttributes: fontAttrs)` -/
def stringSize (l : VirtualLabel R) : CGSize R := size l.text l.fontAttrs

def resizeToText (l : VirtualLabel R) : VirtualLabel R :=
  { l with
    cell := {
      x := l.marginSize .left
      y := l.marginSize .bottom
      width := (l.stringSize size).width + l.paddingSize .left + l.paddingSize .right
      height := (l.stringSize size).height + l.paddingSize .top + l.paddingSize .bottom }
    nucleus := {
      x := l.paddingSize .left
      y := l.paddingSize .bottom
      width := (l.stringSize size).width
      height := (l.stringSize size).height }
    totalWidth := (l.stringSize size).width + l.paddingSize .left + l.paddingSize .right +
      l.marginSize .left + l.marginSize .right
    totalHeight := (l.stringSize size).height + l.paddingSize .top + l.paddingSize .bottom +
      l.marginSize .top + l.marginSize .bottom }

/-- The four assignments to `border` in `render`. -/
def placeBorder (l : VirtualLabel R) : VirtualLabel R :=
  { l with border := fun
    | .top => {
      x := l.marginSize .left
      y := l.marginSize .top
      width := l.cell.width
      height := l.borderSize .top }
    | .left => {
      x := l.marginSize .left
      y := l.marginSize .top
      width := l.borderSize .left
      height := l.cell.height }
    | .right => {
      x := l.cell.width - l.borderSize .right
      y := l.marginSize .top
      width := l.borderSize .right
      height := l.cell.height }
    | .bottom => {
      x := l.marginSize .left
      y := l.cell.height - l.borderSize .bottom
      width := l.cell.width
      height := l.borderSize .bottom } }

/-- The rectangle in which the closure of `render` draws the text. -/
def drawRect (l : VirtualLabel R) : CGRect R :=
  if l.textAlignment = "center" then {
    x := l.nucleus.width / 2 - (l.stringSize size).width / 2
    y := l.nucleus.height / 2 - (l.stringSize size).height / 2
    width := (l.stringSize size).width
    height := (l.stringSize size).height }
  else l.nucleus

/-- The image that the closure of `render` draws. -/
def drawImage (l : VirtualLabel R) : UIImage R where
  size := ⟨l.totalWidth, l.totalHeight⟩
  commands :=
    [.fill l.backgroundColor l.cell, .fill (l.borderColor .top) (l.border .top),
      .fill (l.borderColor .left) (l.border .left),
      .fill (l.borderColor .right) (l.border .right),
      .fill (l.borderColor .bottom) (l.border .bottom),
      .draw l.text (l.drawRect size) l.fontAttrs]

/-- The plane that `render` gives the node. -/
def plane (l : VirtualLabel R) : SCNPlane R where
  width := l.totalWidth * scale
  height := l.totalHeight * scale
  cornerRadius := l.cornerRadius
  contents := l.image
  isDoubleSided := true

def render (l : VirtualLabel R) : VirtualLabel R :=
  if l.canDrawOverlay then
    let l := if l.allow_auto_resize then l.resizeToText size else l
    let l := l.placeBorder
    let l := { l with image := some (l.drawImage size) }
    { l with rootNode := { l.rootNode with geometry := some l.plane } }
  else l

def setText (l : VirtualLabel R) (text : String) : VirtualLabel R :=
  { l with text := text }.render size

end Render

/-- The point of the bounding box at which `setPivotLocation` aims, before the sign of `y`. -/
def pivotPoint (box : Point R × Point R) : PivotLocation → Point R
  | .center => ⟨box.1.x + (box.2.x - box.1.x) / 2, box.1.y + (box.2.y - box.1.y) / 2⟩
  | .topLeft => ⟨box.1.x, box.2.y⟩
  | .topRight => ⟨box.2.x, box.2.y⟩
  | .bottomLeft => ⟨box.1.x, box.1.y⟩
  | .bottomRight => ⟨box.2.x, box.1.y⟩
  | .leftMid => ⟨box.1.x, box.1.y + (box.2.y - box.1.y) / 2⟩
  | .rightMid => ⟨box.2.x, box.1.y + (box.2.y - box.1.y) / 2⟩
  | .topMid => ⟨box.1.x + (box.2.x - box.1.x) / 2, box.2.y⟩
  | .bottomMid => ⟨box.1.x + (box.2.x - box.1.x) / 2, box.1.y⟩

/-- The translation `SCNMatrix4MakeTranslation(x, -y, 0.0)` becomes the pivot. -/
def setPivotLocation (l : VirtualLabel R) (location : PivotLocation) : VirtualLabel R :=
  let point := pivotPoint l.rootNode.boundingBox location
  { l with rootNode := { l.rootNode with pivot := ⟨point.x, -point.y⟩ } }

/-- A label before its first rendering. -/
def themed (theme text : String) : VirtualLabel R :=
  { (empty : VirtualLabel R).theme theme with text := text }

def init (size : String → FontAttrs R → CGSize R) (theme text : String) : VirtualLabel R :=
  ((themed theme text).render size).setPivotLocation .center

end VirtualLabel

end AstroAR
