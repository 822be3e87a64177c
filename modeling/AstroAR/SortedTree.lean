import AstroAR.SortedEntries
import Mathlib.Algebra.Group.Int.Defs
import Mathlib.Algebra.Group.Nat.Defs

/-!
# The red-black tree of the database client

The client of the database keeps the children of a place in an immutable sorted
dictionary. A large one is a left-leaning red-black tree, of which an insertion
or a removal copies the nodes on the way to the key and rebalances them on the
way back.
-/

namespace AstroAR

open SortedEntries Std

universe u v

/-- What a sum becomes in an `int` of 32 bits. -/
def int (x : ℤ) : ℤ := x.bmod (2 ^ 32)

theorem int_eq {x : ℕ} (small : x < 2 ^ 31) : int x = x :=
  Int.bmod_eq_of_le_mul_two (by omega) (by omega)

/-- Below 2³² a number can be told from its `int`. -/
theorem int_inj {x y : ℕ} (hx : x < 2 ^ 32) (hy : y < 2 ^ 32) : int x = int y ↔ x = y := by
  unfold int
  rw [Int.bmod_eq_bmod_iff_bmod_sub_eq_zero, ← Int.dvd_iff_bmod_eq_zero]
  omega

/-- `RED` and `BLACK` -/
inductive FLLRBColor where
  | red
  | black
deriving DecidableEq

def FLLRBColor.flip : FLLRBColor → FLLRBColor
  | .red => .black
  | .black => .red

/-- `FLLRBEmptyNode` and `FLLRBValueNode` -/
inductive FLLRBNode (κ : Type u) (ν : Type v) where
  | emptyNode
  | valueNode (key : κ) (value : ν) (color : FLLRBColor) (left right : FLLRBNode κ ν)

namespace FLLRBNode
variable {κ : Type u} {ν : Type v}

def isEmpty : FLLRBNode κ ν → Bool
  | emptyNode => true
  | valueNode .. => false

def key : FLLRBNode κ ν → Option κ
  | emptyNode => none
  | valueNode k .. => some k

def value : FLLRBNode κ ν → Option ν
  | emptyNode => none
  | valueNode _ x .. => some x

/-- No colour reads as `@false`. -/
def color : FLLRBNode κ ν → FLLRBColor
  | emptyNode => .black
  | valueNode _ _ c .. => c

/-- The empty node has no children; what is asked of `nil` is answered as the empty node does. -/
def left : FLLRBNode κ ν → FLLRBNode κ ν
  | emptyNode => emptyNode
  | valueNode _ _ _ l _ => l

def right : FLLRBNode κ ν → FLLRBNode κ ν
  | emptyNode => emptyNode
  | valueNode _ _ _ _ r => r

def isRed (n : FLLRBNode κ ν) : Bool := n.color = .red

def count : FLLRBNode κ ν → ℤ
  | emptyNode => 0
  | valueNode _ _ _ l r => int (l.count + 1 + r.count)

/-- What is not given stays. -/
def copyWith (k : Option κ) (x : Option ν) (c : Option FLLRBColor)
    (l r : Option (FLLRBNode κ ν)) : FLLRBNode κ ν → FLLRBNode κ ν
  | emptyNode => emptyNode
  | valueNode k' x' c' l' r' =>
    valueNode (k.getD k') (x.getD x') (c.getD c') (l.getD l') (r.getD r')

/-- The node with the least key. -/
def min : FLLRBNode κ ν → FLLRBNode κ ν
  | emptyNode => emptyNode
  | n@(valueNode _ _ _ l _) => if l.isEmpty then n else l.min

def minKey (n : FLLRBNode κ ν) : Option κ := n.min.key

def maxKey : FLLRBNode κ ν → Option κ
  | emptyNode => none
  | valueNode k _ _ _ r => if r.isEmpty then some k else r.maxKey

def rotateLeft (n : FLLRBNode κ ν) : FLLRBNode κ ν :=
  let nl := n.copyWith none none (some .red) none (some n.right.left)
  n.right.copyWith none none (some n.color) (some nl) none

def rotateRight (n : FLLRBNode κ ν) : FLLRBNode κ ν :=
  let nr := n.copyWith none none (some .red) (some n.left.right) none
  n.left.copyWith none none (some n.color) none (some nr)

def colorFlip (n : FLLRBNode κ ν) : FLLRBNode κ ν :=
  let nleft := n.left.copyWith none none (some n.left.color.flip) none none
  let nright := n.right.copyWith none none (some n.right.color.flip) none none
  n.copyWith none none (some n.color.flip) (some nleft) (some nright)

def fixUp (n : FLLRBNode κ ν) : FLLRBNode κ ν :=
  let n := if n.right.isRed && !n.left.isRed then n.rotateLeft else n
  let n := if n.left.isRed && n.left.left.isRed then n.rotateRight else n
  if n.left.isRed && n.right.isRed then n.colorFlip else n

def moveRedLeft (n : FLLRBNode κ ν) : FLLRBNode κ ν :=
  let n := n.colorFlip
  if n.right.left.isRed then
    let n := n.copyWith none none none none (some n.right.rotateRight)
    let n := n.rotateLeft
    n.colorFlip
  else n

def moveRedRight (n : FLLRBNode κ ν) : FLLRBNode κ ν :=
  let n := n.colorFlip
  if n.left.left.isRed then
    let n := n.rotateRight
    n.colorFlip
  else n

/-- The entries from left to right. -/
def entries : FLLRBNode κ ν → List (κ × ν)
  | emptyNode => []
  | valueNode k x _ l r => l.entries ++ (k, x) :: r.entries

theorem count_eq (n : FLLRBNode κ ν) : n.count = int n.entries.length := by
  induction n with
  | emptyNode => simp [count, entries, int]
  | valueNode k x c l r ihl ihr =>
    have hsum : (((valueNode k x c l r).entries.length : ℕ) : ℤ) =
        l.entries.length + 1 + r.entries.length := by
      rw [entries, List.length_append, List.length_cons]
      omega
    rw [count, hsum, ihl, ihr]
    unfold int
    rw [Int.add_bmod_bmod, Int.add_assoc, Int.bmod_add_bmod, Int.add_assoc]

/-! ### Rebalancing keeps the entries -/

section Rebalance
variable {n l r : FLLRBNode κ ν} {k : κ} {x : ν} {c : FLLRBColor}

theorem isEmpty_of_isRed (h : n.isRed = true) : n.isEmpty = false := by
  cases n with
  | emptyNode => cases h
  | valueNode => rfl

@[simp] theorem entries_copyWith_color (c : Option FLLRBColor) :
    (n.copyWith none none c none none).entries = n.entries := by
  cases n <;> rfl

@[simp] theorem entries_colorFlip (n : FLLRBNode κ ν) : n.colorFlip.entries = n.entries := by
  cases n with
  | emptyNode => rfl
  | valueNode k x c l r => cases l <;> cases r <;> simp [colorFlip, copyWith, entries, left, right]

theorem entries_rotateLeft (h : n.right.isEmpty = false) : n.rotateLeft.entries = n.entries := by
  cases n with
  | emptyNode => rfl
  | valueNode k x c l r =>
    cases r with
    | emptyNode => cases h
    | valueNode => simp [rotateLeft, copyWith, entries, right, left]

theorem entries_rotateRight (h : n.left.isEmpty = false) : n.rotateRight.entries = n.entries := by
  cases n with
  | emptyNode => rfl
  | valueNode k x c l r =>
    cases l with
    | emptyNode => cases h
    | valueNode => simp [rotateRight, copyWith, entries, right, left]

@[simp] theorem entries_fixUp (n : FLLRBNode κ ν) : n.fixUp.entries = n.entries := by
  unfold fixUp
  extract_lets n₁ n₂
  have h₁ : n₁.entries = n.entries := by
    unfold n₁
    split
    · exact entries_rotateLeft (isEmpty_of_isRed (by simp_all))
    · rfl
  have h₂ : n₂.entries = n₁.entries := by
    unfold n₂
    split
    · exact entries_rotateRight (isEmpty_of_isRed (by simp_all))
    · rfl
  split
  · rw [entries_colorFlip, h₂, h₁]
  · rw [h₂, h₁]

@[simp] theorem entries_moveRedLeft (n : FLLRBNode κ ν) : n.moveRedLeft.entries = n.entries := by
  simp only [moveRedLeft]
  split
  · next h =>
    cases n with
    | emptyNode => rfl
    | valueNode k x c l r =>
      cases r with
      | emptyNode => cases h
      | valueNode k' x' c' l' r' =>
        cases l' with
        | emptyNode => cases h
        | valueNode k'' x'' c'' l'' r'' =>
          simp [colorFlip, rotateRight, rotateLeft, copyWith, entries, left, right]
          cases l <;> simp [entries]
  · exact entries_colorFlip n

@[simp] theorem entries_moveRedRight (n : FLLRBNode κ ν) :
    n.moveRedRight.entries = n.entries := by
  simp only [moveRedRight]
  split
  · next h =>
    cases n with
    | emptyNode => rfl
    | valueNode k x c l r =>
      cases l with
      | emptyNode => cases h
      | valueNode k' x' c' l' r' =>
        rw [entries_colorFlip, entries_rotateRight rfl, entries_colorFlip]
  · exact entries_colorFlip n

end Rebalance

/-! ### Removal -/

/-- A child of a node with the same entries has fewer of them. -/
theorem length_children_lt {m n : FLLRBNode κ ν} (same : m.entries = n.entries)
    (h : n.isEmpty = false) : m.left.entries.length < n.entries.length ∧
      m.right.entries.length < n.entries.length := by
  cases m with
  | emptyNode =>
    cases n with
    | emptyNode => cases h
    | valueNode k x c l r => simp [entries] at same
  | valueNode k x c l r =>
    rw [← same]
    simp only [entries, left, right, List.length_append, List.length_cons]
    omega

/-- `removeMin` is not sent to the empty node. -/
def removeMin : FLLRBNode κ ν → FLLRBNode κ ν
  | emptyNode => emptyNode
  | valueNode k x c l r =>
    if l.isEmpty then emptyNode
    else
      let n := valueNode k x c l r
      let n := if !n.left.isRed && !n.left.left.isRed then n.moveRedLeft else n
      (n.copyWith none none none (some n.left.removeMin) none).fixUp
termination_by n => n.entries.length
decreasing_by
  refine (length_children_lt ?_ rfl).1
  split
  · exact entries_moveRedLeft _
  · rfl

/-- How `remove:` makes ready to go on to the left. -/
def readyLeft (n : FLLRBNode κ ν) : FLLRBNode κ ν :=
  if !n.left.isEmpty && !n.left.isRed && !n.left.left.isRed then n.moveRedLeft else n

/-- How `remove:` makes ready to go on to the right. -/
def readyRight (n : FLLRBNode κ ν) : FLLRBNode κ ν :=
  let n := if n.left.isRed then n.rotateRight else n
  if !n.right.isEmpty && !n.right.isRed && !n.right.left.isRed then n.moveRedRight else n

@[simp] theorem entries_readyLeft (n : FLLRBNode κ ν) : n.readyLeft.entries = n.entries := by
  unfold readyLeft
  split
  · exact entries_moveRedLeft n
  · rfl

@[simp] theorem entries_readyRight (n : FLLRBNode κ ν) : n.readyRight.entries = n.entries := by
  unfold readyRight
  extract_lets n₁
  have h₁ : n₁.entries = n.entries := by
    unfold n₁
    split
    · next h => exact entries_rotateRight (isEmpty_of_isRed h)
    · rfl
  split
  · rw [entries_moveRedRight, h₁]
  · exact h₁

theorem length_fixUp_left_le {m n t : FLLRBNode κ ν} (same : m.entries = n.entries)
    (h : t.entries.length ≤ m.left.entries.length) :
    (m.copyWith none none none (some t) none).fixUp.entries.length ≤ n.entries.length := by
  rw [entries_fixUp, ← same]
  cases m with
  | emptyNode => exact Nat.le_refl 0
  | valueNode k x c l r =>
    simp only [copyWith, Option.getD, entries, List.length_append, left] at *
    omega

theorem length_removeMin_le (n : FLLRBNode κ ν) :
    n.removeMin.entries.length ≤ n.entries.length := by
  induction n using removeMin.induct with
  | case1 => simp [removeMin]
  | case2 k x c l r h => simp [removeMin, h, entries]
  | case3 k x c l r h n m ih =>
    rw [removeMin, if_neg h]
    refine length_fixUp_left_le ?_ ih
    split
    · exact entries_moveRedLeft _
    · rfl

theorem length_right_copyWith_le {n t : FLLRBNode κ ν} {k : Option κ} {x : Option ν}
    (h : t.entries.length ≤ n.right.entries.length) :
    (n.copyWith k x none none (some t)).right.entries.length ≤ n.right.entries.length := by
  cases n with
  | emptyNode => exact Nat.le_refl _
  | valueNode => exact h

variable (cmp : κ → κ → Ordering)

def remove (k : κ) : FLLRBNode κ ν → FLLRBNode κ ν
  | emptyNode => emptyNode
  | valueNode k' x c l r =>
    let n := valueNode k' x c l r
    if cmp k k' = .lt then
      let n := n.readyLeft
      (n.copyWith none none none (some (n.left.remove k)) none).fixUp
    else
      let n := n.readyRight
      let same : Bool := n.key.map (cmp k) = some .eq
      if same && n.right.isEmpty then emptyNode
      else
        let smallest := n.right.min
        let n := if same then
            n.copyWith smallest.key smallest.value none none (some n.right.removeMin)
          else n
        (n.copyWith none none none none (some (n.right.remove k))).fixUp
termination_by n => n.entries.length
decreasing_by
  · exact (length_children_lt (entries_readyLeft _) rfl).1
  · have below := (length_children_lt (entries_readyRight (valueNode k' x c l r)) rfl).2
    split
    · exact Nat.lt_of_le_of_lt (length_right_copyWith_le (length_removeMin_le _)) below
    · exact below

def insertKey (k : κ) (x : ν) : FLLRBNode κ ν → FLLRBNode κ ν
  | emptyNode => valueNode k x .red emptyNode emptyNode
  | valueNode k' x' c l r =>
    let n := valueNode k' x' c l r
    let n := match cmp k k' with
      | .lt => n.copyWith none none none (some (l.insertKey k x)) none
      | .eq => n.copyWith none (some x) none none none
      | .gt => n.copyWith none none none none (some (r.insertKey k x))
    n.fixUp

/-- `get:` goes down until it meets the key. -/
def get (k : κ) : FLLRBNode κ ν → Option ν
  | emptyNode => none
  | valueNode k' x _ l r =>
    match cmp k k' with
    | .eq => some x
    | .lt => l.get k
    | .gt => r.get k

/-- The reasons of the exceptions that `check` raises. -/
inductive CheckFailure (ν : Type v) where
  /-- "Red node has a red child" -/
  | redChild
  /-- "Right child is red" -/
  | redRight
  /-- "(value -> colour)blackDepth: left ; self.right check: right" -/
  | blackDepth (value : ν) (color : FLLRBColor) (left right : ℕ)

/-- The number of black nodes on the way to every empty node. -/
def check : FLLRBNode κ ν → Except (CheckFailure ν) ℕ
  | emptyNode => .ok 0
  | valueNode _ x c l r =>
    if c = .red && l.isRed then .error .redChild
    else if r.isRed then .error .redRight
    else do
      let blackDepth ← l.check
      let rightDepth ← r.check
      if blackDepth ≠ rightDepth then .error (.blackDepth x c blackDepth rightDepth)
      else return blackDepth + if c = .red then 0 else 1

/-- `checkMaxDepth` -/
def checkMaxDepth (n : FLLRBNode κ ν) : Except (CheckFailure ν) Bool := do
  let blackDepth ← n.check
  return 2 ^ blackDepth ≤ int (n.count + 1)

end FLLRBNode

end AstroAR
