import Mathlib.Data.Prod.Lex
import AstroAR.Operations

/-!
# The collision pass

`runColliderDetector` compares all ordered pairs of the children of
`sceneContent` in two nested loops over indices. It fixes the bound of the outer
loop once and that of the inner loop once for each turn of the outer one, but
reads the list again for every access. Between any two of its steps the rest of
the app goes on: the other queues, and the detectors that the pass itself calls.
-/

namespace AstroAR

open Runs

universe u v w

/-- Where the pass is, with its loop variables, the bounds of its loops and the nodes read. -/
inductive PassState (ι : Type u) where
  | start
  | outer (nA countA : ℕ)
  | inner (nA countA nB countB : ℕ)
  /-- `lhs` is read, `rhs` is not -/
  | readRhs (nA countA nB countB : ℕ) (lhs : ι)
  | compare (nA countA nB countB : ℕ) (lhs rhs : ι)
  | done
  /-- an index was out of range -/
  | trapped
  deriving DecidableEq

/-- One step of the pass, where `children` is what the step reads if it reads the list. -/
def PassState.next {ι : Type u} (children : List ι) : PassState ι → PassState ι
  | .start => .outer 0 children.length
  | .outer nA countA =>
    if nA < countA then .inner nA countA 0 children.length else .done
  | .inner nA countA nB countB =>
    if nB < countB then
      if nA ≠ nB then
        match children[nA]? with
        | some lhs => .readRhs nA countA nB countB lhs
        | none => .trapped
      else .inner nA countA (nB + 1) countB
    else .outer (nA + 1) countA
  | .readRhs nA countA nB countB lhs =>
    match children[nB]? with
    | some rhs => .compare nA countA nB countB lhs rhs
    | none => .trapped
  | .compare nA countA nB countB _ _ => .inner nA countA (nB + 1) countB
  | .done => .done
  | .trapped => .trapped

namespace PassState
variable {ι : Type u} {children : List ι} {s : PassState ι}

/-- What the loops guarantee of their own variables. -/
def Proper : PassState ι → Prop
  | .inner nA countA _ _ => nA < countA
  | .readRhs nA countA nB countB _ => nA < countA ∧ nB < countB
  | .compare nA countA nB countB _ _ => nA < countA ∧ nB < countB
  | _ => True

theorem Proper.next (h : s.Proper) : (s.next children).Proper := by
  cases s with
  | outer nA countA =>
    simp only [PassState.next]
    split
    · assumption
    · trivial
  | inner nA countA nB countB =>
    simp only [PassState.next]
    split_ifs with hB _
    · split
      · exact ⟨h, hB⟩
      · trivial
    · exact h
    · trivial
  | readRhs nA countA nB countB lhs =>
    simp only [PassState.next]
    split
    · exact h
    · trivial
  | compare nA countA nB countB lhs rhs => exact h.1
  | _ => trivial

/-- How much of the pass is left: the turns of the outer loop, then those of the inner one. -/
def rank : PassState ι → ℕ ×ₗ ℕ ×ₗ ℕ
  | .start => toLex (1, toLex (0, 0))
  | .outer nA countA => toLex (0, toLex (2 * (countA - nA) + 1, 0))
  | .inner nA countA nB countB => toLex (0, toLex (2 * (countA - nA), 3 * (countB - nB)))
  | .readRhs nA countA nB countB _ => toLex (0, toLex (2 * (countA - nA), 3 * (countB - nB) - 1))
  | .compare nA countA nB countB _ _ => toLex (0, toLex (2 * (countA - nA), 3 * (countB - nB) - 2))
  | .done => toLex (0, toLex (0, 0))
  | .trapped => toLex (0, toLex (0, 0))

theorem rank_lt_iff {a b c a' b' c' : ℕ} :
    (toLex (a, toLex (b, c)) : ℕ ×ₗ ℕ ×ₗ ℕ) < toLex (a', toLex (b', c')) ↔
      a < a' ∨ a = a' ∧ (b < b' ∨ b = b' ∧ c < c') := by
  simp only [Prod.Lex.toLex_lt_toLex]

/-- Every step of the pass leaves less of it, whatever it reads. -/
theorem rank_next (h : s.Proper) (hdone : s ≠ .done) (htrap : s ≠ .trapped) :
    (s.next children).rank < s.rank := by
  cases s with
  | start => simp [PassState.next, rank, rank_lt_iff]
  | outer nA countA =>
    simp only [PassState.next]
    split <;> simp [rank, rank_lt_iff]
  | inner nA countA nB countB =>
    have hA : nA < countA := h
    simp only [PassState.next]
    split_ifs with hB _
    · split <;> simp only [rank, rank_lt_iff, true_and] <;> omega
    · simp only [rank, rank_lt_iff, true_and]
      omega
    · simp only [rank, rank_lt_iff, true_and]
      omega
  | readRhs nA countA nB countB lhs =>
    obtain ⟨hA, hB⟩ := h
    simp only [PassState.next]
    split <;> simp only [rank, rank_lt_iff, true_and] <;> omega
  | compare nA countA nB countB lhs rhs =>
    obtain ⟨hA, hB⟩ := h
    simp only [PassState.next, rank, rank_lt_iff, true_and]
    omega
  | done => contradiction
  | trapped => contradiction

end PassState

/-- How the app measures distances between positions of type `π`, and what counts as close. -/
structure Detection (π : Type u) (δ : Type v) where
  simd_distance : π → π → δ
  collisionThreshold : δ

/-- The app while a pass is under way. `φ` are the script functions. `compared`, `emitted` and
`called` are histories that no step reads: the pairs whose positions were compared, those for
which `emitCollision` was called, and the detectors that were called, with their arguments. -/
structure Frame (ι : Type u) (κ : Type v) (π φ : Type w) where
  world : World ι κ
  simdPosition : ι → π
  collisionDetectionCallback : ι → Option φ
  pass : PassState ι
  compared : List (ι × ι)
  emitted : List (ι × ι)
  called : List (φ × ι)

inductive FrameAction (ι : Type u) (κ : Type v) (π φ : Type w) where
  /-- the pass takes a step -/
  | pass
  /-- another queue or the host app takes a step -/
  | app (a : Action ι κ)
  /-- a detector that the pass has called performs an operation, whatever `jsQueue` is doing -/
  | callback (op : Operation ι κ)
  /-- a script or an animation moves a node -/
  | updatePosition (n : ι) (value : π)
  | setCollisionDetector (n : ι) (cb : φ)

variable {ι : Type u} {κ : Type v} {π φ : Type w}

namespace Frame

/-- `self.sceneContent.children` -/
def children (f : Frame ι κ π φ) : List ι :=
  Node.children f.world.scene f.world.scene.sceneContent

def emitCollision (f : Frame ι κ π φ) (self rhs : ι) : Frame ι κ π φ :=
  match f.collisionDetectionCallback self with
  | some cb =>
    { f with emitted := f.emitted ++ [(self, rhs)], called := f.called ++ [(cb, rhs)] }
  | none => { f with emitted := f.emitted ++ [(self, rhs)] }

variable {δ : Type w} [LT δ] [DecidableLT δ]

/-- The body of the inner loop, once both nodes are read. -/
def compare (d : Detection π δ) (f : Frame ι κ π φ) (lhs rhs : ι) : Frame ι κ π φ :=
  let f := { f with compared := f.compared ++ [(lhs, rhs)] }
  if d.simd_distance (f.simdPosition lhs) (f.simdPosition rhs) < d.collisionThreshold then
    f.emitCollision lhs rhs
  else f

def stepPass (d : Detection π δ) (f : Frame ι κ π φ) : Option (Frame ι κ π φ) :=
  match f.pass with
  | .done => none
  | .trapped => none
  | .compare _ _ _ _ lhs rhs => some { f.compare d lhs rhs with pass := f.pass.next f.children }
  | _ => some { f with pass := f.pass.next f.children }

/-- A comparison enters the histories and changes nothing else. -/
theorem compare_eq (d : Detection π δ) (f : Frame ι κ π φ) (lhs rhs : ι) :
    f.compare d lhs rhs = { f with
      compared := f.compared ++ [(lhs, rhs)]
      emitted := if d.simd_distance (f.simdPosition lhs) (f.simdPosition rhs) <
        d.collisionThreshold then f.emitted ++ [(lhs, rhs)] else f.emitted
      called := if d.simd_distance (f.simdPosition lhs) (f.simdPosition rhs) <
        d.collisionThreshold then
          f.called ++ (f.collisionDetectionCallback lhs).toList.map fun cb => (cb, rhs)
        else f.called } := by
  by_cases near :
    d.simd_distance (f.simdPosition lhs) (f.simdPosition rhs) < d.collisionThreshold
  · cases hcb : f.collisionDetectionCallback lhs <;> simp [compare, emitCollision, near, hcb]
  · simp [compare, near]

/-- A step of the pass goes on to the next place; if it compares, it also enters the histories. -/
theorem stepPass_cases {d : Detection π δ} {f f' : Frame ι κ π φ}
    (hstep : f.stepPass d = some f') :
    (∃ nA countA nB countB lhs rhs, f.pass = .compare nA countA nB countB lhs rhs ∧
      f' = { f.compare d lhs rhs with pass := .inner nA countA (nB + 1) countB }) ∨
    ((∀ nA countA nB countB lhs rhs, f.pass ≠ .compare nA countA nB countB lhs rhs) ∧
      f.pass ≠ .done ∧ f' = { f with pass := f.pass.next f.children }) := by
  unfold stepPass at hstep
  split at hstep
  · cases hstep
  · cases hstep
  · rename_i nA countA nB countB lhs rhs hpass
    cases hstep
    rw [hpass]
    exact Or.inl ⟨nA, countA, nB, countB, lhs, rhs, rfl, rfl⟩
  · rename_i hdone _ hcompare
    cases hstep
    exact Or.inr ⟨hcompare, hdone, rfl⟩

theorem stepPass_world {d : Detection π δ} {f f' : Frame ι κ π φ}
    (hstep : f.stepPass d = some f') : f'.world = f.world := by
  rcases stepPass_cases hstep with ⟨_, _, _, _, lhs, rhs, _, rfl⟩ | ⟨_, _, rfl⟩
  · rw [compare_eq]
  · rfl

theorem stepPass_children {d : Detection π δ} {f f' : Frame ι κ π φ}
    (hstep : f.stepPass d = some f') : f'.children = f.children := by
  simp only [children, stepPass_world hstep]

theorem stepPass_pass {d : Detection π δ} {f f' : Frame ι κ π φ}
    (hstep : f.stepPass d = some f') : f'.pass = f.pass.next f.children := by
  rcases stepPass_cases hstep with ⟨_, _, _, _, _, _, hpass, rfl⟩ | ⟨_, _, rfl⟩
  · rw [hpass]
    rfl
  · rfl

/-- The pass can always take a step until it is done or has trapped. -/
theorem stepPass_enabled (d : Detection π δ) {f : Frame ι κ π φ} (hdone : f.pass ≠ .done)
    (htrap : f.pass ≠ .trapped) : ∃ f', f.stepPass d = some f' := by
  unfold stepPass
  split
  · contradiction
  · contradiction
  · exact ⟨_, rfl⟩
  · exact ⟨_, rfl⟩

end Frame

namespace Frame
variable {δ : Type w} [LT δ] [DecidableLT δ] [DecidableEq ι] [DecidableEq κ]

def step (d : Detection π δ) (f : Frame ι κ π φ) :
    FrameAction ι κ π φ → Option (Frame ι κ π φ)
  | .pass => f.stepPass d
  | .app a => (f.world.step a).map fun w => { f with world := w }
  | .callback op => (f.world.callback op).map fun w => { f with world := w }
  | .updatePosition n value =>
    some { f with simdPosition := fun x => if x = n then value else f.simdPosition x }
  | .setCollisionDetector n cb =>
    some { f with
      collisionDetectionCallback := fun x =>
        if x = n then some cb else f.collisionDetectionCallback x }

/-- A pass is about to begin. -/
def begin (world : World ι κ) (simdPosition : ι → π)
    (collisionDetectionCallback : ι → Option φ) : Frame ι κ π φ :=
  ⟨world, simdPosition, collisionDetectionCallback, .start, [], [], []⟩

end Frame

/-! ## The app stays valid -/

section Valid
variable [DecidableEq ι] [DecidableEq κ]
variable {δ : Type w} [LT δ] [DecidableLT δ] {d : Detection π δ}

theorem Frame.step_valid {f f' : Frame ι κ π φ} (h : Valid f.world) {a : FrameAction ι κ π φ}
    (hstep : f.step d a = some f') : Valid f'.world := by
  cases a with
  | pass =>
    rw [Frame.stepPass_world (d := d) hstep]
    exact h
  | app a =>
    obtain ⟨w, hw, rfl⟩ := Option.map_eq_some_iff.mp hstep
    exact h.step hw
  | callback op =>
    obtain ⟨w, hw, rfl⟩ := Option.map_eq_some_iff.mp hstep
    exact h.callback hw
  | updatePosition n value =>
    cases hstep
    exact h
  | setCollisionDetector n cb =>
    cases hstep
    exact h

end Valid

end AstroAR
