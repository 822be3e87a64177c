import Mathlib.Data.Int.Notation
import Mathlib.Data.Rat.Defs
import AstroAR.Hierarchy
import AstroAR.Programs

/-!
# Loading a glTF file

`GLTFUnarchiver` makes SceneKit nodes out of the indices of a glTF file. It
keeps the node of each index in a table before it loads what hangs below it, so
that an index is loaded once however often the file names it. What the assets
of a node are made of, cameras, geometry, bind matrices and animations, is left
to `Assets`: their loaders may fail and keep tables of their own, but never touch
a node's children.
-/

namespace AstroAR

open Programs

/-- Why a load ends. `trap` is an array index out of range; `fuel` is no error of the code: it
marks the end of the recursion that a Lean function has to be given. -/
inductive Failure where
  | dataInconsistent (message : String)
  | notSupported (message : String)
  | unknown (message : String)
  | trap
  | fuel
deriving DecidableEq

structure GLTFNode where
  camera : Option ℤ
  mesh : Option ℤ
  skin : Option ℤ
  children : Option (List ℤ)
  _matrix : Option (List ℚ)
  _rotation : Option (List ℚ)
  _scale : Option (List ℚ)
  _translation : Option (List ℚ)

namespace GLTFNode

def rotation (n : GLTFNode) : List ℚ := n._rotation.getD [0, 0, 0, 1]

def scale (n : GLTFNode) : List ℚ := n._scale.getD [1, 1, 1]

def translation (n : GLTFNode) : List ℚ := n._translation.getD [0, 0, 0]

/-- A matrix stands alone, and every array has its components. -/
def TransformFits (n : GLTFNode) : Prop :=
  (∀ matrix ∈ n._matrix, 16 ≤ matrix.length ∧ n._rotation.isNone ∧ n._scale.isNone ∧
    n._translation.isNone) ∧
  (n._matrix.isNone → 4 ≤ n.rotation.length ∧ 3 ≤ n.scale.length ∧ 3 ≤ n.translation.length)

instance (n : GLTFNode) : Decidable n.TransformFits :=
  inferInstanceAs (Decidable ((∀ matrix ∈ n._matrix, 16 ≤ matrix.length ∧ n._rotation.isNone ∧
      n._scale.isNone ∧ n._translation.isNone) ∧
    (n._matrix.isNone → 4 ≤ n.rotation.length ∧ 3 ≤ n.scale.length ∧ 3 ≤ n.translation.length)))

end GLTFNode

/-- A mesh with the number of its primitives. -/
structure GLTFMesh where
  primitives : ℕ

structure GLTFSkin where
  joints : List ℤ
  inverseBindMatrices : Option ℤ
  skeleton : Option ℤ

/-- An animation with the target node of each of its channels. -/
structure GLTFAnimation where
  channels : List (Option ℤ)

/-- The decoded file. A scene is its list `nodes`. -/
structure GLTFGlTF where
  scene : Option ℤ
  scenes : Option (List (Option (List ℤ)))
  nodes : Option (List GLTFNode)
  meshes : Option (List GLTFMesh)
  skins : Option (List GLTFSkin)
  animations : Option (List GLTFAnimation)

/-- The loaders of everything that is no node, over tables of the type `σ`. -/
structure Assets (σ : Type) where
  loadCamera : ℤ → Program σ Failure Unit
  loadPrimitive : ℕ → ℕ → Program σ Failure Unit
  loadInverseBindMatrices : ℤ → Program σ Failure Unit
  loadSkinner : ℕ → List ℕ → ℕ → Program σ Failure Unit
  loadAnimation : ℕ → ℕ → Program σ Failure Unit
  getMaxAnimationDuration : Program σ Failure Unit

/-- The nodes that were made and the tables that name them. Nodes are numbered as they are made, and
`next` is the number of the next one. -/
structure NodeTable where
  graph : Hierarchy ℕ
  next : ℕ
  nodes : ℕ → Option ℕ
  meshes : ℕ → Option ℕ

/-- The state of an unarchiver. -/
structure Loader (σ : Type) extends NodeTable where
  scenes : ℕ → Option ℕ
  assets : σ

namespace GLTFUnarchiver
variable {σ : Type}

/-- A new unarchiver: `base` is the first number that no node has. -/
def init (base : ℕ) (assets : σ) : Loader σ where
  graph := Hierarchy.empty
  next := base
  nodes := fun _ => none
  meshes := fun _ => none
  scenes := fun _ => none
  assets := assets

abbrev Load (σ : Type) (α : Type) := Program (Loader σ) Failure α

/-- `SCNNode()` -/
def newNode : Load σ ℕ := fun l => .ok (l.next, { l with next := l.next + 1 })

def addChildNode (parent child : ℕ) : Load σ Unit :=
  modify fun l => { l with graph := l.graph.attach parent child }

def cacheNode (i node : ℕ) : Load σ Unit :=
  modify fun l => { l with nodes := Function.update l.nodes i (some node) }

def cacheMesh (k node : ℕ) : Load σ Unit :=
  modify fun l => { l with meshes := Function.update l.meshes k (some node) }

def cacheScene (i root : ℕ) : Load σ Unit :=
  modify fun l => { l with scenes := Function.update l.scenes i (some root) }

def onAssets (m : Program σ Failure Unit) : Load σ Unit :=
  within Loader.assets (fun l assets => { l with assets := assets }) m

def ifLet {α : Type} (x : Option α) (m : α → Load σ Unit) : Load σ Unit :=
  match x with
  | some a => m a
  | none => pure ()

/-- The guard with which every loader begins, and the access to its table that follows. -/
def checkIndex (loader : String) (index : ℤ) (count : ℕ) : Load σ ℕ :=
  if index < count then
    if 0 ≤ index then pure index.toNat else throw .trap
  else throw (.dataInconsistent s!"{loader}: out of index: {index} < {count}")

/-- The entry of an array of the file. -/
def entry {α : Type} (array : Option (List α)) (i : ℕ) (message : String) : Load σ α :=
  match array with
  | some l =>
    match l[i]? with
    | some a => pure a
    | none => throw .trap
  | none => throw (.dataInconsistent message)

def count {α : Type} (array : Option (List α)) : ℕ := (array.getD []).length

/-- `SCNNode.clone()` of a mesh, whose children have no children of their own. -/
def clone (node : ℕ) : Load σ ℕ := do
  let copy ← newNode
  let children := (← get).graph.childNodes node
  children.forM fun _ => do
    let child ← newNode
    addChildNode copy child
  return copy

def loadMesh (json : GLTFGlTF) (assets : Assets σ) (index : ℤ) : Load σ ℕ := do
  let k ← checkIndex "loadMesh" index (count json.meshes)
  match (← get).meshes k with
  | some mesh => clone mesh
  | none =>
    let glMesh ← entry json.meshes k "loadMesh: meshes it not defined"
    let node ← newNode
    cacheMesh k node
    (List.range glMesh.primitives).forM fun i => do
      let primitiveNode ← newNode
      onAssets (assets.loadPrimitive k i)
      addChildNode node primitiveNode
    return node

/-- The table of skins is never filled: a skin is loaded again for every mesh. -/
def loadSkin (json : GLTFGlTF) (assets : Assets σ) (loadNode : ℤ → Load σ ℕ) (index : ℤ)
    (meshNode : ℕ) : Load σ Unit := do
  let k ← checkIndex "loadSkin" index (count json.skins)
  let glSkin ← entry json.skins k "loadSkin: 'skins' is not defined"
  let joints ← glSkin.joints.mapM loadNode
  ifLet glSkin.inverseBindMatrices fun index => onAssets (assets.loadInverseBindMatrices index)
  ifLet glSkin.skeleton fun skeleton => do
    let _ ← loadNode skeleton
  onAssets (assets.loadSkinner k joints meshNode)

/-- `loadAnimation(forNode:)`, whose own call of `loadNode` finds the node in the table. -/
def loadAnimation (json : GLTFGlTF) (assets : Assets σ) (index : ℤ) : Load σ Unit :=
  ifLet json.animations fun animations =>
    animations.zipIdx.forM fun animation =>
      animation.1.channels.zipIdx.forM fun channel =>
        if channel.1 = some index then
          onAssets (assets.loadAnimation animation.2 channel.2)
        else pure ()

/-- The first numbers of an array; in a shorter one an index is out of range. -/
def components (count : ℕ) (array : List ℚ) : Load σ (List ℚ) :=
  if count ≤ array.length then pure (array.take count) else throw .trap

def createVector3 (vector : List ℚ) : Load σ (List ℚ) := components 3 vector

def createVector4 (vector : List ℚ) : Load σ (List ℚ) := components 4 vector

def createMatrix4 (matrix : List ℚ) : Load σ (List ℚ) := components 16 matrix

/-- No loader reads the transform that a node has been given. -/
def setTransform (glNode : GLTFNode) : Load σ Unit :=
  match glNode._matrix with
  | some matrix => do
    let _transform ← createMatrix4 matrix
    if glNode._rotation.isSome ∨ glNode._scale.isSome ∨ glNode._translation.isSome then
      throw (.dataInconsistent
        "loadNode: both matrix and rotation/scale/translation are defined")
    else pure ()
  | none => do
    let _orientation ← createVector4 glNode.rotation
    let _scale ← createVector3 glNode.scale
    let _position ← createVector3 glNode.translation
    pure ()

def loadNode (json : GLTFGlTF) (assets : Assets σ) : ℕ → ℤ → Load σ ℕ
  | 0, _ => throw .fuel
  | fuel + 1, index => do
    let i ← checkIndex "loadNode" index (count json.nodes)
    match (← get).nodes i with
    | some node => return node
    | none =>
      let glNode ← entry json.nodes i "loadNode: nodes is not defined"
      let scnNode ← newNode
      cacheNode i scnNode
      ifLet glNode.camera fun camera => onAssets (assets.loadCamera camera)
      ifLet glNode.mesh fun mesh => do
        let meshNode ← loadMesh json assets mesh
        addChildNode scnNode meshNode
        ifLet glNode.skin fun skin => loadSkin json assets (loadNode json assets fuel) skin meshNode
      setTransform glNode
      ifLet glNode.children fun children =>
        children.forM fun child => do
          let scnChild ← loadNode json assets fuel child
          addChildNode scnNode scnChild
      loadAnimation json assets index
      return scnNode

/-- The loaded scene is its root node. -/
def loadSceneAt (json : GLTFGlTF) (assets : Assets σ) (fuel : ℕ) (index : ℤ) : Load σ ℕ := do
  let i ← checkIndex "loadScene" index (count json.scenes)
  match (← get).scenes i with
  | some scene => return scene
  | none =>
    let glScene ← entry json.scenes i "loadScene: scenes is not defined"
    let rootNode ← newNode
    onAssets assets.getMaxAnimationDuration
    ifLet glScene fun nodes =>
      nodes.forM fun node => do
        let scnNode ← loadNode json assets fuel node
        addChildNode rootNode scnNode
    cacheScene i rootNode
    return rootNode

def loadScene (json : GLTFGlTF) (assets : Assets σ) (fuel : ℕ) : Load σ ℕ :=
  match json.scene with
  | some sceneIndex => loadSceneAt json assets fuel sceneIndex
  | none => loadSceneAt json assets fuel 0

section Rules
variable {l : Loader σ} {Q : ℕ → Loader σ → Prop} {T : Unit → Loader σ → Prop}
  {E : Failure → Prop}

theorem yields_newNode :
    Yields newNode l Q E ↔ Q l.next { l with next := l.next + 1 } :=
  yields_of_ok rfl

theorem yields_addChildNode {p c : ℕ} :
    Yields (addChildNode p c) l T E ↔ T () { l with graph := l.graph.attach p c } :=
  yields_of_ok rfl

theorem yields_cacheNode {i n : ℕ} : Yields (cacheNode i n) l T E ↔
    T () { l with nodes := Function.update l.nodes i (some n) } :=
  yields_of_ok rfl

theorem yields_cacheMesh {k n : ℕ} : Yields (cacheMesh k n) l T E ↔
    T () { l with meshes := Function.update l.meshes k (some n) } :=
  yields_of_ok rfl

theorem yields_cacheScene {i n : ℕ} : Yields (cacheScene i n) l T E ↔
    T () { l with scenes := Function.update l.scenes i (some n) } :=
  yields_of_ok rfl

theorem yields_onAssets {m : Program σ Failure Unit}
    (fails : ∀ s, Yields m s (fun _ _ => True) E)
    (hT : ∀ s, T () { l with assets := s }) : Yields (onAssets m) l T E := by
  refine (fails l.assets).within.mono ?_ fun _ h => h
  rintro ⟨⟩ _ ⟨s, _, rfl⟩
  exact hT s

theorem yields_ifLet {α : Type} {x : Option α} {m : α → Load σ Unit}
    (absent : x = none → T () l) (given : ∀ a, x = some a → Yields (m a) l T E) :
    Yields (ifLet x m) l T E := by
  cases x with
  | none => exact yields_pure.mpr (absent rfl)
  | some a => exact given a rfl

theorem yields_checkIndex {loader : String} {index : ℤ} {count : ℕ}
    (trap : index < 0 → E .trap)
    (outside : (count : ℤ) ≤ index →
      E (.dataInconsistent s!"{loader}: out of index: {index} < {count}"))
    (inside : ∀ i : ℕ, index = i → i < count → Q i l) :
    Yields (checkIndex loader index count) l Q E := by
  unfold checkIndex
  split
  · rename_i below
    split
    · rename_i above
      exact yields_pure.mpr (inside index.toNat (Int.toNat_of_nonneg above).symm (by omega))
    · rename_i negative
      exact yields_throw.mpr (trap (by omega))
  · rename_i high
    exact yields_throw.mpr (outside (by omega))

/-- An index below the count of an array finds its entry: no other error can come. -/
theorem yields_entry {α : Type} {array : Option (List α)} {i : ℕ} {message : String}
    {R : α → Loader σ → Prop} (inside : i < count array)
    (found : ∀ a, (array.getD [])[i]? = some a → R a l) :
    Yields (entry array i message) l R E := by
  unfold entry count at *
  cases array with
  | none => simp at inside
  | some list =>
    simp only [Option.getD_some] at inside found
    have hget := List.getElem?_eq_getElem inside
    simp only [hget]
    exact yields_pure.mpr (found _ hget)

/-- Components are taken from an array that has them, which changes nothing. -/
theorem yields_components_bind {α : Type} {count : ℕ} {array : List ℚ} {f : List ℚ → Load σ α}
    {R : α → Loader σ → Prop} (short : array.length < count → E .trap)
    (rest : Yields (f (array.take count)) l R E) :
    Yields (components count array >>= f) l R E := by
  unfold components
  split
  · exact yields_bind.mpr (yields_pure.mpr rest)
  · exact yields_bind.mpr (yields_throw.mpr (short (by omega)))

/-- The transform of a node leaves everything as it is and fails only if it does not fit. -/
theorem yields_setTransform {glNode : GLTFNode}
    (fails : ¬ glNode.TransformFits → ∀ e, e ≠ .fuel → E e) (hT : T () l) :
    Yields (setTransform glNode) l T E := by
  have trap : ∀ {P : Prop}, (glNode.TransformFits → ¬ P) → P → E .trap :=
    fun fits h => fails (fun hfits => fits hfits h) .trap (by simp)
  unfold setTransform
  split
  · rename_i matrix given
    refine yields_components_bind (trap fun fits => ?_) ?_
    · exact Nat.not_lt.mpr (fits.1 matrix given).1
    split
    · rename_i both
      refine yields_throw.mpr (fails (fun fits => ?_) _ (by simp))
      obtain ⟨_, rotation, scale, translation⟩ := fits.1 matrix given
      rw [Option.isNone_iff_eq_none] at rotation scale translation
      simp [rotation, scale, translation] at both
    · exact yields_pure.mpr hT
  · rename_i absent
    have alone : glNode._matrix.isNone := by rw [absent]; rfl
    refine yields_components_bind (trap fun fits => Nat.not_lt.mpr (fits.2 alone).1) ?_
    refine yields_components_bind (trap fun fits => Nat.not_lt.mpr (fits.2 alone).2.1) ?_
    refine yields_components_bind (trap fun fits => Nat.not_lt.mpr (fits.2 alone).2.2) ?_
    exact yields_pure.mpr hT

end Rules

/-- The assets fail with errors of a kind only. -/
structure FailsIn (assets : Assets σ) (E : Failure → Prop) : Prop where
  loadCamera : ∀ i s, Yields (assets.loadCamera i) s (fun _ _ => True) E
  loadPrimitive : ∀ k i s, Yields (assets.loadPrimitive k i) s (fun _ _ => True) E
  loadInverseBindMatrices : ∀ i s,
    Yields (assets.loadInverseBindMatrices i) s (fun _ _ => True) E
  loadSkinner : ∀ k joints node s,
    Yields (assets.loadSkinner k joints node) s (fun _ _ => True) E
  loadAnimation : ∀ i j s, Yields (assets.loadAnimation i j) s (fun _ _ => True) E
  getMaxAnimationDuration : ∀ s,
    Yields assets.getMaxAnimationDuration s (fun _ _ => True) E

theorem FailsIn.mono {assets : Assets σ} {E F : Failure → Prop} (h : FailsIn assets E)
    (weaker : ∀ e, E e → F e) : FailsIn assets F where
  loadCamera := fun i s => (h.loadCamera i s).mono (fun _ _ h => h) weaker
  loadPrimitive := fun k i s => (h.loadPrimitive k i s).mono (fun _ _ h => h) weaker
  loadInverseBindMatrices := fun i s =>
    (h.loadInverseBindMatrices i s).mono (fun _ _ h => h) weaker
  loadSkinner := fun k joints node s =>
    (h.loadSkinner k joints node s).mono (fun _ _ h => h) weaker
  loadAnimation := fun i j s => (h.loadAnimation i j s).mono (fun _ _ h => h) weaker
  getMaxAnimationDuration := fun s =>
    (h.getMaxAnimationDuration s).mono (fun _ _ h => h) weaker

/-- Nothing is known of the errors of assets. -/
theorem FailsIn.any (assets : Assets σ) : FailsIn assets fun _ => True := by
  constructor <;> (intros; exact ⟨fun _ => trivial, fun _ => trivial⟩)

/-- Assets that never fail. -/
def noAssets : Assets Unit where
  loadCamera := fun _ => pure ()
  loadPrimitive := fun _ _ => pure ()
  loadInverseBindMatrices := fun _ => pure ()
  loadSkinner := fun _ _ _ => pure ()
  loadAnimation := fun _ _ => pure ()
  getMaxAnimationDuration := pure ()

theorem noAssets_fails (E : Failure → Prop) : FailsIn noAssets E :=
  ⟨fun _ _ => yields_pure.mpr trivial, fun _ _ _ => yields_pure.mpr trivial,
    fun _ _ => yields_pure.mpr trivial, fun _ _ _ _ => yields_pure.mpr trivial,
    fun _ _ _ => yields_pure.mpr trivial, fun _ => yields_pure.mpr trivial⟩

def plainNode (mesh skin : Option ℤ) (children : List ℤ) : GLTFNode :=
  ⟨none, mesh, skin, some children, none, none, none, none⟩

/-- The indices whose node has not been made. -/
def missing (l : Loader σ) (count : ℕ) : ℕ :=
  (List.range count).countP fun i => (l.nodes i).isNone

theorem missing_le (l : Loader σ) (count : ℕ) : missing l count ≤ count :=
  Nat.le_trans List.countP_le_length (by simp)

/-- No node is made twice. -/
def Grows (l l' : Loader σ) : Prop := ∀ i, (l.nodes i).isSome → (l'.nodes i).isSome

theorem Grows.refl (l : Loader σ) : Grows l l := fun _ h => h

theorem Grows.trans {l l' l'' : Loader σ} (h : Grows l l') (h' : Grows l' l'') : Grows l l'' :=
  fun i hi => h' i (h i hi)

theorem Grows.missing_le {l l' : Loader σ} (h : Grows l l') (count : ℕ) :
    missing l' count ≤ missing l count := by
  refine List.countP_mono_left fun i _ hi => ?_
  cases hn : l.nodes i with
  | none => rfl
  | some n =>
    have made := h i (by rw [hn]; rfl)
    rw [Option.isNone_iff_eq_none] at hi
    rw [hi] at made
    cases made

theorem missing_cache_lt {l l' : Loader σ} {i n count : ℕ} (hi : i < count)
    (absent : l.nodes i = none) (hl' : l'.nodes = Function.update l.nodes i (some n)) :
    missing l' count < missing l count := by
  have grows : ∀ j, (l'.nodes j).isNone → (l.nodes j).isNone := by
    intro j hj
    rw [hl'] at hj
    by_cases hji : j = i
    · subst hji
      simp at hj
    · rwa [Function.update_of_ne hji] at hj
  unfold missing
  rw [List.countP_eq_length_filter, List.countP_eq_length_filter]
  have sub : ((List.range count).filter fun j => (l'.nodes j).isNone).Sublist
      ((List.range count).filter fun j => (l.nodes j).isNone) :=
    List.monotone_filter_right _ grows
  refine Nat.lt_of_le_of_ne sub.length_le fun heq => ?_
  have same := sub.eq_of_length heq
  have hmem : i ∈ (List.range count).filter fun j => (l.nodes j).isNone := by
    simp [hi, absent]
  rw [← same] at hmem
  simp [hl'] at hmem

section Terminates
variable {json : GLTFGlTF} {assets : Assets σ}

/-- The loaders other than `loadNode` leave the table of nodes alone. -/
theorem clone_grows (node : ℕ) (l : Loader σ) :
    Yields (clone node) l (fun _ l' => Grows l l') (· ≠ .fuel) := by
  unfold clone
  refine yields_bind.mpr (yields_newNode.mpr (yields_bind.mpr (yields_get.mpr ?_)))
  refine Yields.bind (Yields.forM (I := fun _ l' => Grows l l') (Grows.refl l) ?_)
    fun _ _ h => yields_pure.mpr h
  intro _ _ _ _ t ht
  exact yields_bind.mpr (yields_newNode.mpr (yields_addChildNode.mpr ht))

theorem loadMesh_grows (fails : FailsIn assets (· ≠ .fuel)) (index : ℤ) (l : Loader σ) :
    Yields (loadMesh json assets index) l (fun _ l' => Grows l l') (· ≠ .fuel) := by
  unfold loadMesh
  refine Yields.bind (yields_checkIndex (Q := fun k l' => l = l' ∧ k < count json.meshes)
    (by simp) (by simp) fun k _ hk => ⟨rfl, hk⟩) ?_
  rintro k _ ⟨rfl, hk⟩
  refine yields_bind.mpr (yields_get.mpr ?_)
  split
  · exact clone_grows _ l
  · refine yields_bind.mpr (yields_entry hk fun glMesh _ => ?_)
    refine yields_bind.mpr (yields_newNode.mpr (yields_bind.mpr (yields_cacheMesh.mpr ?_)))
    refine Yields.bind (Yields.forM (I := fun _ l' => Grows l l') (Grows.refl l) ?_)
      fun _ _ h => yields_pure.mpr h
    intro _ i _ _ t ht
    refine yields_bind.mpr (yields_newNode.mpr (yields_bind.mpr ?_))
    exact yields_onAssets (fails.loadPrimitive k i) fun _ => yields_addChildNode.mpr ht

theorem loadAnimation_grows (fails : FailsIn assets (· ≠ .fuel)) (index : ℤ) (l : Loader σ) :
    Yields (loadAnimation json assets index) l (fun _ l' => Grows l l') (· ≠ .fuel) := by
  refine yields_ifLet (fun _ => Grows.refl l) fun animations _ => ?_
  refine Yields.forM (I := fun _ l' => Grows l l') (Grows.refl l) ?_
  intro _ animation _ _ t ht
  refine Yields.forM (I := fun _ l' => Grows l l') ht ?_
  intro _ channel _ _ t' ht'
  split
  · exact yields_onAssets (fails.loadAnimation _ _) fun _ => ht'
  · exact yields_pure.mpr ht'

theorem loadSkin_grows (fails : FailsIn assets (· ≠ .fuel)) {loadNode : ℤ → Load σ ℕ}
    {l₀ : Loader σ} (hload : ∀ index l, Grows l₀ l →
      Yields (loadNode index) l (fun _ l' => Grows l l') (· ≠ .fuel))
    (index : ℤ) (meshNode : ℕ) (l : Loader σ) (hl : Grows l₀ l) :
    Yields (loadSkin json assets loadNode index meshNode) l (fun _ l' => Grows l l')
      (· ≠ .fuel) := by
  unfold loadSkin
  refine Yields.bind (yields_checkIndex (Q := fun k l' => l = l' ∧ k < count json.skins)
    (by simp) (by simp) fun k _ hk => ⟨rfl, hk⟩) ?_
  rintro k _ ⟨rfl, hk⟩
  refine yields_bind.mpr (yields_entry hk fun glSkin _ => ?_)
  refine Yields.bind (Yields.mapM (I := fun _ _ l' => Grows l l') (Grows.refl l) ?_) ?_
  · intro _ joint _ _ _ t ht
    exact (hload joint t (hl.trans ht)).mono (fun _ _ h => ht.trans h) fun _ h => h
  intro joints t ht
  refine Yields.bind (Q := fun _ l' => Grows l l')
    (yields_ifLet (fun _ => ht) fun i _ => yields_onAssets (fails.loadInverseBindMatrices i)
      fun _ => ht) fun _ t' ht' => ?_
  refine Yields.bind (Q := fun _ l' => Grows l l')
    (yields_ifLet (fun _ => ht') fun skeleton _ => ?_) fun _ t'' ht'' => ?_
  · refine Yields.bind (hload skeleton t' (hl.trans ht')) fun _ _ h => ?_
    exact yields_pure.mpr (ht'.trans h)
  · exact yields_onAssets (fails.loadSkinner _ _ _) fun _ => ht''

/-- With more fuel than there are nodes to be made, `loadNode` ends on its own, on every file. -/
theorem loadNode_grows (fails : FailsIn assets (· ≠ .fuel)) {fuel : ℕ} {index : ℤ}
    {l : Loader σ} (enough : missing l (count json.nodes) < fuel) :
    Yields (loadNode json assets fuel index) l (fun _ l' => Grows l l') (· ≠ .fuel) := by
  induction fuel generalizing index l with
  | zero => omega
  | succ fuel ih =>
    rw [loadNode]
    refine Yields.bind (yields_checkIndex (Q := fun i l' => l = l' ∧ i < count json.nodes)
      (by simp) (by simp) fun i _ hi => ⟨rfl, hi⟩) ?_
    rintro i _ ⟨rfl, hi⟩
    refine yields_bind.mpr (yields_get.mpr ?_)
    split
    · exact yields_pure.mpr (Grows.refl l)
    rename_i absent
    refine yields_bind.mpr (yields_entry hi fun glNode _ => ?_)
    refine yields_bind.mpr (yields_newNode.mpr (yields_bind.mpr (yields_cacheNode.mpr ?_)))
    -- from here on the node stands in the table, and what is still missing is less
    let l₁ : Loader σ :=
      { l with next := l.next + 1, nodes := Function.update l.nodes i (some l.next) }
    have hl₁ : Grows l l₁ := by
      intro j hj
      by_cases hji : j = i
      · subst hji
        simp [l₁]
      · simpa only [l₁, Function.update_of_ne hji] using hj
    have less : ∀ l', Grows l₁ l' → missing l' (count json.nodes) < fuel := by
      intro l' h
      have first : missing l₁ (count json.nodes) < missing l (count json.nodes) :=
        missing_cache_lt hi absent rfl
      have later := h.missing_le (count json.nodes)
      omega
    have again : ∀ index l', Grows l₁ l' → Yields (loadNode json assets fuel index) l'
        (fun _ l'' => Grows l₁ l'') (· ≠ .fuel) := fun index l' h =>
      (ih (less l' h)).mono (fun _ _ h' => h.trans h') fun _ h' => h'
    change Yields _ l₁ _ _
    refine Yields.bind (Q := fun _ l' => Grows l₁ l')
      (yields_ifLet (fun _ => Grows.refl l₁) fun camera _ =>
        yields_onAssets (fails.loadCamera camera) fun _ => Grows.refl l₁) fun _ l₂ h₂ => ?_
    refine Yields.bind (Q := fun _ l' => Grows l₁ l')
      (yields_ifLet (fun _ => h₂) fun mesh _ => ?_) fun _ l₃ h₃ => ?_
    · refine Yields.bind (loadMesh_grows fails mesh l₂) fun meshNode t ht => ?_
      refine yields_bind.mpr (yields_addChildNode.mpr ?_)
      have htt : Grows l₁ t := h₂.trans ht
      refine yields_ifLet (fun _ => htt) fun skin _ => ?_
      exact (loadSkin_grows fails (fun index l' h => ih (less l' (htt.trans h))) skin meshNode
        { t with graph := t.graph.attach l.next meshNode } (Grows.refl _)).mono
          (fun _ _ h => htt.trans h) fun _ h => h
    refine Yields.bind (Q := fun _ l' => Grows l₁ l') ?_ fun _ l₄ h₄ => ?_
    · exact yields_setTransform (fun _ _ h => h) h₃
    refine Yields.bind (Q := fun _ l' => Grows l₁ l')
      (yields_ifLet (fun _ => h₄) fun children _ => ?_) fun _ l₅ h₅ => ?_
    · refine Yields.forM (I := fun _ l' => Grows l₁ l') h₄ fun _ child _ _ t ht => ?_
      exact Yields.bind (again child t ht) fun _ _ h => yields_addChildNode.mpr h
    refine Yields.bind (loadAnimation_grows fails index l₅) fun _ _ h => ?_
    exact yields_pure.mpr (hl₁.trans (h₅.trans h))

theorem loadSceneAt_ends (fails : FailsIn assets (· ≠ .fuel)) {fuel : ℕ} {index : ℤ}
    {l : Loader σ} (enough : missing l (count json.nodes) < fuel) :
    Yields (loadSceneAt json assets fuel index) l (fun _ _ => True) (· ≠ .fuel) := by
  unfold loadSceneAt
  refine Yields.bind (yields_checkIndex (Q := fun i l' => l = l' ∧ i < count json.scenes)
    (by simp) (by simp) fun i _ hi => ⟨rfl, hi⟩) ?_
  rintro i _ ⟨rfl, hi⟩
  refine yields_bind.mpr (yields_get.mpr ?_)
  split
  · exact yields_pure.mpr trivial
  refine yields_bind.mpr (yields_entry hi fun glScene _ => ?_)
  refine yields_bind.mpr (yields_newNode.mpr (yields_bind.mpr ?_))
  refine yields_onAssets fails.getMaxAnimationDuration fun s => ?_
  refine Yields.bind (Q := fun _ l' => Grows l l')
    (yields_ifLet (fun _ => Grows.refl l) fun nodes _ => ?_) fun _ _ _ => ?_
  · refine Yields.forM (I := fun _ l' => Grows l l') (Grows.refl l) fun _ node _ _ t ht => ?_
    have less := ht.missing_le (count json.nodes)
    refine Yields.bind (loadNode_grows fails (by omega)) fun _ _ h => ?_
    exact yields_addChildNode.mpr (ht.trans h)
  · exact yields_bind.mpr (yields_cacheScene.mpr (yields_pure.mpr trivial))

/-- On every file, also one whose nodes are their own descendants, the recursion of the unarchiver
ends: its depth stays below the number of nodes in the file. -/
theorem loadScene_ends (json : GLTFGlTF) (fails : FailsIn assets (· ≠ .fuel)) (tables : σ)
    (base : ℕ) {fuel : ℕ} (enough : count json.nodes < fuel) :
    Yields (loadScene json assets fuel) (init base tables) (fun _ _ => True) (· ≠ .fuel) := by
  have all : missing (init base tables) (count json.nodes) < fuel :=
    Nat.lt_of_le_of_lt (missing_le _ _) enough
  unfold loadScene
  split
  · exact loadSceneAt_ends fails all
  · exact loadSceneAt_ends fails all

/-- Two nodes that list each other. -/
def cyclic : GLTFGlTF where
  scene := none
  scenes := some [some [0]]
  nodes := some [plainNode none none [1], plainNode none none [0, 1]]
  meshes := none
  skins := none
  animations := none

theorem loadScene_ends_cyclic :
    loadScene cyclic noAssets 3 (init 0 ()) ≠ .error .fuel := by
  have enough : count cyclic.nodes < 3 := by decide
  exact fun h => (loadScene_ends cyclic (noAssets_fails _) () 0 enough).of_error h rfl

end Terminates

end GLTFUnarchiver

end AstroAR
