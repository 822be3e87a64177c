import AstroAR.Runs
import AstroAR.Scene

/-!
# Scripts, imports and the host app around one scene

The scene is shared by the script on `jsQueue`, the loader on `loadGLTFQueue`,
the app's own thread and the host app. Each action is one atomic step of one of
them; `adding` and `scanning` hold the step that `jsQueue` and `loadGLTFQueue`
are in the middle of, so a queue never starts a second operation before the
first is done. New nodes and UUIDs are arguments of the actions and must be
unused.
-/

namespace AstroAR

open Runs

universe u v

/-- What a node is for, fixed when it is created. `made` is a node from `Mosaico.node()`;
a placeholder, a wrapper and the raw nodes of a model carry the key of their import. -/
inductive Role (κ : Type v) where
  | unused
  | root
  | content
  | host
  | made
  | placeholder (key : κ)
  | wrapper (key : κ)
  | loaded (key : κ)
  deriving DecidableEq

namespace Role
variable {κ : Type v} {p c : Role κ} {k : κ}

/-- The instances of `Node` that scripts and imports create. -/
def ScriptNode : Role κ → Prop
  | .made => True
  | .placeholder _ => True
  | .wrapper _ => True
  | _ => False

/-- Everything that scripts and imports create. -/
def ScriptOwned : Role κ → Prop
  | .loaded _ => True
  | r => r.ScriptNode

def isPlaceholder : Role κ → Bool
  | .placeholder _ => true
  | _ => false

theorem isPlaceholder_iff {r : Role κ} : r.isPlaceholder = true ↔ ∃ key, r = .placeholder key := by
  cases r <;> simp [isPlaceholder]

end Role

/-- A finished load: the node made by `getNode` and the model it received. -/
structure Load (ι : Type u) where
  wrapper : ι
  model : GLTFScene ι

/-- `held` are the nodes that script variables can name. `placeholder` and `load` record, for
every key, what `importModel` returned and what its request delivered. -/
structure World (ι : Type u) (κ : Type v) where
  scene : Scene ι κ
  role : ι → Role κ
  held : List ι
  placeholder : κ → Option ι
  load : κ → Option (Load ι)
  adding : Option ι
  scanning : Option (κ × ι)

inductive Action (ι : Type u) (κ : Type v) where
  /-- `Mosaico.node()` -/
  | node (n : ι)
  /-- `Mosaico.importModel(…)`, which returns the placeholder `n` -/
  | importModel (n : ι) (key : κ)
  /-- the script reads `scene.nodes` -/
  | nodes
  /-- the script reads `n.children` -/
  | children (n : ι)
  /-- `parent.add(child)` -/
  | nodeAdd (parent child : ι)
  /-- `scene.add(n)` starts -/
  | addLookup (n : ι)
  /-- `scene.add` ends -/
  | addAppend
  /-- a request fires, `getNode` fills `gltfNode` and the closure stores it -/
  | store (key : κ) (gltfNode : ι) (m : GLTFScene ι)
  /-- the closure scans the scene -/
  | scan
  | removeSceneContent
  /-- the host app adds a fresh node, of the class `Node` or not -/
  | host (parent n : ι) (isNode : Bool)

variable {ι : Type u} {κ : Type v} [DecidableEq ι] [DecidableEq κ]

namespace World

/-- The app after `Engine.init`: no script has run. -/
def init (root content : ι) : World ι κ where
  scene := Scene.init root content
  role := fun n => if n = root then .root else if n = content then .content else .unused
  held := []
  placeholder := fun _ => none
  load := fun _ => none
  adding := none
  scanning := none

/-- One atomic step. A refused action is one whose queue is busy or whose arguments the
script cannot name, or, for `scan`, one that traps. -/
def step (w : World ι κ) : Action ι κ → Option (World ι κ)
  | .node n =>
    if w.adding = none ∧ w.role n = .unused then
      some { w with
        scene := Node.init w.scene n
        role := fun x => if x = n then .made else w.role x
        held := n :: w.held }
    else none
  | .importModel n key =>
    if w.adding = none ∧ w.role n = .unused ∧ w.placeholder key = none then
      some { w with
        scene := w.scene.importModel n key
        role := fun x => if x = n then .placeholder key else w.role x
        held := n :: w.held
        placeholder := fun k => if k = key then some n else w.placeholder k }
    else none
  | .nodes =>
    if w.adding = none then some { w with held := w.scene.nodes ++ w.held } else none
  | .children n =>
    if w.adding = none ∧ n ∈ w.held then
      some { w with held := Node.children w.scene n ++ w.held }
    else none
  | .nodeAdd parent child =>
    if w.adding = none ∧ parent ∈ w.held ∧ child ∈ w.held then
      some { w with scene := Node.add w.scene parent child }
    else none
  | .addLookup n =>
    if w.adding = none ∧ n ∈ w.held then
      some { w with scene := w.scene.addLookup n, adding := some n }
    else none
  | .addAppend =>
    match w.adding with
    | some n => some { w with scene := w.scene.addAppend n, adding := none }
    | none => none
  | .store key gltfNode m =>
    if w.scanning = none ∧ w.placeholder key ≠ none ∧ (w.load key).isNone ∧
        w.role gltfNode = .unused ∧ (∀ x ∈ m.nodes, w.role x = .unused) ∧ gltfNode ∉ m.nodes then
      some { w with
        scene := (w.scene.getNode gltfNode m).store key gltfNode
        role := fun x => if x ∈ m.nodes then .loaded key
          else if x = gltfNode then .wrapper key else w.role x
        load := fun k => if k = key then some ⟨gltfNode, m⟩ else w.load k
        scanning := some (key, gltfNode) }
    else none
  | .scan =>
    match w.scanning with
    | some (key, gltfNode) =>
      (w.scene.scan key gltfNode).map fun s => { w with scene := s, scanning := none }
    | none => none
  | .removeSceneContent => some { w with scene := w.scene.removeSceneContent }
  | .host parent n isNode =>
    if w.role n = .unused ∧ (parent = w.scene.rootNode ∨ w.role parent = .host) then
      some { w with
        scene := { w.scene.addChildNode parent n with
          isNode := fun x => if x = n then isNode else w.scene.isNode x }
        role := fun x => if x = n then .host else w.role x }
    else none

/-- No queue is in the middle of an operation. -/
def Idle (w : World ι κ) : Prop := w.adding = none ∧ w.scanning = none

instance (w : World ι κ) : Decidable w.Idle :=
  inferInstanceAs (Decidable (w.adding = none ∧ w.scanning = none))

/-- The states of the app under every interleaving. -/
abbrev Reachable (root content : ι) (w : World ι κ) : Prop :=
  Run step (fun _ _ => True) (init root content) w

end World

end AstroAR
