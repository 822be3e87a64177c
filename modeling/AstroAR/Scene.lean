import AstroAR.Hierarchy
import AstroAR.Runs

/-!
# Nodes, scenes and imported models

`Node` and `Scene` as the app defines them over SceneKit. A `Scene` value holds
the child lists of all nodes in memory, attached or not, and the fields of the
scene object. SceneKit's `addChildNode` and `removeFromParentNode` are `attach`
and `detach`. An import is a call of `importModel`, which returns an empty
placeholder, and later the closure that `getNode` calls with the loaded node.

`Scene.add` and that closure run on different queues, so each is also given in
the two parts between which the other queue can act.
-/

namespace AstroAR

universe u v

/-- What `GLTFSceneSource.scene()` returns: a root node and the raw nodes hanging below it. -/
structure GLTFScene (ι : Type u) where
  rootNode : ι
  nodes : List ι
  graph : Hierarchy ι
  root_mem : rootNode ∈ nodes
  closed : ∀ n ∈ nodes, ∀ c ∈ graph.childNodes n, c ∈ nodes
  root_top : ∀ n, rootNode ∉ graph.childNodes n

/-- `scene.rootNode.childNodes` of a loaded glTF scene: the root nodes of the model. -/
def GLTFScene.roots {ι : Type u} (m : GLTFScene ι) : List ι := m.graph.childNodes m.rootNode

theorem GLTFScene.roots_nodup {ι : Type u} (m : GLTFScene ι) : m.roots.Nodup := m.graph.nodup _

theorem GLTFScene.roots_mem {ι : Type u} (m : GLTFScene ι) {r : ι} (hr : r ∈ m.roots) :
    r ∈ m.nodes := m.closed _ m.root_mem r hr

/-- A model whose root nodes have no children. -/
def GLTFScene.flat {ι : Type u} [DecidableEq ι] (rootNode : ι) (roots : List ι)
    (apart : rootNode ∉ roots) : GLTFScene ι where
  rootNode := rootNode
  nodes := rootNode :: roots
  graph := Hierarchy.empty.attachAll rootNode roots
  root_mem := List.mem_cons_self
  closed := by
    intro n _ c hc
    rcases Hierarchy.mem_attachAll.mp hc with ⟨_, hc⟩ | ⟨hc, _⟩
    · exact List.mem_cons_of_mem _ hc
    · cases hc
  root_top := by
    intro n hn
    rcases Hierarchy.mem_attachAll.mp hn with ⟨_, hn⟩ | ⟨hn, _⟩
    · exact apart hn
    · cases hn

/-- `isNode` tells the instances of the class `Node` from raw `SCNNode`s. `delivered` is a
history that no operation reads: the pairs of a parent and the imported node put below it. -/
structure Scene (ι : Type u) (κ : Type v) where
  graph : Hierarchy ι
  isNode : ι → Bool
  rootNode : ι
  sceneContent : ι
  importedModelReferenceKey : ι → Option κ
  importedModelsList : κ → Option ι
  delivered : List (ι × ι)

variable {ι : Type u} {κ : Type v} [DecidableEq ι]

namespace Scene

def childNodes (s : Scene ι κ) (n : ι) : List ι := s.graph.childNodes n

def addChildNode (s : Scene ι κ) (parent child : ι) : Scene ι κ :=
  { s with graph := s.graph.attach parent child }

def removeFromParentNode (s : Scene ι κ) (n : ι) : Scene ι κ :=
  { s with graph := s.graph.detach n }

/-- The cast `as? [Node]`: it fails when one element is a raw node. -/
def asNodes (s : Scene ι κ) (l : List ι) : Option (List ι) :=
  if l.all s.isNode then some l else none

end Scene

namespace Node

/-- `Node()`. -/
def init (s : Scene ι κ) (n : ι) : Scene ι κ :=
  { s with isNode := fun m => if m = n then true else s.isNode m }

def add (s : Scene ι κ) (self child : ι) : Scene ι κ := s.addChildNode self child

def children (s : Scene ι κ) (self : ι) : List ι :=
  match s.asNodes (s.childNodes self) with
  | some nodes => nodes
  | none => []

end Node

namespace Scene

/-- `Scene()`: the only nodes are `rootNode` and, below it, `sceneContent`. -/
def init (root content : ι) : Scene ι κ where
  graph := Hierarchy.empty.attach root content
  isNode := fun n => decide (n = content)
  rootNode := root
  sceneContent := content
  importedModelReferenceKey := fun _ => none
  importedModelsList := fun _ => none
  delivered := []

def nodes (s : Scene ι κ) : List ι :=
  match s.asNodes (s.childNodes s.sceneContent) with
  | some nodes => nodes
  | none => []

/-- Hand an imported node over to `parent`, on either of the two paths that do so. -/
def deliver (s : Scene ι κ) (parent child : ι) : Scene ι κ :=
  { s.addChildNode parent child with delivered := s.delivered ++ [(parent, child)] }

/-- First part of `Scene.add`: look the key of the node up and attach what is found. -/
def addLookup (s : Scene ι κ) (node : ι) : Scene ι κ :=
  match s.importedModelReferenceKey node with
  | some referenceKey =>
    match s.importedModelsList referenceKey with
    | some importedNode => s.deliver node importedNode
    | none => s
  | none => s

/-- Second part of `Scene.add`. -/
def addAppend (s : Scene ι κ) (node : ι) : Scene ι κ := Node.add s s.sceneContent node

def add (s : Scene ι κ) (node : ι) : Scene ι κ := (s.addLookup node).addAppend node

def removeSceneContent (s : Scene ι κ) : Scene ι κ :=
  (s.childNodes s.sceneContent).foldl removeFromParentNode s

section Import
variable [DecidableEq κ]

/-- `importModel` up to its return: `node` is the placeholder, `key` the fresh UUID. -/
def importModel (s : Scene ι κ) (node : ι) (key : κ) : Scene ι κ :=
  let s := Node.init s node
  { s with importedModelReferenceKey := fun n =>
      if n = node then some key else s.importedModelReferenceKey n }

/-- The nodes of a glTF scene come into memory. -/
def load (s : Scene ι κ) (m : GLTFScene ι) : Scene ι κ :=
  { s with
    graph := s.graph.graft m.graph m.nodes m.closed
    isNode := fun n => if n ∈ m.nodes then false else s.isNode n }

/-- The body of `getNode` up to its callback: `node` receives the root nodes of the model. -/
def getNode (s : Scene ι κ) (node : ι) (m : GLTFScene ι) : Scene ι κ :=
  let s := (Node.init s node).load m
  (s.childNodes m.rootNode).foldl (fun s n => s.addChildNode node n) s

/-- First part of the closure in `importModel`: `importedModelsList[key] = gltfNode`. -/
def store (s : Scene ι κ) (key : κ) (gltfNode : ι) : Scene ι κ :=
  { s with importedModelsList := fun k =>
      if k = key then some gltfNode else s.importedModelsList k }

def removeValue (s : Scene ι κ) (key : κ) : Scene ι κ :=
  { s with importedModelsList := fun k => if k = key then none else s.importedModelsList k }

/-- One turn of the loop in the closure. `none` is the trap of `gltfNode.childNodes[0]`. -/
def scanChild (key : κ) (gltfNode : ι) (s : Scene ι κ) (child : ι) : Option (Scene ι κ) :=
  match s.importedModelReferenceKey child with
  | some referenceKey =>
    if key = referenceKey then
      match (s.childNodes gltfNode)[0]? with
      | some root => some ((s.deliver child root).removeValue key)
      | none => none
    else some s
  | none => some s

/-- Second part of the closure: look for the placeholder among the children of `sceneContent`. -/
def scan (s : Scene ι κ) (key : κ) (gltfNode : ι) : Option (Scene ι κ) :=
  (Node.children s s.sceneContent).foldlM (scanChild key gltfNode) s

/-- The closure that `importModel` passes to `getNode`. -/
def completion (s : Scene ι κ) (key : κ) (gltfNode : ι) : Option (Scene ι κ) :=
  (s.store key gltfNode).scan key gltfNode

end Import

/-! ## What each operation does to the fields -/

@[simp] theorem deliver_graph (s : Scene ι κ) (p c : ι) :
    (s.deliver p c).graph = s.graph.attach p c := rfl

theorem removeSceneContent_eq (s : Scene ι κ) :
    s.removeSceneContent =
      { s with graph := s.graph.detachAll (s.graph.childNodes s.sceneContent) } := by
  have general : ∀ (l : List ι) (s : Scene ι κ),
      l.foldl removeFromParentNode s = { s with graph := s.graph.detachAll l } := by
    intro l
    induction l with
    | nil => intro s; rfl
    | cons c rest ih => intro s; exact ih (s.removeFromParentNode c)
  exact general _ s

omit [DecidableEq ι] in
/-- Both getters return the whole child list as long as it holds no raw node. -/
theorem children_eq (s : Scene ι κ) {n : ι} (all : ∀ c ∈ s.graph.childNodes n, s.isNode c = true) :
    Node.children s n = s.graph.childNodes n := by
  have hall : (s.childNodes n).all s.isNode = true := List.all_eq_true.mpr all
  simp only [Node.children, asNodes, hall, if_true]
  rfl

omit [DecidableEq ι] in
/-- One raw child hides all of them. -/
theorem children_of_raw (s : Scene ι κ) {n c : ι} (hc : c ∈ s.graph.childNodes n)
    (raw : s.isNode c = false) : Node.children s n = [] := by
  have some : (s.childNodes n).all s.isNode = false := by
    rw [← Bool.not_eq_true, List.all_eq_true]
    intro all
    cases raw.symm.trans (all c hc)
  simp only [Node.children, asNodes, some]
  rfl

omit [DecidableEq ι] in
theorem mem_children {s : Scene ι κ} {n c : ι} (hc : c ∈ Node.children s n) :
    c ∈ s.graph.childNodes n ∧ s.isNode c = true := by
  unfold Node.children asNodes at hc
  split at hc
  · rename_i l hl
    split at hl
    · rename_i hall
      cases hl
      exact ⟨hc, List.all_eq_true.mp hall c hc⟩
    · cases hl
  · cases hc

/-- The lookup finds the loaded node stored under the key of the node. -/
theorem addLookup_of_found {s : Scene ι κ} {n g : ι} {k : κ}
    (hkey : s.importedModelReferenceKey n = some k) (hlist : s.importedModelsList k = some g) :
    s.addLookup n = s.deliver n g := by
  simp [addLookup, hkey, hlist]

/-- What `addLookup` can do: nothing, or hand over the node stored under the key of `n`. -/
theorem addLookup_cases (s : Scene ι κ) (n : ι) :
    (s.addLookup n = s ∧ ∀ k, s.importedModelReferenceKey n = some k →
      s.importedModelsList k = none) ∨
    ∃ k g, s.importedModelReferenceKey n = some k ∧ s.importedModelsList k = some g ∧
      s.addLookup n = s.deliver n g := by
  cases hkey : s.importedModelReferenceKey n with
  | none => exact Or.inl ⟨by simp [addLookup, hkey], by simp⟩
  | some k =>
    cases hlist : s.importedModelsList k with
    | none => exact Or.inl ⟨by simp [addLookup, hkey, hlist], by simpa using hlist⟩
    | some g => exact Or.inr ⟨k, g, rfl, hlist, addLookup_of_found hkey hlist⟩

theorem foldl_addChildNode (s : Scene ι κ) (p : ι) (l : List ι) :
    l.foldl (fun s n => s.addChildNode p n) s = { s with graph := s.graph.attachAll p l } := by
  induction l generalizing s with
  | nil => rfl
  | cons c rest ih => exact ih (s.addChildNode p c)

/-- The graph after `getNode`: the model is grafted in and its root nodes move to the wrapper. -/
theorem getNode_eq (s : Scene ι κ) (n : ι) (m : GLTFScene ι) :
    s.getNode n m =
      { s with
        graph := (s.graph.graft m.graph m.nodes m.closed).attachAll n m.roots
        isNode := fun x => if x ∈ m.nodes then false else if x = n then true else s.isNode x } := by
  have grafted : ((Node.init s n).graph.graft m.graph m.nodes m.closed).childNodes m.rootNode =
      m.roots := Hierarchy.graft_childNodes_of_mem m.root_mem
  have hroots : ((Node.init s n).load m).childNodes m.rootNode = m.roots := grafted
  change (((Node.init s n).load m).childNodes m.rootNode).foldl
    (fun s x => s.addChildNode n x) ((Node.init s n).load m) = _
  rw [hroots, foldl_addChildNode]
  rfl

section Import
variable [DecidableEq κ]

theorem scanChild_of_other {key : κ} {s : Scene ι κ} {child : ι} (g : ι)
    (other : s.importedModelReferenceKey child ≠ some key) :
    scanChild key g s child = some s := by
  unfold scanChild
  split
  · rename_i k hk
    have hne : key ≠ k := fun heq => other (heq ▸ hk)
    simp [hne]
  · rfl

theorem foldlM_scanChild_of_other {key : κ} {s : Scene ι κ} (g : ι) {l : List ι}
    (other : ∀ c ∈ l, s.importedModelReferenceKey c ≠ some key) :
    l.foldlM (scanChild key g) s = some s :=
  Runs.foldlM_fixed fun c hc => scanChild_of_other g (other c hc)

/-- The scan, when keys identify placeholders: it reaches the placeholder at most once, and
then hands over the first node of the wrapper or traps because there is none. -/
theorem scan_eq {s : Scene ι κ} {key : κ} {g p : ι}
    (hkey : ∀ n, s.importedModelReferenceKey n = some key ↔ n = p)
    (all : ∀ c ∈ s.graph.childNodes s.sceneContent, s.isNode c = true) :
    s.scan key g = if p ∈ s.graph.childNodes s.sceneContent
      then ((s.graph.childNodes g).head?).map (fun r => (s.deliver p r).removeValue key)
      else some s := by
  unfold scan
  rw [children_eq s all]
  split
  · rename_i hp
    obtain ⟨before, after, hsplit⟩ := List.append_of_mem hp
    have hnd := s.graph.nodup s.sceneContent
    rw [hsplit] at hnd ⊢
    have hbefore : p ∉ before := fun h =>
      List.disjoint_of_nodup_append hnd h List.mem_cons_self
    have hafter : p ∉ after := (List.nodup_cons.mp (List.nodup_append.mp hnd).2.1).1
    have other : ∀ l : List ι, p ∉ l → ∀ c ∈ l, s.importedModelReferenceKey c ≠ some key :=
      fun l hl c hc h => hl ((hkey c).mp h ▸ hc)
    rw [List.foldlM_append, foldlM_scanChild_of_other g (other before hbefore)]
    change (scanChild key g s p).bind (after.foldlM (scanChild key g)) = _
    have hpk := (hkey p).mpr rfl
    cases hg : s.graph.childNodes g with
    | nil => simp [scanChild, hpk, childNodes, hg]
    | cons r rest =>
      have hstep : scanChild key g s p = some ((s.deliver p r).removeValue key) := by
        simp [scanChild, hpk, childNodes, hg]
      rw [hstep]
      exact foldlM_scanChild_of_other g (s := (s.deliver p r).removeValue key) (other after hafter)
  · rename_i hp
    exact foldlM_scanChild_of_other g fun c hc h => hp ((hkey c).mp h ▸ hc)

end Import

end Scene

end AstroAR
