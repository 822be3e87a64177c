import AstroAR.ImportOrder
import AstroAR.Unarchiver

/-!
# What a loaded scene looks like

A file in which every node is listed once, as a child or by the scene, is
loaded into the hierarchy that it describes: each index has one node, below it
comes a node for its mesh and then its children in their order. Skins load
their joints early and out of place; the nodes wait in the table until their
parents take them.
-/

namespace AstroAR

open Programs

namespace GLTFUnarchiver

/-- The children that the file gives to an index. -/
def kids (json : GLTFGlTF) (i : ℕ) : List ℤ :=
  match (json.nodes.getD [])[i]? with
  | some glNode => glNode.children.getD []
  | none => []

/-- The nodes that the default scene lists. -/
def sceneNodes (json : GLTFGlTF) : List ℤ :=
  match (json.scenes.getD [])[(json.scene.getD 0).toNat]? with
  | some glScene => glScene.getD []
  | none => []

/-- All that the file lists, as a child or in the default scene. -/
def listed (json : GLTFGlTF) : List ℤ :=
  sceneNodes json ++ (json.nodes.getD []).flatMap fun glNode => glNode.children.getD []

/-- No index is listed twice. -/
structure Forest (json : GLTFGlTF) (top : List ℤ) : Prop where
  kids_nodup : ∀ i, (kids json i).Nodup
  apart : ∀ i j, ∀ c ∈ kids json i, c ∈ kids json j → i = j
  top_nodup : top.Nodup
  top_apart : ∀ c ∈ top, ∀ i, c ∉ kids json i

theorem forest_of_nodup {json : GLTFGlTF} (nodup : (listed json).Nodup) :
    Forest json (sceneNodes json) := by
  unfold listed at nodup
  rw [List.nodup_append, List.nodup_flatMap] at nodup
  obtain ⟨top, ⟨each, apart⟩, disjoint⟩ := nodup
  have hkids : ∀ {i c}, c ∈ kids json i → ∃ glNode, (json.nodes.getD [])[i]? = some glNode ∧
      kids json i = glNode.children.getD [] := by
    intro i c hc
    unfold kids at hc ⊢
    cases hget : (json.nodes.getD [])[i]? with
    | none =>
      rw [hget] at hc
      cases hc
    | some glNode => exact ⟨glNode, rfl, rfl⟩
  refine ⟨fun i => ?_, fun i j c hi hj => ?_, top, fun c hc i hi => ?_⟩
  · cases hlist : kids json i with
    | nil => exact List.nodup_nil
    | cons c rest =>
      obtain ⟨glNode, hget, heq⟩ := hkids (hlist ▸ List.mem_cons_self : c ∈ kids json i)
      rw [← hlist, heq]
      exact each glNode (List.mem_of_getElem? hget)
  · obtain ⟨glNode, hgeti, heqi⟩ := hkids hi
    obtain ⟨glNode', hgetj, heqj⟩ := hkids hj
    rw [heqi] at hi
    rw [heqj] at hj
    obtain ⟨hilt, hgeti⟩ := List.getElem?_eq_some_iff.mp hgeti
    obtain ⟨hjlt, hgetj⟩ := List.getElem?_eq_some_iff.mp hgetj
    subst hgeti hgetj
    rcases Nat.lt_trichotomy i j with hij | rfl | hji
    · exact absurd hj ((List.pairwise_iff_getElem.mp apart i j hilt hjlt hij) hi)
    · rfl
    · exact absurd hi ((List.pairwise_iff_getElem.mp apart j i hjlt hilt hji) hj)
  · obtain ⟨glNode, hget, heq⟩ := hkids hi
    rw [heq] at hi
    exact disjoint c hc c (List.mem_flatMap.mpr ⟨glNode, List.mem_of_getElem? hget, hi⟩) rfl

def InRange (index : ℤ) (count : ℕ) : Prop := 0 ≤ index ∧ index < count

instance (index : ℤ) (count : ℕ) : Decidable (InRange index count) :=
  inferInstanceAs (Decidable (0 ≤ index ∧ index < count))

/-- Every index in the default scene, the nodes and the skins of the file is that of an entry, and
the transform of every node fits. -/
structure Consistent (json : GLTFGlTF) : Prop where
  scene : InRange (json.scene.getD 0) (count json.scenes)
  top : ∀ c ∈ sceneNodes json, InRange c (count json.nodes)
  children : ∀ glNode ∈ json.nodes.getD [], ∀ c ∈ glNode.children.getD [],
    InRange c (count json.nodes)
  meshes : ∀ glNode ∈ json.nodes.getD [], ∀ k ∈ glNode.mesh, InRange k (count json.meshes)
  skins : ∀ glNode ∈ json.nodes.getD [], ∀ k ∈ glNode.skin, InRange k (count json.skins)
  transforms : ∀ glNode ∈ json.nodes.getD [], glNode.TransformFits
  joints : ∀ glSkin ∈ json.skins.getD [], ∀ j ∈ glSkin.joints, InRange j (count json.nodes)
  skeletons : ∀ glSkin ∈ json.skins.getD [], ∀ j ∈ glSkin.skeleton,
    InRange j (count json.nodes)

instance (json : GLTFGlTF) : Decidable (Consistent json) :=
  decidable_of_iff (InRange (json.scene.getD 0) (count json.scenes) ∧
      (∀ c ∈ sceneNodes json, InRange c (count json.nodes)) ∧
      (∀ glNode ∈ json.nodes.getD [], ∀ c ∈ glNode.children.getD [],
        InRange c (count json.nodes)) ∧
      (∀ glNode ∈ json.nodes.getD [], ∀ k ∈ glNode.mesh, InRange k (count json.meshes)) ∧
      (∀ glNode ∈ json.nodes.getD [], ∀ k ∈ glNode.skin, InRange k (count json.skins)) ∧
      (∀ glNode ∈ json.nodes.getD [], glNode.TransformFits) ∧
      (∀ glSkin ∈ json.skins.getD [], ∀ j ∈ glSkin.joints, InRange j (count json.nodes)) ∧
      ∀ glSkin ∈ json.skins.getD [], ∀ j ∈ glSkin.skeleton, InRange j (count json.nodes))
    ⟨fun ⟨h₁, h₂, h₃, h₄, h₅, h₆, h₇, h₈⟩ => ⟨h₁, h₂, h₃, h₄, h₅, h₆, h₇, h₈⟩,
      fun ⟨h₁, h₂, h₃, h₄, h₅, h₆, h₇, h₈⟩ => ⟨h₁, h₂, h₃, h₄, h₅, h₆, h₇, h₈⟩⟩

/-- The node in the table for an index of the file. -/
def NodeOf (l : NodeTable) (index : ℤ) (node : ℕ) : Prop :=
  ∃ i : ℕ, index = i ∧ l.nodes i = some node

/-- A node made for a mesh: it stands for no index, and its children are its primitives. -/
structure MeshOf (json : GLTFGlTF) (l : NodeTable) (root : ℕ) (k node : ℕ) : Prop where
  made : root < node ∧ node < l.next
  plain : ∀ i, l.nodes i ≠ some node
  primitives : ∃ glMesh, (json.meshes.getD [])[k]? = some glMesh ∧
    (l.graph.childNodes node).length = glMesh.primitives
  leaves : ∀ p ∈ l.graph.childNodes node, l.graph.childNodes p = []

/-- The part of the children that is made for the mesh. -/
def MeshPart (json : GLTFGlTF) (l : NodeTable) (root : ℕ) : Option ℤ → List ℕ → Prop
  | none, part => part = []
  | some mesh, part => ∃ (k node : ℕ), mesh = k ∧ part = [node] ∧ MeshOf json l root k node

/-- The node of an index has the children that the file describes. -/
def Complete (json : GLTFGlTF) (l : NodeTable) (root : ℕ) (i node : ℕ) : Prop :=
  ∃ glNode part nodes, (json.nodes.getD [])[i]? = some glNode ∧
    l.graph.childNodes node = part ++ nodes ∧ MeshPart json l root glNode.mesh part ∧
    List.Forall₂ (NodeOf l) (kids json i) nodes

/-- The node `p` is that of the entry, or of the scene, that lists `c`. -/
def Lists (json : GLTFGlTF) (top : List ℤ) (l : NodeTable) (root : ℕ) (p : ℕ) (c : ℤ) : Prop :=
  (∃ i, l.nodes i = some p ∧ c ∈ kids json i) ∨ (p = root ∧ c ∈ top)

/-- The invariant of a load. The root is the first node that was made, and `busy` are the indices
whose loading is under way. -/
structure Inv (json : GLTFGlTF) (top : List ℤ) (root : ℕ) (busy : List ℕ) (l : NodeTable) :
    Prop where
  root_made : root < l.next
  table : ∀ i n, l.nodes i = some n → root < n ∧ n < l.next
  inj : ∀ i j n, l.nodes i = some n → l.nodes j = some n → i = j
  made : ∀ p, ∀ c ∈ l.graph.childNodes p, root ≤ p ∧ p < l.next ∧ root < c ∧ c < l.next
  parents : ∀ (c n p : ℕ), l.nodes c = some n → n ∈ l.graph.childNodes p →
    Lists json top l root p c
  meshes : ∀ k node, l.meshes k = some node → MeshOf json l root k node
  complete : ∀ i n, l.nodes i = some n → i ∉ busy → Complete json l root i n

/-- What a load does to the nodes that were there before: nothing. -/
structure Extends (l l' : NodeTable) : Prop where
  next : l.next ≤ l'.next
  nodes : ∀ i n, l.nodes i = some n → l'.nodes i = some n
  fresh : ∀ i n, l'.nodes i = some n → l.nodes i = some n ∨ l.next ≤ n
  children : ∀ p < l.next, l'.graph.childNodes p = l.graph.childNodes p

theorem Extends.refl (l : NodeTable) : Extends l l :=
  ⟨Nat.le_refl _, fun _ _ h => h, fun _ _ h => Or.inl h, fun _ _ => rfl⟩

theorem Extends.trans {l l' l'' : NodeTable} (h : Extends l l') (h' : Extends l' l'') :
    Extends l l'' where
  next := Nat.le_trans h.next h'.next
  nodes := fun i n hi => h'.nodes i n (h.nodes i n hi)
  fresh := by
    intro i n hi
    rcases h'.fresh i n hi with hi | hn
    · exact h.fresh i n hi
    · exact Or.inr (Nat.le_trans h.next hn)
  children := fun p hp => (h'.children p (Nat.lt_of_lt_of_le hp h.next)).trans (h.children p hp)

theorem Extends.grows {σ : Type} {l l' : Loader σ} (h : Extends l.toNodeTable l'.toNodeTable) :
    Grows l l' := by
  intro i hi
  obtain ⟨n, hn⟩ := Option.isSome_iff_exists.mp hi
  rw [h.nodes i n hn]
  rfl

theorem NodeOf.mono {l l' : NodeTable} {index : ℤ} {node : ℕ} (h : NodeOf l index node)
    (nodes : ∀ i n, l.nodes i = some n → l'.nodes i = some n) : NodeOf l' index node := by
  obtain ⟨i, hi, hn⟩ := h
  exact ⟨i, hi, nodes i node hn⟩

/-- A node in a list of nodes stands for an index in the list of indices. -/
theorem exists_listed {l : NodeTable} {indices : List ℤ} {nodes : List ℕ}
    (h : List.Forall₂ (NodeOf l) indices nodes) {n : ℕ} (hn : n ∈ nodes) :
    ∃ c ∈ indices, NodeOf l c n := by
  induction h with
  | nil => cases hn
  | @cons c m cs ms hc _ ih =>
    rcases List.mem_cons.mp hn with rfl | hn
    · exact ⟨c, List.mem_cons_self, hc⟩
    · obtain ⟨d, hd, hdn⟩ := ih hn
      exact ⟨d, List.mem_cons_of_mem _ hd, hdn⟩

section Keep
variable {json : GLTFGlTF} {top : List ℤ} {root : ℕ} {l l' : NodeTable}

/-- A mesh stays what it is while its node and its primitives keep their children. -/
theorem MeshOf.keep {k node : ℕ} (h : MeshOf json l root k node) (next : l.next ≤ l'.next)
    (fresh : ∀ i n, l'.nodes i = some n → l.nodes i = some n ∨ l.next ≤ n)
    (same : ∀ p, p = node ∨ p ∈ l.graph.childNodes node →
      l'.graph.childNodes p = l.graph.childNodes p) : MeshOf json l' root k node where
  made := ⟨h.made.1, Nat.lt_of_lt_of_le h.made.2 next⟩
  plain := by
    intro i hi
    rcases fresh i node hi with hi | hn
    · exact h.plain i hi
    · exact absurd h.made.2 (Nat.not_lt.mpr hn)
  primitives := by
    rw [same node (Or.inl rfl)]
    exact h.primitives
  leaves := by
    rw [same node (Or.inl rfl)]
    intro p hp
    rw [same p (Or.inr hp)]
    exact h.leaves p hp

theorem MeshPart.keep {mesh : Option ℤ} {part : List ℕ} (h : MeshPart json l root mesh part)
    (keep : ∀ k node, part = [node] → MeshOf json l root k node → MeshOf json l' root k node) :
    MeshPart json l' root mesh part := by
  cases mesh with
  | none => exact h
  | some mesh =>
    obtain ⟨k, node, hk, hpart, hmesh⟩ := h
    exact ⟨k, node, hk, hpart, keep k node hpart hmesh⟩

theorem MeshOf.extend {busy : List ℕ} (inv : Inv json top root busy l) (h : Extends l l')
    {k node : ℕ} (hmesh : MeshOf json l root k node) : MeshOf json l' root k node := by
  refine hmesh.keep h.next h.fresh fun p hp => h.children p ?_
  rcases hp with rfl | hp
  · exact hmesh.made.2
  · exact (inv.made node p hp).2.2.2

theorem Complete.extend {busy : List ℕ} (inv : Inv json top root busy l) (h : Extends l l')
    {i node : ℕ} (hi : l.nodes i = some node) (hnode : Complete json l root i node) :
    Complete json l' root i node := by
  obtain ⟨glNode, part, nodes, hget, hchildren, hpart, hnodes⟩ := hnode
  refine ⟨glNode, part, nodes, hget, ?_, hpart.keep fun _ _ _ hm => hm.extend inv h,
    hnodes.imp fun _ _ hn => hn.mono h.nodes⟩
  rw [h.children node (inv.table i node hi).2]
  exact hchildren

theorem Lists.mono {p : ℕ} {c : ℤ} (h : Lists json top l root p c)
    (nodes : ∀ i n, l.nodes i = some n → l'.nodes i = some n) : Lists json top l' root p c := by
  rcases h with ⟨i, hi, hc⟩ | h
  · exact Or.inl ⟨i, nodes i p hi, hc⟩
  · exact Or.inr h

/-- Only one node lists an index. -/
theorem Lists.unique {busy : List ℕ} (inv : Inv json top root busy l) (forest : Forest json top)
    {p q : ℕ} {c : ℤ} (hp : Lists json top l root p c) (hq : Lists json top l root q c) :
    p = q := by
  rcases hp with ⟨i, hi, hci⟩ | ⟨rfl, hc⟩ <;> rcases hq with ⟨j, hj, hcj⟩ | ⟨rfl, hc'⟩
  · obtain rfl := forest.apart i j c hci hcj
    exact Option.some.inj (hi.symm.trans hj)
  · exact absurd hci (forest.top_apart c hc' i)
  · exact absurd hcj (forest.top_apart c hc j)
  · rfl

namespace Inv
variable {busy : List ℕ}

theorem root_plain (inv : Inv json top root busy l) (i : ℕ) : l.nodes i ≠ some root :=
  fun hi => Nat.lt_irrefl _ (inv.table i root hi).1

theorem root_top (inv : Inv json top root busy l) (p : ℕ) : root ∉ l.graph.childNodes p :=
  fun hp => Nat.lt_irrefl _ (inv.made p root hp).2.2.1

theorem childNodes_new (inv : Inv json top root busy l) {p : ℕ} (hp : l.next ≤ p) :
    l.graph.childNodes p = [] := by
  refine List.eq_nil_iff_forall_not_mem.mpr fun c hc => ?_
  have := (inv.made p c hc).2.1
  omega

/-- A new node is put into the table for an index. -/
theorem cache (inv : Inv json top root busy l) {i : ℕ} (absent : l.nodes i = none)
    (hl' : l' = { l with
      next := l.next + 1, nodes := Function.update l.nodes i (some l.next) }) :
    Inv json top root (i :: busy) l' ∧ Extends l l' := by
  have hnodes : ∀ j n, l'.nodes j = some n ↔
      (j = i ∧ n = l.next) ∨ (j ≠ i ∧ l.nodes j = some n) := by
    intro j n
    subst hl'
    by_cases hj : j = i
    · subst hj
      simp [eq_comm]
    · simp [hj]
  have hnext : l'.next = l.next + 1 := by rw [hl']
  have hgraph : l'.graph = l.graph := by rw [hl']
  have hmeshes : l'.meshes = l.meshes := by rw [hl']
  have keeps : ∀ j n, l.nodes j = some n → l'.nodes j = some n := by
    intro j n hj
    refine (hnodes j n).mpr (Or.inr ⟨?_, hj⟩)
    rintro rfl
    rw [absent] at hj
    cases hj
  have extends' : Extends l l' := by
    refine ⟨by omega, keeps, fun j n hj => ?_, fun p _ => by rw [hgraph]⟩
    rcases (hnodes j n).mp hj with ⟨_, rfl⟩ | ⟨_, hj⟩
    · exact Or.inr (Nat.le_refl _)
    · exact Or.inl hj
  refine ⟨?_, extends'⟩
  have hroot := inv.root_made
  constructor
  · omega
  · intro j n hj
    rcases (hnodes j n).mp hj with ⟨_, rfl⟩ | ⟨_, hj⟩
    · omega
    · have := inv.table j n hj
      omega
  · intro j k n hj hk
    rcases (hnodes j n).mp hj with ⟨rfl, rfl⟩ | ⟨_, hj⟩ <;>
      rcases (hnodes k _).mp hk with ⟨rfl, hn⟩ | ⟨_, hk⟩
    · rfl
    · have := inv.table k _ hk
      omega
    · have := inv.table j n hj
      omega
    · exact inv.inj j k n hj hk
  · intro p c hc
    rw [hgraph] at hc
    have := inv.made p c hc
    omega
  · intro c n p hc hn
    rw [hgraph] at hn
    rcases (hnodes c n).mp hc with ⟨_, rfl⟩ | ⟨_, hc⟩
    · have := inv.made p _ hn
      omega
    · exact (inv.parents c n p hc hn).mono keeps
  · intro k node hk
    rw [hmeshes] at hk
    exact (inv.meshes k node hk).extend inv extends'
  · intro j n hj hbusy
    rcases (hnodes j n).mp hj with ⟨rfl, _⟩ | ⟨_, hj⟩
    · exact absurd List.mem_cons_self hbusy
    · exact (inv.complete j n hj fun h => hbusy (List.mem_cons_of_mem _ h)).extend inv extends' hj

/-- No mesh is made of the root or of a node of the table. -/
theorem mesh_apart (inv : Inv json top root busy l) {p : ℕ}
    (hp : p = root ∨ ∃ i, l.nodes i = some p) {k node : ℕ} (hmesh : MeshOf json l root k node) :
    ∀ q, q = node ∨ q ∈ l.graph.childNodes node → q ≠ p := by
  rintro q hq rfl
  rcases hq with rfl | hq
  · rcases hp with rfl | ⟨i, hi⟩
    · exact Nat.lt_irrefl _ hmesh.made.1
    · exact hmesh.plain i hi
  · rcases hp with rfl | ⟨i, hi⟩
    · exact inv.root_top node hq
    · rcases inv.parents i q node hi hq with ⟨j, hj, _⟩ | ⟨rfl, _⟩
      · exact hmesh.plain j hj
      · exact Nat.lt_irrefl _ hmesh.made.1

/-- The root or a node of the table takes a node without a parent, one that stands for no index or
for an index that it lists. -/
theorem attach (inv : Inv json top root busy l) {p k : ℕ}
    (hp : p = root ∨ ∃ i, l.nodes i = some p) (held : ∀ i, l.nodes i = some p → i ∈ busy)
    (new : root < k ∧ k < l.next) (orphan : ∀ q, k ∉ l.graph.childNodes q)
    (lists : ∀ c : ℕ, l.nodes c = some k → Lists json top l root p c)
    (hl' : l' = { l with graph := l.graph.attach p k }) :
    Inv json top root busy l' ∧ l'.graph.childNodes p = l.graph.childNodes p ++ [k] ∧
      (∀ q, q ≠ p → l'.graph.childNodes q = l.graph.childNodes q) ∧
      ∀ m node, MeshOf json l root m node → MeshOf json l' root m node := by
  have self : l'.graph.childNodes p = l.graph.childNodes p ++ [k] := by
    rw [hl']
    exact Hierarchy.attach_childNodes_of_notMem (orphan p)
  have other : ∀ q, q ≠ p → l'.graph.childNodes q = l.graph.childNodes q := by
    intro q hq
    rw [hl']
    exact Hierarchy.attach_childNodes_of_ne hq (orphan q)
  have hnodes : l'.nodes = l.nodes := by rw [hl']
  have hnext : l'.next = l.next := by rw [hl']
  have hmem : ∀ x q, x ∈ l'.graph.childNodes q ↔
      (q = p ∧ x = k) ∨ (x ∈ l.graph.childNodes q ∧ x ≠ k) := by
    intro x q
    rw [hl']
    exact Hierarchy.mem_attach
  have keepMesh : ∀ m node, MeshOf json l root m node → MeshOf json l' root m node := by
    intro m node hmesh
    refine hmesh.keep (by omega) (fun i n hi => Or.inl (hnodes ▸ hi)) fun q hq => ?_
    exact other q (inv.mesh_apart hp hmesh q hq)
  refine ⟨⟨?_, ?_, ?_, ?_, ?_, ?_, ?_⟩, self, other, keepMesh⟩
  · rw [hnext]
    exact inv.root_made
  · rw [hnodes, hnext]
    exact inv.table
  · rw [hnodes]
    exact inv.inj
  · intro q x hx
    rw [hnext]
    rcases (hmem x q).mp hx with ⟨rfl, rfl⟩ | ⟨hx, _⟩
    · rcases hp with rfl | ⟨i, hi⟩
      · exact ⟨Nat.le_refl _, inv.root_made, new⟩
      · have := inv.table i q hi
        exact ⟨by omega, this.2, new⟩
    · exact inv.made q x hx
  · intro d n q hd hn
    rw [hnodes] at hd
    have keeps : ∀ i n, l.nodes i = some n → l'.nodes i = some n := fun _ _ h => hnodes ▸ h
    rcases (hmem n q).mp hn with ⟨rfl, rfl⟩ | ⟨hn, _⟩
    · exact (lists d hd).mono keeps
    · exact (inv.parents d n q hd hn).mono keeps
  · intro m node hm
    have hmeshes : l'.meshes = l.meshes := by rw [hl']
    rw [hmeshes] at hm
    exact keepMesh m node (inv.meshes m node hm)
  · intro i n hi hbusy
    rw [hnodes] at hi
    obtain ⟨glNode, part, nodes, hget, hchildren, hpart, hforall⟩ := inv.complete i n hi hbusy
    refine ⟨glNode, part, nodes, hget, ?_, hpart.keep fun m node _ hm => keepMesh m node hm, ?_⟩
    · rw [other n, hchildren]
      rintro rfl
      exact hbusy (held i hi)
    · exact hforall.imp fun _ _ h => h.mono fun _ _ h => hnodes ▸ h

/-- The listed child of a node that has not taken it has no parent yet. -/
theorem attach_listed (inv : Inv json top root busy l) (forest : Forest json top) {p c k : ℕ}
    (lists : Lists json top l root p c) (hc : l.nodes c = some k)
    (free : k ∉ l.graph.childNodes p) (held : ∀ i, l.nodes i = some p → i ∈ busy)
    (hl' : l' = { l with graph := l.graph.attach p k }) :
    Inv json top root busy l' ∧ l'.graph.childNodes p = l.graph.childNodes p ++ [k] ∧
      (∀ q, q ≠ p → l'.graph.childNodes q = l.graph.childNodes q) ∧
      ∀ m node, MeshOf json l root m node → MeshOf json l' root m node := by
  refine inv.attach ?_ held (inv.table c k hc) (fun q hq => ?_) (fun d hd => ?_) hl'
  · rcases lists with ⟨i, hi, _⟩ | ⟨rfl, _⟩
    · exact Or.inr ⟨i, hi⟩
    · exact Or.inl rfl
  · obtain rfl := (inv.parents c k q hc hq).unique inv forest lists
    exact free hq
  · obtain rfl := inv.inj c d k hc hd
    exact lists

/-- A node for a mesh is made, with its primitives below it. -/
theorem build (inv : Inv json top root busy l) {k : ℕ} {glMesh : GLTFMesh}
    (hget : (json.meshes.getD [])[k]? = some glMesh)
    (next : l'.next = l.next + 1 + glMesh.primitives) (nodes : l'.nodes = l.nodes)
    (meshes : ∀ j m, l'.meshes j = some m → l.meshes j = some m ∨ (j = k ∧ m = l.next))
    (self : l'.graph.childNodes l.next = List.range' (l.next + 1) glMesh.primitives)
    (other : ∀ q, q ≠ l.next → l'.graph.childNodes q = l.graph.childNodes q) :
    Inv json top root busy l' ∧ Extends l l' ∧ MeshOf json l' root k l.next ∧
      ∀ p, l.next ∉ l'.graph.childNodes p := by
  have ext : Extends l l' :=
    ⟨by omega, fun _ _ h => nodes ▸ h, fun _ _ h => Or.inl (nodes ▸ h),
      fun p hp => other p (by omega)⟩
  have hmem : ∀ x q, x ∈ l'.graph.childNodes q →
      (q = l.next ∧ l.next < x ∧ x < l'.next) ∨ x ∈ l.graph.childNodes q := by
    intro x q hx
    by_cases hq : q = l.next
    · subst hq
      rw [self, List.mem_range'_1] at hx
      exact Or.inl ⟨rfl, by omega, by omega⟩
    · rw [other q hq] at hx
      exact Or.inr hx
  have hroot := inv.root_made
  have mesh : MeshOf json l' root k l.next := by
    refine ⟨by omega, fun i hi => ?_, ⟨glMesh, hget, by rw [self, List.length_range']⟩,
      fun p hp => ?_⟩
    · rw [nodes] at hi
      have := inv.table i _ hi
      omega
    · rw [self, List.mem_range'_1] at hp
      rw [other p (by omega)]
      exact inv.childNodes_new (by omega)
  refine ⟨⟨?_, ?_, ?_, ?_, ?_, ?_, ?_⟩, ext, mesh, fun p hp => ?_⟩
  · omega
  · intro i n hi
    rw [nodes] at hi
    have := inv.table i n hi
    omega
  · rw [nodes]
    exact inv.inj
  · intro p c hc
    rcases hmem c p hc with ⟨rfl, _, hlt⟩ | hc
    · omega
    · have := inv.made p c hc
      omega
  · intro c n p hc hn
    rw [nodes] at hc
    rcases hmem n p hn with ⟨_, hlt, _⟩ | hn
    · have := inv.table c n hc
      omega
    · exact (inv.parents c n p hc hn).mono fun _ _ h => nodes ▸ h
  · intro j m hm
    rcases meshes j m hm with hm | ⟨rfl, rfl⟩
    · exact (inv.meshes j m hm).extend inv ext
    · exact mesh
  · intro i n hi hbusy
    rw [nodes] at hi
    exact (inv.complete i n hi hbusy).extend inv ext hi
  · rcases hmem _ p hp with ⟨_, hlt, _⟩ | hp
    · omega
    · have := inv.made p _ hp
      omega

end Inv

end Keep

/-- One more primitive below a mesh. -/
structure Leaf (node : ℕ) (l l' : NodeTable) : Prop where
  next : l'.next = l.next + 1
  nodes : l'.nodes = l.nodes
  meshes : l'.meshes = l.meshes
  graph : l'.graph = l.graph.attach node l.next

/-- The primitives that a loop puts below a mesh are the next nodes. -/
structure Built (node n : ℕ) (l l' : NodeTable) : Prop where
  next : l'.next = l.next + n
  nodes : l'.nodes = l.nodes
  meshes : l'.meshes = l.meshes
  self : l'.graph.childNodes node = List.range' l.next n
  other : ∀ q, q ≠ node → l'.graph.childNodes q = l.graph.childNodes q

theorem Built.leaf {node n : ℕ} {l t t' : NodeTable}
    (made : ∀ p, ∀ c ∈ l.graph.childNodes p, c < l.next) (h : Built node n l t)
    (hleaf : Leaf node t t') : Built node (n + 1) l t' where
  next := by
    rw [hleaf.next, h.next]
    omega
  nodes := hleaf.nodes.trans h.nodes
  meshes := hleaf.meshes.trans h.meshes
  self := by
    have new : t.next ∉ t.graph.childNodes node := by
      rw [h.self, List.mem_range'_1, h.next]
      omega
    rw [hleaf.graph, Hierarchy.attach_childNodes_of_notMem new, h.self, h.next,
      List.range'_concat, Nat.one_mul]
  other := by
    intro q hq
    have new : t.next ∉ t.graph.childNodes q := by
      rw [h.other q hq]
      intro hc
      have hlt := made q _ hc
      have hnext := h.next
      omega
    rw [hleaf.graph, Hierarchy.attach_childNodes_of_ne hq new, h.other q hq]

section Specs
variable {σ : Type} {json : GLTFGlTF} {top : List ℤ} {root : ℕ} {busy : List ℕ} {l : Loader σ}
  {assets : Assets σ} {F : Failure → Prop}

theorem leaves_spec {α : Type} {list : List α} {f : α → Load σ Unit} (node : ℕ)
    {E : Failure → Prop} (start : l.graph.childNodes node = [])
    (made : ∀ p, ∀ c ∈ l.graph.childNodes p, c < l.next)
    (turn : ∀ a (t : Loader σ), Yields (f a) t
      (fun _ (t' : Loader σ) => Leaf node t.toNodeTable t'.toNodeTable) E) :
    Yields (list.forM f) l
      (fun _ (l' : Loader σ) => Built node list.length l.toNodeTable l'.toNodeTable) E := by
  refine Yields.forM
    (I := fun done (l' : Loader σ) => Built node done.length l.toNodeTable l'.toNodeTable)
    ⟨rfl, rfl, rfl, ?_, fun _ _ => rfl⟩ ?_
  · rw [start]
    rfl
  · intro done a rest _ t ht
    refine (turn a t).mono (fun _ t' hleaf => ?_) fun _ h => h
    rw [List.length_append]
    exact ht.leaf made hleaf

/-- The errors that a load may end in: on a consistent file only those of the assets. -/
def Allowed (json : GLTFGlTF) (F : Failure → Prop) (e : Failure) : Prop := Consistent json → F e

theorem checkIndex_spec {loader : String} {index : ℤ} {count : ℕ} {Q : ℕ → Loader σ → Prop}
    (range : Consistent json → InRange index count)
    (inside : ∀ i : ℕ, index = i → i < count → Q i l) :
    Yields (checkIndex loader index count) l Q (Allowed json F) := by
  refine yields_checkIndex (fun negative ok => ?_) (fun high ok => ?_) inside
  · have := (range ok).1
    omega
  · have := (range ok).2
    omega

/-- A mesh is loaded once; after that it is cloned. Both make a node and its primitives. -/
theorem loadMesh_spec (fails : FailsIn assets F) (inv : Inv json top root busy l.toNodeTable)
    {index : ℤ} (range : Consistent json → InRange index (count json.meshes)) :
    Yields (loadMesh json assets index) l (fun node l' =>
      Inv json top root busy l'.toNodeTable ∧ Extends l.toNodeTable l'.toNodeTable ∧
        l'.nodes = l.nodes ∧ (∀ p, node ∉ l'.graph.childNodes p) ∧ l.next ≤ node ∧
        ∃ k : ℕ, index = k ∧ MeshOf json l'.toNodeTable root k node) (Allowed json F) := by
  have made : ∀ p, ∀ c ∈ l.graph.childNodes p, c < l.next + 1 := fun p c hc => by
    have := inv.made p c hc
    omega
  unfold loadMesh
  refine Yields.bind
    (Q := fun (k : ℕ) (l' : Loader σ) => l = l' ∧ index = k ∧ k < count json.meshes)
    (checkIndex_spec range fun k hk hlt => ⟨rfl, hk, hlt⟩) ?_
  rintro k _ ⟨rfl, hindex, hk⟩
  refine yields_bind.mpr (yields_get.mpr ?_)
  split
  · rename_i mesh cached
    have hmesh := inv.meshes k mesh cached
    obtain ⟨glMesh, hget, hlength⟩ := hmesh.primitives
    unfold clone
    refine yields_bind.mpr (yields_newNode.mpr (yields_bind.mpr (yields_get.mpr ?_)))
    refine Yields.bind (leaves_spec l.next (inv.childNodes_new (Nat.le_refl _)) made
      fun _ t => ?_) fun _ l' built => ?_
    · exact yields_bind.mpr (yields_newNode.mpr (yields_addChildNode.mpr ⟨rfl, rfl, rfl, rfl⟩))
    · have self := built.self
      rw [hlength] at self
      obtain ⟨inv', ext, hmesh', free⟩ := inv.build hget (by rw [built.next, hlength])
        built.nodes (fun j m hm => Or.inl (built.meshes ▸ hm)) self built.other
      exact yields_pure.mpr ⟨inv', ext, built.nodes, free, Nat.le_refl _, k, hindex, hmesh'⟩
  · refine yields_bind.mpr (yields_entry hk fun glMesh hget => ?_)
    refine yields_bind.mpr (yields_newNode.mpr (yields_bind.mpr (yields_cacheMesh.mpr ?_)))
    refine Yields.bind (leaves_spec l.next (inv.childNodes_new (Nat.le_refl _)) made
      fun i t => ?_) fun _ l' built => ?_
    · refine yields_bind.mpr (yields_newNode.mpr (yields_bind.mpr ?_))
      exact yields_onAssets (fun s => (fails.loadPrimitive k i s).mono (fun _ _ h => h)
        fun _ h _ => h) fun _ => yields_addChildNode.mpr ⟨rfl, rfl, rfl, rfl⟩
    · have self := built.self
      rw [List.length_range] at self
      have hmeshes : ∀ j m, l'.meshes j = some m → l.meshes j = some m ∨ (j = k ∧ m = l.next) := by
        intro j m hm
        rw [built.meshes] at hm
        by_cases hj : j = k
        · subst hj
          simp only [Function.update_self, Option.some.injEq] at hm
          exact Or.inr ⟨rfl, hm.symm⟩
        · exact Or.inl (by simpa only [Function.update_of_ne hj] using hm)
      obtain ⟨inv', ext, hmesh', free⟩ := inv.build hget (by rw [built.next, List.length_range])
        built.nodes hmeshes self built.other
      exact yields_pure.mpr ⟨inv', ext, built.nodes, free, Nat.le_refl _, k, hindex, hmesh'⟩

theorem loadAnimation_spec (fails : FailsIn assets F) (index : ℤ) :
    Yields (loadAnimation json assets index) l
      (fun _ (l' : Loader σ) => l'.toNodeTable = l.toNodeTable) (Allowed json F) := by
  have fails' := fails.mono (F := Allowed json F) fun _ h _ => h
  refine yields_ifLet (fun _ => rfl) fun animations _ => ?_
  refine Yields.forM (I := fun _ (l' : Loader σ) => l'.toNodeTable = l.toNodeTable) rfl ?_
  intro _ animation _ _ t ht
  refine Yields.forM (I := fun _ (l' : Loader σ) => l'.toNodeTable = l.toNodeTable) ht ?_
  intro _ channel _ _ t' ht'
  split
  · exact yields_onAssets (fails'.loadAnimation _ _) fun _ => ht'
  · exact yields_pure.mpr ht'

/-- A skin loads its joints and its skeleton, and touches no other node. -/
theorem loadSkin_spec (fails : FailsIn assets F) (inv : Inv json top root busy l.toNodeTable)
    {loadNode : ℤ → Load σ ℕ}
    (hload : ∀ (index : ℤ) (t : Loader σ), Extends l.toNodeTable t.toNodeTable →
      Inv json top root busy t.toNodeTable →
      (Consistent json → InRange index (count json.nodes)) →
      Yields (loadNode index) t (fun _ (t' : Loader σ) =>
        Inv json top root busy t'.toNodeTable ∧ Extends t.toNodeTable t'.toNodeTable)
        (Allowed json F))
    {index : ℤ} (meshNode : ℕ) (range : Consistent json → InRange index (count json.skins)) :
    Yields (loadSkin json assets loadNode index meshNode) l (fun _ (l' : Loader σ) =>
      Inv json top root busy l'.toNodeTable ∧ Extends l.toNodeTable l'.toNodeTable)
      (Allowed json F) := by
  have fails' := fails.mono (F := Allowed json F) fun _ h _ => h
  let J : Loader σ → Prop := fun t =>
    Inv json top root busy t.toNodeTable ∧ Extends l.toNodeTable t.toNodeTable
  have start : J l := ⟨inv, .refl _⟩
  have load : ∀ index t, J t → (Consistent json → InRange index (count json.nodes)) →
      Yields (loadNode index) t (fun _ t' => J t') (Allowed json F) := by
    intro index t ht hrange
    refine (hload index t ht.2 ht.1 hrange).mono (fun _ t' h => ?_) fun _ h => h
    exact ⟨h.1, ht.2.trans h.2⟩
  unfold loadSkin
  refine Yields.bind (Q := fun (k : ℕ) (l' : Loader σ) => l = l' ∧ k < count json.skins)
    (checkIndex_spec range fun k _ hk => ⟨rfl, hk⟩) ?_
  rintro k _ ⟨rfl, hk⟩
  refine yields_bind.mpr (yields_entry hk fun glSkin hget => ?_)
  have hskin : glSkin ∈ json.skins.getD [] := List.mem_of_getElem? hget
  refine Yields.bind (Yields.mapM (I := fun _ _ t => J t) start ?_) ?_
  · intro done joint rest hjoints _ t ht
    refine load joint t ht fun ok => ok.joints glSkin hskin joint ?_
    rw [hjoints]
    exact List.mem_append_right _ List.mem_cons_self
  intro joints t ht
  refine Yields.bind (Q := fun _ t' => J t')
    (yields_ifLet (fun _ => ht) fun i _ =>
      yields_onAssets (fails'.loadInverseBindMatrices i) fun _ => ht) fun _ t' ht' => ?_
  refine Yields.bind (Q := fun _ t' => J t')
    (yields_ifLet (fun _ => ht') fun skeleton hskeleton => ?_) fun _ t'' ht'' => ?_
  · refine Yields.bind (load skeleton t' ht' fun ok => ?_) fun _ _ h => yields_pure.mpr h
    exact ok.skeletons glSkin hskin skeleton hskeleton
  · exact yields_onAssets (fails'.loadSkinner _ _ _) fun _ => ht''

end Specs

/-- A node under way: `n` has been made for the index `i` since `l₀`; below it are the mesh, if it
has been put there, and the children that are done. -/
structure Loading (json : GLTFGlTF) (top : List ℤ) (root : ℕ) (busy : List ℕ) (l₀ : NodeTable)
    (i n : ℕ) (mesh : Option ℤ) (done : List ℤ) (t : NodeTable) : Prop where
  inv : Inv json top root (i :: busy) t
  ext : Extends l₀ t
  node : t.nodes i = some n
  new : l₀.next ≤ n
  children : ∃ part nodes, t.graph.childNodes n = part ++ nodes ∧
    MeshPart json t root mesh part ∧ List.Forall₂ (NodeOf t) done nodes

namespace Loading
variable {json : GLTFGlTF} {top : List ℤ} {root : ℕ} {busy : List ℕ} {l₀ t t' : NodeTable}
  {i n : ℕ} {mesh : Option ℤ} {done : List ℤ}

theorem held (h : Loading json top root busy l₀ i n mesh done t) :
    ∀ j, t.nodes j = some n → j ∈ i :: busy := by
  intro j hj
  rw [h.inv.inj j i n hj h.node]
  exact List.mem_cons_self

/-- Loading other nodes in between changes nothing here. -/
theorem nested (h : Loading json top root busy l₀ i n mesh done t) (ext : Extends t t')
    (inv : Inv json top root (i :: busy) t') :
    Loading json top root busy l₀ i n mesh done t' := by
  obtain ⟨part, nodes, hchildren, hpart, hnodes⟩ := h.children
  refine ⟨inv, h.ext.trans ext, ext.nodes i n h.node, h.new, part, nodes, ?_,
    hpart.keep fun _ _ _ hm => hm.extend h.inv ext, hnodes.imp fun _ _ hn => hn.mono ext.nodes⟩
  rw [ext.children n (h.inv.table i n h.node).2]
  exact hchildren

/-- The tables are the same and only `n` has got one more child. -/
theorem extends_attach (h : Loading json top root busy l₀ i n mesh done t)
    (next : t'.next = t.next) (nodes : t'.nodes = t.nodes)
    (other : ∀ q, q ≠ n → t'.graph.childNodes q = t.graph.childNodes q) : Extends l₀ t' where
  next := by
    rw [next]
    exact h.ext.next
  nodes := by
    rw [nodes]
    exact h.ext.nodes
  fresh := by
    rw [nodes]
    exact h.ext.fresh
  children := by
    intro p hp
    rw [other p fun hpn => ?_]
    · exact h.ext.children p hp
    · have := h.new
      omega

theorem takeMesh (h : Loading json top root busy l₀ i n none [] t) {k m : ℕ}
    (hm : MeshOf json t root k m) (orphan : ∀ q, m ∉ t.graph.childNodes q)
    (ht' : t' = { t with graph := t.graph.attach n m }) :
    Loading json top root busy l₀ i n (some k) [] t' := by
  obtain ⟨part, nodes, hchildren, rfl, ⟨⟩⟩ := h.children
  obtain ⟨inv, self, other, keepMesh⟩ := h.inv.attach (Or.inr ⟨i, h.node⟩) h.held hm.made
    orphan (fun c hc => absurd hc (hm.plain c)) ht'
  refine ⟨inv, h.extends_attach (by rw [ht']) (by rw [ht']) other, by rw [ht']; exact h.node,
    h.new, [m], [], ?_, ⟨k, m, rfl, rfl, keepMesh k m hm⟩, .nil⟩
  rw [self, hchildren]
  rfl

theorem takeChild (h : Loading json top root busy l₀ i n mesh done t) (forest : Forest json top)
    {c : ℤ} {k : ℕ} (listed : c ∈ kids json i) (later : c ∉ done) (hc : NodeOf t c k)
    (ht' : t' = { t with graph := t.graph.attach n k }) :
    Loading json top root busy l₀ i n mesh (done ++ [c]) t' := by
  obtain ⟨part, nodes, hchildren, hpart, hnodes⟩ := h.children
  obtain ⟨c, rfl, hck⟩ := hc
  have free : k ∉ t.graph.childNodes n := by
    rw [hchildren, List.mem_append]
    rintro (hk | hk)
    · -- the node of a mesh is not in the table
      cases mesh with
      | none =>
        cases hpart
        cases hk
      | some mesh =>
        obtain ⟨_, m, _, rfl, hm⟩ := hpart
        rw [List.mem_singleton.mp hk] at hck
        exact hm.plain c hck
    · obtain ⟨d, hd, j, rfl, hj⟩ := exists_listed hnodes hk
      rw [h.inv.inj j c k hj hck] at hd
      exact later hd
  obtain ⟨inv, self, other, keepMesh⟩ :=
    h.inv.attach_listed forest (Or.inl ⟨i, h.node, listed⟩) hck free h.held ht'
  have nodesSame : t'.nodes = t.nodes := by rw [ht']
  refine ⟨inv, h.extends_attach (by rw [ht']) nodesSame other, by rw [nodesSame]; exact h.node,
    h.new, part, nodes ++ [k], ?_, hpart.keep fun m node _ => keepMesh m node, ?_⟩
  · rw [self, hchildren, List.append_assoc]
  · refine List.rel_append (hnodes.imp fun _ _ hn => hn.mono fun _ _ h => nodesSame ▸ h) ?_
    exact .cons ⟨c, rfl, nodesSame ▸ hck⟩ .nil

theorem finish (h : Loading json top root busy l₀ i n mesh (kids json i) t) {glNode : GLTFNode}
    (hget : (json.nodes.getD [])[i]? = some glNode) (hmesh : glNode.mesh = mesh) :
    Inv json top root busy t := by
  obtain ⟨part, nodes, hchildren, hpart, hnodes⟩ := h.children
  refine ⟨h.inv.root_made, h.inv.table, h.inv.inj, h.inv.made,
    h.inv.parents, h.inv.meshes, fun j m hj hbusy => ?_⟩
  by_cases hji : j = i
  · subst hji
    rw [h.node] at hj
    cases hj
    exact ⟨glNode, part, nodes, hget, hchildren, hmesh ▸ hpart, hnodes⟩
  · exact h.inv.complete j m hj fun hmem => hbusy ((List.mem_cons.mp hmem).resolve_left hji)

end Loading

section Node
variable {σ : Type} {json : GLTFGlTF} {top : List ℤ} {root : ℕ} {assets : Assets σ}
  {F : Failure → Prop}

/-- A node that is put into the table leaves less to do, whatever is loaded after it. -/
theorem missing_lt_of_extends {l t : Loader σ} {i n count : ℕ} (hi : i < count)
    (absent : l.nodes i = none) (ext : Extends l.toNodeTable t.toNodeTable)
    (hnode : t.nodes i = some n) : missing t count < missing l count := by
  let l₁ : Loader σ := { l with nodes := Function.update l.nodes i (some n) }
  have first : missing l₁ count < missing l count := missing_cache_lt hi absent rfl
  have grows : Grows l₁ t := by
    intro j hj
    by_cases hji : j = i
    · rw [hji, hnode]
      rfl
    · exact ext.grows j (by simpa only [l₁, Function.update_of_ne hji] using hj)
  have later := grows.missing_le count
  omega

/-- What the node under way asks of the loader that it calls for other nodes. -/
def LoadsOthers (json : GLTFGlTF) (top : List ℤ) (root : ℕ) (busy : List ℕ) (l₀ : NodeTable)
    (i n : ℕ) (F : Failure → Prop) (load : ℤ → Load σ ℕ) : Prop :=
  ∀ (index : ℤ) (t : Loader σ), Inv json top root (i :: busy) t.toNodeTable →
    Extends l₀ t.toNodeTable → t.nodes i = some n →
    (Consistent json → InRange index (count json.nodes)) →
    Yields (load index) t (fun k (t' : Loader σ) => Inv json top root (i :: busy) t'.toNodeTable ∧
      Extends t.toNodeTable t'.toNodeTable ∧ NodeOf t'.toNodeTable index k) (Allowed json F)

section Parts
variable {busy : List ℕ} {l₀ : NodeTable} {i n : ℕ} {load : ℤ → Load σ ℕ} {glNode : GLTFNode}
  {t : Loader σ}

/-- The mesh is the first child, and its skin may load any other node. -/
theorem meshPart_spec (fails : FailsIn assets F)
    (others : LoadsOthers json top root busy l₀ i n F load)
    (hglNode : glNode ∈ json.nodes.getD [])
    (ht : Loading json top root busy l₀ i n none [] t.toNodeTable) :
    Yields (ifLet glNode.mesh fun mesh => do
        let meshNode ← loadMesh json assets mesh
        addChildNode n meshNode
        ifLet glNode.skin fun skin => loadSkin json assets load skin meshNode) t
      (fun _ (t' : Loader σ) =>
        Loading json top root busy l₀ i n glNode.mesh [] t'.toNodeTable) (Allowed json F) := by
  refine yields_ifLet (fun hmesh => ?_) fun mesh hmesh => ?_
  · rw [hmesh]
    exact ht
  · refine Yields.bind (loadMesh_spec fails ht.inv fun ok => ok.meshes glNode hglNode mesh hmesh)
      fun m t₁ h₁ => ?_
    obtain ⟨inv', ext', _, orphan, _, k, rfl, hm⟩ := h₁
    have ht' := (ht.nested ext' inv').takeMesh hm orphan rfl
    refine yields_bind.mpr (yields_addChildNode.mpr ?_)
    rw [hmesh]
    refine yields_ifLet (fun _ => ht') fun skin hskin => ?_
    refine (loadSkin_spec fails ht'.inv (fun index t₂ ext'' inv'' hrange => ?_) m
      fun ok => ok.skins glNode hglNode skin hskin).mono
      (fun _ _ h => ht'.nested h.2 h.1) fun _ h => h
    have nested := ht'.nested ext'' inv''
    exact (others index t₂ inv'' nested.ext nested.node hrange).mono
      (fun _ _ h => ⟨h.1, h.2.1⟩) fun _ h => h

/-- The children follow in their order. -/
theorem childrenPart_spec (forest : Forest json top)
    (others : LoadsOthers json top root busy l₀ i n F load)
    (hglNode : glNode ∈ json.nodes.getD []) (hkids : kids json i = glNode.children.getD [])
    {mesh : Option ℤ} (ht : Loading json top root busy l₀ i n mesh [] t.toNodeTable) :
    Yields (ifLet glNode.children fun children =>
        children.forM fun child => do
          let scnChild ← load child
          addChildNode n scnChild) t
      (fun _ (t' : Loader σ) =>
        Loading json top root busy l₀ i n mesh (kids json i) t'.toNodeTable) (Allowed json F) := by
  refine yields_ifLet (fun hnone => ?_) fun children hsome => ?_
  · rw [hkids, hnone]
    exact ht
  · rw [hsome, Option.getD_some] at hkids
    rw [hkids]
    refine Yields.forM (I := fun done (t : Loader σ) =>
      Loading json top root busy l₀ i n mesh done t.toNodeTable) ht ?_
    intro done child rest hlist t ht
    have listed : child ∈ kids json i := by
      rw [hkids, hlist]
      exact List.mem_append_right _ List.mem_cons_self
    have later : child ∉ done := by
      have nodup := forest.kids_nodup i
      rw [hkids, hlist] at nodup
      exact fun hmem => List.disjoint_of_nodup_append nodup hmem List.mem_cons_self
    refine Yields.bind (others child t ht.inv ht.ext ht.node
      (fun ok => ok.children glNode hglNode child ?_)) fun k t' h => ?_
    · rw [hsome, Option.getD_some, hlist]
      exact List.mem_append_right _ List.mem_cons_self
    · have nested := ht.nested h.2.1 h.1
      exact yields_addChildNode.mpr (nested.takeChild forest listed later h.2.2 rfl)

end Parts

/-- `loadNode` loads the index with all that hangs below it, and changes no child list of a node
that was there before. On a consistent file it fails only if the assets do. -/
theorem loadNode_spec (forest : Forest json top) (fails : FailsIn assets F) {fuel : ℕ}
    {index : ℤ} {busy : List ℕ} {l : Loader σ} (inv : Inv json top root busy l.toNodeTable)
    (range : Consistent json → InRange index (count json.nodes))
    (enough : missing l (count json.nodes) < fuel) :
    Yields (loadNode json assets fuel index) l (fun n (l' : Loader σ) =>
      Inv json top root busy l'.toNodeTable ∧ Extends l.toNodeTable l'.toNodeTable ∧
        NodeOf l'.toNodeTable index n) (Allowed json F) := by
  have fails' := fails.mono (F := Allowed json F) fun _ h _ => h
  induction fuel generalizing index busy l with
  | zero => omega
  | succ fuel ih =>
    rw [loadNode]
    refine Yields.bind (Q := fun (i : ℕ) (l' : Loader σ) => l = l' ∧ index = i ∧
      i < count json.nodes) (checkIndex_spec range fun i hi hlt => ⟨rfl, hi, hlt⟩) ?_
    rintro i _ ⟨rfl, rfl, hi⟩
    refine yields_bind.mpr (yields_get.mpr ?_)
    split
    · rename_i node cached
      exact yields_pure.mpr ⟨inv, .refl _, i, rfl, cached⟩
    rename_i absent
    refine yields_bind.mpr (yields_entry hi fun glNode hget => ?_)
    have hglNode : glNode ∈ json.nodes.getD [] := List.mem_of_getElem? hget
    refine yields_bind.mpr (yields_newNode.mpr (yields_bind.mpr (yields_cacheNode.mpr ?_)))
    let l₁ : Loader σ :=
      { l with next := l.next + 1, nodes := Function.update l.nodes i (some l.next) }
    obtain ⟨inv₁, ext₁⟩ : Inv json top root (i :: busy) l₁.toNodeTable ∧
        Extends l.toNodeTable l₁.toNodeTable := inv.cache absent rfl
    have start : Loading json top root busy l.toNodeTable i l.next none [] l₁.toNodeTable := by
      refine ⟨inv₁, ext₁, by simp [l₁], Nat.le_refl _, [], [], ?_, rfl, .nil⟩
      exact inv.childNodes_new (Nat.le_refl _)
    have others : LoadsOthers json top root busy l.toNodeTable i l.next F
        (loadNode json assets fuel) := by
      intro index t ht ext hnode hrange
      have less := missing_lt_of_extends hi absent ext hnode
      exact ih ht hrange (by omega)
    have hkids : kids json i = glNode.children.getD [] := by
      unfold kids
      rw [hget]
    change Yields _ l₁ _ _
    -- the camera leaves the nodes alone
    refine Yields.bind (Q := fun _ (t : Loader σ) =>
      Loading json top root busy l.toNodeTable i l.next none [] t.toNodeTable)
      (yields_ifLet (fun _ => start) fun camera _ =>
        yields_onAssets (fails'.loadCamera camera) fun _ => start) fun _ l₂ h₂ => ?_
    refine Yields.bind (meshPart_spec fails others hglNode h₂) fun _ l₃ h₃ => ?_
    refine Yields.bind (Q := fun _ (t : Loader σ) =>
      Loading json top root busy l.toNodeTable i l.next glNode.mesh [] t.toNodeTable)
      ?_ fun _ l₄ h₄ => ?_
    · exact yields_setTransform
        (fun unfit _ _ ok => absurd (ok.transforms glNode hglNode) unfit) h₃
    refine Yields.bind (childrenPart_spec forest others hglNode hkids h₄) fun _ l₅ h₅ => ?_
    refine Yields.bind (loadAnimation_spec fails (i : ℤ)) fun _ l₆ h₆ => ?_
    refine yields_pure.mpr ?_
    rw [h₆]
    exact ⟨h₅.finish hget rfl, h₅.ext, i, rfl, h₅.node⟩

/-- What a load that succeeds leaves behind. -/
structure Loaded (json : GLTFGlTF) (root : ℕ) (l : NodeTable) : Prop where
  inv : Inv json (sceneNodes json) root [] l
  top : List.Forall₂ (NodeOf l) (sceneNodes json) (l.graph.childNodes root)

/-- The root takes the next node of the scene. -/
theorem takeTop {l l' : NodeTable} {done : List ℤ} {c : ℤ} {k : ℕ}
    (forest : Forest json (sceneNodes json)) (inv : Inv json (sceneNodes json) root [] l)
    (hdone : List.Forall₂ (NodeOf l) done (l.graph.childNodes root))
    (listed : c ∈ sceneNodes json) (later : c ∉ done) (hc : NodeOf l c k)
    (hl' : l' = { l with graph := l.graph.attach root k }) :
    Inv json (sceneNodes json) root [] l' ∧
      List.Forall₂ (NodeOf l') (done ++ [c]) (l'.graph.childNodes root) := by
  obtain ⟨c, rfl, hck⟩ := hc
  have free : k ∉ l.graph.childNodes root := by
    intro hk
    obtain ⟨d, hd, j, rfl, hj⟩ := exists_listed hdone hk
    rw [inv.inj j c k hj hck] at hd
    exact later hd
  obtain ⟨inv', self, _, _⟩ := inv.attach_listed forest (Or.inr ⟨rfl, listed⟩) hck free
    (fun i hi => absurd hi (inv.root_plain i)) hl'
  have nodesSame : l'.nodes = l.nodes := by rw [hl']
  refine ⟨inv', ?_⟩
  rw [self]
  refine List.rel_append (hdone.imp fun _ _ hn => hn.mono fun _ _ h => nodesSame ▸ h) ?_
  exact .cons ⟨c, rfl, nodesSame ▸ hck⟩ .nil

theorem loadSceneAt_spec (forest : Forest json (sceneNodes json)) (fails : FailsIn assets F)
    (base : ℕ) (tables : σ) {fuel : ℕ} (enough : count json.nodes < fuel) :
    Yields (loadSceneAt json assets fuel (json.scene.getD 0)) (init base tables)
      (fun root l => root = base ∧ Loaded json base l.toNodeTable) (Allowed json F) := by
  have fails' := fails.mono (F := Allowed json F) fun _ h _ => h
  unfold loadSceneAt
  refine Yields.bind (Q := fun (i : ℕ) (l' : Loader σ) => init base tables = l' ∧
    json.scene.getD 0 = i ∧ i < count json.scenes)
    (checkIndex_spec (fun ok => ok.scene) fun i hi hlt => ⟨rfl, hi, hlt⟩) ?_
  rintro i _ ⟨rfl, hindex, hi⟩
  refine yields_bind.mpr (yields_get.mpr ?_)
  change Yields (entry json.scenes i "loadScene: scenes is not defined" >>= _) _ _ _
  refine yields_bind.mpr (yields_entry hi fun glScene hget => ?_)
  have htop : sceneNodes json = glScene.getD [] := by
    unfold sceneNodes
    rw [hindex, Int.toNat_natCast, hget]
  refine yields_bind.mpr (yields_newNode.mpr (yields_bind.mpr ?_))
  refine yields_onAssets fails'.getMaxAnimationDuration fun s => ?_
  let J : List ℤ → Loader σ → Prop := fun done t =>
    Inv json (sceneNodes json) base [] t.toNodeTable ∧
      List.Forall₂ (NodeOf t.toNodeTable) done (t.graph.childNodes base)
  let l₁ : Loader σ := { init base tables with next := base + 1, assets := s }
  have start : J [] l₁ := by
    refine ⟨⟨Nat.lt_succ_self _, ?_, ?_, ?_, ?_, ?_, ?_⟩, .nil⟩
    · rintro _ _ ⟨⟩
    · rintro _ _ _ ⟨⟩
    · rintro _ _ ⟨⟩
    · rintro _ _ _ ⟨⟩
    · rintro _ _ ⟨⟩
    · rintro _ _ ⟨⟩
  change Yields _ l₁ _ _
  refine Yields.bind (Q := fun _ t => J (sceneNodes json) t)
    (yields_ifLet (fun hnone => ?_) fun nodes hsome => ?_) fun _ t ht => ?_
  · rw [htop, hnone]
    exact start
  · rw [hsome, Option.getD_some] at htop
    rw [htop]
    refine Yields.forM (I := J) start fun done node rest hlist t ht => ?_
    have listed : node ∈ sceneNodes json := by
      rw [htop, hlist]
      exact List.mem_append_right _ List.mem_cons_self
    have later : node ∉ done := by
      have nodup := forest.top_nodup
      rw [htop, hlist] at nodup
      exact fun hmem => List.disjoint_of_nodup_append nodup hmem List.mem_cons_self
    refine Yields.bind (loadNode_spec forest fails ht.1 (fun ok => ok.top node listed)
      (Nat.lt_of_le_of_lt (missing_le _ _) enough)) fun k t' h => ?_
    refine yields_addChildNode.mpr (takeTop forest h.1 ?_ listed later h.2.2 rfl)
    rw [h.2.1.children base ht.1.root_made]
    exact ht.2.imp fun _ _ hn => hn.mono h.2.1.nodes
  · exact yields_bind.mpr (yields_cacheScene.mpr (yields_pure.mpr ⟨rfl, ht.1, ht.2⟩))

theorem loadScene_spec (forest : Forest json (sceneNodes json)) (fails : FailsIn assets F)
    (base : ℕ) (tables : σ) {fuel : ℕ} (enough : count json.nodes < fuel) :
    Yields (loadScene json assets fuel) (init base tables)
      (fun root l => root = base ∧ Loaded json base l.toNodeTable) (Allowed json F) := by
  have spec := loadSceneAt_spec forest fails base tables enough
  unfold loadScene
  cases hscene : json.scene with
  | none =>
    rw [hscene] at spec
    exact spec
  | some index =>
    rw [hscene] at spec
    exact spec

end Node

namespace Loaded
variable {json : GLTFGlTF} {root : ℕ} {l : NodeTable}

/-- The scene that the rest of the app receives. -/
def toGLTFScene (h : Loaded json root l) : GLTFScene ℕ where
  rootNode := root
  nodes := List.range' root (l.next - root)
  graph := l.graph
  root_mem := by
    have := h.inv.root_made
    rw [List.mem_range'_1]
    omega
  closed := by
    intro n _ c hc
    have := h.inv.made n c hc
    rw [List.mem_range'_1]
    omega
  root_top := h.inv.root_top

theorem length_roots (h : Loaded json root l) :
    h.toGLTFScene.roots.length = (sceneNodes json).length := h.top.length_eq.symm

end Loaded

section Files
variable {σ : Type} {json : GLTFGlTF} {assets : Assets σ} {F : Failure → Prop}

/-- Two nodes with one mesh; the skin of the first has a joint that the second one lists, and one
that only an unused node leads to. -/
def skinned : GLTFGlTF where
  scene := none
  scenes := some [some [0, 1]]
  nodes := some [plainNode (some 0) (some 0) [], plainNode (some 0) none [2],
    plainNode none none [], plainNode none none [4], plainNode none none []]
  meshes := some [⟨2⟩]
  skins := some [⟨[2, 3], none, some 2⟩]
  animations := none

-- a matrix with three components
example : loadScene { skinned with
    scenes := some [some [0]]
    nodes := some [{ plainNode none none [] with _matrix := some [1, 0, 0] }] }
    noAssets 2 (init 0 ()) = .error .trap := rfl

end Files

section Import
open Runs
variable {σ : Type} {κ : Type} [DecidableEq κ] {json : GLTFGlTF} {assets : Assets σ}

/-- From the file to the screen: a file that lists no index twice and has been loaded is shown
whole by its placeholder, in whichever order the import completes and the script adds the
placeholder, exactly if the default scene lists one node. -/
theorem file_shown_iff (nodup : (listed json).Nodup) {base fuel : ℕ} {tables : σ}
    (enough : count json.nodes < fuel) {root : ℕ} {l : Loader σ}
    (loaded : loadScene json assets fuel (init base tables) = .ok (root, l))
    {rootNode content : ℕ} (apart : rootNode ≠ content) {w : World ℕ κ}
    (run : World.Reachable rootNode content w) (idle : w.Idle) {k : κ} {p g : ℕ}
    (hp : w.placeholder k = some p) (pending : w.load k = none) (wrapper : w.role g = .unused)
    (outside : g < base) (new : ∀ n, base ≤ n → w.role n = .unused) :
    ∃ m : GLTFScene ℕ, m.rootNode = root ∧ m.graph = l.graph ∧
      (((∃ w₁, w.addThenComplete p k g m = some w₁ ∧ w₁.Shows p m) ∧
        ∃ w₂, w.completeThenAdd p k g m = some w₂ ∧ w₂.Shows p m) ↔
          (sceneNodes json).length = 1) := by
  have spec := loadScene_spec (forest_of_nodup nodup) (FailsIn.any assets) base tables enough
  obtain ⟨rfl, h⟩ := spec.of_ok loaded
  have valid := valid_of_run apart run
  have held := World.placeholder_held run k p hp
  have arrives : w.Arrives k g h.toGLTFScene := by
    refine ⟨pending, wrapper, fun x hx => ?_, fun hg => ?_⟩
    · exact new x (List.mem_range'_1.mp hx).1
    · have := (List.mem_range'_1.mp hg).1
      omega
  refine ⟨h.toGLTFScene, rfl, rfl, ?_⟩
  rw [← h.length_roots]
  constructor
  · exact fun both => (valid.addThenComplete_shows_iff idle hp held arrives).mp both.1
  · exact fun one => ⟨(valid.addThenComplete_shows_iff idle hp held arrives).mpr one,
      valid.completeThenAdd_shows idle hp held arrives one⟩

/-- The skinned file lists two nodes in its scene, so one of them is not shown. -/
theorem file_shown_iff_skinned : ∃ (w : World ℕ ℕ) (m : GLTFScene ℕ), w.placeholder 7 = some 2 ∧
    (((∃ w₁, w.addThenComplete 2 7 3 m = some w₁ ∧ w₁.Shows 2 m) ∧
      ∃ w₂, w.completeThenAdd 2 7 3 m = some w₂ ∧ w₂.Shows 2 m) ↔
        (sceneNodes skinned).length = 1) := by
  obtain ⟨w, hw⟩ : ∃ w, (World.init 0 1 : World ℕ ℕ).step (.importModel 2 7) = some w := ⟨_, rfl⟩
  have run : World.Reachable 0 1 w := .snoc .refl trivial hw
  have enough : count skinned.nodes < 6 := by decide
  have nodup : (listed skinned).Nodup := by decide
  have consistent : Consistent skinned := by decide
  have spec := loadScene_spec (forest_of_nodup nodup) (noAssets_fails fun _ => False) 10 () enough
  rcases spec.ok_or_error with ⟨root, l, loaded, _⟩ | ⟨e, _, h⟩
  · cases hw
    have new : ∀ n, 10 ≤ n → (if n = 2 then Role.placeholder 7 else
        (World.init 0 1 : World ℕ ℕ).role n) = .unused := by
      intro n hn
      simp only [World.init]
      rw [if_neg (by omega), if_neg (by omega), if_neg (by omega)]
    obtain ⟨m, _, _, h⟩ := file_shown_iff (k := 7) (p := 2) (g := 3) nodup enough loaded
      (by decide) run ⟨rfl, rfl⟩ rfl rfl rfl (by decide) new
    exact ⟨_, m, rfl, h⟩
  · exact (h consistent).elim

end Import

end GLTFUnarchiver

end AstroAR
