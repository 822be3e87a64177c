import AstroAR.World

/-!
# The invariant of the scene under every interleaving

Roles say which node may hang below which: a script's nodes only below
`sceneContent` or each other, the raw nodes of a model only below their own
wrapper, their own placeholder or each other. Keys, the table of imported
models and the closures under way all speak of the same imports.
-/

namespace AstroAR

open Runs

universe u v
variable {ι : Type u} {κ : Type v}

namespace Role
variable {p c : Role κ} {k : κ}

/-- The parents and children that the running app can bring together. -/
def MayHold : Role κ → Role κ → Prop
  | .root, c => c = .content ∨ c = .host
  | .host, c => c = .host
  | .content, c => c.ScriptNode
  | .made, c => c.ScriptNode
  | .placeholder k, c => c.ScriptNode ∨ c = .loaded k
  | .wrapper k, c => c.ScriptNode ∨ c = .loaded k
  | .loaded k, c => c = .loaded k
  | .unused, _ => False

theorem ScriptNode.mayHold (hp : p.ScriptNode) (hc : c.ScriptNode) : MayHold p c := by
  cases p <;> simp_all [MayHold, ScriptNode]

theorem ScriptNode.ne_unused (hc : c.ScriptNode) : c ≠ .unused := by
  rintro rfl; exact hc

theorem ScriptNode.ne_content (hc : c.ScriptNode) : c ≠ .content := by
  rintro rfl; exact hc

theorem ScriptNode.ne_loaded (hc : c.ScriptNode) : c ≠ .loaded k := by
  rintro rfl; exact hc

theorem ScriptNode.owned (hc : c.ScriptNode) : c.ScriptOwned := by
  cases c <;> simp_all [ScriptOwned, ScriptNode]

theorem MayHold.ne_unused (h : MayHold p c) : p ≠ .unused ∧ c ≠ .unused := by
  constructor
  · rintro rfl; exact h
  · rintro rfl; cases p <;> simp [MayHold, ScriptNode] at h

theorem MayHold.ne_root (h : MayHold p c) : c ≠ .root := by
  rintro rfl; cases p <;> simp [MayHold, ScriptNode] at h

theorem MayHold.parent_of_host (h : MayHold p .host) : p = .root ∨ p = .host := by
  cases p <;> simp_all [MayHold, ScriptNode]

theorem MayHold.child_of_loaded (h : MayHold (.loaded k) c) : c = .loaded k := h

theorem MayHold.child_of_content (h : MayHold .content c) : c.ScriptNode := h

/-- A script's nodes and the nodes of a model hang below `sceneContent` or one another. -/
theorem MayHold.parent_of_owned (h : MayHold p c) (hc : c.ScriptOwned) :
    p = .content ∨ p.ScriptOwned := by
  cases p <;> cases c <;> simp_all [MayHold, ScriptNode, ScriptOwned]

end Role

/-- Every edge joins roles that may be joined. -/
def EdgesTyped (role : ι → Role κ) (g : Hierarchy ι) : Prop :=
  ∀ p c, c ∈ g.childNodes p → (role p).MayHold (role c)

namespace EdgesTyped
variable {role role' : ι → Role κ} {g : Hierarchy ι}

theorem unused_no_children (typed : EdgesTyped role g) {n : ι} (hn : role n = .unused) :
    g.childNodes n = [] := by
  refine List.eq_nil_iff_forall_not_mem.mpr fun c hc => ?_
  exact (typed n c hc).ne_unused.1 hn

theorem unused_no_parent (typed : EdgesTyped role g) {n : ι} (hn : role n = .unused) (p : ι) :
    n ∉ g.childNodes p :=
  fun hc => (typed p n hc).ne_unused.2 hn

/-- Giving roles to unused nodes cannot break an edge. -/
theorem of_role (typed : EdgesTyped role g) (same : ∀ n, role n ≠ .unused → role' n = role n) :
    EdgesTyped role' g := by
  intro p c hc
  have used := (typed p c hc).ne_unused
  rw [same p used.1, same c used.2]
  exact typed p c hc

variable [DecidableEq ι]

theorem attach (typed : EdgesTyped role g) {p c : ι} (may : (role p).MayHold (role c)) :
    EdgesTyped role (g.attach p c) := by
  intro q x hx
  rcases Hierarchy.mem_attach.mp hx with ⟨rfl, rfl⟩ | ⟨hx, _⟩
  · exact may
  · exact typed q x hx

theorem detachAll (typed : EdgesTyped role g) (l : List ι) : EdgesTyped role (g.detachAll l) :=
  fun p c hc => typed p c (Hierarchy.mem_detachAll.mp hc).1

end EdgesTyped

/-- What holds of the app between any two steps. -/
structure Valid (w : World ι κ) : Prop where
  root_role : w.role w.scene.rootNode = .root
  content_role : w.role w.scene.sceneContent = .content
  content_unique : ∀ n, w.role n = .content → n = w.scene.sceneContent
  edges : EdgesTyped w.role w.scene.graph
  content_child : w.scene.sceneContent ∈ w.scene.graph.childNodes w.scene.rootNode
  class_node : ∀ n, (w.role n).ScriptNode → w.scene.isNode n = true
  class_raw : ∀ n k, w.role n = .loaded k → w.scene.isNode n = false
  held_role : ∀ n ∈ w.held, (w.role n).ScriptNode
  adding_role : ∀ n, w.adding = some n → (w.role n).ScriptNode
  key_role : ∀ n k, w.scene.importedModelReferenceKey n = some k ↔ w.role n = .placeholder k
  placeholder_role : ∀ n k, w.placeholder k = some n ↔ w.role n = .placeholder k
  table_load : ∀ k g, w.scene.importedModelsList k = some g →
    ∃ l, w.load k = some l ∧ l.wrapper = g
  load_placeholder : ∀ k l, w.load k = some l → ∃ p, w.placeholder k = some p
  wrapper_role : ∀ n k, w.role n = .wrapper k ↔ ∃ l, w.load k = some l ∧ l.wrapper = n
  loaded_role : ∀ n k, w.role n = .loaded k ↔ ∃ l, w.load k = some l ∧ n ∈ l.model.nodes
  /-- a root node of a model never leaves its wrapper except for its placeholder -/
  roots_place : ∀ k l p r, w.load k = some l → w.placeholder k = some p → r ∈ l.model.roots →
    r ∈ w.scene.graph.childNodes l.wrapper ∨ r ∈ w.scene.graph.childNodes p
  scanning_load : ∀ k g, w.scanning = some (k, g) → ∃ l, w.load k = some l ∧ l.wrapper = g ∧
    w.scene.importedModelsList k = some g ∧ l.model.roots <+: w.scene.graph.childNodes g
  delivered_role : ∀ q m, (q, m) ∈ w.scene.delivered → ∃ k l, w.role q = .placeholder k ∧
    w.load k = some l ∧ (m = l.wrapper ∨ m ∈ l.model.roots ∨ l.model.roots = [])

namespace Valid
variable {w w' : World ι κ} {k : κ} {l : Load ι} {n p c r : ι}

theorem wrapper_of_load (h : Valid w) (hl : w.load k = some l) : w.role l.wrapper = .wrapper k :=
  (h.wrapper_role _ _).mpr ⟨l, hl, rfl⟩

theorem loaded_of_root (h : Valid w) (hl : w.load k = some l) (hr : r ∈ l.model.roots) :
    w.role r = .loaded k :=
  (h.loaded_role _ _).mpr ⟨l, hl, l.model.roots_mem hr⟩

theorem role_of_placeholder (h : Valid w) (hp : w.placeholder k = some p) :
    w.role p = .placeholder k :=
  (h.placeholder_role p k).mp hp

theorem wrapper_of_table (h : Valid w) {g : ι} (hg : w.scene.importedModelsList k = some g) :
    w.role g = .wrapper k :=
  (h.wrapper_role g k).mpr (h.table_load k g hg)

theorem scriptNode_of_table (h : Valid w) {g : ι} (hg : w.scene.importedModelsList k = some g) :
    (w.role g).ScriptNode := by
  rw [h.wrapper_of_table hg]
  trivial

/-- The children of `sceneContent` are all instances of `Node`, so the getters see them. -/
theorem content_children_node (h : Valid w)
    (hc : c ∈ w.scene.graph.childNodes w.scene.sceneContent) :
    (w.role c).ScriptNode ∧ w.scene.isNode c = true := by
  have may := h.edges _ _ hc
  rw [h.content_role] at may
  exact ⟨may.child_of_content, h.class_node c may.child_of_content⟩

/-- What the host app builds on is the root or a node of its own. -/
theorem role_of_place (h : Valid w) (place : p = w.scene.rootNode ∨ w.role p = .host) :
    w.role p = .root ∨ w.role p = .host := by
  rcases place with rfl | place
  · exact Or.inl h.root_role
  · exact Or.inr place

theorem ne_of_place (h : Valid w) (place : p = w.scene.rootNode ∨ w.role p = .host)
    (hroot : w.role n ≠ .root) (hhost : w.role n ≠ .host) : n ≠ p := by
  rintro rfl
  rcases h.role_of_place place with hr | hr
  · exact hroot hr
  · exact hhost hr

theorem ne_root_of_content (h : Valid w) : w.scene.rootNode ≠ w.scene.sceneContent := by
  intro heq
  have hr := h.root_role
  rw [heq, h.content_role] at hr
  cases hr

/-- The scan of the closure for `k` hands over the first child of its wrapper exactly when
the placeholder is among the children of `sceneContent`. -/
theorem scan_eq [DecidableEq ι] [DecidableEq κ] (h : Valid w) (hp : w.placeholder k = some p)
    (g : ι) : w.scene.scan k g = if p ∈ w.scene.graph.childNodes w.scene.sceneContent
      then ((w.scene.graph.childNodes g).head?).map
        (fun r => (w.scene.deliver p r).removeValue k)
      else some w.scene := by
  refine Scene.scan_eq (fun n => ?_) fun c hc => (h.content_children_node hc).2
  rw [h.key_role, ← h.placeholder_role, hp, Option.some.injEq, eq_comm]

/-- What the scan of a completion does: hand over the first child of the wrapper if the
placeholder is at the top level, and nothing if it is not. -/
theorem scan_cases [DecidableEq ι] [DecidableEq κ] (h : Valid w)
    (hstep : w.step .scan = some w') :
    ∃ k p l, w.scanning = some (k, l.wrapper) ∧ w.placeholder k = some p ∧ w.load k = some l ∧
      ((p ∈ w.scene.graph.childNodes w.scene.sceneContent ∧
          ∃ r, (w.scene.graph.childNodes l.wrapper).head? = some r ∧
            w' = { w with scene := (w.scene.deliver p r).removeValue k, scanning := none }) ∨
        (p ∉ w.scene.graph.childNodes w.scene.sceneContent ∧
          w' = { w with scanning := none })) := by
  simp only [World.step] at hstep
  split at hstep
  · rename_i k g hs
    obtain ⟨l, hl, rfl, _⟩ := h.scanning_load k g hs
    obtain ⟨p, hp⟩ := h.load_placeholder k l hl
    refine ⟨k, p, l, hs, hp, hl, ?_⟩
    rw [h.scan_eq hp] at hstep
    split_ifs at hstep with hpc
    · obtain ⟨_, hs', rfl⟩ := Option.map_eq_some_iff.mp hstep
      obtain ⟨r, hr, rfl⟩ := Option.map_eq_some_iff.mp hs'
      exact Or.inl ⟨hpc, r, hr, rfl⟩
    · cases hstep
      exact Or.inr ⟨hpc, rfl⟩
  · cases hstep

end Valid

end AstroAR
