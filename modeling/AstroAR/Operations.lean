import AstroAR.ValidSteps

/-!
# Whole operations

The app again, with `Scene.add` and the completion of an import taken as
single steps. What the coarser machine reaches, the finer one reaches too, so
everything proved of all interleavings holds here. A detector's callback runs
such an operation at any moment, also in the middle of a `Scene.add`.
-/

namespace AstroAR

open Runs

universe u v

inductive Operation (ι : Type u) (κ : Type v) where
  | node (n : ι)
  | importModel (n : ι) (key : κ)
  | nodes
  | children (n : ι)
  | nodeAdd (parent child : ι)
  /-- `scene.add(n)` -/
  | sceneAdd (n : ι)
  /-- a request fires, `getNode` fills `gltfNode`, and the closure stores it and scans -/
  | complete (key : κ) (gltfNode : ι) (m : GLTFScene ι)
  | removeSceneContent
  | host (parent n : ι) (isNode : Bool)

variable {ι : Type u} {κ : Type v}

def Operation.steps : Operation ι κ → List (Action ι κ)
  | .node n => [.node n]
  | .importModel n key => [.importModel n key]
  | .nodes => [.nodes]
  | .children n => [.children n]
  | .nodeAdd parent child => [.nodeAdd parent child]
  | .sceneAdd n => [.addLookup n, .addAppend]
  | .complete key gltfNode m => [.store key gltfNode m, .scan]
  | .removeSceneContent => [.removeSceneContent]
  | .host parent n isNode => [.host parent n isNode]

variable [DecidableEq ι]

namespace World

/-- The model `m` in the wrapper `gltfNode` can arrive for the import `key`. -/
structure Arrives (w : World ι κ) (key : κ) (gltfNode : ι) (m : GLTFScene ι) : Prop where
  pending : w.load key = none
  wrapper : w.role gltfNode = .unused
  nodes : ∀ x ∈ m.nodes, w.role x = .unused
  apart : gltfNode ∉ m.nodes

variable [DecidableEq κ]

instance (w : World ι κ) (key : κ) (gltfNode : ι) (m : GLTFScene ι) :
    Decidable (w.Arrives key gltfNode m) :=
  decidable_of_iff ((w.load key).isNone ∧ w.role gltfNode = .unused ∧
      (∀ x ∈ m.nodes, w.role x = .unused) ∧ gltfNode ∉ m.nodes)
    ⟨fun ⟨hl, hg, hm, hgm⟩ => ⟨Option.isNone_iff_eq_none.mp hl, hg, hm, hgm⟩,
      fun ⟨hl, hg, hm, hgm⟩ => ⟨Option.isNone_iff_eq_none.mpr hl, hg, hm, hgm⟩⟩

/-- The world after the first part of a completion. -/
def arrived (w : World ι κ) (key : κ) (gltfNode : ι) (m : GLTFScene ι) : World ι κ :=
  { w with
    scene := (w.scene.getNode gltfNode m).store key gltfNode
    role := fun x => if x ∈ m.nodes then .loaded key
      else if x = gltfNode then .wrapper key else w.role x
    load := fun k => if k = key then some ⟨gltfNode, m⟩ else w.load k }

def perform (w : World ι κ) (op : Operation ι κ) : Option (World ι κ) := op.steps.foldlM step w

/-- The states that whole operations reach. -/
abbrev Performed (root content : ι) (w : World ι κ) : Prop :=
  Run perform (fun _ _ => True) (init root content) w

theorem reachable_of_performed {root content : ι} {w : World ι κ}
    {ok : World ι κ → Operation ι κ → Prop} (run : Run perform ok (init root content) w) :
    Reachable root content w :=
  run.refine fun _ _ _ _ h => Run.of_foldlM h

end World

/-! ## What the compound operations do -/

namespace Valid
variable {w w' : World ι κ} {k key : κ} {g n p q x : ι} {m : GLTFScene ι}

theorem perform [DecidableEq κ] (h : Valid w) {op : Operation ι κ}
    (hperf : w.perform op = some w') : Valid w' :=
  (Run.of_foldlM hperf).invariant h fun _ _ _ h _ hstep => h.step hstep

theorem mem_arrived [DecidableEq κ] (h : Valid w) (harr : w.Arrives key g m) :
    x ∈ (w.arrived key g m).scene.graph.childNodes q ↔
      (q = g ∧ x ∈ m.roots) ∨ (q ∈ m.nodes ∧ x ∈ m.graph.childNodes q ∧ x ∉ m.roots) ∨
      x ∈ w.scene.graph.childNodes q := by
  simp only [World.arrived, Scene.getNode_eq, Scene.store]
  exact h.store_graph harr.nodes harr.apart

theorem arrived_wrapper_children [DecidableEq κ] (h : Valid w) (harr : w.Arrives key g m) :
    (w.arrived key g m).scene.graph.childNodes g = m.roots := by
  simp only [World.arrived, Scene.getNode_eq, Scene.store]
  exact h.store_wrapper_children harr.wrapper harr.apart

/-- The child list of a node that was in use is the same when a model has arrived. -/
theorem arrived_used_children [DecidableEq κ] (h : Valid w) (harr : w.Arrives key g m)
    (used : w.role q ≠ .unused) :
    (w.arrived key g m).scene.graph.childNodes q = w.scene.graph.childNodes q := by
  simp only [World.arrived, Scene.getNode_eq, Scene.store]
  exact h.store_used_children harr.wrapper harr.nodes used

/-- Among nodes that were in use nothing changes when a model arrives. -/
theorem mem_arrived_of_used [DecidableEq κ] (h : Valid w) (harr : w.Arrives key g m)
    (used : w.role q ≠ .unused) :
    x ∈ (w.arrived key g m).scene.graph.childNodes q ↔ x ∈ w.scene.graph.childNodes q := by
  have hqg : q ≠ g := by rintro rfl; exact used harr.wrapper
  have hqm : q ∉ m.nodes := fun hq => used (harr.nodes q hq)
  rw [h.mem_arrived harr]
  simp [hqg, hqm]

/-- A node that was in use has the parent it had. -/
theorem mem_arrived_of_used_child [DecidableEq κ] (h : Valid w) (harr : w.Arrives key g m)
    (used : w.role x ≠ .unused) (hx : x ∈ (w.arrived key g m).scene.graph.childNodes q) :
    x ∈ w.scene.graph.childNodes q := by
  rcases (h.mem_arrived harr).mp hx with ⟨_, hr⟩ | ⟨hqm, hx, _⟩ | hx
  · exact absurd (harr.nodes x (m.roots_mem hr)) used
  · exact absurd (harr.nodes x (m.closed q hqm x hx)) used
  · exact hx

/-- Nothing holds the wrapper of an arriving model. -/
theorem arrived_wrapper_orphan [DecidableEq κ] (h : Valid w) (harr : w.Arrives key g m) :
    g ∉ (w.arrived key g m).scene.graph.childNodes q := by
  intro hq
  rcases (h.mem_arrived harr).mp hq with ⟨_, hr⟩ | ⟨hqm, hx, _⟩ | hq
  · exact harr.apart (m.roots_mem hr)
  · exact harr.apart (m.closed q hqm g hx)
  · exact h.edges.unused_no_parent harr.wrapper q hq

omit [DecidableEq ι] in
theorem content_used (h : Valid w) : w.role w.scene.sceneContent ≠ .unused := by
  simp [h.content_role]

omit [DecidableEq ι] in
theorem placeholder_used (h : Valid w) (hp : w.placeholder k = some p) :
    w.role p ≠ .unused := by
  simp [h.role_of_placeholder hp]

end Valid

namespace World
variable {w w' : World ι κ} {k key : κ} {g n p : ι} {m : GLTFScene ι}

theorem arrived_sceneContent [DecidableEq κ] :
    (w.arrived key g m).scene.sceneContent = w.scene.sceneContent := by
  simp only [arrived, Scene.getNode_eq]
  rfl

theorem arrived_importedModelsList [DecidableEq κ] :
    (w.arrived key g m).scene.importedModelsList k =
      if k = key then some g else w.scene.importedModelsList k := by
  simp only [arrived, Scene.getNode_eq, Scene.store]

theorem arrived_isNode [DecidableEq κ] {x : ι} :
    (w.arrived key g m).scene.isNode x =
      if x ∈ m.nodes then false else if x = g then true else w.scene.isNode x := by
  simp only [arrived, Scene.getNode_eq]
  rfl

/-- The nodes of a model are raw. -/
theorem arrived_isNode_of_mem [DecidableEq κ] {x : ι} (hx : x ∈ m.nodes) :
    (w.arrived key g m).scene.isNode x = false := by
  rw [arrived_isNode, if_pos hx]

theorem arrived_isNode_of_used [DecidableEq κ] (harr : w.Arrives key g m) {x : ι}
    (used : w.role x ≠ .unused) : (w.arrived key g m).scene.isNode x = w.scene.isNode x := by
  have hxm : x ∉ m.nodes := fun hx => used (harr.nodes x hx)
  have hxg : x ≠ g := by rintro rfl; exact used harr.wrapper
  rw [arrived_isNode, if_neg hxm, if_neg hxg]

theorem arrived_delivered [DecidableEq κ] :
    (w.arrived key g m).scene.delivered = w.scene.delivered := by
  simp only [arrived, Scene.getNode_eq]
  rfl

theorem addLookup_sceneContent :
    (w.scene.addLookup n).sceneContent = w.scene.sceneContent := by
  rcases Scene.addLookup_cases w.scene n with ⟨heq, _⟩ | ⟨_, _, _, _, heq⟩ <;> rw [heq]
  rfl

theorem addLookup_importedModelsList :
    (w.scene.addLookup n).importedModelsList = w.scene.importedModelsList := by
  rcases Scene.addLookup_cases w.scene n with ⟨heq, _⟩ | ⟨_, _, _, _, heq⟩ <;> rw [heq]
  rfl

variable [DecidableEq κ]

theorem perform_sceneAdd (hadd : w.adding = none) :
    w.perform (.sceneAdd n) =
      if n ∈ w.held then some { w with scene := w.scene.add n } else none := by
  obtain ⟨scene, role, held, placeholder, load, adding, scanning⟩ := w
  cases hadd
  simp only [perform, Operation.steps, List.foldlM_cons, List.foldlM_nil, step]
  split <;> simp_all [Scene.add]

theorem step_store (hscan : w.scanning = none) (hp : w.placeholder key = some p)
    (harr : w.Arrives key g m) : w.step (.store key g m) =
      some { w.arrived key g m with scanning := some (key, g) } := by
  simp [step, hscan, hp, harr.pending, harr.wrapper, harr.apart, arrived]
  exact harr.nodes

/-- When its request fires, `getNode` fills the wrapper and calls the closure of `importModel`. -/
theorem perform_complete_eq (hscan : w.scanning = none) (hp : w.placeholder key = some p)
    (harr : w.Arrives key g m) : w.perform (.complete key g m) =
      ((w.scene.getNode g m).completion key g).map fun s =>
        { w.arrived key g m with scene := s } := by
  have hexpand : w.perform (.complete key g m) =
      (w.step (.store key g m)).bind fun t => t.step .scan := by
    simp [perform, Operation.steps]
  rw [hexpand, step_store hscan hp harr, Option.bind_some]
  simp only [step]
  obtain ⟨scene, role, held, placeholder, load, adding, scanning⟩ := w
  cases hscan
  rfl

/-- A completion of a pending import: it serves the placeholder with the first root node of
the model if the placeholder is at the top level, trapping when there is none, and otherwise
leaves the model in the table. -/
theorem perform_complete (h : Valid w) (hscan : w.scanning = none)
    (hp : w.placeholder key = some p) (harr : w.Arrives key g m) :
    w.perform (.complete key g m) =
      if p ∈ w.scene.graph.childNodes w.scene.sceneContent then
        m.roots.head?.map fun r => { w.arrived key g m with
          scene := ((w.arrived key g m).scene.deliver p r).removeValue key }
      else some (w.arrived key g m) := by
  have h' := h.step (step_store hscan hp harr)
  have hscan' := h'.scan_eq (p := p) hp g
  change (w.scene.getNode g m).completion key g = _ at hscan'
  rw [perform_complete_eq hscan hp harr, hscan']
  simp only [arrived_sceneContent, h.mem_arrived_of_used harr h.content_used,
    h.arrived_wrapper_children harr]
  split_ifs
  · rw [Option.map_map]
    rfl
  · rfl

theorem arrives_of_complete (hperf : w.perform (.complete key g m) = some w') :
    (∃ p, w.placeholder key = some p) ∧ w.Arrives key g m := by
  simp only [perform, Operation.steps, List.foldlM_cons] at hperf
  obtain ⟨t, ht, _⟩ := Option.bind_eq_some_iff.mp hperf
  simp only [step] at ht
  split at ht
  · rename_i hguard
    obtain ⟨_, hp, hl, hg, hm, hgm⟩ := hguard
    exact ⟨Option.ne_none_iff_exists'.mp hp, ⟨Option.isNone_iff_eq_none.mp hl, hg, hm, hgm⟩⟩
  · cases ht

/-- A whole operation leaves no queue in the middle of one. -/
theorem perform_idle {op : Operation ι κ} (h : Valid w) (idle : w.Idle)
    (hperf : w.perform op = some w') : w'.Idle := by
  cases op with
  | sceneAdd n =>
    rw [perform_sceneAdd idle.1] at hperf
    split at hperf
    · cases hperf
      exact idle
    · cases hperf
  | complete key g m =>
    obtain ⟨⟨p, hp⟩, harr⟩ := arrives_of_complete hperf
    rw [perform_complete h idle.2 hp harr] at hperf
    split at hperf
    · obtain ⟨r, _, rfl⟩ := Option.map_eq_some_iff.mp hperf
      exact idle
    · cases hperf
      exact idle
  | removeSceneContent =>
    simp only [perform, Operation.steps, List.foldlM_cons, List.foldlM_nil] at hperf
    cases hperf
    exact idle
  | _ =>
    simp only [perform, Operation.steps, List.foldlM_cons, List.foldlM_nil] at hperf
    obtain ⟨_, rfl⟩ := by simpa [step] using hperf
    exact idle

theorem idle_of_performed {root content : ι} (apart : root ≠ content)
    {ok : World ι κ → Operation ι κ → Prop} (run : Run perform ok (init root content) w) :
    w.Idle :=
  run.invariant_along ⟨rfl, rfl⟩ fun _ _ _ hrun idle _ hperf =>
    perform_idle (valid_of_run apart (reachable_of_performed hrun)) idle hperf

/-- A node that was in use keeps its role when a model arrives. -/
theorem role_arrived (harr : w.Arrives key g m) {x : ι} (used : w.role x ≠ .unused) :
    (w.arrived key g m).role x = w.role x :=
  Valid.store_role harr.wrapper harr.nodes used

/-- The states an operation can lead to, with what was true before it. -/
inductive Effect (w : World ι κ) : Operation ι κ → World ι κ → Prop where
  | node (n : ι) (fresh : w.role n = .unused) :
    Effect w (.node n) { w with
      scene := Node.init w.scene n
      role := fun x => if x = n then .made else w.role x
      held := n :: w.held }
  | importModel (n : ι) (key : κ) (fresh : w.role n = .unused) (new : w.placeholder key = none) :
    Effect w (.importModel n key) { w with
      scene := w.scene.importModel n key
      role := fun x => if x = n then .placeholder key else w.role x
      held := n :: w.held
      placeholder := fun k => if k = key then some n else w.placeholder k }
  | nodes : Effect w .nodes { w with held := w.scene.nodes ++ w.held }
  | children (n : ι) (holds : n ∈ w.held) :
    Effect w (.children n) { w with held := Node.children w.scene n ++ w.held }
  | nodeAdd (parent child : ι) (holds : parent ∈ w.held) (names : child ∈ w.held) :
    Effect w (.nodeAdd parent child) { w with scene := Node.add w.scene parent child }
  /-- the lookup of `scene.add` finds nothing -/
  | sceneAdd (n : ι) (holds : n ∈ w.held) (missed : ∀ k,
      w.scene.importedModelReferenceKey n = some k → w.scene.importedModelsList k = none) :
    Effect w (.sceneAdd n) { w with scene := w.scene.addAppend n }
  /-- the lookup finds the loaded node `g` -/
  | sceneAddFound (n : ι) (k : κ) (g : ι) (holds : n ∈ w.held)
      (hkey : w.scene.importedModelReferenceKey n = some k)
      (found : w.scene.importedModelsList k = some g) :
    Effect w (.sceneAdd n) { w with scene := (w.scene.deliver n g).addAppend n }
  /-- the placeholder is not at the top level when its model arrives -/
  | complete (key : κ) (g : ι) (m : GLTFScene ι) (p : ι) (hp : w.placeholder key = some p)
      (harr : w.Arrives key g m) (out : p ∉ w.scene.graph.childNodes w.scene.sceneContent) :
    Effect w (.complete key g m) (w.arrived key g m)
  /-- it is, and receives the first root node of the model -/
  | completeInScene (key : κ) (g : ι) (m : GLTFScene ι) (p r : ι)
      (hp : w.placeholder key = some p) (harr : w.Arrives key g m)
      (inScene : p ∈ w.scene.graph.childNodes w.scene.sceneContent) (root : r ∈ m.roots) :
    Effect w (.complete key g m) { w.arrived key g m with
      scene := ((w.arrived key g m).scene.deliver p r).removeValue key }
  | removeSceneContent :
    Effect w .removeSceneContent { w with scene := w.scene.removeSceneContent }
  | host (parent n : ι) (isNode : Bool) (fresh : w.role n = .unused)
      (place : parent = w.scene.rootNode ∨ w.role parent = .host) :
    Effect w (.host parent n isNode) { w with
      scene := { w.scene.addChildNode parent n with
        isNode := fun x => if x = n then isNode else w.scene.isNode x }
      role := fun x => if x = n then .host else w.role x }

theorem effect_of_perform {op : Operation ι κ} (h : Valid w) (idle : w.Idle)
    (hperf : w.perform op = some w') : Effect w op w' := by
  cases op with
  | sceneAdd n =>
    rw [perform_sceneAdd idle.1] at hperf
    split_ifs at hperf with hn
    cases hperf
    simp only [Scene.add]
    rcases Scene.addLookup_cases w.scene n with ⟨heq, missed⟩ | ⟨k, g, hkey, found, heq⟩
    · rw [heq]
      exact .sceneAdd n hn missed
    · rw [heq]
      exact .sceneAddFound n k g hn hkey found
  | complete key g m =>
    obtain ⟨⟨p, hp⟩, harr⟩ := arrives_of_complete hperf
    rw [perform_complete h idle.2 hp harr] at hperf
    split_ifs at hperf with hpc
    · obtain ⟨r, hr, rfl⟩ := Option.map_eq_some_iff.mp hperf
      exact .completeInScene key g m p r hp harr hpc (List.mem_of_head? hr)
    · cases hperf
      exact .complete key g m p hp harr hpc
  | node n =>
    obtain ⟨⟨_, hn⟩, rfl⟩ := by simpa [perform, Operation.steps, step] using hperf
    exact .node n hn
  | importModel n key =>
    obtain ⟨⟨_, hn, hkey⟩, rfl⟩ := by simpa [perform, Operation.steps, step] using hperf
    exact .importModel n key hn hkey
  | nodes =>
    obtain ⟨_, rfl⟩ := by simpa [perform, Operation.steps, step] using hperf
    exact .nodes
  | children n =>
    obtain ⟨⟨_, hn⟩, rfl⟩ := by simpa [perform, Operation.steps, step] using hperf
    exact .children n hn
  | nodeAdd parent child =>
    obtain ⟨⟨_, hp, hc⟩, rfl⟩ := by simpa [perform, Operation.steps, step] using hperf
    exact .nodeAdd parent child hp hc
  | removeSceneContent =>
    cases hperf
    exact .removeSceneContent
  | host parent n b =>
    obtain ⟨⟨hn, hp⟩, rfl⟩ := by simpa [perform, Operation.steps, step] using hperf
    exact .host parent n b hn hp

section Invariant
variable {root content : ι} {ok : World ι κ → Operation ι κ → Prop}

theorem effect_of_performed (apart : root ≠ content) {op : Operation ι κ}
    (run : Run perform ok (init root content) w) (hperf : w.perform op = some w') :
    Valid w ∧ Effect w op w' := by
  have h := valid_of_run apart (reachable_of_performed run)
  exact ⟨h, effect_of_perform h (idle_of_performed apart run) hperf⟩

/-- What holds initially and survives the effect of every allowed operation holds in every
state of a run. -/
theorem performed_invariant (apart : root ≠ content) {I : World ι κ → Prop}
    (start : I (init root content))
    (keeps : ∀ t op u, Valid t → I t → ok t op → Effect t op u → I u)
    (run : Run perform ok (init root content) w) : I w := by
  refine run.invariant_along start fun t op u hrun hI hok hperf => ?_
  obtain ⟨h, effect⟩ := effect_of_performed apart hrun hperf
  exact keeps t op u h hI hok effect

/-- The same for a run with a reference beside it. -/
theorem shadowed_invariant {τ : Type*} {ref : World ι κ → τ → Operation ι κ → τ}
    (ok : World ι κ → Operation ι κ → Prop) (apart : root ≠ content)
    {I : World ι κ → τ → Prop} {s : World ι κ × τ} {y : τ}
    (start : I (init root content) y)
    (keeps : ∀ t z op u, Valid t → I t z → ok t op → Effect t op u → I u (ref t z op))
    (run : Run (shadow perform ref) (fun s op => ok s.1 op) (init root content, y) s) :
    I s.1 s.2 := by
  refine run.invariant_along (I := fun s => I s.1 s.2) start fun t op u hrun hI hok hstep => ?_
  obtain ⟨hperf, href⟩ := shadow_eq_some.mp hstep
  obtain ⟨h, effect⟩ := effect_of_performed apart hrun.of_shadow hperf
  rw [← href]
  exact keeps t.1 t.2 op u.1 h hI hok effect

end Invariant

/-- A script never forgets a placeholder. -/
theorem placeholder_held {root content : ι} (run : Reachable root content w) :
    ∀ k p, w.placeholder k = some p → p ∈ w.held := by
  refine run.invariant (I := fun w => ∀ k p, w.placeholder k = some p → p ∈ w.held)
    (by simp [init]) fun w a w' ih _ hstep => ?_
  cases a with
  | addAppend =>
    simp only [step] at hstep
    split at hstep
    · cases hstep
      exact ih
    · cases hstep
  | importModel n key =>
    obtain ⟨_, rfl⟩ := by simpa [step] using hstep
    intro k p hp
    simp only at hp
    split_ifs at hp
    · cases hp
      exact List.mem_cons_self
    · exact List.mem_cons_of_mem n (ih k p hp)
  | node n =>
    obtain ⟨_, rfl⟩ := by simpa [step] using hstep
    exact fun k p hp => List.mem_cons_of_mem n (ih k p hp)
  | nodes =>
    obtain ⟨_, rfl⟩ := by simpa [step] using hstep
    exact fun k p hp => List.mem_append_right _ (ih k p hp)
  | children n =>
    obtain ⟨_, rfl⟩ := by simpa [step] using hstep
    exact fun k p hp => List.mem_append_right _ (ih k p hp)
  | scan =>
    simp only [step] at hstep
    split at hstep
    · obtain ⟨s, _, rfl⟩ := Option.map_eq_some_iff.mp hstep
      exact ih
    · cases hstep
  | removeSceneContent =>
    cases hstep
    exact ih
  | _ =>
    obtain ⟨_, rfl⟩ := by simpa [step] using hstep
    exact ih

end World

/-! ## Operations called back in the middle of others -/

variable [DecidableEq κ]

/-- A callback runs a whole operation, also while `jsQueue` is between the two parts of a
`Scene.add`. -/
def World.callback (w : World ι κ) (op : Operation ι κ) : Option (World ι κ) :=
  (World.perform { w with adding := none } op).map fun u => { u with adding := w.adding }

/-- A queue's step or a callback's operation. -/
def World.stepOrCallback (w : World ι κ) : Action ι κ ⊕ Operation ι κ → Option (World ι κ)
  | .inl a => w.step a
  | .inr op => w.callback op

/-- The steps of which a queue's step or a callback's operation consists. -/
def World.parts : Action ι κ ⊕ Operation ι κ → List (Action ι κ)
  | .inl a => [a]
  | .inr op => op.steps

/-- Roles are given once. -/
theorem World.step_role {w w' : World ι κ} {a : Action ι κ} (hstep : w.step a = some w') {n : ι}
    (hn : w.role n ≠ .unused) : w'.role n = w.role n := by
  cases a with
  | node m =>
    obtain ⟨⟨_, hm⟩, rfl⟩ := by simpa [World.step] using hstep
    exact Valid.role_assign hm hn
  | importModel m key =>
    obtain ⟨⟨_, hm, _⟩, rfl⟩ := by simpa [World.step] using hstep
    exact Valid.role_assign hm hn
  | host parent m b =>
    obtain ⟨⟨hm, _⟩, rfl⟩ := by simpa [World.step] using hstep
    exact Valid.role_assign hm hn
  | store key g m =>
    obtain ⟨⟨_, _, _, hg, hm, _⟩, rfl⟩ := by simpa [World.step] using hstep
    have hng : n ≠ g := by rintro rfl; exact hn hg
    simp only [if_neg fun h => hn (hm n h), if_neg hng]
  | addAppend =>
    simp only [World.step] at hstep
    split at hstep
    · cases hstep
      rfl
    · cases hstep
  | scan =>
    simp only [World.step] at hstep
    split at hstep
    · obtain ⟨s, _, rfl⟩ := Option.map_eq_some_iff.mp hstep
      rfl
    · cases hstep
  | removeSceneContent =>
    cases hstep
    rfl
  | _ =>
    obtain ⟨_, rfl⟩ := by simpa [World.step] using hstep
    rfl

theorem Valid.callback {w w' : World ι κ} (h : Valid w) {op : Operation ι κ}
    (hcall : w.callback op = some w') : Valid w' := by
  obtain ⟨u, hu, rfl⟩ := Option.map_eq_some_iff.mp hcall
  have hnone : Valid { w with adding := none } := { h with adding_role := by simp }
  have hroles : ∀ n, w.role n ≠ .unused → u.role n = w.role n := by
    intro n hn
    refine (Run.of_foldlM hu).invariant (I := fun u => u.role n = w.role n) rfl
      fun t a t' ht _ hstep => ?_
    exact (World.step_role hstep (ht ▸ hn)).trans ht
  exact { hnone.perform hu with
    adding_role := by
      intro n hadd
      have hn := h.adding_role n hadd
      rw [hroles n hn.ne_unused]
      exact hn }

theorem Valid.stepOrCallback {w w' : World ι κ} (h : Valid w) {a : Action ι κ ⊕ Operation ι κ}
    (hstep : w.stepOrCallback a = some w') : Valid w' := by
  cases a with
  | inl a => exact h.step hstep
  | inr op => exact h.callback hstep

/-- What does not read `adding` and is kept by each part is kept by the whole. -/
theorem Valid.stepOrCallback_keeps {w w' : World ι κ} (h : Valid w)
    {a : Action ι κ ⊕ Operation ι κ} (hstep : w.stepOrCallback a = some w')
    {I : World ι κ → Prop} (free : ∀ t adding, I t → I { t with adding := adding })
    (keeps : ∀ t b u, Valid t → I t → b ∈ World.parts a → t.step b = some u → I u) (hI : I w) :
    I w' := by
  cases a with
  | inl a => exact keeps w a w' h hI List.mem_cons_self hstep
  | inr op =>
    obtain ⟨u, hu, rfl⟩ := Option.map_eq_some_iff.mp hstep
    have start : Valid { w with adding := none } ∧ I { w with adding := none } :=
      ⟨{ h with adding_role := by simp }, free w none hI⟩
    have parts : Run World.step (fun _ b => b ∈ op.steps) { w with adding := none } u :=
      .of_foldlM_of_mem (fun _ _ hb => hb) hu
    refine free u w.adding (parts.invariant (I := fun t => Valid t ∧ I t) start ?_).2
    exact fun t b t' ht hb hpart => ⟨ht.1.step hpart, keeps t b t' ht.1 ht.2 hb hpart⟩

namespace World
variable {root content : ι} {w : World ι κ}
  {ok : World ι κ → Action ι κ ⊕ Operation ι κ → Prop}

/-- The world stays valid when operations are called back. -/
theorem valid_of_callbacks (apart : root ≠ content)
    (run : Run stepOrCallback ok (init root content) w) : Valid w :=
  run.invariant (valid_init apart) fun _ _ _ h _ hstep => h.stepOrCallback hstep

/-- What does not read `adding`, holds initially and is kept by each part of what is allowed
holds in every state of a run with callbacks. -/
theorem callbacks_invariant (apart : root ≠ content) {I : World ι κ → Prop}
    (start : I (init root content)) (free : ∀ t adding, I t → I { t with adding := adding })
    (keeps : ∀ s a, ok s a → ∀ t b u, Valid t → I t → b ∈ parts a → t.step b = some u → I u)
    (run : Run stepOrCallback ok (init root content) w) : I w :=
  run.invariant_along start fun s a _ hrun hI hok hstep =>
    (valid_of_callbacks apart hrun).stepOrCallback_keeps hstep free (keeps s a hok) hI

theorem callbacks_fixed (apart : root ≠ content)
    (run : Run stepOrCallback ok (init root content) w) :
    w.scene.rootNode = root ∧ w.scene.sceneContent = content := by
  refine callbacks_invariant apart (I := fun w => w.scene.rootNode = root ∧
    w.scene.sceneContent = content) ⟨rfl, rfl⟩ (fun _ _ h => h) ?_ run
  intro _ _ _ t b u ht ih _ hstep
  have fixed := step_fixed ht hstep
  exact ⟨fixed.1.trans ih.1, fixed.2.trans ih.2⟩

end World

end AstroAR
