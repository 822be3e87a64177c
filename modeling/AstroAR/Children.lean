import AstroAR.ImportTable

/-!
# The children of a node

What the getter `children` returns is compared with the hierarchy that the calls
of `add` describe: every call takes the child away from wherever it was and puts
it last. A completion and `getNode` attach raw nodes without `add`, and as the
getter casts the child list as a whole, one raw child hides all others.
-/

namespace AstroAR

open Runs

universe u v
variable {ι : Type u} {κ : Type v} [DecidableEq ι]

namespace World

omit [DecidableEq ι] in
/-- What the lookup of `scene.add(n)` finds. -/
def found (w : World ι κ) (n : ι) : Option ι :=
  (w.scene.importedModelReferenceKey n).bind w.scene.importedModelsList

/-- The hierarchy of attachments after an operation, if only calls of `add` attach. -/
def attached (w : World ι κ) (r : Hierarchy ι) : Operation ι κ → Hierarchy ι
  | .nodeAdd parent child => r.attach parent child
  | .sceneAdd n => ((w.found n).elim r (r.attach n)).attach w.scene.sceneContent n
  | .removeSceneContent => r.detachAll (r.childNodes w.scene.sceneContent)
  | _ => r

omit [DecidableEq ι] in
/-- The getter of `n` lists what the attachments `r` say. -/
def ListsChildren (w : World ι κ) (r : Hierarchy ι) (n : ι) : Prop :=
  Node.children w.scene n = r.childNodes n

omit [DecidableEq ι] in
/-- The operation puts no instance of `Node` beside a raw node, nor a raw node beside one. -/
def KeepsApart (w : World ι κ) : Operation ι κ → Prop
  | .nodeAdd parent _ => ∀ x ∈ w.scene.childNodes parent, w.scene.isNode x = true
  | .complete key _ _ => ∀ p ∈ w.placeholder key,
      p ∈ w.scene.childNodes w.scene.sceneContent →
        ∀ x ∈ w.scene.childNodes p, w.scene.isNode x = false
  | _ => True

instance (w : World ι κ) (op : Operation ι κ) : Decidable (w.KeepsApart op) :=
  match op with
  | .nodeAdd parent _ => inferInstanceAs (Decidable
      (∀ x ∈ w.scene.childNodes parent, w.scene.isNode x = true))
  | .complete key _ _ => inferInstanceAs (Decidable (∀ p ∈ w.placeholder key,
      p ∈ w.scene.childNodes w.scene.sceneContent →
        ∀ x ∈ w.scene.childNodes p, w.scene.isNode x = false))
  | .node _ | .importModel _ _ | .nodes | .children _ | .sceneAdd _ | .removeSceneContent
  | .host _ _ _ => isTrue trivial

end World

/-! ## The attachments and the instances of `Node` in the scene graph -/

omit [DecidableEq ι] in
/-- Below all nodes but those of the host app, the instances of `Node` hang as they were
attached. -/
def Mirrors (w : World ι κ) (r : Hierarchy ι) : Prop :=
  ∀ q, w.role q ≠ .root → w.role q ≠ .host →
    (w.scene.graph.childNodes q).filter w.scene.isNode = r.childNodes q

/-- The children of `n` are all instances of `Node`, or all raw. -/
def Unmixed (w : World ι κ) (n : ι) : Prop :=
  (∀ x ∈ w.scene.graph.childNodes n, w.scene.isNode x = true) ∨
    ∀ x ∈ w.scene.graph.childNodes n, w.scene.isNode x = false

omit [DecidableEq ι] in
/-- The getter is right exactly at the nodes whose children are of one kind. -/
theorem Mirrors.listsChildren_iff {w : World ι κ} {r : Hierarchy ι} {n : ι} (h : Mirrors w r)
    (hn : (w.role n).ScriptNode) : w.ListsChildren r n ↔ Unmixed w n := by
  have hr : (w.scene.graph.childNodes n).filter w.scene.isNode = r.childNodes n := by
    apply h n
    · intro hroot
      simp [hroot, Role.ScriptNode] at hn
    · intro hhost
      simp [hhost, Role.ScriptNode] at hn
  simp only [World.ListsChildren, Unmixed, ← hr]
  by_cases all : ∀ x ∈ w.scene.graph.childNodes n, w.scene.isNode x = true
  · rw [Scene.children_eq _ all, List.filter_eq_self.mpr all]
    exact iff_of_true rfl (Or.inl all)
  · have hraw : ∃ x ∈ w.scene.graph.childNodes n, w.scene.isNode x = false := by simpa using all
    obtain ⟨x, hx, raw⟩ := hraw
    rw [Scene.children_of_raw _ hx raw, eq_comm, List.filter_eq_nil_iff]
    simp only [all, false_or, Bool.not_eq_true]

namespace Mirrors
variable {w w' : World ι κ} {r : Hierarchy ι} {p q c n g : ι} {k key : κ}

theorem init (root content : ι) :
    Mirrors (World.init root content : World ι κ) .empty := by
  intro q hroot _
  have hq : q ≠ root := by
    rintro rfl
    exact hroot (if_pos rfl)
  simp [World.init, Scene.init, Hierarchy.attach, Hierarchy.detach, hq]

theorem addScriptNode (h : Mirrors w r) (valid : Valid w) (hc : (w.role c).ScriptNode) :
    Mirrors { w with scene := w.scene.addChildNode p c } (r.attach p c) := by
  intro q hroot hhost
  exact Hierarchy.filter_attach (valid.class_node c hc) (h q hroot hhost)

/-- A fresh node changes no list, whatever its class and its role. -/
theorem assign (h : Mirrors w r) (valid : Valid w) (fresh : w.role n = .unused) (b : Bool)
    (role : Role κ) :
    Mirrors { w with
      scene := { w.scene with isNode := fun x => if x = n then b else w.scene.isNode x }
      role := fun x => if x = n then role else w.role x } r := by
  intro q hroot hhost
  have old : w.role q ≠ .root ∧ w.role q ≠ .host := by
    by_cases hq : q = n
    · subst hq
      simp [fresh]
    · simp only [if_neg hq] at hroot hhost
      exact ⟨hroot, hhost⟩
  rw [← h q old.1 old.2]
  refine List.filter_congr fun x hx => ?_
  have hxn : x ≠ n := by
    rintro rfl
    exact valid.edges.unused_no_parent fresh q hx
  simp only [if_neg hxn]

variable [DecidableEq κ] {m : GLTFScene ι} {op : Operation ι κ}

/-- An arriving model is raw, and so is everything in its wrapper. -/
theorem arrived (h : Mirrors w r) (valid : Valid w) (harr : w.Arrives key g m) :
    Mirrors (w.arrived key g m) r := by
  intro q hroot hhost
  by_cases hq : w.role q = .unused
  · have hr : r.childNodes q = [] := by
      rw [← h q (by simp [hq]) (by simp [hq]), valid.edges.unused_no_children hq, List.filter_nil]
    rw [hr]
    refine List.filter_eq_nil_iff.mpr fun x hx => ?_
    have hxm : x ∈ m.nodes := by
      rcases (valid.mem_arrived harr).mp hx with ⟨_, hx⟩ | ⟨hqm, hx, _⟩ | hx
      · exact m.roots_mem hx
      · exact m.closed q hqm x hx
      · rw [valid.edges.unused_no_children hq] at hx
        cases hx
    rw [World.arrived_isNode_of_mem hxm]
    exact Bool.false_ne_true
  · rw [World.role_arrived harr hq] at hroot hhost
    rw [valid.arrived_used_children harr hq, ← h q hroot hhost]
    refine List.filter_congr fun x hx => ?_
    exact World.arrived_isNode_of_used harr (valid.edges q x hx).ne_unused.2

theorem effect (h : Mirrors w r) (valid : Valid w) (effect : w.Effect op w') :
    Mirrors w' (w.attached r op) := by
  cases effect with
  | node n fresh => exact h.assign valid fresh true .made
  | importModel n key fresh _ => exact h.assign valid fresh true (.placeholder key)
  | nodes => exact h
  | children n _ => exact h
  | nodeAdd parent child _ names => exact h.addScriptNode valid (valid.held_role child names)
  | sceneAdd n holds missed =>
    have hfound : w.found n = none := by
      simp only [World.found, Option.bind_eq_none_iff]
      exact missed
    simp only [World.attached, hfound]
    exact h.addScriptNode valid (valid.held_role n holds)
  | sceneAddFound n k g holds hkey found =>
    have hfound : w.found n = some g := by simp [World.found, hkey, found]
    simp only [World.attached, hfound]
    intro q hroot hhost
    exact Hierarchy.filter_attach (valid.class_node n (valid.held_role n holds))
      (h.addScriptNode valid (valid.scriptNode_of_table found) q hroot hhost)
  | complete key g m p _ harr _ => exact h.arrived valid harr
  | completeInScene key g m p x hp harr _ root =>
    intro q hroot hhost
    have raw : (w.arrived key g m).scene.isNode x = false :=
      World.arrived_isNode_of_mem (m.roots_mem root)
    exact (Hierarchy.filter_attach_of_false raw).trans (h.arrived valid harr q hroot hhost)
  | removeSceneContent =>
    rw [Scene.removeSceneContent_eq]
    intro q hroot hhost
    have hcontent : (w.scene.graph.childNodes w.scene.sceneContent).filter w.scene.isNode =
        r.childNodes w.scene.sceneContent :=
      h _ (by simp [valid.content_role]) (by simp [valid.content_role])
    by_cases hq : q = w.scene.sceneContent
    · subst hq
      simp only [World.attached, Hierarchy.detachAll_childNodes_self, List.filter_nil]
    · have hqr : ∀ x ∈ r.childNodes q, x ∉ r.childNodes w.scene.sceneContent :=
        fun x hx hx' => hq (r.parent_unique hx hx')
      have hqg : ∀ x ∈ w.scene.graph.childNodes q,
          x ∉ w.scene.graph.childNodes w.scene.sceneContent :=
        fun x hx hx' => hq (w.scene.graph.parent_unique hx hx')
      simp only [World.attached]
      rw [Hierarchy.detachAll_childNodes_of_disjoint hqr,
        Hierarchy.detachAll_childNodes_of_disjoint hqg]
      exact h q hroot hhost
  | host parent n b fresh place =>
    intro q hroot hhost
    have hqn : q ≠ n := by
      rintro rfl
      exact hhost (if_pos rfl)
    have old := And.intro hroot hhost
    simp only [if_neg hqn] at old
    have hqp := valid.ne_of_place place old.1 old.2
    have hn := valid.edges.unused_no_parent fresh q
    simp only [Scene.addChildNode, Hierarchy.attach_childNodes_of_ne hqp hn]
    exact h.assign valid fresh b .host q hroot hhost

end Mirrors

/-! ## Children of one kind -/

/-- No node of a script or an import has children of both kinds. -/
def AllUnmixed (w : World ι κ) : Prop := ∀ n, (w.role n).ScriptNode → Unmixed w n

omit [DecidableEq ι] in
/-- Fewer children of the same classes are not mixed either. -/
theorem Unmixed.mono {w w' : World ι κ} {n : ι} (h : Unmixed w n)
    (sub : ∀ x ∈ w'.scene.graph.childNodes n, x ∈ w.scene.graph.childNodes n)
    (same : ∀ x ∈ w.scene.graph.childNodes n, w'.scene.isNode x = w.scene.isNode x) :
    Unmixed w' n := by
  rcases h with all | raw
  · exact Or.inl fun x hx => (same x (sub x hx)).trans (all x (sub x hx))
  · exact Or.inr fun x hx => (same x (sub x hx)).trans (raw x (sub x hx))

namespace AllUnmixed
variable {w w' : World ι κ} {p q c n g : ι} {k key : κ}

theorem init (root content : ι) : AllUnmixed (World.init root content : World ι κ) := by
  intro n hn
  simp only [World.init] at hn
  split_ifs at hn <;> exact hn.elim

/-- A node may go to one that has only instances of `Node`. -/
theorem addScriptNode (h : AllUnmixed w) (valid : Valid w) (hc : (w.role c).ScriptNode)
    (hp : (w.role p).ScriptNode → ∀ x ∈ w.scene.graph.childNodes p, w.scene.isNode x = true) :
    AllUnmixed { w with scene := w.scene.addChildNode p c } := by
  intro q hq
  by_cases hqp : q = p
  · subst hqp
    refine Or.inl fun x hx => ?_
    rcases Hierarchy.mem_attach.mp hx with ⟨_, rfl⟩ | ⟨hx, _⟩
    · exact valid.class_node x hc
    · exact hp hq x hx
  · refine (h q hq).mono (fun x hx => ?_) fun _ _ => rfl
    exact Hierarchy.mem_of_mem_attach hqp hx

/-- A fresh node is nobody's child and has none. -/
theorem assign (h : AllUnmixed w) (valid : Valid w) (fresh : w.role n = .unused) (b : Bool)
    (role : Role κ) :
    AllUnmixed { w with
      scene := { w.scene with isNode := fun x => if x = n then b else w.scene.isNode x }
      role := fun x => if x = n then role else w.role x } := by
  intro q hq
  by_cases hqn : q = n
  · subst hqn
    refine Or.inl fun x hx => ?_
    rw [valid.edges.unused_no_children fresh] at hx
    cases hx
  · simp only [if_neg hqn] at hq
    refine (h q hq).mono (fun x hx => hx) fun x hx => ?_
    have hxn : x ≠ n := by
      rintro rfl
      exact valid.edges.unused_no_parent fresh q hx
    simp only [if_neg hxn]

omit [DecidableEq ι] in
/-- What the lookup hands over to a placeholder comes before any raw node does. -/
theorem placeholder_children (valid : Valid w) (raw : RawApart w)
    (hp : w.placeholder k = some p) (htable : w.scene.importedModelsList k ≠ none) :
    ∀ x ∈ w.scene.graph.childNodes p, w.scene.isNode x = true := by
  intro x hx
  have may := valid.edges p x hx
  rw [valid.role_of_placeholder hp] at may
  rcases may with hscript | hloaded
  · exact valid.class_node x hscript
  · exact absurd hloaded (raw k p hp htable x hx)

variable [DecidableEq κ] {m : GLTFScene ι} {op : Operation ι κ}

/-- The wrapper of an arriving model has raw children only. -/
theorem arrived (h : AllUnmixed w) (valid : Valid w) (harr : w.Arrives key g m) :
    AllUnmixed (w.arrived key g m) := by
  intro q hq
  by_cases used : w.role q = .unused
  · have hqg : q = g := by
      simp only [World.arrived] at hq
      split_ifs at hq with hqm hqg
      · exact hq.elim
      · exact hqg
      · rw [used] at hq
        exact hq.elim
    refine Or.inr fun x hx => ?_
    rw [hqg, valid.arrived_wrapper_children harr] at hx
    exact World.arrived_isNode_of_mem (m.roots_mem hx)
  · rw [World.role_arrived harr used] at hq
    refine (h q hq).mono (fun x hx => ?_) fun x hx => ?_
    · rwa [valid.arrived_used_children harr used] at hx
    · exact World.arrived_isNode_of_used harr (valid.edges q x hx).ne_unused.2

theorem effect (h : AllUnmixed w) (valid : Valid w) (raw : RawApart w) (hok : w.KeepsApart op)
    (effect : w.Effect op w') : AllUnmixed w' := by
  cases effect with
  | node n fresh => exact h.assign valid fresh true .made
  | importModel n key fresh _ => exact h.assign valid fresh true (.placeholder key)
  | nodes => exact h
  | children n _ => exact h
  | nodeAdd parent child _ names =>
    exact h.addScriptNode valid (valid.held_role child names) fun _ => hok
  | sceneAdd n holds _ =>
    refine h.addScriptNode valid (valid.held_role n holds) fun hcontent => ?_
    exact absurd valid.content_role hcontent.ne_content
  | sceneAddFound n k g holds hkey found =>
    have hn : w.placeholder k = some n :=
      (valid.placeholder_role n k).mpr ((valid.key_role n k).mp hkey)
    have handed := h.addScriptNode (p := n) valid (valid.scriptNode_of_table found) fun _ =>
      placeholder_children valid raw hn (by simp [found])
    intro q hq
    have hqc : q ≠ w.scene.sceneContent := by
      rintro rfl
      exact hq.ne_content valid.content_role
    exact (handed q hq).mono (fun x hx => Hierarchy.mem_of_mem_attach hqc hx) fun _ _ => rfl
  | complete key g m p _ harr _ => exact h.arrived valid harr
  | completeInScene key g m p r hp harr inScene root =>
    have hr : (w.arrived key g m).scene.isNode r = false :=
      World.arrived_isNode_of_mem (m.roots_mem root)
    intro q hq
    by_cases hqp : q = p
    · subst hqp
      refine Or.inr fun x hx => ?_
      rcases Hierarchy.mem_attach.mp hx with ⟨_, rfl⟩ | ⟨hx, _⟩
      · exact hr
      · rw [valid.arrived_used_children harr (valid.placeholder_used hp)] at hx
        exact (World.arrived_isNode_of_used harr (valid.edges q x hx).ne_unused.2).trans
          (hok q hp inScene x hx)
    · refine (h.arrived valid harr q hq).mono (fun x hx => ?_) fun _ _ => rfl
      exact Hierarchy.mem_of_mem_attach hqp hx
  | removeSceneContent =>
    rw [Scene.removeSceneContent_eq]
    exact fun q hq => (h q hq).mono (fun x hx => (Hierarchy.mem_detachAll.mp hx).1) fun _ _ => rfl
  | host parent n b fresh place =>
    intro q hq
    have made := h.assign valid fresh b .host q hq
    have hqn : q ≠ n := by
      rintro rfl
      simp [Role.ScriptNode] at hq
    simp only [if_neg hqn] at hq
    have hqp : q ≠ parent := by
      apply valid.ne_of_place place <;> intro hr <;> simp [hr, Role.ScriptNode] at hq
    exact made.mono (fun x hx => Hierarchy.mem_of_mem_attach hqp hx) fun _ _ => rfl

/-- An operation that does not keep the kinds apart mixes them at a node the script holds. -/
theorem mixed_of_effect (valid : Valid w) (holds : ∀ k p, w.placeholder k = some p → p ∈ w.held)
    (hok : ¬ w.KeepsApart op) (effect : w.Effect op w') :
    ∃ n ∈ w'.held, (w'.role n).ScriptNode ∧ ¬ Unmixed w' n := by
  cases effect with
  | nodeAdd parent child hp names =>
    have hraw : ∃ x ∈ w.scene.graph.childNodes parent, w.scene.isNode x = false := by
      simpa [World.KeepsApart, Scene.childNodes] using hok
    obtain ⟨x, hx, raw⟩ := hraw
    have hchild := valid.class_node child (valid.held_role child names)
    refine ⟨parent, hp, valid.held_role parent hp, ?_⟩
    rintro (all | allRaw)
    · have hxc : x ≠ child := by
        rintro rfl
        cases raw.symm.trans hchild
      cases raw.symm.trans (all x ((Hierarchy.mem_attach_of_ne hxc).mpr hx))
    · cases hchild.symm.trans (allRaw child Hierarchy.attach_self)
  | complete key g m p hp _ out =>
    refine absurd (fun q hq hin => ?_) hok
    cases hp.symm.trans hq
    exact absurd hin out
  | completeInScene key g m p r hp harr _ root =>
    have hnode : ∃ x ∈ w.scene.graph.childNodes p, w.scene.isNode x = true := by
      by_contra none
      push Not at none
      refine hok fun q hq _ x hx => ?_
      cases hp.symm.trans hq
      exact Bool.not_eq_true _ ▸ none x hx
    obtain ⟨x, hx, hxn⟩ := hnode
    have used := (valid.edges p x hx).ne_unused.2
    have hr : (w.arrived key g m).scene.isNode r = false :=
      World.arrived_isNode_of_mem (m.roots_mem root)
    have hpr := valid.placeholder_used hp
    refine ⟨p, holds key p hp, ?_, ?_⟩
    · simp only [World.role_arrived harr hpr, valid.role_of_placeholder hp]
      trivial
    · rintro (all | allRaw)
      · cases hr.symm.trans (all r Hierarchy.attach_self)
      · have hxr : x ≠ r := by
          rintro rfl
          exact used (harr.nodes x (m.roots_mem root))
        have hx' := (Hierarchy.mem_attach_of_ne (p := p) hxr).mpr
          ((valid.mem_arrived_of_used harr hpr).mpr hx)
        have hxn' := (World.arrived_isNode_of_used harr used).trans hxn
        cases hxn'.symm.trans (allRaw x hx')
  | _ => exact absurd trivial hok

end AllUnmixed

variable [DecidableEq κ]

/-- Over every run of operations that bring no instance of `Node` together with a raw node, the
getter of every node a script holds lists the nodes attached to it and not since elsewhere, in
the order of their last attachment; the first operation that does bring them together breaks
this. -/
theorem children_of_run {root content : ι} (apart : root ≠ content) {w : World ι κ}
    {r : Hierarchy ι} (run : Run (shadow World.perform World.attached)
      (fun s op => s.1.KeepsApart op) (World.init root content, .empty) (w, r)) :
    (∀ n ∈ w.held, w.ListsChildren r n) ∧ ∀ op w', w.perform op = some w' →
      ((∀ n ∈ w'.held, w'.ListsChildren (w.attached r op) n) ↔ w.KeepsApart op) := by
  have performed : Run World.perform World.KeepsApart (World.init root content) w := run.of_shadow
  have valid := valid_of_run apart (World.reachable_of_performed performed)
  have mirrors : Mirrors w r := by
    refine World.shadowed_invariant World.KeepsApart (I := Mirrors) apart ?_ ?_ run
    · exact .init root content
    · exact fun t z op u ht hz _ effect => hz.effect ht effect
  have unmixed : RawApart w ∧ AllUnmixed w := by
    refine World.performed_invariant (I := fun w => RawApart w ∧ AllUnmixed w) apart ?_ ?_ performed
    · exact ⟨by simp [RawApart, World.init], .init root content⟩
    · intro t op u ht hI hok effect
      exact ⟨hI.1.effect ht effect, hI.2.effect ht hI.1 hok effect⟩
  constructor
  · intro n hn
    have hscript := valid.held_role n hn
    exact (mirrors.listsChildren_iff hscript).mpr (unmixed.2 n hscript)
  · intro op w' hperf
    obtain ⟨_, effect⟩ := World.effect_of_performed apart performed hperf
    have valid' := valid.perform hperf
    have mirrors' := mirrors.effect valid effect
    constructor
    · intro lists
      by_contra hok
      obtain ⟨n, hn, hscript, mixed⟩ := AllUnmixed.mixed_of_effect valid
        (World.placeholder_held (World.reachable_of_performed performed)) hok effect
      exact mixed ((mirrors'.listsChildren_iff hscript).mp (lists n hn))
    · intro hok n hn
      have hscript := valid'.held_role n hn
      exact (mirrors'.listsChildren_iff hscript).mpr
        (unmixed.2.effect valid unmixed.1 hok effect n hscript)

/-- A script groups its own node with an import whose model arrives afterwards: the node is
still attached, and the getter has lost it. -/
theorem attached_child_lost : ¬ ∀ (w : World ℕ ℕ) (r : Hierarchy ℕ),
    Run (shadow World.perform World.attached) (fun _ _ => True)
      (World.init 0 1, .empty) (w, r) → ∀ n ∈ w.held, w.ListsChildren r n := by
  intro claim
  obtain ⟨⟨w, r⟩, run, hheld, hlist, hr⟩ := Run.exists_of_exec
    (shadow World.perform World.attached) (fun _ _ => True)
    ((World.init 0 1, .empty) : World ℕ ℕ × Hierarchy ℕ)
    [.importModel 2 7, .sceneAdd 2, .node 6, .nodeAdd 2 6,
      .complete 7 3 (.flat 4 [5] (by decide))]
    (fun s => 2 ∈ s.1.held ∧ Node.children s.1.scene 2 = [] ∧ s.2.childNodes 2 = [6]) (by decide)
  cases (hlist.symm.trans (claim w r run 2 hheld)).trans hr

/-- A node moved between two parents, and a placeholder served from the table: all lists are
right, and stay right unless the script adds a node to the loaded node. -/
theorem children_of_run_loaded : ∃ (w : World ℕ ℕ) (r : Hierarchy ℕ),
    w.ListsChildren r 2 ∧ r.childNodes 2 = [6, 3] ∧
      (∀ w', w.perform (.nodeAdd 8 6) = some w' →
        ∀ n ∈ w'.held, w'.ListsChildren (r.attach 8 6) n) ∧
      ∀ w', w.perform (.nodeAdd 3 6) = some w' →
        ¬ ∀ n ∈ w'.held, w'.ListsChildren (r.attach 3 6) n := by
  obtain ⟨⟨w, r⟩, run, hheld, hr, hkeeps, hmixes⟩ := Run.exists_of_exec
    (shadow World.perform World.attached) (fun s op => s.1.KeepsApart op)
    ((World.init 0 1, .empty) : World ℕ ℕ × Hierarchy ℕ)
    [.importModel 2 7, .node 6, .node 8, .nodeAdd 8 6, .nodeAdd 2 6,
      .complete 7 3 (.flat 4 [5] (by decide)), .sceneAdd 2, .children 2]
    (fun s => 2 ∈ s.1.held ∧ s.2.childNodes 2 = [6, 3] ∧ s.1.KeepsApart (.nodeAdd 8 6) ∧
      ¬ s.1.KeepsApart (.nodeAdd 3 6)) (by decide)
  have main := children_of_run (by decide) run
  refine ⟨w, r, main.1 2 hheld, hr, fun w' h => (main.2 _ w' h).mpr hkeeps, fun w' h => ?_⟩
  exact fun lists => hmixes ((main.2 _ w' h).mp lists)

end AstroAR
