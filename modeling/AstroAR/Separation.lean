import AstroAR.Operations

/-!
# Script content and host content stay apart

`sceneContent` exists so that what scripts put into the scene can be told from,
and cleared without, the nodes of the host app. Script-owned nodes never get a
parent outside `sceneContent` and what hangs below it.
-/

namespace AstroAR

open Runs

universe u v
variable {ι : Type u} {κ : Type v}

namespace Valid
variable {w : World ι κ} {n p c : ι}

/-- Whatever the root of the scene reaches is itself, `sceneContent`, a host node, or a
script-owned node that `sceneContent` reaches as well. -/
theorem below_root (h : Valid w) (hn : w.scene.graph.Below w.scene.rootNode n) :
    w.role n = .root ∨ w.role n = .content ∨ w.role n = .host ∨
      ((w.role n).ScriptOwned ∧ w.scene.graph.Below w.scene.sceneContent n) := by
  induction hn with
  | refl => exact Or.inl h.root_role
  | @tail p c _ hc ih =>
    have may := h.edges p c hc
    rcases ih with hp | hp | hp | ⟨howned, hbelow⟩
    · rw [hp] at may
      rcases may with hc | hc
      · exact Or.inr (Or.inl hc)
      · exact Or.inr (Or.inr (Or.inl hc))
    · -- the edge from `sceneContent` itself
      have hpc := h.content_unique p hp
      subst hpc
      rw [hp] at may
      exact Or.inr (Or.inr (Or.inr ⟨may.child_of_content.owned, Hierarchy.Below.child hc⟩))
    · rw [hp] at may
      exact Or.inr (Or.inr (Or.inl may))
    · refine Or.inr (Or.inr (Or.inr ⟨?_, hbelow.tail hc⟩))
      revert may howned
      cases w.role p <;> cases w.role c <;> simp [Role.MayHold, Role.ScriptOwned, Role.ScriptNode]

theorem owned_below_content (h : Valid w) (howned : (w.role n).ScriptOwned)
    (hn : w.scene.graph.Below w.scene.rootNode n) :
    w.scene.graph.Below w.scene.sceneContent n := by
  rcases h.below_root hn with hr | hr | hr | hr
  · rw [hr] at howned; exact howned.elim
  · rw [hr] at howned; exact howned.elim
  · rw [hr] at howned; exact howned.elim
  · exact hr.2

/-- A host node is reached through host nodes only. -/
theorem host_below_root (h : Valid w) (hhost : w.role n = .host)
    (hn : w.scene.graph.Below w.scene.rootNode n) :
    Relation.ReflTransGen (fun p c => c ∈ w.scene.graph.childNodes p ∧
      p ≠ w.scene.sceneContent) w.scene.rootNode n := by
  induction hn with
  | refl => exact .refl
  | @tail p c _ hc ih =>
    have may := h.edges p c hc
    rw [hhost] at may
    rcases may.parent_of_host with hp | hp
    · -- only the root itself has the role of the root
      have hroot : p = w.scene.rootNode := by
        by_contra hne
        rcases Hierarchy.Below.eq_or_parent ‹_› with heq | ⟨q, _, hq⟩
        · exact hne heq
        · exact (h.edges q p hq).ne_root hp
      subst hroot
      exact .single ⟨hc, h.ne_root_of_content⟩
    · refine (ih hp).tail ⟨hc, ?_⟩
      rintro rfl
      rw [h.content_role] at hp
      cases hp

/-- A node that scripts or imports own is not among the children of the root. -/
theorem owned_not_root_child (h : Valid w) (howned : (w.role c).ScriptOwned) :
    c ∉ w.scene.graph.childNodes w.scene.rootNode := by
  intro hc
  rcases (h.edges _ _ hc).parent_of_owned howned with hp | hp
  · rw [h.root_role] at hp; cases hp
  · rw [h.root_role] at hp; exact hp

variable [DecidableEq ι]

/-- Moving script-owned nodes among themselves leaves the children of the root alone. -/
theorem attach_root_children (h : Valid w) (hp : w.role p ≠ .root)
    (howned : (w.role c).ScriptOwned) :
    (w.scene.graph.attach p c).childNodes w.scene.rootNode =
      w.scene.graph.childNodes w.scene.rootNode := by
  refine Hierarchy.attach_childNodes_of_ne ?_ (h.owned_not_root_child howned)
  rintro rfl
  exact hp h.root_role

/-- Only the host app changes the child list of the root. -/
theorem step_root_children [DecidableEq κ] (h : Valid w) {w' : World ι κ} {a : Action ι κ}
    (notHost : ∀ p n b, a ≠ .host p n b) (hstep : w.step a = some w') :
    w'.scene.graph.childNodes w.scene.rootNode = w.scene.graph.childNodes w.scene.rootNode := by
  have notRoot : ∀ {r : Role κ}, r.ScriptNode → r ≠ .root := by rintro _ hr rfl; exact hr
  cases a with
  | node n =>
    obtain ⟨_, rfl⟩ := by simpa [World.step] using hstep
    rfl
  | importModel n key =>
    obtain ⟨_, rfl⟩ := by simpa [World.step] using hstep
    rfl
  | nodes =>
    obtain ⟨_, rfl⟩ := by simpa [World.step] using hstep
    rfl
  | children n =>
    obtain ⟨_, rfl⟩ := by simpa [World.step] using hstep
    rfl
  | nodeAdd parent child =>
    obtain ⟨⟨_, hp, hc⟩, rfl⟩ := by simpa [World.step] using hstep
    exact h.attach_root_children (notRoot (h.held_role _ hp)) (h.held_role _ hc).owned
  | addLookup n =>
    obtain ⟨⟨_, hn⟩, rfl⟩ := by simpa [World.step] using hstep
    rcases Scene.addLookup_cases w.scene n with ⟨heq, _⟩ | ⟨k, g, _, htable, heq⟩
    · simp only [heq]
    · have hg := h.wrapper_of_table htable
      simp only [heq, Scene.deliver_graph]
      exact h.attach_root_children (notRoot (h.held_role _ hn)) (by rw [hg]; trivial)
  | addAppend =>
    simp only [World.step] at hstep
    split at hstep
    · rename_i n hn
      cases hstep
      refine h.attach_root_children ?_ (h.adding_role n hn).owned
      simp [h.content_role]
    · cases hstep
  | store key g m =>
    obtain ⟨⟨_, _, _, hg, hm, _⟩, rfl⟩ := by simpa [World.step] using hstep
    simp only [Scene.getNode_eq, Scene.store]
    exact h.store_used_children hg hm (by simp [h.root_role])
  | scan =>
    obtain ⟨k, p, l, _, hp, hl, ⟨_, r, hr, rfl⟩ | ⟨_, rfl⟩⟩ := h.scan_cases hstep
    · have hpr := h.role_of_placeholder hp
      apply h.attach_root_children (by simp [hpr])
      have may := h.edges _ _ (List.mem_of_head? hr)
      rw [h.wrapper_of_load hl] at may
      rcases may with hr | hr
      · exact hr.owned
      · rw [hr]; trivial
    · rfl
  | removeSceneContent =>
    cases hstep
    rw [Scene.removeSceneContent_eq]
    exact Hierarchy.detachAll_childNodes_of_disjoint fun x hx hx' =>
      h.ne_root_of_content (w.scene.graph.parent_unique hx hx')
  | host p n b => exact absurd rfl (notHost p n b)

/-- The same when an operation is called back. -/
theorem stepOrCallback_root_children [DecidableEq κ] (h : Valid w) {w' : World ι κ}
    {a : Action ι κ ⊕ Operation ι κ} (notHost : ∀ b ∈ World.parts a, ∀ p n c, b ≠ .host p n c)
    (hstep : w.stepOrCallback a = some w') :
    w'.scene.graph.childNodes w.scene.rootNode = w.scene.graph.childNodes w.scene.rootNode := by
  refine (h.stepOrCallback_keeps hstep (I := fun t => t.scene.rootNode = w.scene.rootNode ∧
    t.scene.graph.childNodes w.scene.rootNode = w.scene.graph.childNodes w.scene.rootNode)
    (fun _ _ h => h) ?_ ⟨rfl, rfl⟩).2
  rintro t b u ht ⟨hroot, hchildren⟩ hb hpart
  have kept := ht.step_root_children (notHost b hb) hpart
  rw [hroot] at kept
  exact ⟨(step_fixed ht hpart).1.trans hroot, kept.trans hchildren⟩

end Valid

/-- An operation that is not the host app's has no part that is. -/
theorem World.parts_ne_host {a : Action ι κ ⊕ Operation ι κ}
    (notHost : ∀ p n b, a ≠ .inl (.host p n b) ∧ a ≠ .inr (.host p n b)) :
    ∀ b ∈ World.parts a, ∀ p n c, b ≠ .host p n c := by
  cases a with
  | inl a =>
    intro b hb p n c
    rw [List.mem_singleton.mp hb]
    exact fun heq => (notHost p n c).1 (congrArg Sum.inl heq)
  | inr op => cases op <;> simp_all [World.parts, Operation.steps]

/-- In every state of every interleaving, with operations called back at any moment:
`sceneContent` is a child of the root, whose child list only the host app changes; script-owned
nodes are reached through `sceneContent` only; and a clear removes them all from the scene while
every host node stays in it. -/
theorem separation [DecidableEq ι] [DecidableEq κ] {root content : ι} (apart : root ≠ content)
    {w : World ι κ} (run : Run World.stepOrCallback (fun _ _ => True) (.init root content) w) :
    (content ∈ w.scene.graph.childNodes root ∧
      ∀ a w', (∀ p n b, a ≠ .inl (.host p n b) ∧ a ≠ .inr (.host p n b)) →
        w.stepOrCallback a = some w' →
        w'.scene.graph.childNodes root = w.scene.graph.childNodes root) ∧
    (∀ n, (w.role n).ScriptOwned → w.scene.graph.Below root n →
      w.scene.graph.Below content n) ∧
    (∀ a w', a = .inl .removeSceneContent ∨ a = .inr .removeSceneContent →
      w.stepOrCallback a = some w' →
      (∀ n, (w.role n).ScriptOwned → ¬ w'.scene.graph.Below root n) ∧
      ∀ n, w.role n = .host → w.scene.graph.Below root n → w'.scene.graph.Below root n) := by
  have h := World.valid_of_callbacks apart run
  obtain ⟨rfl, rfl⟩ := World.callbacks_fixed apart run
  refine ⟨⟨h.content_child, fun a w' notHost =>
    h.stepOrCallback_root_children (World.parts_ne_host notHost)⟩,
    fun n => h.owned_below_content, fun a w' clear hstep => ?_⟩
  have h' := h.stepOrCallback hstep
  have hw' : w' = { w with scene := w.scene.removeSceneContent } := by
    rcases clear with rfl | rfl <;> cases hstep <;> rfl
  subst hw'
  rw [Scene.removeSceneContent_eq] at h' ⊢
  constructor
  · intro n howned hn
    -- after the clear `sceneContent` has no children
    have hbelow := h'.owned_below_content howned hn
    have heq : n = w.scene.sceneContent := by
      refine hbelow.closed (S := fun x => x = w.scene.sceneContent) rfl ?_
      rintro p c rfl hc
      rw [Hierarchy.detachAll_childNodes_self] at hc
      cases hc
    rw [heq, h.content_role] at howned
    exact howned
  · intro n hhost hn
    refine Relation.ReflTransGen.mono ?_ _ _ (h.host_below_root hhost hn)
    rintro p c ⟨hc, hp⟩
    exact (Hierarchy.mem_detachAll_children_of_ne hp).mpr hc

/-- A script puts a node into a scene in which the host has one, and a detector another one
while the script's `Scene.add` is under way; the clear takes out only these two. -/
theorem separation_after_clear : ∃ w w' : World ℕ ℕ,
    Run World.stepOrCallback (fun _ _ => True) (.init 0 1) w ∧
    w.stepOrCallback (.inl .removeSceneContent) = some w' ∧
    w.role 2 = .made ∧ w.role 4 = .made ∧ w.scene.nodes = [4, 2] ∧
    ¬ w'.scene.graph.Below 0 2 ∧ ¬ w'.scene.graph.Below 0 4 ∧
    w.role 3 = .host ∧ w'.scene.graph.Below 0 3 := by
  obtain ⟨w, run, hmade, hmade', hnodes, hhost, hroot⟩ := Run.exists_of_exec
    World.stepOrCallback (fun _ _ => True) (World.init 0 1 : World ℕ ℕ)
    [.inl (.node 2), .inl (.host 0 3 false), .inl (.addLookup 2), .inr (.node 4),
      .inr (.sceneAdd 4), .inl .addAppend]
    (fun w => w.role 2 = .made ∧ w.role 4 = .made ∧ w.scene.nodes = [4, 2] ∧ w.role 3 = .host ∧
      3 ∈ w.scene.graph.childNodes 0) (by decide)
  have cleared := (separation (by decide) run).2.2 _ _ (Or.inl rfl) rfl
  refine ⟨w, _, run, rfl, hmade, hmade', hnodes, cleared.1 2 ?_, cleared.1 4 ?_, hhost,
    cleared.2 3 hhost ?_⟩
  · rw [hmade]; trivial
  · rw [hmade']; trivial
  · exact Hierarchy.Below.child hroot

end AstroAR
