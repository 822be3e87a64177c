import AstroAR.Operations

/-!
# Adding a placeholder before or after its model arrives

`Scene.add` hands the whole wrapper over; a completion that finds its
placeholder in the scene hands over `childNodes[0]`, which is the model only if
the model has a single root node.
-/

namespace AstroAR

open Runs

universe u v
variable {ι : Type u} {κ : Type v} [DecidableEq ι]

namespace World

/-- The placeholder `p` is in the scene with all root nodes of the model below it, each once. -/
def Shows (w : World ι κ) (p : ι) (m : GLTFScene ι) : Prop :=
  p ∈ w.scene.graph.childNodes w.scene.sceneContent ∧
    ∀ r ∈ m.roots, w.scene.graph.OnceBelow p r

variable [DecidableEq κ]

def addThenComplete (w : World ι κ) (p : ι) (k : κ) (g : ι) (m : GLTFScene ι) :
    Option (World ι κ) :=
  (w.perform (.sceneAdd p)).bind fun w => w.perform (.complete k g m)

def completeThenAdd (w : World ι κ) (p : ι) (k : κ) (g : ι) (m : GLTFScene ι) :
    Option (World ι κ) :=
  (w.perform (.complete k g m)).bind fun w => w.perform (.sceneAdd p)

end World

section Orders
variable [DecidableEq κ] {w w' : World ι κ} {k : κ} {p g r : ι} {m : GLTFScene ι}

/-- The root nodes that a scan leaves in the wrapper are below no placeholder. -/
theorem Valid.not_below_of_left (h : Valid w) (hp : w.placeholder k = some p)
    (harr : w.Arrives k g m) {r' : ι} (hr : r ∈ m.roots) (hr' : r' ∈ m.roots) (hne : r' ≠ r) :
    ¬ ((w.arrived k g m).scene.graph.attach p r).Below p r' := by
  intro hbelow
  have hpused := h.placeholder_used hp
  have orphan : ∀ q, g ∉ ((w.arrived k g m).scene.graph.attach p r).childNodes q := by
    intro q hq
    rcases Hierarchy.mem_attach.mp hq with ⟨_, rfl⟩ | ⟨hq, _⟩
    · exact harr.apart (m.roots_mem hr)
    · rcases (h.mem_arrived harr).mp hq with ⟨_, hg⟩ | ⟨hqm, hg, _⟩ | hg
      · exact harr.apart (m.roots_mem hg)
      · exact harr.apart (m.closed q hqm g hg)
      · exact h.edges.unused_no_parent harr.wrapper q hg
  rcases hbelow.eq_or_parent with heq | ⟨q, hq, hchild⟩
  · exact hpused (heq ▸ harr.nodes r' (m.roots_mem hr'))
  · rw [Hierarchy.mem_attach_of_ne hne] at hchild
    rcases (h.mem_arrived harr).mp hchild with ⟨rfl, _⟩ | ⟨_, _, hroot⟩ | hold
    · -- the wrapper has no parent, and it is not the placeholder
      exact hpused (Hierarchy.Below.of_orphan orphan hq ▸ harr.wrapper)
    · exact hroot hr'
    · exact h.edges.unused_no_parent (harr.nodes r' (m.roots_mem hr')) q hold

/-- A completion that finds its placeholder in the scene shows the model exactly when it has one
root node; without any it traps. -/
theorem Valid.complete_shows_iff (h : Valid w) (idle : w.Idle) (hp : w.placeholder k = some p)
    (harr : w.Arrives k g m) (hpc : p ∈ w.scene.graph.childNodes w.scene.sceneContent) :
    (∃ w', w.perform (.complete k g m) = some w' ∧ w'.Shows p m) ↔ m.roots.length = 1 := by
  rw [World.perform_complete h idle.2 hp harr, if_pos hpc]
  cases hroots : m.roots with
  | nil => simp
  | cons r rest =>
    have hr : r ∈ m.roots := by rw [hroots]; exact List.mem_cons_self
    have hpr : p ≠ r := by
      rintro rfl
      exact h.placeholder_used hp (harr.nodes p (m.roots_mem hr))
    constructor
    · rintro ⟨w', hw', _, hshown⟩
      obtain rfl := Option.some.inj hw'
      cases hrest : rest with
      | nil => rfl
      | cons r' _ =>
        rw [hrest] at hroots
        have hr' : r' ∈ m.roots := by rw [hroots]; simp
        have hne : r' ≠ r := by
          rintro rfl
          have hnd := m.roots_nodup
          rw [hroots] at hnd
          exact (List.nodup_cons.mp hnd).1 List.mem_cons_self
        obtain ⟨q, hq, hmem⟩ := Hierarchy.onceBelow_iff.mp (hshown r' hr')
        exact absurd (hq.tail hmem) (h.not_below_of_left hp harr hr hr' hne)
    · intro hone
      refine ⟨_, rfl, ?_, fun r' hr' => ?_⟩
      · apply (Hierarchy.mem_attach_of_ne hpr).mpr
        change p ∈ (w.arrived k g m).scene.graph.childNodes (w.arrived k g m).scene.sceneContent
        rw [World.arrived_sceneContent]
        exact (h.mem_arrived_of_used harr h.content_used).mpr hpc
      · have hrest : rest = [] := List.length_eq_zero_iff.mp (by simpa using hone)
        rw [hroots, hrest, List.mem_singleton] at hr'
        subst hr'
        exact Hierarchy.onceBelow_iff.mpr ⟨p, Hierarchy.Below.refl _ p, Hierarchy.attach_self⟩

omit [DecidableEq κ] in
/-- Adding a placeholder puts it into the scene. -/
theorem World.mem_content_add (w : World ι κ) (p : ι) :
    p ∈ (w.scene.add p).graph.childNodes (w.scene.add p).sceneContent :=
  Hierarchy.attach_self

theorem Valid.addThenComplete_shows_iff (h : Valid w) (idle : w.Idle)
    (hp : w.placeholder k = some p) (held : p ∈ w.held) (harr : w.Arrives k g m) :
    (∃ w', w.addThenComplete p k g m = some w' ∧ w'.Shows p m) ↔ m.roots.length = 1 := by
  have hadd := World.perform_sceneAdd (n := p) idle.1
  rw [if_pos held] at hadd
  have h' : Valid { w with scene := w.scene.add p } := h.perform hadd
  simp only [World.addThenComplete, hadd, Option.bind_some]
  exact h'.complete_shows_iff idle hp ⟨harr.pending, harr.wrapper, harr.nodes, harr.apart⟩
    (w.mem_content_add p)

/-- A model with one root node is shown by a completion followed by `Scene.add`, whether the
placeholder was in the scene or not. -/
theorem Valid.completeThenAdd_shows (h : Valid w) (idle : w.Idle)
    (hp : w.placeholder k = some p) (held : p ∈ w.held) (harr : w.Arrives k g m)
    (one : m.roots.length = 1) :
    ∃ w', w.completeThenAdd p k g m = some w' ∧ w'.Shows p m := by
  obtain ⟨r, hroots⟩ := List.length_eq_one_iff.mp one
  have hr : r ∈ m.roots := by rw [hroots]; exact List.mem_cons_self
  have hpr : r ≠ p := by
    rintro rfl
    exact h.placeholder_used hp (harr.nodes r (m.roots_mem hr))
  have hgp : g ≠ p := by
    rintro rfl
    exact h.placeholder_used hp harr.wrapper
  have hrg : r ≠ g := by
    rintro rfl
    exact harr.apart (m.roots_mem hr)
  have hkey : (w.arrived k g m).scene.importedModelReferenceKey p = some k := by
    simp only [World.arrived, Scene.getNode_eq]
    exact (h.key_role p k).mpr (h.role_of_placeholder hp)
  have hcomplete := World.perform_complete h idle.2 hp harr
  by_cases hpc : p ∈ w.scene.graph.childNodes w.scene.sceneContent
  · -- the scan serves the placeholder, and the lookup finds the entry gone
    rw [if_pos hpc, hroots, List.head?_cons, Option.map_some] at hcomplete
    simp only [World.completeThenAdd, hcomplete, Option.bind_some]
    refine ⟨_, (World.perform_sceneAdd (by exact idle.1)).trans (if_pos (by exact held)),
      World.mem_content_add _ p, fun r' hr' => ?_⟩
    rw [hroots, List.mem_singleton] at hr'
    subst hr'
    refine Hierarchy.onceBelow_iff.mpr ⟨p, Hierarchy.Below.refl _ p, ?_⟩
    rcases Scene.addLookup_cases (((w.arrived k g m).scene.deliver p r').removeValue k) p with
      ⟨heq, _⟩ | ⟨k', g', hk', htable, _⟩
    · simp only [Scene.add, heq]
      exact (Hierarchy.mem_attach_of_ne hpr).mpr Hierarchy.attach_self
    · cases hkey.symm.trans hk'
      simp [Scene.removeValue] at htable
  · -- the lookup finds the wrapper and hands it over
    rw [if_neg hpc] at hcomplete
    simp only [World.completeThenAdd, hcomplete, Option.bind_some]
    refine ⟨_, (World.perform_sceneAdd (by exact idle.1)).trans (if_pos (by exact held)),
      World.mem_content_add _ p, fun r' hr' => ?_⟩
    rw [hroots, List.mem_singleton] at hr'
    subst hr'
    have hfound := Scene.addLookup_of_found (g := g) hkey (by simp [World.arrived, Scene.store])
    simp only [Scene.add, hfound]
    refine Hierarchy.onceBelow_iff.mpr ⟨g, Hierarchy.Below.child ?_, ?_⟩
    · exact (Hierarchy.mem_attach_of_ne hgp).mpr Hierarchy.attach_self
    · refine (Hierarchy.mem_attach_of_ne hpr).mpr ((Hierarchy.mem_attach_of_ne hrg).mpr ?_)
      rw [h.arrived_wrapper_children harr]
      exact hr

end Orders

/-- From any state of the app in which no operation is under way, both orders of `Scene.add` and
the completion end with the placeholder in the scene and the whole model below it if and only if
the model has exactly one root node. -/
theorem import_order_iff [DecidableEq κ] {root content : ι} (apart : root ≠ content)
    {w : World ι κ} (run : World.Reachable root content w) (idle : w.Idle) {k : κ} {p g : ι}
    {m : GLTFScene ι} (hp : w.placeholder k = some p) (harr : w.Arrives k g m) :
    ((∃ w₁, w.addThenComplete p k g m = some w₁ ∧ w₁.Shows p m) ∧
      (∃ w₂, w.completeThenAdd p k g m = some w₂ ∧ w₂.Shows p m)) ↔ m.roots.length = 1 := by
  have h := valid_of_run apart run
  have held := World.placeholder_held run k p hp
  constructor
  · exact fun both => (h.addThenComplete_shows_iff idle hp held harr).mp both.1
  · exact fun one => ⟨(h.addThenComplete_shows_iff idle hp held harr).mpr one,
      h.completeThenAdd_shows idle hp held harr one⟩

/-- A placeholder that is in the scene already, and a model with one root node. -/
theorem import_order_one_root : ∃ w : World ℕ ℕ, 2 ∈ w.scene.nodes ∧
    (∃ w₁, w.addThenComplete 2 7 3 (.flat 4 [5] (by decide)) = some w₁ ∧
      w₁.Shows 2 (.flat 4 [5] (by decide))) ∧
    (∃ w₂, w.completeThenAdd 2 7 3 (.flat 4 [5] (by decide)) = some w₂ ∧
      w₂.Shows 2 (.flat 4 [5] (by decide))) := by
  obtain ⟨w, run, idle, hp, hnodes, harr⟩ := Run.exists_of_exec
    World.step (fun _ _ => True) (World.init 0 1 : World ℕ ℕ)
    [.importModel 2 7, .addLookup 2, .addAppend]
    (fun w => w.Idle ∧ w.placeholder 7 = some 2 ∧ 2 ∈ w.scene.nodes ∧
      w.Arrives 7 3 (.flat 4 [5] (by decide))) (by decide)
  exact ⟨w, hnodes, (import_order_iff (by decide) run idle hp harr).mpr (by decide)⟩

/-- With two root nodes `Scene.add` before the completion shows one of them only. -/
theorem second_root_lost : ¬ ∀ (w : World ℕ ℕ) (k p g : ℕ) (m : GLTFScene ℕ),
    World.Reachable 0 1 w → w.Idle → w.placeholder k = some p → w.Arrives k g m →
    (∃ w₁, w.addThenComplete p k g m = some w₁ ∧ w₁.Shows p m) ∧
      (∃ w₂, w.completeThenAdd p k g m = some w₂ ∧ w₂.Shows p m) := by
  intro claim
  obtain ⟨w, run, idle, hp, held, harr⟩ := Run.exists_of_exec
    World.step (fun _ _ => True) (World.init 0 1 : World ℕ ℕ)
    [.importModel 2 7]
    (fun w => w.Idle ∧ w.placeholder 7 = some 2 ∧ 2 ∈ w.held ∧
      w.Arrives 7 3 (.flat 4 [5, 6] (by decide))) (by decide)
  have hone := ((valid_of_run (by decide) run).addThenComplete_shows_iff idle hp held harr).mp
    (claim w 7 2 3 _ run idle hp harr).1
  exact absurd hone (by decide)

end AstroAR
