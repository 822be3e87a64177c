import AstroAR.Operations

/-!
# Models are handed to their own placeholders

Two paths hand an imported node over: the lookup in `Scene.add`, through the
table, and the scan of a completion, through its closure. Under every
interleaving, with operations called back at any moment, both give a
placeholder nodes of its own import only.
-/

namespace AstroAR

open Runs

universe u v
variable {ι : Type u} {κ : Type v} [DecidableEq ι] [DecidableEq κ]

/-- Every model that arrives has a root node. -/
def Action.ModelsNonempty : Action ι κ → Prop
  | .store _ _ m => m.roots ≠ []
  | _ => True

instance (a : Action ι κ) : Decidable a.ModelsNonempty :=
  match a with
  | .store _ _ m => inferInstanceAs (Decidable (m.roots ≠ []))
  | .node _ | .importModel _ _ | .nodes | .children _ | .nodeAdd _ _ | .addLookup _ | .addAppend
  | .scan | .removeSceneContent | .host _ _ _ => isTrue trivial

/-- `m` is the wrapper made for the import `k`, or a node of the model loaded for it. -/
def World.BelongsTo (w : World ι κ) (k : κ) (m : ι) : Prop :=
  ∃ l, w.load k = some l ∧ (m = l.wrapper ∨ m ∈ l.model.nodes)

omit [DecidableEq ι] [DecidableEq κ] in
theorem Valid.belongsTo_role {w : World ι κ} (h : Valid w) {k : κ} {m : ι}
    (hm : w.BelongsTo k m) : w.role m = .wrapper k ∨ w.role m = .loaded k := by
  obtain ⟨l, hl, rfl | hm⟩ := hm
  · exact Or.inl (h.wrapper_of_load hl)
  · exact Or.inr ((h.loaded_role m k).mpr ⟨l, hl, hm⟩)

omit [DecidableEq ι] [DecidableEq κ] in
/-- A node belongs to one import at most, and then it is neither a node that a script made nor
a placeholder. -/
theorem Valid.belongsTo_unique {w : World ι κ} (h : Valid w) {k : κ} {m : ι}
    (hm : w.BelongsTo k m) (k' : κ) : (w.BelongsTo k' m → k' = k) ∧ w.role m ≠ .made ∧
      w.placeholder k' ≠ some m := by
  rcases h.belongsTo_role hm with hr | hr
  · refine ⟨fun hm' => ?_, by simp [hr], fun hp => ?_⟩
    · rcases h.belongsTo_role hm' with hr' | hr' <;> cases hr.symm.trans hr'
      rfl
    · cases hr.symm.trans (h.role_of_placeholder hp)
  · refine ⟨fun hm' => ?_, by simp [hr], fun hp => ?_⟩
    · rcases h.belongsTo_role hm' with hr' | hr' <;> cases hr.symm.trans hr'
      rfl
    · cases hr.symm.trans (h.role_of_placeholder hp)

/-- A step that brings no model without root nodes records none. -/
theorem World.step_load_nonempty {w w' : World ι κ} {a : Action ι κ}
    (ih : ∀ k l, w.load k = some l → l.model.roots ≠ []) (models : a.ModelsNonempty)
    (hstep : w.step a = some w') : ∀ k l, w'.load k = some l → l.model.roots ≠ [] := by
  cases a with
  | addAppend =>
    simp only [World.step] at hstep
    split at hstep
    · cases hstep
      exact ih
    · cases hstep
  | store key g m =>
    obtain ⟨_, rfl⟩ := by simpa [World.step] using hstep
    intro k l hl
    simp only at hl
    split_ifs at hl
    · cases hl
      exact models
    · exact ih k l hl
  | scan =>
    simp only [World.step] at hstep
    split at hstep
    · obtain ⟨s, _, rfl⟩ := Option.map_eq_some_iff.mp hstep
      exact ih
    · cases hstep
  | removeSceneContent =>
    cases hstep
    exact ih
  | _ =>
    obtain ⟨_, rfl⟩ := by simpa [World.step] using hstep
    exact ih

/-- Loads that were recorded came from actions of the run. -/
theorem load_nonempty {root content : ι} (apart : root ≠ content) {w : World ι κ}
    (run : Run World.stepOrCallback (fun _ a => ∀ b ∈ World.parts a, b.ModelsNonempty)
      (World.init root content) w) :
    ∀ k l, w.load k = some l → l.model.roots ≠ [] :=
  World.callbacks_invariant apart (I := fun w => ∀ k l, w.load k = some l → l.model.roots ≠ [])
    (by simp [World.init]) (fun _ _ h => h)
    (fun _ _ models _ b _ _ ih hb hstep => World.step_load_nonempty ih (models b hb) hstep) run

/-- In every state of every interleaving, with operations called back at any moment, each pair
of a parent and a node that the lookup or the scan brought together is the placeholder of one
import, and of no other, with the wrapper or a root node loaded for that import, and for no
other. -/
theorem delivered_to_own_placeholder {root content : ι} (apart : root ≠ content)
    {w : World ι κ}
    (run : Run World.stepOrCallback (fun _ a => ∀ b ∈ World.parts a, b.ModelsNonempty)
      (World.init root content) w)
    {q m : ι} (hqm : (q, m) ∈ w.scene.delivered) :
    ∃ k l, w.placeholder k = some q ∧ w.load k = some l ∧
      (m = l.wrapper ∨ m ∈ l.model.roots) ∧
      (∀ k', w.placeholder k' = some q → k' = k) ∧
      (∀ k', w.BelongsTo k' m → k' = k) ∧
      w.role m ≠ .made ∧ ∀ k', w.placeholder k' ≠ some m := by
  have h := World.valid_of_callbacks apart run
  obtain ⟨k, l, hq, hl, hm⟩ := h.delivered_role q m hqm
  have hm : m = l.wrapper ∨ m ∈ l.model.roots :=
    hm.imp_right fun hm => hm.resolve_right (load_nonempty apart run k l hl)
  have belongs : w.BelongsTo k m := ⟨l, hl, hm.imp_right l.model.roots_mem⟩
  refine ⟨k, l, (h.placeholder_role q k).mpr hq, hl, hm, fun k' hk' => ?_, fun k' => ?_, ?_,
    fun k' => ?_⟩
  · cases hq.symm.trans (h.role_of_placeholder hk')
    rfl
  · exact (h.belongsTo_unique belongs k').1
  · exact (h.belongsTo_unique belongs k).2.1
  · exact (h.belongsTo_unique belongs k').2.2

/-- Both paths deliver for one import: the lookup its wrapper, in a `Scene.add` that a detector
interrupts to put a node of its own into the wrapper, then the scan a root node out of it. -/
theorem both_paths_deliver : ∃ w : World ℕ ℕ, w.scene.delivered = [(2, 3), (2, 5)] ∧
    w.scene.graph.childNodes 3 = [6] ∧
    ∃ k l, w.placeholder k = some 2 ∧ w.load k = some l ∧ 5 ∈ l.model.roots := by
  obtain ⟨w, run, hdelivered, hchildren, hwrapper⟩ := Run.exists_of_exec
    World.stepOrCallback (fun _ a => ∀ b ∈ World.parts a, b.ModelsNonempty)
    (World.init 0 1 : World ℕ ℕ)
    [.inl (.importModel 2 7), .inr (.node 6), .inl (.store 7 3 (.flat 4 [5] (by decide))),
      .inl (.addLookup 2), .inr (.children 2), .inr (.nodeAdd 3 6), .inl .addAppend, .inl .scan]
    (fun w => w.scene.delivered = [(2, 3), (2, 5)] ∧ w.scene.graph.childNodes 3 = [6] ∧
      w.role 5 = .loaded 7) (by decide)
  obtain ⟨k, l, hk, hl, hm, _⟩ := delivered_to_own_placeholder (q := 2) (m := 5) (by decide) run
    (by rw [hdelivered]; decide)
  refine ⟨w, hdelivered, hchildren, k, l, hk, hl, hm.resolve_left fun heq => ?_⟩
  have hrole := (World.valid_of_callbacks (by decide) run).wrapper_of_load hl
  rw [← heq, hwrapper] at hrole
  cases hrole

end AstroAR
