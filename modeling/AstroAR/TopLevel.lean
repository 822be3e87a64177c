import AstroAR.Operations

/-!
# The list of top-level nodes

What `scene.nodes` returns is compared with the list that the script's own calls
describe: `Scene.add` puts the named node last, `Node.add` takes the named child
away, a clear empties the list, and imports leave it alone. The lookup in
`Scene.add` moves a second node, which the script may have put at the top level.
-/

namespace AstroAR

open Runs

universe u v
variable {ι : Type u} {κ : Type v} [DecidableEq ι]

/-- The top-level nodes after an operation, if no call moved a node other than the one it names. -/
def Operation.topLevel (l : List ι) : Operation ι κ → List ι
  | .sceneAdd n => l.filter (· ≠ n) ++ [n]
  | .nodeAdd _ child => l.filter (· ≠ child)
  | .removeSceneContent => []
  | _ => l

namespace World

omit [DecidableEq ι] in
/-- `scene.nodes` returns the list `l`, and not because its cast has failed. -/
def ShowsTopLevel (w : World ι κ) (l : List ι) : Prop :=
  w.scene.asNodes (w.scene.childNodes w.scene.sceneContent) = some l ∧ w.scene.nodes = l

/-- `scene.add(n)` takes no loaded node away from the top level. -/
def KeepsTopLevel (w : World ι κ) : Operation ι κ → Prop
  | .sceneAdd n => ∀ k ∈ w.scene.importedModelReferenceKey n,
      ∀ g ∈ w.scene.importedModelsList k, g ∉ w.scene.childNodes w.scene.sceneContent
  | _ => True

instance (w : World ι κ) (op : Operation ι κ) : Decidable (w.KeepsTopLevel op) :=
  match op with
  | .sceneAdd n => inferInstanceAs (Decidable (∀ k ∈ w.scene.importedModelReferenceKey n,
      ∀ g ∈ w.scene.importedModelsList k, g ∉ w.scene.childNodes w.scene.sceneContent))
  | .node _ | .importModel _ _ | .nodes | .children _ | .nodeAdd _ _ | .complete _ _ _
  | .removeSceneContent | .host _ _ _ => isTrue trivial

end World

section Step
variable {w w' : World ι κ} {l : List ι} {op : Operation ι κ}

omit [DecidableEq ι] in
/-- All children of `sceneContent` are instances of `Node`, so the getter never falls back. -/
theorem Valid.showsTopLevel_iff (h : Valid w) :
    w.ShowsTopLevel l ↔ w.scene.graph.childNodes w.scene.sceneContent = l := by
  have hcast : w.scene.asNodes (w.scene.childNodes w.scene.sceneContent) =
      some (w.scene.childNodes w.scene.sceneContent) := by
    refine if_pos (List.all_eq_true.mpr fun c hc => ?_)
    exact (h.content_children_node hc).2
  simp only [World.ShowsTopLevel, Scene.nodes, hcast, Option.some.injEq, and_self]
  exact Iff.rfl

omit [DecidableEq ι] in
/-- The node handed over by the lookup is not the node that is added. -/
theorem Valid.found_ne (h : Valid w) {n g : ι} {k : κ}
    (hkey : w.scene.importedModelReferenceKey n = some k)
    (found : w.scene.importedModelsList k = some g) : g ≠ n := by
  rintro rfl
  cases ((h.key_role g k).mp hkey).symm.trans (h.wrapper_of_table found)

omit [DecidableEq ι] in
/-- Only the content node has the role of the content. -/
theorem Valid.ne_content (h : Valid w) {n : ι} (hn : w.role n ≠ .content) :
    w.scene.sceneContent ≠ n := by
  rintro rfl
  exact hn h.content_role

variable [DecidableEq κ]

/-- One operation changes the children of `sceneContent` as the reference says exactly when it
takes no loaded node away from them. -/
theorem Valid.topLevel_step (h : Valid w) (hl : w.scene.graph.childNodes w.scene.sceneContent = l)
    (effect : w.Effect op w') :
    w'.scene.graph.childNodes w'.scene.sceneContent = op.topLevel l ↔ w.KeepsTopLevel op := by
  subst hl
  cases effect with
  | nodeAdd parent child holds _ =>
    have hp := h.ne_content (h.held_role parent holds).ne_content
    exact iff_of_true (if_neg hp) trivial
  | sceneAdd n _ missed =>
    have keeps : w.KeepsTopLevel (.sceneAdd n) := by
      intro k hkey g hg
      cases (missed k hkey).symm.trans hg
    exact iff_of_true (if_pos rfl) keeps
  | sceneAddFound n k g holds hkey found =>
    have hn := h.ne_content (h.held_role n holds).ne_content
    have hgn := h.found_ne hkey found
    have moved : ((w.scene.deliver n g).addAppend n).graph.childNodes w.scene.sceneContent =
        ((w.scene.graph.childNodes w.scene.sceneContent).filter (· ≠ g)).filter (· ≠ n) ++ [n] := by
      simp only [Scene.addAppend, Node.add, Scene.addChildNode, Scene.deliver,
        Hierarchy.attach, Hierarchy.detach, if_neg hn, if_true]
    have keeps : w.KeepsTopLevel (.sceneAdd n) ↔
        g ∉ w.scene.graph.childNodes w.scene.sceneContent := by
      simp [World.KeepsTopLevel, hkey, found, Scene.childNodes]
    rw [keeps]
    change ((w.scene.deliver n g).addAppend n).graph.childNodes w.scene.sceneContent = _ ↔ _
    rw [moved, Operation.topLevel, List.append_left_inj]
    generalize w.scene.graph.childNodes w.scene.sceneContent = l
    constructor
    · intro same hg
      have hmem : g ∈ l.filter (· ≠ n) := List.mem_filter.mpr ⟨hg, by simpa using hgn⟩
      rw [← same] at hmem
      simp at hmem
    · intro hg
      have same : l.filter (· ≠ g) = l := by
        refine List.filter_eq_self.mpr fun x hx => ?_
        simpa using fun heq : x = g => hg (heq ▸ hx)
      rw [same]
  | complete key g m p hp harr _ =>
    refine iff_of_true ?_ trivial
    rw [World.arrived_sceneContent]
    exact h.arrived_used_children harr h.content_used
  | completeInScene key g m p r hp harr _ root =>
    have hpc := h.ne_content (n := p) (by simp [h.role_of_placeholder hp])
    have hrc : r ∉ w.scene.graph.childNodes w.scene.sceneContent :=
      h.edges.unused_no_parent (harr.nodes r (m.roots_mem root)) _
    refine iff_of_true ?_ trivial
    change ((w.arrived key g m).scene.graph.attach p r).childNodes
      (w.arrived key g m).scene.sceneContent = _
    have same := h.arrived_used_children harr h.content_used
    rw [World.arrived_sceneContent, Hierarchy.attach_childNodes_of_ne hpc (same.symm ▸ hrc), same]
    rfl
  | removeSceneContent =>
    rw [Scene.removeSceneContent_eq]
    exact iff_of_true Hierarchy.detachAll_childNodes_self trivial
  | host parent n b fresh place =>
    have hp : w.scene.sceneContent ≠ parent :=
      h.ne_of_place place (by simp [h.content_role]) (by simp [h.content_role])
    have hn := h.edges.unused_no_parent fresh w.scene.sceneContent
    exact iff_of_true (Hierarchy.attach_childNodes_of_ne hp hn) trivial
  | _ => exact iff_of_true rfl trivial

end Step

variable [DecidableEq κ]

/-- Over every run of operations whose calls of `scene.add` find no loaded node at the top level,
`scene.nodes` is the list that the calls describe; the first call that does find one breaks
this. -/
theorem top_level_of_run {root content : ι} (apart : root ≠ content) {w : World ι κ} {l : List ι}
    (run : Run (shadow World.perform fun _ l op => op.topLevel l)
      (fun s op => s.1.KeepsTopLevel op) (World.init root content, []) (w, l)) :
    w.ShowsTopLevel l ∧ ∀ op w', w.perform op = some w' →
      (w'.ShowsTopLevel (op.topLevel l) ↔ w.KeepsTopLevel op) := by
  have h := valid_of_run apart (World.reachable_of_performed run.of_shadow)
  have hl : w.scene.graph.childNodes w.scene.sceneContent = l := by
    refine World.shadowed_invariant World.KeepsTopLevel
      (I := fun w l => w.scene.graph.childNodes w.scene.sceneContent = l) apart ?_ ?_ run
    · simp [World.init, Scene.init, Hierarchy.attach, Hierarchy.detach, apart.symm]
    · intro t z op u ht hz hok effect
      exact (ht.topLevel_step hz effect).mpr hok
  refine ⟨h.showsTopLevel_iff.mpr hl, fun op w' hperf => ?_⟩
  obtain ⟨_, effect⟩ := World.effect_of_performed apart run.of_shadow hperf
  rw [(h.perform hperf).showsTopLevel_iff]
  exact h.topLevel_step hl effect

/-- A placeholder is added again after the script has put its loaded node at the top level
itself: the loaded node is gone from `scene.nodes`. -/
theorem loaded_node_moved_away : ¬ ∀ (w : World ℕ ℕ) (l : List ℕ),
    Run (shadow World.perform fun _ l op => op.topLevel l) (fun _ _ => True)
      (World.init 0 1, []) (w, l) → w.ShowsTopLevel l := by
  intro claim
  obtain ⟨⟨w, l⟩, run, hnodes, hl⟩ := Run.exists_of_exec
    (shadow World.perform fun _ l op => op.topLevel l) (fun _ _ => True)
    ((World.init 0 1, []) : World ℕ ℕ × List ℕ)
    [.importModel 2 7, .complete 7 3 (.flat 4 [5] (by decide)), .sceneAdd 2, .children 2,
      .sceneAdd 3, .sceneAdd 2]
    (fun s => s.1.scene.nodes = [2] ∧ s.2 = [3, 2]) (by decide)
  have heq := (claim w l run).2
  rw [hnodes] at heq
  cases heq.trans hl

/-- A loaded node at the top level, and its placeholder moved around and added again by way of
`Node.add`: everything is where the calls put it. -/
theorem top_level_of_run_loaded : ∃ w : World ℕ ℕ, w.ShowsTopLevel [6, 3] ∧
    (∀ w', w.perform (.sceneAdd 6) = some w' → w'.ShowsTopLevel [3, 6]) ∧
    ∀ w', w.perform (.sceneAdd 2) = some w' → ¬ w'.ShowsTopLevel [6, 3, 2] := by
  obtain ⟨⟨w, l⟩, run, rfl, hkeeps, hmoves⟩ := Run.exists_of_exec
    (shadow World.perform fun _ l op => op.topLevel l) (fun s op => s.1.KeepsTopLevel op)
    ((World.init 0 1, []) : World ℕ ℕ × List ℕ)
    [.importModel 2 7, .complete 7 3 (.flat 4 [5] (by decide)), .node 6, .sceneAdd 2, .children 2,
      .sceneAdd 6, .sceneAdd 3, .nodeAdd 6 2]
    (fun s => s.2 = [6, 3] ∧ s.1.KeepsTopLevel (.sceneAdd 6) ∧ ¬ s.1.KeepsTopLevel (.sceneAdd 2))
    (by decide)
  have main := top_level_of_run (by decide) run
  refine ⟨w, main.1, fun w' h => (main.2 _ w' h).mpr hkeeps, fun w' h => ?_⟩
  exact fun shows => hmoves ((main.2 _ w' h).mp shows)

end AstroAR
