import Mathlib.Data.Fintype.Defs
import AstroAR.Operations

/-!
# Placeholders anywhere in the scene

A placeholder may hang below other nodes. Neither path looks there: `Scene.add`
consults the table for the added node alone, `Node.add` not at all, and a
completion scans the children of `sceneContent` only. As long as no operation
brings a waiting placeholder into the scene by such a way, every placeholder
that is reached has its model.
-/

namespace AstroAR

open Runs

universe u v
variable {ι : Type u} {κ : Type v} [DecidableEq ι]

namespace World

/-- The model of `k` lies in the table and nobody has handed it over. -/
def Waiting (w : World ι κ) (k : κ) : Prop :=
  ∃ p l, w.placeholder k = some p ∧ w.load k = some l ∧ l.model.roots ≠ [] ∧
    w.scene.importedModelsList k = some l.wrapper ∧ l.wrapper ∉ w.scene.graph.childNodes p

/-- The operation brings no waiting placeholder into the scene except by a way that serves it,
and takes no wrapper away from its placeholder. -/
def Serves (w : World ι κ) : Operation ι κ → Prop
  | .nodeAdd parent child =>
    (∀ k, w.role child = .wrapper k → w.placeholder k = some parent) ∧
    ((w.scene.graph.detach child).Below w.scene.sceneContent parent →
      ∀ k p, w.Waiting k → w.placeholder k = some p → ¬ w.scene.graph.Below child p)
  | .sceneAdd n =>
    (∀ k, w.role n ≠ .wrapper k) ∧
    ∀ k p, w.Waiting k → w.placeholder k = some p → w.scene.graph.Below n p → p = n
  | .complete key _ m => ∀ p, w.placeholder key = some p → m.roots ≠ [] →
    w.scene.graph.Below w.scene.sceneContent p →
      p ∈ w.scene.graph.childNodes w.scene.sceneContent ∧ m.roots.length = 1
  | _ => True

/-- Every placeholder that `sceneContent` reaches and whose model has arrived has the whole
model below it. -/
def ImportsReached (w : World ι κ) : Prop :=
  ∀ k p l, w.placeholder k = some p → w.load k = some l → l.model.roots ≠ [] →
    w.scene.graph.Below w.scene.sceneContent p → ∀ r ∈ l.model.roots, w.scene.graph.Below p r

end World

/-- What holds of an import between whole operations: its wrapper has no parent but the
placeholder, no script knows it before it is there, and the model is below the placeholder or
waits in the table while the placeholder is out of the scene. -/
structure Tracked (w : World ι κ) (k : κ) (p : ι) (l : Load ι) : Prop where
  parent : ∀ q, l.wrapper ∈ w.scene.graph.childNodes q → q = p
  held : l.wrapper ∈ w.held → l.wrapper ∈ w.scene.graph.childNodes p
  raw : l.wrapper ∉ w.scene.graph.childNodes p →
    ∀ c ∈ w.scene.graph.childNodes l.wrapper, w.role c = .loaded k
  placed : l.model.roots ≠ [] → l.wrapper ∈ w.scene.graph.childNodes p ∨
    (∀ r ∈ l.model.roots, r ∈ w.scene.graph.childNodes p) ∨
    (w.scene.importedModelsList k = some l.wrapper ∧
      ¬ w.scene.graph.Below w.scene.sceneContent p)

/-- The invariant of whole operations: every import that has its model is tracked. -/
def AllTracked (w : World ι κ) : Prop :=
  ∀ k p l, w.placeholder k = some p → w.load k = some l → Tracked w k p l

namespace Tracked
variable {w w' : World ι κ} {k : κ} {p q c n : ι} {l : Load ι}

/-- Moving a node keeps an import tracked if the wrapper only goes to the placeholder, no node
of the model is moved, an unattached wrapper receives nothing of a script's, and the move does
not bring the placeholder into the scene while it waits. -/
theorem attach (t : Tracked w k p l) (hgraph : w'.scene.graph = w.scene.graph.attach q c)
    (hcontent : w'.scene.sceneContent = w.scene.sceneContent)
    (htable : w'.scene.importedModelsList k = w.scene.importedModelsList k)
    (hheld : w'.held = w.held) (hrole : ∀ x, w.role x = .loaded k → w'.role x = .loaded k)
    (home : c = l.wrapper → q = p) (hroot : ∀ r ∈ l.model.roots, r ≠ c)
    (hraw : q = l.wrapper → l.wrapper ∈ w.scene.graph.childNodes p)
    (hreach : l.model.roots ≠ [] → w.scene.importedModelsList k = some l.wrapper →
      l.wrapper ∉ w.scene.graph.childNodes p → c ≠ l.wrapper →
      (w.scene.graph.detach c).Below w.scene.sceneContent q → ¬ w.scene.graph.Below c p) :
    Tracked w' k p l := by
  have keeps : l.wrapper ∈ w.scene.graph.childNodes p →
      l.wrapper ∈ w'.scene.graph.childNodes p := by
    intro hw
    rw [hgraph, Hierarchy.mem_attach]
    by_cases hc : l.wrapper = c
    · exact Or.inl ⟨(home hc.symm).symm, hc⟩
    · exact Or.inr ⟨hw, hc⟩
  refine ⟨fun x hx => ?_, fun hx => keeps (t.held (hheld ▸ hx)), fun hw x hx => ?_, fun hne => ?_⟩
  · rw [hgraph] at hx
    rcases Hierarchy.mem_attach.mp hx with ⟨rfl, hc⟩ | ⟨hx, _⟩
    · exact home hc.symm
    · exact t.parent x hx
  · have hw' : l.wrapper ∉ w.scene.graph.childNodes p := fun h => hw (keeps h)
    rw [hgraph] at hx
    have hgq : l.wrapper ≠ q := fun heq => hw' (hraw heq.symm)
    exact hrole x (t.raw hw' x (Hierarchy.mem_of_mem_attach hgq hx))
  · by_cases hw : l.wrapper ∈ w.scene.graph.childNodes p
    · exact Or.inl (keeps hw)
    rcases (t.placed hne).resolve_left hw with hall | ⟨hlist, hout⟩
    · refine Or.inr (Or.inl fun r hr => ?_)
      rw [hgraph]
      exact (Hierarchy.mem_attach_of_ne (hroot r hr)).mpr (hall r hr)
    by_cases hc : c = l.wrapper
    · apply Or.inl
      rw [hgraph, home hc, hc]
      exact Hierarchy.attach_self
    · refine Or.inr (Or.inr ⟨htable.trans hlist, ?_⟩)
      rw [hgraph, hcontent, Hierarchy.below_attach]
      rintro (hold | ⟨hq, hp⟩)
      · exact hout hold.of_detach
      · exact hreach hne hlist hw hc hq hp.of_detach

omit [DecidableEq ι] in
/-- Operations that leave the graph and the table alone may let scripts know more nodes, but
wrappers only where they are attached. -/
theorem of_graph (t : Tracked w k p l) (hscene : w'.scene.graph = w.scene.graph)
    (hcontent : w'.scene.sceneContent = w.scene.sceneContent)
    (htable : w'.scene.importedModelsList k = w.scene.importedModelsList k)
    (hheld : l.wrapper ∈ w'.held → l.wrapper ∈ w.held ∨ ∃ q, l.wrapper ∈ w.scene.graph.childNodes q)
    (hrole : ∀ x, w.role x = .loaded k → w'.role x = .loaded k) : Tracked w' k p l where
  parent := by rw [hscene]; exact t.parent
  held := by
    rw [hscene]
    intro hw
    rcases hheld hw with hw | ⟨q, hq⟩
    · exact t.held hw
    · exact t.parent q hq ▸ hq
  raw := by
    rw [hscene]
    exact fun hw x hx => hrole x (t.raw hw x hx)
  placed := by rw [hscene, hcontent, htable]; exact t.placed

omit [DecidableEq ι] in
/-- Below a wrapper that is not attached there are only nodes of its model. -/
theorem below_unattached (h : Valid w) (t : Tracked w k p l)
    (hw : l.wrapper ∉ w.scene.graph.childNodes p) {x : ι}
    (hx : w.scene.graph.Below l.wrapper x) : x = l.wrapper ∨ w.role x = .loaded k := by
  refine hx.closed (S := fun x => x = l.wrapper ∨ w.role x = .loaded k) (Or.inl rfl) ?_
  rintro a c (rfl | ha) hc
  · exact Or.inr (t.raw hw c hc)
  · have may := h.edges a c hc
    rw [ha] at may
    exact Or.inr may.child_of_loaded

end Tracked

namespace AllTracked
variable {w w' : World ι κ} {k : κ} {p q c n g : ι} {l : Load ι}

theorem nodeAdd (h : Valid w) (all : AllTracked w) (hq : q ∈ w.held) (hc : c ∈ w.held)
    (serves : w.Serves (.nodeAdd q c)) :
    AllTracked { w with scene := Node.add w.scene q c } := by
  intro k p l hp hl
  have t := all k p l hp hl
  refine t.attach (q := q) (c := c) rfl rfl rfl rfl (fun _ hx => hx) ?_ ?_ ?_ ?_
  · rintro rfl
    exact Option.some.inj ((serves.1 k (h.wrapper_of_load hl)).symm.trans hp)
  · rintro r hr rfl
    exact (h.held_role r hc).ne_loaded (h.loaded_of_root hl hr)
  · rintro rfl
    exact t.held hq
  · intro hne hlist hw _ hreach
    exact serves.2 hreach k p ⟨p, l, hp, hl, hne, hlist, hw⟩ hp

/-- The wrapper that a lookup is about to hand over brings no waiting placeholder along. -/
theorem lookup_apart (h : Valid w) (all : AllTracked w) (serves : w.Serves (.sceneAdd n)) {k' : κ}
    (hkey : w.scene.importedModelReferenceKey n = some k')
    (hlist : w.scene.importedModelsList k' = some g) (hkk : k ≠ k') (hp : w.placeholder k = some p)
    (waiting : w.Waiting k) : ¬ w.scene.graph.Below g p := by
  intro hgp
  have hn : w.placeholder k' = some n := (h.placeholder_role n k').mpr ((h.key_role n k').mp hkey)
  obtain ⟨l', hl', rfl⟩ := h.table_load k' g hlist
  have hpr := h.role_of_placeholder hp
  by_cases hg : l'.wrapper ∈ w.scene.graph.childNodes n
  · have heq := serves.2 k p waiting hp ((Hierarchy.Below.child hg).trans hgp)
    rw [heq, h.role_of_placeholder hn] at hpr
    cases hpr
    exact hkk rfl
  · rcases (all k' n l' hn hl').below_unattached h hg hgp with heq | hloaded
    · rw [heq, h.wrapper_of_load hl'] at hpr
      cases hpr
    · rw [hpr] at hloaded
      cases hloaded

theorem addLookup (h : Valid w) (all : AllTracked w) (serves : w.Serves (.sceneAdd n)) :
    AllTracked { w with scene := w.scene.addLookup n } := by
  rcases Scene.addLookup_cases w.scene n with ⟨heq, _⟩ | ⟨k', g, hkey, hlist, heq⟩
  · rw [heq]
    exact all
  · rw [heq]
    intro k p l hp hl
    have hn := (h.key_role n k').mp hkey
    have hg := h.wrapper_of_table hlist
    refine (all k p l hp hl).attach (q := n) (c := g) rfl rfl rfl rfl (fun _ hx => hx) ?_ ?_ ?_ ?_
    · rintro rfl
      cases hg.symm.trans (h.wrapper_of_load hl)
      exact Option.some.inj (((h.placeholder_role n _).mpr hn).symm.trans hp)
    · rintro r hr rfl
      cases hg.symm.trans (h.loaded_of_root hl hr)
    · intro heq
      cases hn.symm.trans (heq ▸ h.wrapper_of_load hl)
    · intro hne hlist' hw hgw _
      refine lookup_apart h all serves hkey hlist ?_ hp ⟨p, l, hp, hl, hne, hlist', hw⟩
      rintro rfl
      exact hgw (Option.some.inj (hlist.symm.trans hlist'))

theorem sceneAdd (h : Valid w) (all : AllTracked w) (hn : n ∈ w.held)
    (serves : w.Serves (.sceneAdd n)) : AllTracked { w with scene := w.scene.add n } := by
  intro k p l hp hl
  have hpr := h.role_of_placeholder hp
  refine (addLookup h all serves k p l hp hl).attach (q := (w.scene.addLookup n).sceneContent)
    (c := n) rfl rfl rfl rfl (fun _ hx => hx) ?_ ?_ ?_ ?_
  · rintro rfl
    exact absurd (h.wrapper_of_load hl) (serves.1 k)
  · rintro r hr rfl
    exact (h.held_role r hn).ne_loaded (h.loaded_of_root hl hr)
  · intro heq
    rw [World.addLookup_sceneContent] at heq
    cases h.content_role.symm.trans (heq ▸ h.wrapper_of_load hl)
  · intro hne hlist hw _ _ hnp
    rw [World.addLookup_importedModelsList] at hlist
    -- had the lookup been for this import, it would have handed the wrapper over
    have hne' : p ≠ n := by
      rintro rfl
      have hfound := Scene.addLookup_of_found ((h.key_role p k).mpr hpr) hlist
      simp only [hfound, Scene.deliver_graph] at hw
      exact hw Hierarchy.attach_self
    rcases Scene.addLookup_cases w.scene n with ⟨heq, _⟩ | ⟨k', g, hkey, hlist', heq⟩
    · simp only [heq] at hw hnp
      exact hne' (serves.2 k p ⟨p, l, hp, hl, hne, hlist, hw⟩ hp hnp)
    · simp only [heq, Scene.deliver_graph] at hw hnp
      have hkk : k ≠ k' := by
        rintro rfl
        exact hne' (Option.some.inj (hp.symm.trans
          ((h.placeholder_role n k).mpr ((h.key_role n k).mp hkey))))
      have waiting : w.Waiting k := by
        refine ⟨p, l, hp, hl, hne, hlist, fun hwp => hw ((Hierarchy.mem_attach_of_ne ?_).mpr hwp)⟩
        rintro rfl
        cases (h.wrapper_of_load hl).symm.trans (h.wrapper_of_table hlist')
        exact hkk rfl
      rcases Hierarchy.below_attach.mp hnp with hnp | ⟨_, hgp⟩
      · exact hne' (serves.2 k p waiting hp hnp.of_detach)
      · exact lookup_apart h all serves hkey hlist' hkk hp waiting hgp.of_detach

theorem removeSceneContent (h : Valid w) (all : AllTracked w) :
    AllTracked { w with scene := w.scene.removeSceneContent } := by
  rw [Scene.removeSceneContent_eq]
  intro k p l hp hl
  have t := all k p l hp hl
  have hpc : p ≠ w.scene.sceneContent := by
    rintro rfl
    cases h.content_role.symm.trans (h.role_of_placeholder hp)
  have same := fun x => Hierarchy.mem_detachAll_children_of_ne (g := w.scene.graph) (x := x) hpc
  refine ⟨fun q hq => t.parent q (Hierarchy.mem_detachAll.mp hq).1,
    fun hw => (same _).mpr (t.held hw),
    fun hw x hx => t.raw (fun hw' => hw ((same _).mpr hw')) x (Hierarchy.mem_detachAll.mp hx).1,
    fun hne => ?_⟩
  rcases t.placed hne with hw | hall | ⟨hlist, hout⟩
  · exact Or.inl ((same _).mpr hw)
  · exact Or.inr (Or.inl fun r hr => (same r).mpr (hall r hr))
  · exact Or.inr (Or.inr ⟨hlist, fun hin =>
      hout (hin.mono fun _ _ hx => (Hierarchy.mem_detachAll.mp hx).1)⟩)

section Complete
variable [DecidableEq κ] {key : κ} {m : GLTFScene ι}

/-- What the arriving model brings into memory is reached from nothing that was there. -/
theorem below_arrived (h : Valid w) (harr : w.Arrives key g m) {a x : ι}
    (ha : w.role a ≠ .unused) (hx : (w.arrived key g m).scene.graph.Below a x) :
    w.scene.graph.Below a x := by
  refine (hx.closed (S := fun x => w.role x ≠ .unused ∧ w.scene.graph.Below a x)
    ⟨ha, Hierarchy.Below.refl _ a⟩ ?_).2
  rintro q c ⟨hq, hbelow⟩ hc
  have hc := (h.mem_arrived_of_used harr hq).mp hc
  exact ⟨(h.edges q c hc).ne_unused.2, hbelow.tail hc⟩

theorem arrived (h : Valid w) (all : AllTracked w) (harr : w.Arrives key g m)
    (hp : w.placeholder k = some p) (hl : w.load k = some l) :
    Tracked (w.arrived key g m) k p l := by
  have t := all k p l hp hl
  have hkk : k ≠ key := by
    rintro rfl
    cases harr.pending.symm.trans hl
  have hw : w.role l.wrapper ≠ .unused := by simp [h.wrapper_of_load hl]
  have same := fun x => h.mem_arrived_of_used harr (x := x) (h.placeholder_used hp)
  refine ⟨fun q hq => ?_, fun hheld => (same _).mpr (t.held hheld), fun hwp x hx => ?_,
    fun hne => ?_⟩
  · exact t.parent q (h.mem_arrived_of_used_child harr hw hq)
  · have hrole := t.raw (fun hwp' => hwp ((same _).mpr hwp')) x
      ((h.mem_arrived_of_used harr hw).mp hx)
    exact (World.role_arrived harr (by simp [hrole])).trans hrole
  · rcases t.placed hne with hw | hall | ⟨hlist, hout⟩
    · exact Or.inl ((same _).mpr hw)
    · exact Or.inr (Or.inl fun r hr => (same r).mpr (hall r hr))
    · have hkept : (w.arrived key g m).scene.importedModelsList k = some l.wrapper := by
        simpa [World.arrived, Scene.getNode_eq, Scene.store, hkk] using hlist
      refine Or.inr (Or.inr ⟨hkept, fun hin => hout ?_⟩)
      rw [World.arrived_sceneContent] at hin
      exact below_arrived h harr h.content_used hin

/-- The wrapper of the arriving model has no parent and is known to no script. -/
theorem arrived_wrapper (h : Valid w) (harr : w.Arrives key g m) :
    (∀ q, g ∉ (w.arrived key g m).scene.graph.childNodes q) ∧ g ∉ w.held ∧
      ∀ c ∈ (w.arrived key g m).scene.graph.childNodes g,
        (w.arrived key g m).role c = .loaded key := by
  refine ⟨fun _ => h.arrived_wrapper_orphan harr, fun hg => ?_, fun c hc => ?_⟩
  · exact (h.held_role g hg).ne_unused harr.wrapper
  · rw [h.arrived_wrapper_children harr] at hc
    simp [World.arrived, m.roots_mem hc]

/-- Below a node of the arriving model there are only nodes of that model. -/
theorem below_arrived_root (h : Valid w) (harr : w.Arrives key g m) {r x : ι} (hr : r ∈ m.nodes)
    (hx : (w.arrived key g m).scene.graph.Below r x) : x ∈ m.nodes := by
  refine hx.closed (S := fun x => x ∈ m.nodes) hr ?_
  intro q c hq hc
  rcases (h.mem_arrived harr).mp hc with ⟨rfl, _⟩ | ⟨_, hc, _⟩ | hc
  · exact absurd hq harr.apart
  · exact m.closed q hq c hc
  · rw [h.edges.unused_no_children (harr.nodes q hq)] at hc
    cases hc

/-- The placeholder that the scan serves with the only root node of its model. -/
theorem served (h : Valid w) (harr : w.Arrives key g m) (hp : w.placeholder key = some p) {r : ι}
    (hr : m.roots.head? = some r) (one : m.roots ≠ [] → m.roots.length = 1) :
    Tracked { w.arrived key g m with
      scene := ((w.arrived key g m).scene.deliver p r).removeValue key } key p ⟨g, m⟩ := by
  obtain ⟨orphan, unheld, raw⟩ := arrived_wrapper h harr
  have hgr : g ≠ r := fun heq => harr.apart (heq ▸ m.roots_mem (List.mem_of_head? hr))
  have hgp : g ≠ p := fun heq => h.placeholder_used hp (heq ▸ harr.wrapper)
  refine ⟨fun q hq => ?_, fun hg => absurd hg unheld, fun _ c hc => ?_, fun hne => ?_⟩
  · exact absurd ((Hierarchy.mem_attach_of_ne hgr).mp hq) (orphan q)
  · exact raw c (Hierarchy.mem_of_mem_attach hgp hc)
  · obtain ⟨r₁, hone⟩ := List.length_eq_one_iff.mp (one hne)
    have hroots : m.roots = [r] := by
      rw [hone] at hr ⊢
      simpa using hr
    refine Or.inr (Or.inl fun r' hr' => ?_)
    obtain rfl : r' = r := by simpa [hroots] using hr'
    exact Hierarchy.attach_self

/-- Serving one placeholder leaves the other imports tracked: what moves is new. -/
theorem served_other (h : Valid w) (all : AllTracked w) (harr : w.Arrives key g m) {p₀ r : ι}
    (hp₀ : w.placeholder key = some p₀) (hr : r ∈ m.roots) (hp : w.placeholder k = some p)
    (hl : w.load k = some l) (hkk : k ≠ key) :
    Tracked { w.arrived key g m with
      scene := ((w.arrived key g m).scene.deliver p₀ r).removeValue key } k p l := by
  have hrm := m.roots_mem hr
  have used : ∀ {x}, w.role x ≠ .unused → x ≠ r := by
    rintro x hx rfl
    exact hx (harr.nodes x hrm)
  refine (arrived h all harr hp hl).attach (q := p₀) (c := r) rfl rfl ?_ rfl
    (fun _ hx => hx) ?_ ?_ ?_ ?_
  · simp [Scene.removeValue, Scene.deliver, Scene.addChildNode, hkk]
  · intro heq
    exact absurd heq.symm (used (by simp [h.wrapper_of_load hl]))
  · intro r' hr'
    exact used (by simp [h.loaded_of_root hl hr'])
  · intro heq
    cases (h.role_of_placeholder hp₀).symm.trans (heq ▸ h.wrapper_of_load hl)
  · intro _ _ _ _ _ hrp
    exact h.placeholder_used hp (harr.nodes p (below_arrived_root h harr hrm hrp))

/-- A model whose placeholder is out of the scene waits in the table. -/
theorem stored (h : Valid w) (harr : w.Arrives key g m)
    (hout : m.roots ≠ [] → ¬ w.scene.graph.Below w.scene.sceneContent p) :
    Tracked (w.arrived key g m) key p ⟨g, m⟩ := by
  obtain ⟨orphan, unheld, raw⟩ := arrived_wrapper h harr
  refine ⟨fun q hq => absurd hq (orphan q), fun hg => absurd hg unheld, fun _ => raw,
    fun hne => Or.inr (Or.inr ⟨by simp [World.arrived, Scene.store], fun hin => ?_⟩)⟩
  rw [World.arrived_sceneContent] at hin
  exact hout hne (below_arrived h harr h.content_used hin)

theorem complete (h : Valid w) (idle : w.Idle) (all : AllTracked w)
    (serves : w.Serves (.complete key g m))
    (hperf : w.perform (.complete key g m) = some w') : AllTracked w' := by
  obtain ⟨⟨p₀, hp₀⟩, harr⟩ := World.arrives_of_complete hperf
  have own : ∀ {l : Load ι}, (w.arrived key g m).load key = some l → l = ⟨g, m⟩ := by
    intro l hl
    simpa [World.arrived, eq_comm] using hl
  have others : ∀ {k l}, k ≠ key → (w.arrived key g m).load k = some l → w.load k = some l := by
    intro k l hkk hl
    simpa [World.arrived, hkk] using hl
  rw [World.perform_complete h idle.2 hp₀ harr] at hperf
  split_ifs at hperf with hpc
  · obtain ⟨r, hr, rfl⟩ := Option.map_eq_some_iff.mp hperf
    intro k p l hp hl
    by_cases hkk : k = key
    · subst hkk
      cases hp.symm.trans hp₀
      cases own hl
      exact served h harr hp₀ hr fun hne => (serves p₀ hp₀ hne (Hierarchy.Below.child hpc)).2
    · exact served_other h all harr hp₀ (List.mem_of_head? hr) hp (others hkk hl) hkk
  · cases hperf
    intro k p l hp hl
    by_cases hkk : k = key
    · subst hkk
      cases hp.symm.trans hp₀
      cases own hl
      exact stored h harr fun hne hin => hpc (serves p₀ hp₀ hne hin).1
    · exact arrived h all harr hp (others hkk hl)

omit [DecidableEq κ] in
/-- A new node of a script is no wrapper. -/
theorem assign (h : Valid w) (all : AllTracked w) (hn : w.role n = .unused) {r : Role κ}
    (hscene : w'.scene.graph = w.scene.graph)
    (hcontent : w'.scene.sceneContent = w.scene.sceneContent)
    (htable : w'.scene.importedModelsList = w.scene.importedModelsList)
    (hheld : w'.held = n :: w.held) (hrole : ∀ x, w'.role x = if x = n then r else w.role x)
    (hp : w.placeholder k = some p) (hl : w.load k = some l) : Tracked w' k p l := by
  refine (all k p l hp hl).of_graph hscene hcontent (by rw [htable]) (fun hw => Or.inl ?_)
    fun x hx => ?_
  · rcases List.mem_cons.mp (hheld ▸ hw) with rfl | hw
    · cases hn.symm.trans (h.wrapper_of_load hl)
    · exact hw
  · rw [hrole, Valid.role_assign hn (by simp [hx])]
    exact hx

theorem importModel (h : Valid w) (all : AllTracked w) (hn : w.role n = .unused)
    (hkey : w.placeholder key = none) :
    AllTracked { w with
      scene := w.scene.importModel n key
      role := fun x => if x = n then .placeholder key else w.role x
      held := n :: w.held
      placeholder := fun k => if k = key then some n else w.placeholder k } := by
  intro k p l hp hl
  have hkk : k ≠ key := by
    rintro rfl
    obtain ⟨p', hp'⟩ := h.load_placeholder k l hl
    cases hkey.symm.trans hp'
  exact assign h all hn (r := .placeholder key) rfl rfl rfl rfl (fun _ => rfl)
    (by simpa [hkk] using hp) hl

omit [DecidableEq ι] [DecidableEq κ] in
theorem read (all : AllTracked w) {read : List ι}
    (hread : ∀ x ∈ read, ∃ q, x ∈ w.scene.graph.childNodes q) :
    AllTracked { w with held := read ++ w.held } := by
  intro k p l hp hl
  refine (all k p l hp hl).of_graph rfl rfl rfl (fun hw => ?_) fun _ hx => hx
  rcases List.mem_append.mp hw with hw | hw
  · exact Or.inr (hread _ hw)
  · exact Or.inl hw

omit [DecidableEq κ] in
theorem host (h : Valid w) (all : AllTracked w) {parent : ι} {b : Bool} (hn : w.role n = .unused)
    (hparent : parent = w.scene.rootNode ∨ w.role parent = .host) :
    AllTracked { w with
      scene := { w.scene.addChildNode parent n with
        isNode := fun x => if x = n then b else w.scene.isNode x }
      role := fun x => if x = n then .host else w.role x } := by
  intro k p l hp hl
  refine (all k p l hp hl).attach (q := parent) (c := n) rfl rfl rfl rfl (fun x hx => ?_)
    ?_ ?_ ?_ ?_
  · exact (Valid.role_assign hn (by simp [hx])).trans hx
  · rintro rfl
    cases hn.symm.trans (h.wrapper_of_load hl)
  · rintro r hr rfl
    cases hn.symm.trans (h.loaded_of_root hl hr)
  · rintro rfl
    rcases hparent with heq | hparent
    · cases h.root_role.symm.trans (heq ▸ h.wrapper_of_load hl)
    · cases hparent.symm.trans (h.wrapper_of_load hl)
  · -- nothing hangs below a fresh node
    intro _ _ _ _ _ hnp
    have heq : p = n := by
      refine hnp.closed (S := fun x => x = n) rfl ?_
      rintro q c rfl hc
      rw [h.edges.unused_no_children hn] at hc
      cases hc
    exact h.placeholder_used hp (heq ▸ hn)

/-- Every operation that serves the placeholders it brings into the scene keeps all imports
tracked. -/
theorem perform (h : Valid w) (idle : w.Idle) (all : AllTracked w) {op : Operation ι κ}
    (serves : w.Serves op) (hperf : w.perform op = some w') : AllTracked w' := by
  cases op with
  | complete key g m => exact all.complete h idle serves hperf
  | sceneAdd n =>
    rw [World.perform_sceneAdd idle.1] at hperf
    split_ifs at hperf with hn
    cases hperf
    exact all.sceneAdd h hn serves
  | removeSceneContent =>
    simp only [World.perform, Operation.steps, List.foldlM_cons, List.foldlM_nil] at hperf
    cases hperf
    exact all.removeSceneContent h
  | nodeAdd parent child =>
    simp only [World.perform, Operation.steps, List.foldlM_cons, List.foldlM_nil] at hperf
    obtain ⟨⟨_, hp, hc⟩, rfl⟩ := by simpa [World.step] using hperf
    exact all.nodeAdd h hp hc serves
  | node n =>
    simp only [World.perform, Operation.steps, List.foldlM_cons, List.foldlM_nil] at hperf
    obtain ⟨⟨_, hn⟩, rfl⟩ := by simpa [World.step] using hperf
    intro k p l hp hl
    exact assign h all hn (r := .made) rfl rfl rfl rfl (fun _ => rfl) hp hl
  | importModel n key =>
    simp only [World.perform, Operation.steps, List.foldlM_cons, List.foldlM_nil] at hperf
    obtain ⟨⟨_, hn, hkey⟩, rfl⟩ := by simpa [World.step] using hperf
    exact all.importModel h hn hkey
  | nodes =>
    simp only [World.perform, Operation.steps, List.foldlM_cons, List.foldlM_nil] at hperf
    obtain ⟨_, rfl⟩ := by simpa [World.step] using hperf
    exact all.read fun x hx => ⟨_, (Scene.mem_children hx).1⟩
  | children n =>
    simp only [World.perform, Operation.steps, List.foldlM_cons, List.foldlM_nil] at hperf
    obtain ⟨⟨_, hn⟩, rfl⟩ := by simpa [World.step] using hperf
    exact all.read fun x hx => ⟨_, (Scene.mem_children hx).1⟩
  | host parent n b =>
    simp only [World.perform, Operation.steps, List.foldlM_cons, List.foldlM_nil] at hperf
    obtain ⟨⟨hn, hp⟩, rfl⟩ := by simpa [World.step] using hperf
    exact all.host h hn hp

end Complete

omit [DecidableEq ι] in
/-- A tracked placeholder in the scene has its model below it. -/
theorem reached (h : Valid w) (all : AllTracked w) : w.ImportsReached := by
  intro k p l hp hl hne hin r hr
  rcases (all k p l hp hl).placed hne with hw | hall | ⟨_, hout⟩
  · rcases h.roots_place k l p r hl hp hr with hrw | hrp
    · exact (Hierarchy.Below.child hw).tail hrw
    · exact Hierarchy.Below.child hrp
  · exact Hierarchy.Below.child (hall r hr)
  · exact absurd hin hout

end AllTracked

/-- In every state of every run whose operations serve the placeholders they bring into the
scene, each placeholder that `sceneContent` reaches, at any depth, has its model below it. -/
theorem imports_reached [DecidableEq κ] {root content : ι} (apart : root ≠ content)
    {w : World ι κ} (run : Run World.perform World.Serves (World.init root content) w) :
    w.ImportsReached := by
  apply AllTracked.reached (valid_of_run apart (World.reachable_of_performed run))
  refine run.invariant_along (I := AllTracked) (by simp [AllTracked, World.init])
    fun t op u hrun all serves hperf => ?_
  exact all.perform (valid_of_run apart (World.reachable_of_performed hrun))
    (World.idle_of_performed apart hrun) serves hperf

/-- The table is empty whenever nodes are moved, no wrapper is moved, and every completion finds
its placeholder among the children of `sceneContent` and brings one root node. -/
def World.ServedAtOnce (w : World ι κ) : Operation ι κ → Prop
  | .nodeAdd _ n | .sceneAdd n =>
    (∀ k, w.role n ≠ .wrapper k) ∧ ∀ k, w.scene.importedModelsList k = none
  | .complete key _ m => m.roots.length = 1 ∧
    ∀ p ∈ w.placeholder key, p ∈ w.scene.graph.childNodes w.scene.sceneContent
  | _ => True

instance [Fintype κ] [DecidableEq κ] (w : World ι κ) (op : Operation ι κ) :
    Decidable (w.ServedAtOnce op) :=
  match op with
  | .nodeAdd _ n | .sceneAdd n =>
    inferInstanceAs (Decidable
      ((∀ k, w.role n ≠ .wrapper k) ∧ ∀ k, w.scene.importedModelsList k = none))
  | .complete key _ m =>
    inferInstanceAs (Decidable (m.roots.length = 1 ∧
      ∀ p ∈ w.placeholder key, p ∈ w.scene.graph.childNodes w.scene.sceneContent))
  | .node _ | .importModel _ _ | .nodes | .children _ | .removeSceneContent | .host _ _ _ =>
    isTrue trivial

omit [DecidableEq ι] in
theorem World.not_waiting {w : World ι κ} (empty : ∀ k, w.scene.importedModelsList k = none)
    (k : κ) : ¬ w.Waiting k := by
  rintro ⟨p, l, _, _, _, hlist, _⟩
  cases (empty k).symm.trans hlist

theorem World.serves_of_servedAtOnce {w : World ι κ} {op : Operation ι κ}
    (h : w.ServedAtOnce op) : w.Serves op := by
  cases op with
  | nodeAdd q c =>
    exact ⟨fun k hk => absurd hk (h.1 k), fun _ k p hw => absurd hw (not_waiting h.2 k)⟩
  | sceneAdd n => exact ⟨h.1, fun k p hw => absurd hw (not_waiting h.2 k)⟩
  | complete key g m => exact fun p hp _ _ => ⟨h.2 p hp, h.1⟩
  | _ => trivial

/-- A placeholder is served by the completion and then moved below another node. -/
theorem imports_reached_nested : ∃ w : World ℕ Bool, w.ImportsReached ∧
    w.scene.graph.childNodes 1 = [6] ∧ w.scene.graph.childNodes 6 = [2] ∧
    w.placeholder true = some 2 ∧ (w.load true).map (fun l => l.model.roots) = some [5] := by
  obtain ⟨w, run, hgroup, hnested, hp, hl⟩ := Run.exists_of_exec
    World.perform World.ServedAtOnce (World.init 0 1 : World ℕ Bool)
    [.importModel 2 true, .sceneAdd 2, .complete true 3 (.flat 4 [5] (by decide)), .node 6,
      .sceneAdd 6, .nodeAdd 6 2]
    (fun w => w.scene.graph.childNodes 1 = [6] ∧ w.scene.graph.childNodes 6 = [2] ∧
      w.placeholder true = some 2 ∧ (w.load true).map (fun l => l.model.roots) = some [5])
    (by decide)
  exact ⟨w, imports_reached (by decide) (run.mono fun _ _ => World.serves_of_servedAtOnce),
    hgroup, hnested, hp, hl⟩

/-- A placeholder below another node when its model arrives stays empty: the completion looks at
the children of `sceneContent` only. -/
theorem nested_import_lost : ¬ ∀ w : World ℕ ℕ, World.Performed 0 1 w → w.ImportsReached := by
  intro claim
  obtain ⟨w, run, hp, hcontent, hgroup, hnested, hempty, hl⟩ := Run.exists_of_exec
    World.perform (fun _ _ => True) (World.init 0 1 : World ℕ ℕ)
    [.importModel 2 7, .node 6, .nodeAdd 6 2, .sceneAdd 6,
      .complete 7 3 (.flat 4 [5] (by decide))]
    (fun w => w.placeholder 7 = some 2 ∧ w.scene.sceneContent = 1 ∧
      6 ∈ w.scene.graph.childNodes 1 ∧ 2 ∈ w.scene.graph.childNodes 6 ∧
      w.scene.graph.childNodes 2 = [] ∧
      (w.load 7).map (fun l => l.model.roots) = some [5]) (by decide)
  obtain ⟨l, hload, hroots⟩ := Option.map_eq_some_iff.mp hl
  have hin : w.scene.graph.Below w.scene.sceneContent 2 := by
    rw [hcontent]
    exact (Hierarchy.Below.child hgroup).tail hnested
  have hbelow := claim w run 7 2 l hp hload (by rw [hroots]; decide) hin 5 (by rw [hroots]; decide)
  -- nothing hangs below the placeholder
  have heq : 5 = 2 := by
    refine hbelow.closed (S := fun x => x = 2) rfl ?_
    rintro p c rfl hc
    rw [hempty] at hc
    cases hc
  exact absurd heq (by decide)

end AstroAR
