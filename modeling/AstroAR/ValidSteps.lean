import AstroAR.Validity

/-!
# Every step keeps the invariant

One lemma for each kind of step, and from them the invariant of every reachable
state.
-/

namespace AstroAR

open Runs

universe u v
variable {ι : Type u} {κ : Type v} [DecidableEq ι]

theorem valid_init {root content : ι} (apart : root ≠ content) :
    Valid (World.init root content : World ι κ) where
  root_role := by simp [World.init, Scene.init]
  content_role := by simp [World.init, Scene.init, apart.symm]
  content_unique := by
    intro n hn
    simp only [World.init, Scene.init] at hn ⊢
    split_ifs at hn
    simp_all
  edges := by
    intro p c hc
    rcases Hierarchy.mem_attach.mp hc with ⟨rfl, rfl⟩ | ⟨hc, _⟩
    · simp [World.init, apart.symm, Role.MayHold]
    · cases hc
  content_child := Hierarchy.attach_self
  class_node := by
    intro n hn
    simp only [World.init] at hn
    split_ifs at hn <;> exact hn.elim
  class_raw := by
    intro n k hn
    simp only [World.init] at hn
    split_ifs at hn
  held_role := by simp [World.init]
  adding_role := by simp [World.init]
  key_role := by
    intro n k
    simp only [World.init, Scene.init]
    split_ifs <;> simp
  placeholder_role := by
    intro n k
    simp only [World.init]
    split_ifs <;> simp
  table_load := by simp [World.init, Scene.init]
  load_placeholder := by simp [World.init]
  wrapper_role := by
    intro n k
    simp only [World.init]
    split_ifs <;> simp
  loaded_role := by
    intro n k
    simp only [World.init]
    split_ifs <;> simp
  roots_place := by simp [World.init]
  scanning_load := by simp [World.init]
  delivered_role := by simp [World.init, Scene.init]

namespace Valid
variable {w : World ι κ} {p c n g r : ι} {k : κ}

/-! ## Moving a script's node -/

/-- A node that is neither `sceneContent` nor part of a model may be moved below any node
that may hold it. -/
theorem addChildNode (h : Valid w) (may : (w.role p).MayHold (w.role c))
    (hcontent : w.role c ≠ .content) (hloaded : ∀ k, w.role c ≠ .loaded k) :
    Valid { w with scene := w.scene.addChildNode p c } :=
  { h with
    edges := h.edges.attach may
    content_child := by
      refine Hierarchy.mem_attach.mpr (Or.inr ⟨h.content_child, ?_⟩)
      exact fun heq => hcontent (heq ▸ h.content_role)
    roots_place := by
      intro k l p' r hl hp hr
      have hrc : r ≠ c := fun heq => hloaded k (heq ▸ h.loaded_of_root hl hr)
      simpa only [Scene.addChildNode, Hierarchy.mem_attach_of_ne hrc]
        using h.roots_place k l p' r hl hp hr
    scanning_load := by
      intro k g hs
      obtain ⟨l, hl, hg, htable, hpre⟩ := h.scanning_load k g hs
      refine ⟨l, hl, hg, htable, Hierarchy.prefix_attach hpre fun hr => ?_⟩
      exact hloaded k (h.loaded_of_root hl hr) }

theorem addScriptNode (h : Valid w) (may : (w.role p).MayHold (w.role c))
    (hc : (w.role c).ScriptNode) : Valid { w with scene := w.scene.addChildNode p c } :=
  h.addChildNode may hc.ne_content fun _ => hc.ne_loaded

theorem nodeAdd (h : Valid w) (hp : p ∈ w.held) (hc : c ∈ w.held) :
    Valid { w with scene := Node.add w.scene p c } :=
  h.addScriptNode ((h.held_role p hp).mayHold (h.held_role c hc)) (h.held_role c hc)

theorem addAppend (h : Valid w) (hn : w.adding = some n) :
    Valid { w with scene := w.scene.addAppend n, adding := none } := by
  have may : (w.role w.scene.sceneContent).MayHold (w.role n) := by
    rw [h.content_role]
    exact h.adding_role n hn
  exact { h.addScriptNode may (h.adding_role n hn) with adding_role := by simp }

/-- The node found under the key of a placeholder is the wrapper of the same import. -/
theorem addLookup (h : Valid w) (hn : n ∈ w.held) :
    Valid { w with scene := w.scene.addLookup n, adding := some n } := by
  have adding : ∀ m, some n = some m → (w.role m).ScriptNode := by
    rintro m ⟨⟩
    exact h.held_role n hn
  rcases Scene.addLookup_cases w.scene n with ⟨heq, _⟩ | ⟨k, g, hkey, htable, heq⟩
  · rw [heq]
    exact { h with adding_role := adding }
  · rw [heq]
    have hrole := (h.key_role n k).mp hkey
    have hg := h.wrapper_of_table htable
    obtain ⟨l, hl, hlg⟩ := h.table_load k g htable
    have hscript : (w.role g).ScriptNode := by rw [hg]; trivial
    have may : (w.role n).MayHold (w.role g) := (h.held_role n hn).mayHold hscript
    exact { h.addScriptNode may hscript with
      adding_role := adding
      delivered_role := by
        intro q m hqm
        rcases List.mem_append.mp hqm with old | new
        · exact h.delivered_role q m old
        · cases List.mem_singleton.mp new
          exact ⟨k, l, hrole, hl, Or.inl hlg.symm⟩ }

/-! ## The scan of a completion -/

omit [DecidableEq ι] in
/-- The first child of a wrapper, when root nodes stand first in its child list. -/
theorem first_child {roots l : List ι} (hpre : roots <+: l) (hr : l.head? = some r) :
    r ∈ roots ∨ roots = [] := by
  cases roots with
  | nil => exact Or.inr rfl
  | cons a rest =>
    obtain ⟨tail, rfl⟩ := hpre
    cases hr
    exact Or.inl List.mem_cons_self

/-- The closure moves the first child of its wrapper to its placeholder. -/
theorem deliverFirst (h : Valid w) {l : Load ι} (hp : w.placeholder k = some p)
    (hl : w.load k = some l) (hr : r ∈ w.scene.graph.childNodes l.wrapper)
    (first : r ∈ l.model.roots ∨ l.model.roots = []) :
    Valid { w with scene := w.scene.deliver p r, scanning := none } := by
  have hrole : (w.role r).ScriptNode ∨ w.role r = .loaded k := by
    have may := h.edges _ _ hr
    rwa [h.wrapper_of_load hl] at may
  have hcontent : w.role r ≠ .content := by
    rcases hrole with hr | hr
    · exact hr.ne_content
    · simp [hr]
  exact { h with
    edges := by
      apply h.edges.attach
      rw [h.role_of_placeholder hp]
      exact hrole
    content_child := Hierarchy.mem_attach.mpr
      (Or.inr ⟨h.content_child, fun heq => hcontent (heq ▸ h.content_role)⟩)
    roots_place := by
      intro k' l' p' r' hl' hp' hr'
      by_cases hrr : r' = r
      · subst hrr
        have hloaded := h.loaded_of_root hl' hr'
        have hkk : k' = k := by
          rcases hrole with hr | hr
          · exact absurd hloaded hr.ne_loaded
          · exact Role.loaded.inj (hloaded.symm.trans hr)
        subst hkk
        cases hp.symm.trans hp'
        exact Or.inr Hierarchy.attach_self
      · simpa only [Scene.deliver_graph, Hierarchy.mem_attach_of_ne hrr]
          using h.roots_place k' l' p' r' hl' hp' hr'
    scanning_load := by simp
    delivered_role := by
      intro q m hqm
      rcases List.mem_append.mp hqm with old | new
      · exact h.delivered_role q m old
      · cases List.mem_singleton.mp new
        exact ⟨k, l, h.role_of_placeholder hp, hl, Or.inr first⟩ }

omit [DecidableEq ι] in
/-- With no completion under way, an entry may leave the table. -/
theorem removeValue [DecidableEq κ] (h : Valid w) (hs : w.scanning = none) (k : κ) :
    Valid { w with scene := w.scene.removeValue k } :=
  { h with
    table_load := by
      intro k' g hg
      simp only [Scene.removeValue] at hg
      split_ifs at hg
      exact h.table_load k' g hg
    scanning_load := by
      intro k' g hs'
      cases hs.symm.trans hs' }

theorem scan [DecidableEq κ] (h : Valid w) {w' : World ι κ} (hstep : w.step .scan = some w') :
    Valid w' := by
  obtain ⟨k, p, l, hs, hp, hl, ⟨_, r, hr, rfl⟩ | ⟨_, rfl⟩⟩ := h.scan_cases hstep
  · obtain ⟨l', hl', hw, _, hpre⟩ := h.scanning_load k l.wrapper hs
    cases hl.symm.trans hl'
    exact (h.deliverFirst hp hl (List.mem_of_head? hr) (first_child hpre hr)).removeValue rfl k
  · exact { h with scanning_load := by simp }

/-! ## The clear -/

theorem removeSceneContent (h : Valid w) :
    Valid { w with scene := w.scene.removeSceneContent } := by
  rw [Scene.removeSceneContent_eq]
  have hne : ∀ {n : ι} {r : Role κ}, w.role n = r → r ≠ .content → n ≠ w.scene.sceneContent := by
    rintro n _ rfl hr heq
    exact hr (heq ▸ h.content_role)
  exact { h with
    edges := h.edges.detachAll _
    content_child :=
      (Hierarchy.mem_detachAll_children_of_ne h.ne_root_of_content).mpr h.content_child
    roots_place := by
      intro k l p r hl hp hr
      have hw := hne (h.wrapper_of_load hl) (by simp)
      have hp' := hne (h.role_of_placeholder hp) (by simp)
      rw [Hierarchy.mem_detachAll_children_of_ne hw, Hierarchy.mem_detachAll_children_of_ne hp']
      exact h.roots_place k l p r hl hp hr
    scanning_load := by
      intro k g hs
      obtain ⟨l, hl, rfl, htable, hpre⟩ := h.scanning_load k g hs
      refine ⟨l, hl, rfl, htable, ?_⟩
      have hw := hne (h.wrapper_of_load hl) (by simp)
      rwa [Hierarchy.detachAll_childNodes_of_disjoint fun x hx hx' =>
        hw (w.scene.graph.parent_unique hx hx')] }

/-! ## New nodes -/

/-- The role of a used node is not changed by giving a role to an unused one. -/
theorem role_assign {role : ι → Role κ} {x : ι} {r : Role κ} (hn : role n = .unused)
    (hx : role x ≠ .unused) : (if x = n then r else role x) = role x := by
  apply if_neg
  rintro rfl
  exact hx hn

theorem role_assign_eq {role : ι → Role κ} {x : ι} {r r' : Role κ} (hn : role n = .unused)
    (hx : role x = r') (hr' : r' ≠ .unused) : (if x = n then r else role x) = r' :=
  (role_assign hn (hx ▸ hr')).trans hx

/-- A fresh node that belongs to no import, of the script or of the host app. -/
theorem assign (h : Valid w) (hn : w.role n = .unused) {r : Role κ} {b : Bool}
    (hr : r = .made ∧ b = true ∨ r = .host) :
    Valid { w with
      scene := { w.scene with isNode := fun x => if x = n then b else w.scene.isNode x }
      role := fun x => if x = n then r else w.role x } := by
  have keyless : r ≠ .content ∧ ∀ k, r ≠ .placeholder k ∧ r ≠ .wrapper k ∧ r ≠ .loaded k := by
    rcases hr with ⟨rfl, _⟩ | rfl <;> simp
  -- an import never speaks of the unused node `n`
  have fresh : ∀ {x : ι} {r' : Role κ} {P : Prop}, (w.role x = r' ↔ P) → r' ≠ .unused → r ≠ r' →
      ((if x = n then r else w.role x) = r' ↔ P) := by
    intro x r' P old hr' hne
    rw [← old]
    split_ifs with hxn
    · subst hxn
      simp [hn, hne, Ne.symm hr']
    · exact Iff.rfl
  exact { h with
    root_role := role_assign_eq hn h.root_role (by simp)
    content_role := role_assign_eq hn h.content_role (by simp)
    content_unique := by
      intro x hx
      simp only at hx
      split_ifs at hx
      · exact absurd hx keyless.1
      · exact h.content_unique x hx
    edges := h.edges.of_role fun x hx => role_assign hn hx
    class_node := by
      intro x hx
      simp only at hx ⊢
      split_ifs at hx ⊢
      · rcases hr with ⟨_, rfl⟩ | rfl
        · rfl
        · exact hx.elim
      · exact h.class_node x hx
    class_raw := by
      intro x k hx
      simp only at hx ⊢
      split_ifs at hx ⊢
      · exact absurd hx (keyless.2 k).2.2
      · exact h.class_raw x k hx
    held_role := fun x hx => by
      simpa only [role_assign hn (h.held_role x hx).ne_unused] using h.held_role x hx
    adding_role := fun x hx => by
      simpa only [role_assign hn (h.adding_role x hx).ne_unused] using h.adding_role x hx
    key_role := fun x k => (fresh (h.key_role x k).symm (by simp) (keyless.2 k).1).symm
    placeholder_role := fun x k =>
      (fresh (h.placeholder_role x k).symm (by simp) (keyless.2 k).1).symm
    wrapper_role := fun x k => fresh (h.wrapper_role x k) (by simp) (keyless.2 k).2.1
    loaded_role := fun x k => fresh (h.loaded_role x k) (by simp) (keyless.2 k).2.2
    delivered_role := by
      intro q m hqm
      obtain ⟨k, l, hq, rest⟩ := h.delivered_role q m hqm
      exact ⟨k, l, role_assign_eq hn hq (by simp), rest⟩ }

theorem node (h : Valid w) (hn : w.role n = .unused) :
    Valid { w with
      scene := Node.init w.scene n
      role := fun x => if x = n then .made else w.role x
      held := n :: w.held } :=
  { h.assign hn (Or.inl ⟨rfl, rfl⟩) with
    held_role := by
      intro x hx
      rcases List.mem_cons.mp hx with rfl | hx
      · simp [Role.ScriptNode]
      · exact (h.assign hn (Or.inl ⟨rfl, rfl⟩)).held_role x hx }

theorem host (h : Valid w) (hn : w.role n = .unused) (b : Bool)
    (hp : p = w.scene.rootNode ∨ w.role p = .host) :
    Valid { w with
      scene := { w.scene.addChildNode p n with
        isNode := fun x => if x = n then b else w.scene.isNode x }
      role := fun x => if x = n then .host else w.role x } := by
  have made := h.assign hn (b := b) (Or.inr rfl)
  have hnew : (if n = n then Role.host else w.role n) = .host := if_pos rfl
  have hparent := h.role_of_place hp
  have hpu : w.role p ≠ .unused := by
    rcases hparent with hp | hp <;> simp [hp]
  have may : Role.MayHold (if p = n then Role.host else w.role p)
      (if n = n then Role.host else w.role n) := by
    rw [hnew, role_assign hn hpu]
    rcases hparent with hp | hp <;> rw [hp] <;> simp [Role.MayHold]
  exact made.addChildNode may (by simp) (by simp)

/-- The new placeholder carries the new key, and the others keep theirs. -/
theorem importModel_placeholder [DecidableEq κ] (h : Valid w) {key : κ}
    (hn : w.role n = .unused) (hkey : w.placeholder key = none) {x : ι} :
    (if k = key then some n else w.placeholder k) = some x ↔
      (if x = n then Role.placeholder key else w.role x) = .placeholder k := by
  have old := h.placeholder_role x k
  split_ifs with hk hxn hxn
  · simp [hk, hxn]
  · rw [← old, hk, hkey]
    simp [Ne.symm hxn]
  · subst hxn
    rw [old, hn]
    simp [Ne.symm hk]
  · exact old

theorem importModel [DecidableEq κ] (h : Valid w) {key : κ} (hn : w.role n = .unused)
    (hkey : w.placeholder key = none) :
    Valid { w with
      scene := w.scene.importModel n key
      role := fun x => if x = n then .placeholder key else w.role x
      held := n :: w.held
      placeholder := fun k => if k = key then some n else w.placeholder k } := by
  have unloaded : ∀ l, w.load key ≠ some l := by
    intro l hl
    obtain ⟨p, hp⟩ := h.load_placeholder key l hl
    rw [hkey] at hp
    cases hp
  exact { h with
    root_role := role_assign_eq hn h.root_role (by simp)
    content_role := role_assign_eq hn h.content_role (by simp)
    content_unique := by
      intro x hx
      simp only at hx
      split_ifs at hx
      exact h.content_unique x hx
    edges := h.edges.of_role fun x hx => role_assign hn hx
    class_node := by
      intro x hx
      simp only [Scene.importModel, Node.init] at hx ⊢
      split_ifs at hx ⊢ <;> first | rfl | exact h.class_node x hx
    class_raw := by
      intro x k hx
      simp only [Scene.importModel, Node.init] at hx ⊢
      split_ifs at hx ⊢
      exact h.class_raw x k hx
    held_role := by
      intro x hx
      simp only
      split_ifs with hxn
      · trivial
      · exact h.held_role x ((List.mem_cons.mp hx).resolve_left hxn)
    adding_role := fun x hx => by
      simpa only [role_assign hn (h.adding_role x hx).ne_unused] using h.adding_role x hx
    key_role := by
      intro x k
      simp only [Scene.importModel, Node.init]
      split_ifs
      · simp
      · exact h.key_role x k
    placeholder_role := fun x k => h.importModel_placeholder hn hkey
    load_placeholder := by
      intro k l hl
      obtain ⟨p, hp⟩ := h.load_placeholder k l hl
      have hne : k ≠ key := by rintro rfl; exact unloaded l hl
      exact ⟨p, by simpa only [if_neg hne] using hp⟩
    wrapper_role := by
      intro x k
      have old := h.wrapper_role x k
      simp only
      split_ifs with hxn
      · subst hxn; simpa [hn] using old
      · exact old
    loaded_role := by
      intro x k
      have old := h.loaded_role x k
      simp only
      split_ifs with hxn
      · subst hxn; simpa [hn] using old
      · exact old
    roots_place := by
      intro k l p r hl hp hr
      have hne : k ≠ key := by rintro rfl; exact unloaded l hl
      simp only [if_neg hne] at hp
      exact h.roots_place k l p r hl hp hr
    delivered_role := by
      intro q m hqm
      obtain ⟨k, l, hq, rest⟩ := h.delivered_role q m hqm
      exact ⟨k, l, role_assign_eq hn hq (by simp), rest⟩ }

/-! ## The arrival of a model -/

/-- The child lists after `getNode`: the model, its root nodes below the wrapper `g`, and
everything that was there. -/
theorem store_graph (h : Valid w) {m : GLTFScene ι} (hm : ∀ x ∈ m.nodes, w.role x = .unused)
    (hgm : g ∉ m.nodes) {q x : ι} :
    x ∈ ((w.scene.graph.graft m.graph m.nodes m.closed).attachAll g m.roots).childNodes q ↔
      (q = g ∧ x ∈ m.roots) ∨ (q ∈ m.nodes ∧ x ∈ m.graph.childNodes q ∧ x ∉ m.roots) ∨
      (x ∈ w.scene.graph.childNodes q) := by
  rw [Hierarchy.mem_attachAll]
  by_cases hq : q ∈ m.nodes
  · have hqg : q ≠ g := by rintro rfl; exact hgm hq
    simp [Hierarchy.graft_childNodes_of_mem hq, hq, hqg, h.edges.unused_no_children (hm q hq)]
  · have apart : ∀ x ∈ w.scene.graph.childNodes q, x ∉ m.nodes :=
      fun x hx hxm => h.edges.unused_no_parent (hm x hxm) q hx
    rw [Hierarchy.graft_childNodes_of_notMem hq apart]
    have hroots : x ∈ w.scene.graph.childNodes q → x ∉ m.roots :=
      fun hx hr => apart x hx (m.roots_mem hr)
    simp only [hq, false_and, false_or]
    tauto

/-- The child list of a node that was in use is left alone. -/
theorem store_used_children (h : Valid w) {m : GLTFScene ι} (hg : w.role g = .unused)
    (hm : ∀ x ∈ m.nodes, w.role x = .unused) {q : ι} (hq : w.role q ≠ .unused) :
    ((w.scene.graph.graft m.graph m.nodes m.closed).attachAll g m.roots).childNodes q =
      w.scene.graph.childNodes q := by
  have apart : ∀ x ∈ w.scene.graph.childNodes q, x ∉ m.nodes :=
    fun x hx hxm => h.edges.unused_no_parent (hm x hxm) _ hx
  have hqm : q ∉ m.nodes := fun hqm => hq (hm q hqm)
  have hqg : q ≠ g := by rintro rfl; exact hq hg
  have graft : (w.scene.graph.graft m.graph m.nodes m.closed).childNodes q =
      w.scene.graph.childNodes q := Hierarchy.graft_childNodes_of_notMem hqm apart
  rw [Hierarchy.attachAll_childNodes_of_ne hqg, graft]
  rw [graft]
  exact fun x hx hr => apart x hx (m.roots_mem hr)

theorem store_wrapper_children (h : Valid w) {m : GLTFScene ι} (hg : w.role g = .unused)
    (hgm : g ∉ m.nodes) :
    ((w.scene.graph.graft m.graph m.nodes m.closed).attachAll g m.roots).childNodes g =
      m.roots := by
  have hnone := h.edges.unused_no_children hg
  have hgraft : (w.scene.graph.graft m.graph m.nodes m.closed).childNodes g = [] := by
    rw [Hierarchy.graft_childNodes_of_notMem hgm (by simp [hnone]), hnone]
  rw [Hierarchy.attachAll_childNodes_self m.roots_nodup (by simp [hgraft]), hgraft,
    List.nil_append]

section Store
variable {key : κ} {m : GLTFScene ι} {x : ι}

/-- A node that was in use keeps its role when a model arrives. -/
theorem store_role (hg : w.role g = .unused) (hm : ∀ x ∈ m.nodes, w.role x = .unused)
    (hx : w.role x ≠ .unused) :
    (if x ∈ m.nodes then Role.loaded key else if x = g then .wrapper key else w.role x)
      = w.role x := by
  have hxg : x ≠ g := by rintro rfl; exact hx hg
  rw [if_neg fun hxm => hx (hm x hxm), if_neg hxg]

theorem store_role_eq (hg : w.role g = .unused) (hm : ∀ x ∈ m.nodes, w.role x = .unused)
    {r : Role κ} (hx : w.role x = r) (hr : r ≠ .unused) :
    (if x ∈ m.nodes then Role.loaded key else if x = g then .wrapper key else w.role x) = r :=
  (store_role hg hm (hx ▸ hr)).trans hx

/-- No node gets a role of the other imports: neither the wrapper nor the nodes of the model had
a role before. -/
theorem store_role_iff (hg : w.role g = .unused) (hm : ∀ x ∈ m.nodes, w.role x = .unused)
    {r : Role κ} {P : Prop} (hP : w.role x = r ↔ P) (hr : r ≠ .unused) (hloaded : r ≠ .loaded key)
    (hwrapper : r ≠ .wrapper key) :
    (if x ∈ m.nodes then Role.loaded key else if x = g then .wrapper key else w.role x) = r ↔
      P := by
  rw [← hP]
  split_ifs with hxm hxg
  · simp [hm x hxm, Ne.symm hr, Ne.symm hloaded]
  · subst hxg
    simp [hg, Ne.symm hr, Ne.symm hwrapper]
  · exact Iff.rfl

theorem store_edges (h : Valid w) (hg : w.role g = .unused)
    (hm : ∀ x ∈ m.nodes, w.role x = .unused) (hgm : g ∉ m.nodes) :
    EdgesTyped
      (fun x => if x ∈ m.nodes then .loaded key else if x = g then .wrapper key else w.role x)
      ((w.scene.graph.graft m.graph m.nodes m.closed).attachAll g m.roots) := by
  intro q x hx
  rcases (h.store_graph hm hgm).mp hx with ⟨rfl, hr⟩ | ⟨hq, hx, _⟩ | hx
  · simp [hgm, m.roots_mem hr, Role.MayHold]
  · simp [hq, m.closed q hq x hx, Role.MayHold]
  · have hne := (h.edges q x hx).ne_unused
    simp only [store_role hg hm hne.1, store_role hg hm hne.2]
    exact h.edges q x hx

variable [DecidableEq κ]

theorem store_wrapper_role (h : Valid w) (hload : w.load key = none) (hg : w.role g = .unused)
    (hm : ∀ x ∈ m.nodes, w.role x = .unused) (hgm : g ∉ m.nodes) :
    (if x ∈ m.nodes then Role.loaded key else if x = g then .wrapper key else w.role x)
      = .wrapper k ↔
    ∃ l, (if k = key then some ⟨g, m⟩ else w.load k) = some l ∧ l.wrapper = x := by
  by_cases hk : k = key
  · subst hk
    have none := h.wrapper_role x k
    simp only [hload, reduceCtorEq, false_and, exists_false, iff_false] at none
    simp only [if_true, Option.some.injEq, exists_eq_left']
    split_ifs with hxm hxg
    · simp only [false_iff]
      rintro rfl
      exact hgm hxm
    · simp [hxg]
    · simpa [none] using Ne.symm hxg
  · simp only [if_neg hk]
    exact store_role_iff hg hm (h.wrapper_role x k) (by simp) (by simp) (by simpa using hk)

theorem store_loaded_role (h : Valid w) (hload : w.load key = none) (hg : w.role g = .unused)
    (hm : ∀ x ∈ m.nodes, w.role x = .unused) :
    (if x ∈ m.nodes then Role.loaded key else if x = g then .wrapper key else w.role x)
      = .loaded k ↔
    ∃ l, (if k = key then some ⟨g, m⟩ else w.load k) = some l ∧ x ∈ l.model.nodes := by
  by_cases hk : k = key
  · subst hk
    have none := h.loaded_role x k
    simp only [hload, reduceCtorEq, false_and, exists_false, iff_false] at none
    simp only [if_true, Option.some.injEq, exists_eq_left']
    split_ifs with hxm hxg
    · simpa using hxm
    · simpa using hxm
    · simpa [none] using hxm
  · simp only [if_neg hk]
    exact store_role_iff hg hm (h.loaded_role x k) (by simp) (by simpa using hk) (by simp)

end Store

theorem store [DecidableEq κ] (h : Valid w) {key : κ} {m : GLTFScene ι}
    (hplaceholder : w.placeholder key ≠ none) (hload : w.load key = none)
    (hg : w.role g = .unused) (hm : ∀ x ∈ m.nodes, w.role x = .unused) (hgm : g ∉ m.nodes) :
    Valid { w with
      scene := (w.scene.getNode g m).store key g
      role := fun x => if x ∈ m.nodes then .loaded key
        else if x = g then .wrapper key else w.role x
      load := fun k => if k = key then some ⟨g, m⟩ else w.load k
      scanning := some (key, g) } := by
  rw [Scene.getNode_eq]
  have graph := fun q x => h.store_graph hm hgm (q := q) (x := x)
  exact { h with
    root_role := store_role_eq hg hm h.root_role (by simp)
    content_role := store_role_eq hg hm h.content_role (by simp)
    content_unique := by
      intro x hx
      simp only at hx
      split_ifs at hx
      exact h.content_unique x hx
    edges := h.store_edges hg hm hgm
    content_child := (graph _ _).mpr (Or.inr (Or.inr h.content_child))
    class_node := by
      intro x hx
      simp only [Scene.store] at hx ⊢
      split_ifs at hx ⊢
      · exact hx.elim
      · rfl
      · exact h.class_node x hx
    class_raw := by
      intro x k hx
      simp only [Scene.store] at hx ⊢
      split_ifs at hx ⊢
      · rfl
      · exact h.class_raw x k hx
    held_role := fun x hx => by
      simpa only [store_role hg hm (h.held_role x hx).ne_unused] using h.held_role x hx
    adding_role := fun x hx => by
      simpa only [store_role hg hm (h.adding_role x hx).ne_unused] using h.adding_role x hx
    key_role := fun x k =>
      (store_role_iff hg hm (h.key_role x k).symm (by simp) (by simp) (by simp)).symm
    placeholder_role := fun x k =>
      (store_role_iff hg hm (h.placeholder_role x k).symm (by simp) (by simp) (by simp)).symm
    table_load := by
      intro k g' hg'
      simp only [Scene.store] at hg' ⊢
      split_ifs at hg' ⊢ with hk
      · cases hg'
        exact ⟨⟨g, m⟩, rfl, rfl⟩
      · exact h.table_load k g' hg'
    load_placeholder := by
      intro k l hl
      simp only at hl
      split_ifs at hl with hk
      · subst hk
        exact Option.ne_none_iff_exists'.mp hplaceholder
      · exact h.load_placeholder k l hl
    wrapper_role := fun _ _ => h.store_wrapper_role hload hg hm hgm
    loaded_role := fun _ _ => h.store_loaded_role hload hg hm
    roots_place := by
      intro k l p r hl hp hr
      simp only at hl
      split_ifs at hl with hk
      · cases hl
        exact Or.inl ((graph _ _).mpr (Or.inl ⟨rfl, hr⟩))
      · rcases h.roots_place k l p r hl hp hr with hw | hp
        · exact Or.inl ((graph _ _).mpr (Or.inr (Or.inr hw)))
        · exact Or.inr ((graph _ _).mpr (Or.inr (Or.inr hp)))
    scanning_load := by
      rintro k g' ⟨⟩
      refine ⟨⟨g, m⟩, if_pos rfl, rfl, if_pos rfl, ?_⟩
      exact (h.store_wrapper_children hg hgm (m := m)).symm ▸ List.prefix_refl _
    delivered_role := by
      intro q x hqx
      obtain ⟨k, l, hq, hl, rest⟩ := h.delivered_role q x hqx
      have hne : k ≠ key := by
        rintro rfl
        cases hload.symm.trans hl
      exact ⟨k, l, store_role_eq hg hm hq (by simp), by simpa only [if_neg hne] using hl, rest⟩ }

/-! ## Every action -/

omit [DecidableEq ι] in
theorem nodes (h : Valid w) : Valid { w with held := w.scene.nodes ++ w.held } :=
  { h with
    held_role := by
      intro x hx
      rcases List.mem_append.mp hx with hx | hx
      · exact (h.content_children_node (Scene.mem_children hx).1).1
      · exact h.held_role x hx }

omit [DecidableEq ι] in
/-- What a script reads from the children of a node it holds are nodes of scripts and imports. -/
theorem children (h : Valid w) (hn : n ∈ w.held) :
    Valid { w with held := Node.children w.scene n ++ w.held } :=
  { h with
    held_role := by
      intro x hx
      rcases List.mem_append.mp hx with hx | hx
      · obtain ⟨hchild, hnode⟩ := Scene.mem_children hx
        have may := h.edges _ _ hchild
        have hraw : ∀ k, w.role x ≠ .loaded k := by
          intro k hk
          rw [h.class_raw x k hk] at hnode
          cases hnode
        have hscript := h.held_role n hn
        revert may hscript
        cases w.role n <;> simp_all [Role.MayHold, Role.ScriptNode]
      · exact h.held_role x hx }

theorem step [DecidableEq κ] (h : Valid w) {w' : World ι κ} {a : Action ι κ}
    (hstep : w.step a = some w') : Valid w' := by
  cases a with
  | node n =>
    obtain ⟨⟨_, hn⟩, rfl⟩ := by simpa [World.step] using hstep
    exact h.node hn
  | importModel n key =>
    obtain ⟨⟨_, hn, hkey⟩, rfl⟩ := by simpa [World.step] using hstep
    exact h.importModel hn hkey
  | nodes =>
    obtain ⟨_, rfl⟩ := by simpa [World.step] using hstep
    exact h.nodes
  | children n =>
    obtain ⟨⟨_, hn⟩, rfl⟩ := by simpa [World.step] using hstep
    exact h.children hn
  | nodeAdd parent child =>
    obtain ⟨⟨_, hp, hc⟩, rfl⟩ := by simpa [World.step] using hstep
    exact h.nodeAdd hp hc
  | addLookup n =>
    obtain ⟨⟨_, hn⟩, rfl⟩ := by simpa [World.step] using hstep
    exact h.addLookup hn
  | addAppend =>
    simp only [World.step] at hstep
    split at hstep
    · rename_i n hn
      cases hstep
      exact h.addAppend hn
    · cases hstep
  | store key gltfNode m =>
    obtain ⟨⟨_, hp, hl, hg, hm, hgm⟩, rfl⟩ := by simpa [World.step] using hstep
    exact h.store hp hl hg hm hgm
  | scan => exact h.scan hstep
  | removeSceneContent =>
    cases hstep
    exact h.removeSceneContent
  | host parent n b =>
    obtain ⟨⟨hn, hp⟩, rfl⟩ := by simpa [World.step] using hstep
    exact h.host hn b hp

end Valid

/-- Every state that any interleaving reaches is valid. -/
theorem valid_of_run [DecidableEq κ] {root content : ι} (apart : root ≠ content)
    {ok : World ι κ → Action ι κ → Prop} {w : World ι κ}
    (run : Run World.step ok (World.init root content) w) : Valid w :=
  run.invariant (valid_init apart) fun _ _ _ h _ hstep => h.step hstep

/-- No step replaces `rootNode` or `sceneContent`. -/
theorem step_fixed [DecidableEq κ] {w w' : World ι κ} (h : Valid w)
    {a : Action ι κ} (hstep : w.step a = some w') :
    w'.scene.rootNode = w.scene.rootNode ∧ w'.scene.sceneContent = w.scene.sceneContent := by
  cases a with
  | addLookup n =>
    obtain ⟨_, rfl⟩ := by simpa [World.step] using hstep
    rcases Scene.addLookup_cases w.scene n with ⟨heq, _⟩ | ⟨k, g, _, _, heq⟩ <;> rw [heq]
    · exact ⟨rfl, rfl⟩
    · exact ⟨rfl, rfl⟩
  | addAppend =>
    simp only [World.step] at hstep
    split at hstep
    · cases hstep
      exact ⟨rfl, rfl⟩
    · cases hstep
  | store key g m =>
    obtain ⟨_, rfl⟩ := by simpa [World.step] using hstep
    simp only [Scene.getNode_eq]
    exact ⟨rfl, rfl⟩
  | scan =>
    obtain ⟨k, p, l, _, _, _, ⟨_, r, _, rfl⟩ | ⟨_, rfl⟩⟩ := h.scan_cases hstep <;> exact ⟨rfl, rfl⟩
  | removeSceneContent =>
    cases hstep
    rw [Scene.removeSceneContent_eq]
    exact ⟨rfl, rfl⟩
  | _ =>
    obtain ⟨_, rfl⟩ := by simpa [World.step] using hstep
    exact ⟨rfl, rfl⟩

end AstroAR
