import AstroAR.Operations

/-!
# The table of imported models

A completion puts the loaded node into `importedModelsList` and takes the entry
out again when it hands the model over itself. The lookup in `Scene.add` hands
the loaded node over and leaves the entry. So the table holds only waiting
models as long as the lookup finds nothing, and never again afterwards.
-/

namespace AstroAR

open Runs

universe u v
variable {ι : Type u} {κ : Type v} [DecidableEq ι]

namespace World

omit [DecidableEq ι] in
/-- The entry `g` of the key `k` waits: its load has completed and nothing of the model has been
attached to the placeholder. -/
def Waits (w : World ι κ) (k : κ) (g : ι) : Prop :=
  ∃ l p, w.load k = some l ∧ l.wrapper = g ∧ w.placeholder k = some p ∧
    (∀ c, (p, c) ∉ w.scene.delivered) ∧ l.wrapper ∉ w.scene.graph.childNodes p ∧
    ∀ x ∈ l.model.nodes, x ∉ w.scene.graph.childNodes p

/-- The table holds waiting models only, and no model is handed over twice. -/
structure TableWaits (w : World ι κ) : Prop where
  waits : ∀ k g, w.scene.importedModelsList k = some g → w.Waits k g
  once : ∀ k p, w.placeholder k = some p →
    (w.scene.delivered.filter fun d => d.1 = p).length ≤ 1
  gone : ∀ k p c, w.placeholder k = some p → (p, c) ∈ w.scene.delivered →
    w.scene.importedModelsList k = none

omit [DecidableEq ι] in
/-- The operation is no `scene.add` that finds a loaded node in the table. -/
def FindsNothing (w : World ι κ) : Operation ι κ → Prop
  | .sceneAdd n => ∀ k ∈ w.scene.importedModelReferenceKey n, w.scene.importedModelsList k = none
  | _ => True

instance (w : World ι κ) (op : Operation ι κ) : Decidable (w.FindsNothing op) :=
  match op with
  | .sceneAdd n => inferInstanceAs (Decidable (∀ k ∈ w.scene.importedModelReferenceKey n,
      w.scene.importedModelsList k = none))
  | .node _ | .importModel _ _ | .nodes | .children _ | .nodeAdd _ _ | .complete _ _ _
  | .removeSceneContent | .host _ _ _ => isTrue trivial

/-- The number of calls of `scene.add` so far that found a loaded node. -/
def countFound (w : World ι κ) (found : Nat) (op : Operation ι κ) : Nat :=
  if w.FindsNothing op then found else found + 1

end World

/-! ## The nodes of a model while its entry is in the table -/

/-- While the entry of `k` is in the table, no node of its model hangs below the placeholder. -/
def RawApart (w : World ι κ) : Prop :=
  ∀ k p, w.placeholder k = some p → w.scene.importedModelsList k ≠ none →
    ∀ c ∈ w.scene.graph.childNodes p, w.role c ≠ .loaded k

namespace RawApart
variable {w w' : World ι κ} {p q c n : ι} {k key : κ} {op : Operation ι κ}

theorem addScriptNode (h : RawApart w) (hc : (w.role c).ScriptNode) :
    RawApart { w with scene := w.scene.addChildNode q c } := by
  intro k p hp htable x hx
  rcases Hierarchy.mem_attach.mp hx with ⟨_, rfl⟩ | ⟨hx, _⟩
  · exact hc.ne_loaded
  · exact h k p hp htable x hx

omit [DecidableEq ι] in
/-- A fresh node is no node of a model. -/
theorem assign [DecidableEq ι] (h : RawApart w) {r : Role κ} (hr : ∀ k, r ≠ .loaded k) :
    RawApart { w with role := fun x => if x = n then r else w.role x } := by
  intro k p hp htable x hx
  simp only
  split_ifs
  · exact hr k
  · exact h k p hp htable x hx

variable [DecidableEq κ] {g : ι} {m : GLTFScene ι}

theorem arrived (valid : Valid w) (h : RawApart w) (harr : w.Arrives key g m)
    (hp : w.placeholder k = some p) (htable : k = key ∨ w.scene.importedModelsList k ≠ none) :
    ∀ c ∈ (w.arrived key g m).scene.graph.childNodes p, (w.arrived key g m).role c ≠ .loaded k := by
  intro c hc
  rw [valid.mem_arrived_of_used harr (valid.placeholder_used hp)] at hc
  rw [World.role_arrived harr (valid.edges p c hc).ne_unused.2]
  rcases htable with rfl | htable
  · intro hloaded
    obtain ⟨l, hl, _⟩ := (valid.loaded_role c k).mp hloaded
    cases harr.pending.symm.trans hl
  · exact h k p hp htable c hc

theorem effect (valid : Valid w) (h : RawApart w) (effect : w.Effect op w') : RawApart w' := by
  cases effect with
  | node n _ => exact h.assign (by simp)
  | importModel n key fresh new =>
    intro k p hp htable x hx
    have hx' : x ∈ w.scene.graph.childNodes p := hx
    simp only at hp ⊢
    split_ifs at hp with hk
    · cases hp
      rw [valid.edges.unused_no_children fresh] at hx'
      cases hx'
    · split_ifs
      · simp
      · exact h k p hp htable x hx'
  | nodes => exact h
  | children n _ => exact h
  | nodeAdd parent child _ names => exact h.addScriptNode (valid.held_role child names)
  | sceneAdd n holds _ => exact h.addScriptNode (valid.held_role n holds)
  | sceneAddFound n k g holds _ found =>
    have handed := h.addScriptNode (q := n) (valid.scriptNode_of_table found)
    exact handed.addScriptNode (valid.held_role n holds)
  | complete key g m p hp harr _ =>
    intro k p hp htable
    apply h.arrived valid harr hp
    by_cases hk : k = key
    · exact Or.inl hk
    · rw [World.arrived_importedModelsList, if_neg hk] at htable
      exact Or.inr htable
  | completeInScene key g m p r hp harr _ _ =>
    intro k p' hp' htable x hx
    simp only [Scene.removeValue, ne_eq, ite_eq_left_iff, not_forall] at htable
    obtain ⟨hk, htable⟩ := htable
    have hpp : p' ≠ p := by
      rintro rfl
      cases (valid.role_of_placeholder hp).symm.trans (valid.role_of_placeholder hp')
      exact hk rfl
    have htable' : w.scene.importedModelsList k ≠ none := fun hnone =>
      htable (World.arrived_importedModelsList.trans ((if_neg hk).trans hnone))
    exact h.arrived valid harr hp' (Or.inr htable') x (Hierarchy.mem_of_mem_attach hpp hx)
  | removeSceneContent =>
    rw [Scene.removeSceneContent_eq]
    exact fun k p hp htable x hx => h k p hp htable x (Hierarchy.mem_detachAll.mp hx).1
  | host parent n b fresh _ =>
    intro k p hp htable x hx
    simp only
    split_ifs with hxn
    · simp
    · exact h k p hp htable x ((Hierarchy.mem_attach_of_ne hxn).mp hx)

end RawApart

variable [DecidableEq κ]

theorem rawApart_of_performed {root content : ι} (apart : root ≠ content)
    {ok : World ι κ → Operation ι κ → Prop} {w : World ι κ}
    (run : Run World.perform ok (World.init root content) w) : RawApart w :=
  World.performed_invariant apart (by simp [RawApart, World.init])
    (fun _ _ _ valid h _ effect => h.effect valid effect) run

omit [DecidableEq ι] [DecidableEq κ] in
/-- Nothing has been handed over to a placeholder whose load is pending. -/
theorem Valid.undelivered {w : World ι κ} (h : Valid w) {k : κ} {p c : ι}
    (pending : w.load k = none) (hp : w.placeholder k = some p) : (p, c) ∉ w.scene.delivered := by
  intro hpc
  obtain ⟨k', l, hrole, hl, _⟩ := h.delivered_role p c hpc
  cases (h.role_of_placeholder hp).symm.trans hrole
  cases pending.symm.trans hl

/-! ## Before the lookup finds anything -/

omit [DecidableEq κ] in
/-- What holds as long as no lookup has found a loaded node: wrappers hang nowhere and no script
knows one, and what has been handed over is out of the table. -/
structure NoneFound (w : World ι κ) : Prop where
  parent : ∀ n k, w.role n = .wrapper k → ∀ q, n ∉ w.scene.graph.childNodes q
  held : ∀ n k, w.role n = .wrapper k → n ∉ w.held
  fresh : ∀ k p c, w.placeholder k = some p → (p, c) ∈ w.scene.delivered →
    w.scene.importedModelsList k = none
  once : ∀ p, (w.scene.delivered.filter fun d => d.1 = p).length ≤ 1

namespace NoneFound
variable {w w' : World ι κ} {p q c n g : ι} {k key : κ} {m : GLTFScene ι} {op : Operation ι κ}

omit [DecidableEq κ] in
theorem init (root content : ι) : NoneFound (World.init root content : World ι κ) := by
  have roleless : ∀ n k, (World.init root content : World ι κ).role n ≠ .wrapper k := by
    intro n k
    simp only [World.init]
    split_ifs <;> simp
  exact ⟨fun n k hn => absurd hn (roleless n k), fun n k hn => absurd hn (roleless n k),
    fun _ _ _ _ _ => rfl, fun _ => Nat.zero_le 1⟩

omit [DecidableEq κ] in
theorem addHeld (h : NoneFound w) (hc : c ∈ w.held) :
    NoneFound { w with scene := w.scene.addChildNode q c } :=
  { h with
    parent := by
      intro n k hn q' hq
      rcases Hierarchy.mem_attach.mp hq with ⟨_, rfl⟩ | ⟨hq, _⟩
      · exact h.held n k hn hc
      · exact h.parent n k hn q' hq }

omit [DecidableEq κ] in
/-- A fresh node gets a role, and a script may hold it from then on. -/
theorem assign (h : NoneFound w) {r : Role κ} (hr : ∀ k, r ≠ .wrapper k) {held : List ι}
    (hheld : ∀ x ∈ held, x = n ∨ x ∈ w.held) :
    NoneFound { w with role := fun x => if x = n then r else w.role x, held := held } :=
  { h with
    parent := by
      intro x k hx
      simp only at hx
      split_ifs at hx
      · exact absurd hx (hr k)
      · exact h.parent x k hx
    held := by
      intro x k hx hmem
      simp only at hx
      split_ifs at hx with hxn
      · exact hr k hx
      · exact h.held x k hx ((hheld x hmem).resolve_left hxn) }

omit [DecidableEq κ] in
/-- What a script reads hangs somewhere, so it is no wrapper. -/
theorem read (h : NoneFound w) (q : ι) :
    NoneFound { w with held := Node.children w.scene q ++ w.held } :=
  { h with
    held := by
      intro x k hx hmem
      rcases List.mem_append.mp hmem with hread | hheld
      · exact h.parent x k hx q (Scene.mem_children hread).1
      · exact h.held x k hx hheld }

/-- A model that arrives outside the scene: its wrapper is new to everyone. -/
theorem arrived (h : NoneFound w) (valid : Valid w) (harr : w.Arrives key g m) :
    NoneFound (w.arrived key g m) := by
  have old : ∀ {n k}, (w.arrived key g m).role n = .wrapper k → n = g ∨ w.role n = .wrapper k := by
    intro n k hn
    simp only [World.arrived] at hn
    split_ifs at hn with _ hng
    · exact Or.inl hng
    · exact Or.inr hn
  refine ⟨fun n k hn q hq => ?_, fun n k hn => ?_, fun k p c hp hpc => ?_, ?_⟩
  · rcases old hn with rfl | hn
    · exact valid.arrived_wrapper_orphan harr hq
    · exact h.parent n k hn q (valid.mem_arrived_of_used_child harr (by simp [hn]) hq)
  · rcases old hn with rfl | hn
    · exact fun hheld => (valid.held_role n hheld).ne_unused harr.wrapper
    · exact h.held n k hn
  · rw [World.arrived_delivered] at hpc
    rw [World.arrived_importedModelsList, if_neg]
    · exact h.fresh k p c hp hpc
    · rintro rfl
      exact valid.undelivered harr.pending hp hpc
  · rw [World.arrived_delivered]
    exact h.once

/-- The completion hands a root node of the model over and takes the entry out again. -/
theorem served (h : NoneFound (w.arrived key g m)) (valid : Valid w)
    (hp : w.placeholder key = some p) (harr : w.Arrives key g m) (root : c ∈ m.roots) :
    NoneFound { w.arrived key g m with
      scene := ((w.arrived key g m).scene.deliver p c).removeValue key } :=
  { h with
    parent := by
      intro n k hn q hq
      rcases Hierarchy.mem_attach.mp hq with ⟨_, rfl⟩ | ⟨hq, _⟩
      · simp [World.arrived, m.roots_mem root] at hn
      · exact h.parent n k hn q hq
    fresh := by
      intro k p' c' hp' hpc
      simp only [Scene.removeValue]
      split_ifs with hk
      · rfl
      · rcases List.mem_append.mp hpc with old | new
        · exact h.fresh k p' c' hp' old
        · cases List.mem_singleton.mp new
          cases (valid.role_of_placeholder hp).symm.trans (valid.role_of_placeholder hp')
          exact absurd rfl hk
    once := by
      intro p'
      change (((w.arrived key g m).scene.delivered ++ [(p, c)]).filter _).length ≤ 1
      by_cases hpp : p = p'
      · subst hpp
        have none : (w.arrived key g m).scene.delivered.filter (fun d => d.1 = p) = [] := by
          rw [World.arrived_delivered]
          refine List.filter_eq_nil_iff.mpr ?_
          rintro ⟨q, d⟩ hd heq
          cases of_decide_eq_true heq
          exact valid.undelivered harr.pending hp hd
        simp [List.filter_append, none]
      · simpa [List.filter_append, hpp] using h.once p' }

theorem effect (h : NoneFound w) (valid : Valid w) (hok : w.FindsNothing op)
    (effect : w.Effect op w') : NoneFound w' := by
  cases effect with
  | node n fresh =>
    exact { h.assign (n := n) (r := .made) (by simp) fun x hx => List.mem_cons.mp hx with }
  | importModel n key fresh new => exact {
      h.assign (n := n) (r := .placeholder key) (by simp) fun x hx => List.mem_cons.mp hx with
      fresh := by
        intro k p c hp hpc
        simp only at hp
        split_ifs at hp
        · cases hp
          obtain ⟨_, _, hrole, _⟩ := valid.delivered_role n c hpc
          cases fresh.symm.trans hrole
        · exact h.fresh k p c hp hpc }
  | nodes => exact h.read w.scene.sceneContent
  | children n _ => exact h.read n
  | nodeAdd parent child _ names => exact h.addHeld names
  | sceneAdd n holds _ => exact h.addHeld holds
  | sceneAddFound n k g holds hkey found =>
    cases found.symm.trans (hok k hkey)
  | complete key g m p hp harr _ => exact h.arrived valid harr
  | completeInScene key g m p r hp harr _ root =>
    exact (h.arrived valid harr).served valid hp harr root
  | removeSceneContent =>
    rw [Scene.removeSceneContent_eq]
    exact { h with
      parent := fun n k hn q hq => h.parent n k hn q (Hierarchy.mem_detachAll.mp hq).1 }
  | host parent n b fresh _ =>
    have known := h.assign (n := n) (r := .host) (by simp) fun x (hx : x ∈ w.held) => Or.inr hx
    exact { known with
      parent := by
        intro x k hx q hq
        have hxn : x ≠ n := by
          rintro rfl
          simp at hx
        exact known.parent x k hx q ((Hierarchy.mem_attach_of_ne hxn).mp hq) }

omit [DecidableEq κ] in
theorem tableWaits (h : NoneFound w) (valid : Valid w) (raw : RawApart w) : w.TableWaits where
  waits := by
    intro k g hg
    obtain ⟨l, hl, rfl⟩ := valid.table_load k g hg
    obtain ⟨p, hp⟩ := valid.load_placeholder k l hl
    refine ⟨l, p, hl, rfl, hp, fun c hc => ?_, ?_, fun x hx hxp => ?_⟩
    · cases hg.symm.trans (h.fresh k p c hp hc)
    · exact h.parent _ k (valid.wrapper_of_load hl) p
    · exact raw k p hp (by simp [hg]) x hxp ((valid.loaded_role x k).mpr ⟨l, hl, hx⟩)
  once := fun _ p _ => h.once p
  gone := h.fresh

end NoneFound

/-! ## After it has found something -/

/-- A model has been handed over and its entry is still in the table. -/
def EntryKept (w : World ι κ) : Prop :=
  ∃ k p c, w.placeholder k = some p ∧ (p, c) ∈ w.scene.delivered ∧
    w.scene.importedModelsList k ≠ none

namespace EntryKept
variable {w w' : World ι κ} {op : Operation ι κ}

omit [DecidableEq κ] in
theorem not_tableWaits (h : EntryKept w) : ¬ w.TableWaits := by
  obtain ⟨k, p, c, hp, hpc, htable⟩ := h
  exact fun waits => htable (waits.gone k p c hp hpc)

/-- The lookup hands over and leaves the entry. -/
theorem of_found (valid : Valid w) (hok : ¬ w.FindsNothing op) (effect : w.Effect op w') :
    EntryKept w' := by
  cases effect with
  | sceneAdd n _ missed => exact absurd missed hok
  | sceneAddFound n k g _ hkey found =>
    refine ⟨k, n, g, ?_, List.mem_append_right _ List.mem_cons_self, ?_⟩
    · exact (valid.placeholder_role n k).mpr ((valid.key_role n k).mp hkey)
    · simp [Scene.addAppend, Node.add, Scene.addChildNode, Scene.deliver, found]
  | _ => exact absurd trivial hok

/-- No operation takes such an entry out any more: a completion only takes its own. -/
theorem effect (valid : Valid w) (h : EntryKept w) (effect : w.Effect op w') : EntryKept w' := by
  obtain ⟨k, p, c, hp, hpc, htable⟩ := h
  cases effect with
  | importModel n key _ new =>
    refine ⟨k, p, c, ?_, hpc, htable⟩
    have hk : k ≠ key := by
      rintro rfl
      cases new.symm.trans hp
    simpa only [if_neg hk] using hp
  | sceneAddFound n k' g _ _ _ => exact ⟨k, p, c, hp, List.mem_append_left _ hpc, htable⟩
  | complete key g m q _ harr _ =>
    refine ⟨k, p, c, hp, by rwa [World.arrived_delivered], ?_⟩
    rw [World.arrived_importedModelsList]
    split_ifs
    · simp
    · exact htable
  | completeInScene key g m q r _ harr _ _ =>
    have hk : k ≠ key := by
      rintro rfl
      exact valid.undelivered harr.pending hp hpc
    refine ⟨k, p, c, hp, List.mem_append_left _ (by rwa [World.arrived_delivered]), ?_⟩
    simp only [Scene.removeValue, if_neg hk]
    exact fun hnone => htable
      ((if_neg hk).symm.trans (World.arrived_importedModelsList.symm.trans hnone))
  | removeSceneContent =>
    rw [Scene.removeSceneContent_eq]
    exact ⟨k, p, c, hp, hpc, htable⟩
  | _ => exact ⟨k, p, c, hp, hpc, htable⟩

end EntryKept

/-- Over every run of operations, the table holds waiting models only, and no model is handed
over twice, exactly as long as no call of `scene.add` has found a loaded node in it. -/
theorem table_waits_iff {root content : ι} (apart : root ≠ content) {w : World ι κ} {found : Nat}
    (run : Run (shadow World.perform World.countFound) (fun _ _ => True)
      (World.init root content, 0) (w, found)) : w.TableWaits ↔ found = 0 := by
  have performed : World.Performed root content w := run.of_shadow
  have valid := valid_of_run apart (World.reachable_of_performed performed)
  have raw := rawApart_of_performed apart performed
  have split : (found = 0 ∧ NoneFound w) ∨ (found ≠ 0 ∧ EntryKept w) := by
    refine World.shadowed_invariant (fun _ _ => True)
      (I := fun w found => (found = 0 ∧ NoneFound w) ∨ (found ≠ 0 ∧ EntryKept w)) apart ?_ ?_ run
    · exact Or.inl ⟨rfl, .init root content⟩
    · intro t z op u ht hz _ effect
      simp only [World.countFound]
      split_ifs with hok
      · rcases hz with ⟨hz, none⟩ | ⟨hz, kept⟩
        · exact Or.inl ⟨hz, none.effect ht hok effect⟩
        · exact Or.inr ⟨hz, kept.effect ht effect⟩
      · exact Or.inr ⟨z.succ_ne_zero, .of_found ht hok effect⟩
  rcases split with ⟨hfound, none⟩ | ⟨hfound, kept⟩
  · exact iff_of_true (none.tableWaits valid raw) hfound
  · exact iff_of_false kept.not_tableWaits hfound

/-- The load completes before the placeholder is added: the model has been handed over, and its
entry is still there. -/
theorem entry_kept : ¬ ∀ w : World ℕ ℕ, World.Performed 0 1 w → w.TableWaits := by
  intro claim
  obtain ⟨w, run, hlist, hp, hdelivered⟩ := Run.exists_of_exec World.perform (fun _ _ => True)
    (World.init 0 1 : World ℕ ℕ)
    [.importModel 2 7, .complete 7 3 (.flat 4 [5] (by decide)), .sceneAdd 2]
    (fun w => w.scene.importedModelsList 7 = some 3 ∧ w.placeholder 7 = some 2 ∧
      (2, 3) ∈ w.scene.delivered) (by decide)
  cases hlist.symm.trans ((claim w run).gone 7 2 3 hp hdelivered)

/-- One import served by its completion, and a second one that waits. -/
theorem table_waits_served : ∃ w : World ℕ ℕ, w.scene.delivered = [(2, 5)] ∧
    w.scene.importedModelsList 8 = some 13 ∧ w.TableWaits := by
  obtain ⟨⟨w, found⟩, run, hdelivered, hlist, hfound⟩ := Run.exists_of_exec
    (shadow World.perform World.countFound) (fun _ _ => True)
    ((World.init 0 1, 0) : World ℕ ℕ × ℕ)
    [.importModel 2 7, .importModel 12 8, .sceneAdd 2,
      .complete 7 3 (.flat 4 [5] (by decide)), .complete 8 13 (.flat 14 [15] (by decide))]
    (fun s => s.1.scene.delivered = [(2, 5)] ∧ s.1.scene.importedModelsList 8 = some 13 ∧
      s.2 = 0) (by decide)
  exact ⟨w, hdelivered, hlist, (table_waits_iff (by decide) run).mpr hfound⟩

end AstroAR
