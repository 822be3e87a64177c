import AstroAR.ValidSteps

/-!
# The handshake between `Scene.add` and a completion

A placeholder gets its model either from the lookup in `Scene.add`, if the load
is already stored, or from the scan of the completion, if the placeholder is
already in the scene. The two queues share no lock: a store and a scan that both
fall between a lookup and its append serve nobody. Apart from that window, and
from the scan's handing over one root node only, no model is lost.
-/

namespace AstroAR

open Runs

universe u v
variable {ι : Type u} {κ : Type v} [DecidableEq ι]

namespace World

/-- The steps of imports, of `Scene.add` on placeholders and of clears. -/
def ImportAction (w : World ι κ) : Action ι κ → Prop
  | .importModel _ _ | .addAppend | .store _ _ _ | .scan | .removeSceneContent => True
  | .addLookup n => (w.role n).isPlaceholder
  | _ => False

instance (w : World ι κ) (a : Action ι κ) : Decidable (w.ImportAction a) :=
  match a with
  | .importModel _ _ | .addAppend | .store _ _ _ | .scan | .removeSceneContent => isTrue trivial
  | .addLookup n => inferInstanceAs (Decidable ((w.role n).isPlaceholder = true))
  | .node _ | .nodes | .children _ | .nodeAdd _ _ | .host _ _ _ => isFalse id

/-- A completion is about to scan although a `Scene.add` of its placeholder, which found
nothing, has yet to append the placeholder to the scene. -/
def racing (w : World ι κ) : Bool :=
  match w.scanning with
  | some (k, g) => match w.placeholder k with
    | some p => decide (w.adding = some p ∧ g ∉ w.scene.graph.childNodes p ∧
        p ∉ w.scene.graph.childNodes w.scene.sceneContent)
    | none => false
  | none => false

/-- A completion is about to find its placeholder in the scene, without the wrapper, and its
model does not have exactly one root node. -/
def splitting (w : World ι κ) : Bool :=
  match w.scanning with
  | some (k, g) => match w.placeholder k, w.load k with
    | some p, some l => decide (p ∈ w.scene.graph.childNodes w.scene.sceneContent ∧
        g ∉ w.scene.graph.childNodes p ∧ l.model.roots.length ≠ 1)
    | _, _ => false
  | none => false

def NoRace (w : World ι κ) : Action ι κ → Prop
  | .scan => w.racing = false
  | _ => True

def NoSplit (w : World ι κ) : Action ι κ → Prop
  | .scan => w.splitting = false
  | _ => True

instance (w : World ι κ) (a : Action ι κ) : Decidable (w.NoRace a) :=
  match a with
  | .scan => inferInstanceAs (Decidable (w.racing = false))
  | .node _ | .importModel _ _ | .nodes | .children _ | .nodeAdd _ _ | .addLookup _ | .addAppend
  | .store _ _ _ | .removeSceneContent | .host _ _ _ => isTrue trivial

instance (w : World ι κ) (a : Action ι κ) : Decidable (w.NoSplit a) :=
  match a with
  | .scan => inferInstanceAs (Decidable (w.splitting = false))
  | .node _ | .importModel _ _ | .nodes | .children _ | .nodeAdd _ _ | .addLookup _ | .addAppend
  | .store _ _ _ | .removeSceneContent | .host _ _ _ => isTrue trivial

/-- Every placeholder that is a child of `sceneContent` and whose model has arrived has a root
node of the model below it. -/
def ImportsBegun (w : World ι κ) : Prop :=
  ∀ k p l, w.placeholder k = some p → w.load k = some l → l.model.roots ≠ [] →
    p ∈ w.scene.graph.childNodes w.scene.sceneContent →
    ∃ r ∈ l.model.roots, w.scene.graph.Below p r

/-- Every placeholder that is a child of `sceneContent` and whose model has arrived has the
whole model below it. -/
def ImportsShown (w : World ι κ) : Prop :=
  ∀ k p l, w.placeholder k = some p → w.load k = some l → l.model.roots ≠ [] →
    p ∈ w.scene.graph.childNodes w.scene.sceneContent →
    ∀ r ∈ l.model.roots, w.scene.graph.Below p r

theorem racing_spec {w : World ι κ} {k : κ} {g p : ι} (hs : w.scanning = some (k, g))
    (hp : w.placeholder k = some p) (quiet : w.racing = false) (hadd : w.adding = some p) :
    g ∈ w.scene.graph.childNodes p ∨ p ∈ w.scene.graph.childNodes w.scene.sceneContent := by
  simp only [racing, hs, hp, hadd, true_and, decide_eq_false_iff_not] at quiet
  tauto

theorem splitting_spec {w : World ι κ} {k : κ} {g p : ι} {l : Load ι}
    (hs : w.scanning = some (k, g)) (hp : w.placeholder k = some p) (hl : w.load k = some l)
    (whole : w.splitting = false)
    (hpc : p ∈ w.scene.graph.childNodes w.scene.sceneContent)
    (hg : g ∉ w.scene.graph.childNodes p) : l.model.roots.length = 1 := by
  simpa [splitting, hs, hp, hl, hpc, hg] using whole

end World

/-- Where the model of an import `k` with placeholder `p` is: in the wrapper below the
placeholder; handed over by the scan, in full if `whole` holds; or in the table, with its
completion yet to scan or with no `Scene.add` of the placeholder under way or done. -/
def Located (whole : Prop) (w : World ι κ) (k : κ) (p : ι) (l : Load ι) : Prop :=
  l.wrapper ∈ w.scene.graph.childNodes p ∨
  ((∃ r ∈ l.model.roots, r ∈ w.scene.graph.childNodes p) ∧
    (whole → ∀ r ∈ l.model.roots, r ∈ w.scene.graph.childNodes p)) ∨
  (w.scene.importedModelsList k = some l.wrapper ∧ (w.scanning = some (k, l.wrapper) ∨
    (p ∉ w.scene.graph.childNodes w.scene.sceneContent ∧ w.adding ≠ some p)))

/-- The invariant of the handshake. -/
structure Handshake (whole : Prop) (w : World ι κ) : Prop where
  adding_placeholder : ∀ n, w.adding = some n → ∃ k, w.role n = .placeholder k
  located : ∀ k p l, w.placeholder k = some p → w.load k = some l → l.model.roots ≠ [] →
    Located whole w k p l

namespace Handshake
variable {whole : Prop} {w w' : World ι κ} {k : κ} {p : ι} {l : Load ι}

omit [DecidableEq ι] in
/-- A step that keeps the edges below placeholders keeps what has been handed over. -/
theorem located_of_kept {w' : World ι κ} (hl : Located whole w k p l)
    (kept : ∀ x, (x = l.wrapper ∨ x ∈ l.model.roots) → x ∈ w.scene.graph.childNodes p →
      x ∈ w'.scene.graph.childNodes p)
    (waiting : w.scene.importedModelsList k = some l.wrapper →
      (w.scanning = some (k, l.wrapper) ∨
        (p ∉ w.scene.graph.childNodes w.scene.sceneContent ∧ w.adding ≠ some p)) →
      Located whole w' k p l) : Located whole w' k p l := by
  rcases hl with hw | ⟨⟨r, hr, hrp⟩, hall⟩ | ⟨htable, hwait⟩
  · exact Or.inl (kept _ (Or.inl rfl) hw)
  · exact Or.inr (Or.inl ⟨⟨r, hr, kept r (Or.inr hr) hrp⟩,
      fun hwhole r hr => kept r (Or.inr hr) (hall hwhole r hr)⟩)
  · exact waiting htable hwait

omit [DecidableEq ι] in
/-- The wrapper and the root nodes of an import are not moved when another node is. -/
theorem ne_of_role (h : Valid w) (hl : w.load k = some l) {c x : ι}
    (hx : x = l.wrapper ∨ x ∈ l.model.roots) (hw : w.role c ≠ .wrapper k)
    (hr : w.role c ≠ .loaded k) : x ≠ c := by
  rintro rfl
  rcases hx with rfl | hx
  · exact hw (h.wrapper_of_load hl)
  · exact hr (h.loaded_of_root hl hx)

theorem addLookup (h : Valid w) (hand : Handshake whole w) {n : ι} {key : κ}
    (hn : w.role n = .placeholder key) :
    Handshake whole { w with scene := w.scene.addLookup n, adding := some n } := by
  have hkey : w.scene.importedModelReferenceKey n = some key := (h.key_role n key).mpr hn
  refine ⟨by rintro m ⟨⟩; exact ⟨key, hn⟩, fun k p l hp hl hne => ?_⟩
  have hloc := hand.located k p l hp hl hne
  have hpk := h.role_of_placeholder hp
  rcases Scene.addLookup_cases w.scene n with ⟨heq, missing⟩ | ⟨k', g, hkey', htable, heq⟩
  · rw [heq]
    refine located_of_kept hloc (fun x _ hx => hx) fun htable hwait => ?_
    -- the table holds nothing under the key of `n`, so `n` is another placeholder
    have hnp : n ≠ p := by
      rintro rfl
      cases hn.symm.trans hpk
      cases (missing _ hkey).symm.trans htable
    exact Or.inr (Or.inr ⟨htable, hwait.imp_right fun hw => ⟨hw.1, by simpa using hnp⟩⟩)
  · rw [heq]
    cases hkey.symm.trans hkey'
    have hg := h.wrapper_of_table htable
    by_cases hkk : k = key
    · subst hkk
      obtain ⟨l', hl', rfl⟩ := h.table_load k g htable
      cases hl.symm.trans hl'
      cases hp.symm.trans ((h.placeholder_role n k).mpr hn)
      exact Or.inl Hierarchy.attach_self
    · have hwrapper : w.role g ≠ .wrapper k := by rw [hg]; simpa using Ne.symm hkk
      have hloaded : w.role g ≠ .loaded k := by simp [hg]
      have hnp : n ≠ p := by
        rintro rfl
        cases hn.symm.trans hpk
        exact hkk rfl
      have hnc : w.scene.sceneContent ≠ n := by
        rintro rfl
        cases hn.symm.trans h.content_role
      refine located_of_kept hloc (fun x hx hxp => ?_) fun htable' hwait => ?_
      · exact (Hierarchy.mem_attach_of_ne (ne_of_role h hl hx hwrapper hloaded)).mpr hxp
      · refine Or.inr (Or.inr ⟨htable', hwait.imp_right fun hw =>
          ⟨fun hpc => ?_, by simpa using hnp⟩⟩)
        exact hw.1 (Hierarchy.mem_of_mem_attach hnc hpc)

theorem addAppend (h : Valid w) (hand : Handshake whole w) {n : ι} (hadd : w.adding = some n) :
    Handshake whole { w with scene := w.scene.addAppend n, adding := none } := by
  obtain ⟨key, hn⟩ := hand.adding_placeholder n hadd
  refine ⟨by simp, fun k p l hp hl hne => ?_⟩
  refine located_of_kept (hand.located k p l hp hl hne) (fun x hx hxp => ?_) fun htable hwait => ?_
  · refine (Hierarchy.mem_attach_of_ne (ne_of_role h hl hx ?_ ?_)).mpr hxp <;> simp [hn]
  · refine Or.inr (Or.inr ⟨htable, hwait.imp_right fun hw => ⟨fun hpc => ?_, by simp⟩⟩)
    rcases Hierarchy.mem_attach.mp hpc with ⟨_, hpn⟩ | ⟨hpc, _⟩
    · exact hw.2 (hpn ▸ hadd)
    · exact hw.1 hpc

theorem removeSceneContent (h : Valid w) (hand : Handshake whole w) :
    Handshake whole { w with scene := w.scene.removeSceneContent } := by
  rw [Scene.removeSceneContent_eq]
  refine ⟨hand.adding_placeholder, fun k p l hp hl hne => ?_⟩
  refine located_of_kept (hand.located k p l hp hl hne) (fun x _ hxp => ?_) fun htable hwait => ?_
  · have hpc : p ≠ w.scene.sceneContent := by
      rintro rfl
      cases h.content_role.symm.trans (h.role_of_placeholder hp)
    exact (Hierarchy.mem_detachAll_children_of_ne hpc).mpr hxp
  · exact Or.inr (Or.inr ⟨htable, hwait.imp_right fun hw =>
      ⟨fun hpc => hw.1 (Hierarchy.mem_detachAll.mp hpc).1, hw.2⟩⟩)

/-- The scan serves its own placeholder, unless `Scene.add` has handed it the wrapper: with all
of the model if that has a single root node. -/
theorem scan_own [DecidableEq κ] (h : Valid w) (unsplit : whole → w.splitting = false)
    (hs : w.scanning = some (k, l.wrapper)) (hp : w.placeholder k = some p)
    (hl : w.load k = some l) (hne : l.model.roots ≠ [])
    (hpc : p ∈ w.scene.graph.childNodes w.scene.sceneContent) {r : ι}
    (hr : (w.scene.graph.childNodes l.wrapper).head? = some r) :
    Located whole { w with scene := (w.scene.deliver p r).removeValue k, scanning := none }
      k p l := by
  obtain ⟨l', hl', _, _, hpre⟩ := h.scanning_load k l.wrapper hs
  cases hl.symm.trans hl'
  have hroot : r ∈ l.model.roots := (Valid.first_child hpre hr).resolve_right hne
  by_cases hw : l.wrapper ∈ w.scene.graph.childNodes p
  · have hwr : l.wrapper ≠ r := by
      intro heq
      have hrole := h.loaded_of_root hl hroot
      rw [← heq, h.wrapper_of_load hl] at hrole
      cases hrole
    exact Or.inl ((Hierarchy.mem_attach_of_ne hwr).mpr hw)
  · refine Or.inr (Or.inl ⟨⟨r, hroot, Hierarchy.attach_self⟩, fun hwhole r' hr' => ?_⟩)
    obtain ⟨r₁, hone⟩ := List.length_eq_one_iff.mp
      (World.splitting_spec hs hp hl (unsplit hwhole) hpc hw)
    rw [hone, List.mem_singleton] at hr' hroot
    rw [hr', ← hroot]
    exact Hierarchy.attach_self

/-- The scan for one import leaves the others where they are. -/
theorem scan_other [DecidableEq κ] (h : Valid w) (hand : Handshake whole w) {k₀ : κ} {p₀ r : ι}
    {l₀ : Load ι} (hs : w.scanning = some (k₀, l₀.wrapper)) (hp₀ : w.placeholder k₀ = some p₀)
    (hl₀ : w.load k₀ = some l₀)
    (hr : (w.scene.graph.childNodes l₀.wrapper).head? = some r) (hp : w.placeholder k = some p)
    (hl : w.load k = some l) (hne : l.model.roots ≠ []) (hkk : k ≠ k₀) :
    Located whole { w with scene := (w.scene.deliver p₀ r).removeValue k₀, scanning := none }
      k p l := by
  -- `r` hangs below the other wrapper, so it is no child of this placeholder
  have hpw : p ≠ l₀.wrapper := by
    rintro rfl
    cases (h.role_of_placeholder hp).symm.trans (h.wrapper_of_load hl₀)
  apply located_of_kept (hand.located k p l hp hl hne)
  · intro x _ hxp
    refine (Hierarchy.mem_attach_of_ne ?_).mpr hxp
    rintro rfl
    exact hpw (w.scene.graph.parent_unique hxp (List.mem_of_head? hr))
  · intro htable hwait
    have hw := hwait.resolve_left fun hs' =>
      hkk (Prod.mk.inj (Option.some.inj (hs'.symm.trans hs))).1
    have hpc₀ : w.scene.sceneContent ≠ p₀ := by
      rintro heq
      cases h.content_role.symm.trans (heq ▸ h.role_of_placeholder hp₀)
    have hkept : ((w.scene.deliver p₀ r).removeValue k₀).importedModelsList k =
        some l.wrapper := by
      simpa [Scene.removeValue, Scene.deliver, Scene.addChildNode, hkk] using htable
    refine Or.inr (Or.inr ⟨hkept, Or.inr ⟨fun hin => ?_, hw.2⟩⟩)
    exact hw.1 (Hierarchy.mem_of_mem_attach hpc₀ hin)

/-- A scan that does not find its placeholder leaves all imports where they are; its own, if
nobody has served it, is no longer in anybody's hands. -/
theorem scan_missed [DecidableEq κ] (hand : Handshake whole w) {k₀ : κ} {p₀ : ι} {l₀ : Load ι}
    (hs : w.scanning = some (k₀, l₀.wrapper)) (hp₀ : w.placeholder k₀ = some p₀)
    (quiet : w.racing = false) (hl₀ : w.load k₀ = some l₀)
    (hpc : p₀ ∉ w.scene.graph.childNodes w.scene.sceneContent) (hp : w.placeholder k = some p)
    (hl : w.load k = some l) (hne : l.model.roots ≠ []) :
    Located whole { w with scanning := none } k p l := by
  by_cases hkk : k = k₀
  · subst hkk
    cases hp.symm.trans hp₀
    cases hl.symm.trans hl₀
    by_cases hadd : w.adding = some p
    · exact Or.inl ((World.racing_spec hs hp quiet hadd).resolve_right hpc)
    · exact located_of_kept (hand.located k p l hp hl hne) (fun x _ hx => hx) fun htable _ =>
        Or.inr (Or.inr ⟨htable, Or.inr ⟨hpc, hadd⟩⟩)
  · refine located_of_kept (hand.located k p l hp hl hne) (fun x _ hx => hx) ?_
    intro htable hwait
    refine Or.inr (Or.inr ⟨htable, Or.inr (hwait.resolve_left fun hs' => ?_)⟩)
    exact hkk (Prod.mk.inj (Option.some.inj (hs'.symm.trans hs))).1

theorem scan [DecidableEq κ] (h : Valid w) (hand : Handshake whole w) (quiet : w.racing = false)
    (unsplit : whole → w.splitting = false) (hstep : w.step .scan = some w') :
    Handshake whole w' := by
  obtain ⟨k₀, p₀, l₀, hs, hp₀, hl₀, ⟨hpc, r, hr, rfl⟩ | ⟨hpc, rfl⟩⟩ := h.scan_cases hstep
  · refine ⟨hand.adding_placeholder, fun k p l hp hl hne => ?_⟩
    by_cases hkk : k = k₀
    · subst hkk
      cases hp.symm.trans hp₀
      cases hl.symm.trans hl₀
      exact scan_own h unsplit hs hp hl hne hpc hr
    · exact hand.scan_other h hs hp₀ hl₀ hr hp hl hne hkk
  · exact ⟨hand.adding_placeholder, fun k p l hp hl hne =>
      hand.scan_missed hs hp₀ quiet hl₀ hpc hp hl hne⟩

/-- A model arrives: it is in the table and its completion has yet to scan. -/
theorem store [DecidableEq κ] (h : Valid w) (hand : Handshake whole w) {key : κ} {g : ι}
    {m : GLTFScene ι} (hs : w.scanning = none) (hg : w.role g = .unused)
    (hm : ∀ x ∈ m.nodes, w.role x = .unused) (hgm : g ∉ m.nodes) :
    Handshake whole { w with
      scene := (w.scene.getNode g m).store key g
      role := fun x => if x ∈ m.nodes then .loaded key
        else if x = g then .wrapper key else w.role x
      load := fun k => if k = key then some ⟨g, m⟩ else w.load k
      scanning := some (key, g) } := by
  rw [Scene.getNode_eq]
  have graph := fun q x => h.store_graph hm hgm (q := q) (x := x)
  constructor
  · intro n hn
    obtain ⟨k, hk⟩ := hand.adding_placeholder n hn
    have hne : w.role n ≠ .unused := by simp [hk]
    refine ⟨k, ?_⟩
    have hng : n ≠ g := by rintro rfl; exact hne hg
    simpa only [if_neg fun hx => hne (hm n hx), if_neg hng] using hk
  · intro k p l hp hl hne
    simp only at hl
    split_ifs at hl with hkk
    · cases hl
      subst hkk
      exact Or.inr (Or.inr ⟨if_pos rfl, Or.inl rfl⟩)
    · refine located_of_kept (hand.located k p l hp hl hne) (fun x _ hxp => ?_)
        fun htable hwait => ?_
      · exact (graph p x).mpr (Or.inr (Or.inr hxp))
      · have hw := hwait.resolve_left (by simp [hs])
        refine Or.inr (Or.inr ⟨by simpa [Scene.store, hkk] using htable,
          Or.inr ⟨fun hin => ?_, hw.2⟩⟩)
        have used : w.role w.scene.sceneContent ≠ .unused := by simp [h.content_role]
        rcases (graph _ _).mp hin with ⟨hc, _⟩ | ⟨hc, _⟩ | hin
        · exact used (hc ▸ hg)
        · exact used (hm _ hc)
        · exact hw.1 hin

/-- A new placeholder has no model yet, and the steps of the others see nothing of it. -/
theorem importModel [DecidableEq κ] (h : Valid w) (hand : Handshake whole w) {n : ι} {key : κ}
    (hn : w.role n = .unused) (hkey : w.placeholder key = none) :
    Handshake whole { w with
      scene := w.scene.importModel n key
      role := fun x => if x = n then .placeholder key else w.role x
      held := n :: w.held
      placeholder := fun k => if k = key then some n else w.placeholder k } := by
  constructor
  · intro x hx
    obtain ⟨k, hk⟩ := hand.adding_placeholder x hx
    exact ⟨k, (Valid.role_assign hn (by simp [hk])).trans hk⟩
  · intro k p l hp hl hne
    have hkk : k ≠ key := by
      rintro rfl
      obtain ⟨p', hp'⟩ := h.load_placeholder k l hl
      cases hkey.symm.trans hp'
    simp only [if_neg hkk] at hp
    exact hand.located k p l hp hl hne

theorem step [DecidableEq κ] (h : Valid w) (hand : Handshake whole w) {a : Action ι κ}
    (import_ : w.ImportAction a) (quiet : w.NoRace a) (unsplit : whole → w.NoSplit a)
    (hstep : w.step a = some w') : Handshake whole w' := by
  cases a with
  | importModel n key =>
    obtain ⟨⟨_, hn, hkey⟩, rfl⟩ := by simpa [World.step] using hstep
    exact hand.importModel h hn hkey
  | addLookup n =>
    obtain ⟨⟨_, hn⟩, rfl⟩ := by simpa [World.step] using hstep
    obtain ⟨key, hrole⟩ := Role.isPlaceholder_iff.mp import_
    exact hand.addLookup h hrole
  | addAppend =>
    simp only [World.step] at hstep
    split at hstep
    · rename_i n hn
      cases hstep
      exact hand.addAppend h hn
    · cases hstep
  | store key g m =>
    obtain ⟨⟨hs, _, _, hg, hm, hgm⟩, rfl⟩ := by simpa [World.step] using hstep
    exact hand.store h hs hg hm hgm
  | scan => exact hand.scan h quiet unsplit hstep
  | removeSceneContent =>
    cases hstep
    exact hand.removeSceneContent h
  | _ => exact import_.elim

theorem of_run [DecidableEq κ] {root content : ι} (apart : root ≠ content)
    {ok : World ι κ → Action ι κ → Prop}
    (allowed : ∀ w a, ok w a → w.ImportAction a ∧ w.NoRace a ∧ (whole → w.NoSplit a))
    (run : Run World.step ok (World.init root content) w) : Handshake whole w := by
  refine run.invariant_along (I := Handshake whole) ⟨by simp [World.init], by simp [World.init]⟩
    fun t a u hrun hand hok hstep => ?_
  obtain ⟨import_, quiet, unsplit⟩ := allowed t a hok
  exact hand.step (valid_of_run apart hrun) import_ quiet unsplit hstep

omit [DecidableEq ι] in
/-- Once both queues are idle, a placeholder in the scene has been served. -/
theorem served (hand : Handshake whole w) (idle : w.Idle) (h : Valid w)
    (hp : w.placeholder k = some p) (hl : w.load k = some l) (hne : l.model.roots ≠ [])
    (hpc : p ∈ w.scene.graph.childNodes w.scene.sceneContent) :
    (∃ r ∈ l.model.roots, w.scene.graph.Below p r) ∧
      (whole → ∀ r ∈ l.model.roots, w.scene.graph.Below p r) := by
  rcases hand.located k p l hp hl hne with hw | ⟨⟨r, hr, hrp⟩, hall⟩ | ⟨_, hs | hout⟩
  · have below : ∀ r ∈ l.model.roots, w.scene.graph.Below p r := by
      intro r hr
      rcases h.roots_place k l p r hl hp hr with hrw | hrp
      · exact (Hierarchy.Below.child hw).tail hrw
      · exact Hierarchy.Below.child hrp
    obtain ⟨r, hr⟩ := List.exists_mem_of_ne_nil _ hne
    exact ⟨⟨r, hr, below r hr⟩, fun _ => below⟩
  · exact ⟨⟨r, hr, Hierarchy.Below.child hrp⟩,
      fun hwhole r hr => Hierarchy.Below.child (hall hwhole r hr)⟩
  · rw [idle.2] at hs
    cases hs
  · exact absurd hpc hout.1

end Handshake

/-- If no completion scans in the window of a `Scene.add` that found nothing, then no import is
lost, in any order of the steps; if moreover no completion splits a model, each is shown whole. -/
theorem imports_shown [DecidableEq κ] {root content : ι} (apart : root ≠ content) :
    (∀ w : World ι κ, Run World.step (fun w a => w.ImportAction a ∧ w.NoRace a)
      (World.init root content) w → w.Idle → w.ImportsBegun) ∧
    (∀ w : World ι κ, Run World.step (fun w a => w.ImportAction a ∧ w.NoRace a ∧ w.NoSplit a)
      (World.init root content) w → w.Idle → w.ImportsShown) := by
  constructor
  · intro w run idle k p l hp hl hne hpc
    have hand : Handshake False w :=
      .of_run apart (fun _ _ hok => ⟨hok.1, hok.2, False.elim⟩) run
    exact (hand.served idle (valid_of_run apart run) hp hl hne hpc).1
  · intro w run idle k p l hp hl hne hpc
    have hand : Handshake True w :=
      .of_run apart (fun _ _ hok => ⟨hok.1, hok.2.1, fun _ => hok.2.2⟩) run
    exact (hand.served idle (valid_of_run apart run) hp hl hne hpc).2 trivial

/-- A model with two root nodes arrives between a `Scene.add` and its repetition, and is shown
whole below its placeholder. -/
theorem imports_shown_two_roots : ∃ w : World ℕ ℕ, w.ImportsShown ∧
    w.placeholder 7 = some 2 ∧ 2 ∈ w.scene.graph.childNodes 1 ∧
    (w.load 7).map (fun l => l.model.roots) = some [5, 6] := by
  obtain ⟨w, run, idle, hp, hpc, hl⟩ := Run.exists_of_exec
    World.step (fun w a => w.ImportAction a ∧ w.NoRace a ∧ w.NoSplit a)
    (World.init 0 1 : World ℕ ℕ)
    [.importModel 2 7, .addLookup 2, .addAppend, .removeSceneContent,
      .store 7 3 (.flat 4 [5, 6] (by decide)), .scan, .addLookup 2, .addAppend]
    (fun w => w.Idle ∧ w.placeholder 7 = some 2 ∧ 2 ∈ w.scene.graph.childNodes 1 ∧
      (w.load 7).map (fun l => l.model.roots) = some [5, 6]) (by decide)
  exact ⟨w, (imports_shown (by decide)).2 w run idle, hp, hpc, hl⟩

/-- The lost import: the lookup finds nothing, the load is stored and scans an empty scene, and
only then the placeholder is appended. Not one root node of the model is below it. -/
theorem import_lost : ¬ ∀ w : World ℕ ℕ, Run World.step (fun w a => w.ImportAction a)
    (World.init 0 1) w → w.Idle → w.ImportsBegun := by
  intro claim
  obtain ⟨w, run, idle, hp, hempty, hcontent, hpc, hl⟩ := Run.exists_of_exec
    World.step (fun w a => w.ImportAction a) (World.init 0 1 : World ℕ ℕ)
    [.importModel 2 7, .addLookup 2, .store 7 3 (.flat 4 [5] (by decide)), .scan, .addAppend]
    (fun w => w.Idle ∧ w.placeholder 7 = some 2 ∧ w.scene.graph.childNodes 2 = [] ∧
      w.scene.sceneContent = 1 ∧ 2 ∈ w.scene.graph.childNodes 1 ∧
      (w.load 7).map (fun l => l.model.roots) = some [5]) (by decide)
  obtain ⟨l, hload, hroots⟩ := Option.map_eq_some_iff.mp hl
  obtain ⟨r, hr, hbelow⟩ := claim w run idle 7 2 l hp hload (by rw [hroots]; decide)
    (hcontent ▸ hpc)
  -- nothing hangs below the placeholder
  have heq : r = 2 := by
    refine hbelow.closed (S := fun x => x = 2) rfl ?_
    rintro p c rfl hc
    rw [hempty] at hc
    cases hc
  rw [hroots, heq] at hr
  exact absurd hr (by decide)

end AstroAR
