import AstroAR.CollisionSafety

/-!
# What the collision pass reports

As long as nobody takes a top-level node away, the children that were there when
the pass began stay in place, whatever is appended behind them. The pass then
compares each ordered pair of them once.
-/

namespace AstroAR

open Runs

universe u v w
variable {ι : Type u} {κ : Type v}

namespace World
variable [DecidableEq ι] [DecidableEq κ]

/-- The nodes that an action of the app takes from where they are. A completion's scan moves a
node out of its wrapper only, and new nodes are nowhere before. -/
def moved (w : World ι κ) : Action ι κ → List ι
  | .nodeAdd _ child => [child]
  | .addLookup n =>
    ((w.scene.importedModelReferenceKey n).bind w.scene.importedModelsList).toList
  | .addAppend => w.adding.toList
  | .removeSceneContent => w.scene.childNodes w.scene.sceneContent
  | _ => []

/-- The action moves no child of `sceneContent`. -/
def KeepsTop (w : World ι κ) (a : Action ι κ) : Prop :=
  ∀ n ∈ w.moved a, n ∉ w.scene.graph.childNodes w.scene.sceneContent

instance (w : World ι κ) (a : Action ι κ) : Decidable (w.KeepsTop a) :=
  inferInstanceAs
    (Decidable (∀ n ∈ w.moved a, n ∉ w.scene.graph.childNodes w.scene.sceneContent))

/-- None of a list of actions moves a child of `sceneContent`. -/
def KeepTop (w : World ι κ) : List (Action ι κ) → Prop
  | [] => True
  | a :: rest => w.KeepsTop a ∧ ∀ w' ∈ w.step a, KeepTop w' rest

instance decidableKeepTop (w : World ι κ) (acts : List (Action ι κ)) :
    Decidable (w.KeepTop acts) :=
  match acts with
  | [] => isTrue trivial
  | a :: rest =>
    have (w' : World ι κ) : Decidable (KeepTop w' rest) := decidableKeepTop w' rest
    inferInstanceAs (Decidable (w.KeepsTop a ∧ ∀ w' ∈ w.step a, KeepTop w' rest))

end World

namespace Valid
variable [DecidableEq ι] [DecidableEq κ] {w w' : World ι κ}

/-- An action that moves no top-level node leaves them in place and appends at most. -/
theorem step_grows (h : Valid w) {a : Action ι κ} (keeps : w.KeepsTop a)
    (hstep : w.step a = some w') :
    w.scene.graph.childNodes w.scene.sceneContent <+:
      w'.scene.graph.childNodes w.scene.sceneContent := by
  have attached : ∀ {p c : ι}, c ∉ w.scene.graph.childNodes w.scene.sceneContent →
      w.scene.graph.childNodes w.scene.sceneContent <+:
        (w.scene.graph.attach p c).childNodes w.scene.sceneContent :=
    fun hc => Hierarchy.prefix_attach (List.prefix_refl _) hc
  cases a with
  | nodeAdd parent child =>
    obtain ⟨_, rfl⟩ := by simpa [World.step] using hstep
    exact attached (keeps child (by simp [World.moved]))
  | addLookup n =>
    obtain ⟨_, rfl⟩ := by simpa [World.step] using hstep
    rcases Scene.addLookup_cases w.scene n with ⟨heq, _⟩ | ⟨k, g, hkey, hlist, heq⟩
    · simp only [heq]
      exact List.prefix_refl _
    · simp only [heq]
      exact attached (keeps g (by simp [World.moved, hkey, hlist]))
  | addAppend =>
    simp only [World.step] at hstep
    split at hstep
    · rename_i n hn
      cases hstep
      exact attached (keeps n (by simp [World.moved, hn]))
    · cases hstep
  | store key g m =>
    obtain ⟨⟨_, _, _, hg, hm, _⟩, rfl⟩ := by simpa [World.step] using hstep
    simp only [Scene.getNode_eq, Scene.store]
    have same := h.store_used_children hg hm (q := w.scene.sceneContent)
      (by simp [h.content_role])
    exact ⟨[], (List.append_nil _).trans same.symm⟩
  | scan =>
    obtain ⟨k, p, l, _, hp, hl, ⟨_, r, hr, rfl⟩ | ⟨_, rfl⟩⟩ := h.scan_cases hstep
    · refine attached fun hrc => ?_
      have hparent := w.scene.graph.parent_unique hrc (List.mem_of_head? hr)
      cases h.content_role.symm.trans (hparent ▸ h.wrapper_of_load hl)
    · exact List.prefix_refl _
  | removeSceneContent =>
    cases hstep
    have hnil : w.scene.graph.childNodes w.scene.sceneContent = [] :=
      List.eq_nil_iff_forall_not_mem.mpr fun n hn => keeps n hn hn
    rw [hnil]
    exact List.nil_prefix
  | host parent n b =>
    obtain ⟨⟨hn, _⟩, rfl⟩ := by simpa [World.step] using hstep
    exact attached (h.edges.unused_no_parent hn _)
  | _ =>
    obtain ⟨_, rfl⟩ := by simpa [World.step] using hstep
    exact List.prefix_refl _

theorem steps_grow (h : Valid w) {acts : List (Action ι κ)} (keeps : w.KeepTop acts)
    (hsteps : acts.foldlM World.step w = some w') :
    w'.scene.sceneContent = w.scene.sceneContent ∧
      w.scene.graph.childNodes w.scene.sceneContent <+:
        w'.scene.graph.childNodes w.scene.sceneContent := by
  induction acts generalizing w with
  | nil =>
    cases hsteps
    exact ⟨rfl, List.prefix_refl _⟩
  | cons a rest ih =>
    rw [List.foldlM_cons] at hsteps
    obtain ⟨t, ht, hrest⟩ := Option.bind_eq_some_iff.mp hsteps
    obtain ⟨hcontent, hpre⟩ := ih (h.step ht) (keeps.2 t ht) hrest
    rw [(step_fixed h ht).2] at hcontent hpre
    exact ⟨hcontent, (h.step_grows keeps.1 ht).trans hpre⟩

end Valid

/-! ## The pass over a list that only grows -/

namespace PassState
variable {l₀ l l' : List ι} {s : PassState ι} {i j : ℕ}

/-- The counts are at least that of the initial children and within the present ones, and the
nodes read are those at the indices. -/
def Sound (l₀ l : List ι) : PassState ι → Prop
  | .start => True
  | .outer _ countA => l₀.length ≤ countA ∧ countA ≤ l.length
  | .inner nA countA _ countB =>
    nA < countA ∧ countA ≤ l.length ∧ l₀.length ≤ countA ∧ l₀.length ≤ countB ∧ countB ≤ l.length
  | .readRhs nA countA nB countB lhs =>
    nA < countA ∧ countA ≤ l.length ∧ l₀.length ≤ countA ∧ l₀.length ≤ countB ∧
      countB ≤ l.length ∧ nB < countB ∧ nA ≠ nB ∧ l[nA]? = some lhs
  | .compare nA countA nB countB lhs rhs =>
    nA < countA ∧ countA ≤ l.length ∧ l₀.length ≤ countA ∧ l₀.length ≤ countB ∧
      countB ≤ l.length ∧ nB < countB ∧ nA ≠ nB ∧ l[nA]? = some lhs ∧ l[nB]? = some rhs
  | .done => True
  | .trapped => False

/-- The pair of indices is still to come, or is the one the pass is at. -/
def Ahead (i j : ℕ) : PassState ι → Prop
  | .start => True
  | .outer nA _ => nA ≤ i
  | .inner nA _ nB _ | .readRhs nA _ nB _ _ | .compare nA _ nB _ _ _ => nA < i ∨ i = nA ∧ nB ≤ j
  | .done | .trapped => False

/-- The pair of indices lies behind the pass. -/
def Behind (i j : ℕ) : PassState ι → Prop
  | .start | .trapped => False
  | .outer nA _ => i < nA
  | .inner nA _ nB _ | .readRhs nA _ nB _ _ | .compare nA _ nB _ _ _ => i < nA ∨ i = nA ∧ j < nB
  | .done => True

theorem getElem?_mono (hpre : l <+: l') {x : ι} (hx : l[i]? = some x) :
    l'[i]? = some x := by
  obtain ⟨t, rfl⟩ := hpre
  rw [List.getElem?_append_left (List.getElem?_eq_some_iff.mp hx).1, hx]

theorem Sound.mono (hpre : l <+: l') (sound : s.Sound l₀ l) : s.Sound l₀ l' := by
  have hle := hpre.length_le
  cases s with
  | outer nA countA => exact ⟨sound.1, sound.2.trans hle⟩
  | inner nA countA nB countB =>
    obtain ⟨hA, hcA, h₀A, h₀B, hcB⟩ := sound
    exact ⟨hA, hcA.trans hle, h₀A, h₀B, hcB.trans hle⟩
  | readRhs nA countA nB countB lhs =>
    obtain ⟨hA, hcA, h₀A, h₀B, hcB, hB, hne, hlhs⟩ := sound
    exact ⟨hA, hcA.trans hle, h₀A, h₀B, hcB.trans hle, hB, hne, getElem?_mono hpre hlhs⟩
  | compare nA countA nB countB lhs rhs =>
    obtain ⟨hA, hcA, h₀A, h₀B, hcB, hB, hne, hlhs, hrhs⟩ := sound
    exact ⟨hA, hcA.trans hle, h₀A, h₀B, hcB.trans hle, hB, hne, getElem?_mono hpre hlhs,
      getElem?_mono hpre hrhs⟩
  | _ => exact sound

theorem Sound.next (hpre : l₀ <+: l) (sound : s.Sound l₀ l) : (s.next l).Sound l₀ l := by
  have hle := hpre.length_le
  cases s with
  | start => exact ⟨hle, le_rfl⟩
  | outer nA countA =>
    simp only [PassState.next]
    split_ifs with hA
    · exact ⟨hA, sound.2, sound.1, hle, le_rfl⟩
    · trivial
  | inner nA countA nB countB =>
    obtain ⟨hA, hcA, h₀A, h₀B, hcB⟩ := sound
    simp only [PassState.next]
    split_ifs with hB hne
    · rw [List.getElem?_eq_getElem (hA.trans_le hcA)]
      exact ⟨hA, hcA, h₀A, h₀B, hcB, hB, hne, List.getElem?_eq_getElem _⟩
    · exact ⟨hA, hcA, h₀A, h₀B, hcB⟩
    · exact ⟨h₀A, hcA⟩
  | readRhs nA countA nB countB lhs =>
    obtain ⟨hA, hcA, h₀A, h₀B, hcB, hB, hne, hlhs⟩ := sound
    simp only [PassState.next]
    rw [List.getElem?_eq_getElem (hB.trans_le hcB)]
    exact ⟨hA, hcA, h₀A, h₀B, hcB, hB, hne, hlhs, List.getElem?_eq_getElem _⟩
  | compare nA countA nB countB lhs rhs =>
    obtain ⟨hA, hcA, h₀A, h₀B, hcB, _⟩ := sound
    exact ⟨hA, hcA, h₀A, h₀B, hcB⟩
  | done => trivial
  | trapped => exact sound

theorem Ahead.of_next (ahead : (s.next l).Ahead i j) : s.Ahead i j := by
  cases s with
  | start => trivial
  | outer nA countA =>
    simp only [PassState.next] at ahead
    split_ifs at ahead
    · simp only [Ahead] at ahead ⊢
      omega
    · exact ahead.elim
  | inner nA countA nB countB =>
    simp only [PassState.next] at ahead
    split_ifs at ahead
    · split at ahead
      · exact ahead
      · exact ahead.elim
    · simp only [Ahead] at ahead ⊢
      omega
    · simp only [Ahead] at ahead ⊢
      omega
  | readRhs nA countA nB countB lhs =>
    simp only [PassState.next] at ahead
    split at ahead
    · exact ahead
    · exact ahead.elim
  | compare nA countA nB countB lhs rhs =>
    simp only [PassState.next, Ahead] at ahead ⊢
    omega
  | done => exact ahead
  | trapped => exact ahead

/-- What lies behind the pass after a step did so before, or is the pair that was compared. -/
theorem Behind.of_next (sound : s.Sound l₀ l) (hi : i < l₀.length) (hj : j < l₀.length)
    (hij : i ≠ j) (behind : (s.next l).Behind i j) :
    s.Behind i j ∨ ∃ countA countB lhs rhs, s = .compare i countA j countB lhs rhs := by
  cases s with
  | start =>
    simp only [PassState.next, Behind] at behind
    omega
  | outer nA countA =>
    simp only [PassState.next] at behind
    obtain ⟨h₀, _⟩ := sound
    split_ifs at behind with hA
    · simp only [Behind] at behind ⊢
      omega
    · apply Or.inl
      simp only [Behind]
      omega
  | inner nA countA nB countB =>
    obtain ⟨hA, hcA, h₀A, h₀B, hcB⟩ := sound
    simp only [PassState.next] at behind
    split_ifs at behind with hB hne
    · split at behind
      · exact Or.inl behind
      · exact behind.elim
    · simp only [Behind] at behind ⊢
      omega
    · simp only [Behind] at behind ⊢
      omega
  | readRhs nA countA nB countB lhs =>
    simp only [PassState.next] at behind
    split at behind
    · exact Or.inl behind
    · exact behind.elim
  | compare nA countA nB countB lhs rhs =>
    simp only [PassState.next, Behind] at behind
    by_cases heq : i = nA ∧ j = nB
    · obtain ⟨rfl, rfl⟩ := heq
      exact Or.inr ⟨countA, countB, lhs, rhs, rfl⟩
    · apply Or.inl
      simp only [Behind]
      omega
  | done => exact Or.inl behind
  | trapped => exact behind.elim

end PassState

variable {π φ δ : Type w} [LT δ] [DecidableLT δ]

namespace Frame
variable [DecidableEq ι] [DecidableEq κ]

/-- The step takes no child of `sceneContent` away: neither another queue nor a detector moves a
top-level node. Positions and detectors may change, and nodes may be appended. -/
def KeepsTop (f : Frame ι κ π φ) : FrameAction ι κ π φ → Prop
  | .app a => f.world.KeepsTop a
  | .callback op => World.KeepTop { f.world with adding := none } op.steps
  | _ => True

instance (f : Frame ι κ π φ) (a : FrameAction ι κ π φ) : Decidable (f.KeepsTop a) :=
  match a with
  | .app a => inferInstanceAs (Decidable (f.world.KeepsTop a))
  | .callback op =>
    inferInstanceAs (Decidable (World.KeepTop { f.world with adding := none } op.steps))
  | .pass | .updatePosition _ _ | .setCollisionDetector _ _ => isTrue trivial

omit [DecidableEq ι] [DecidableEq κ] in
theorem children_eq {f : Frame ι κ π φ} (h : Valid f.world) :
    f.children = f.world.scene.graph.childNodes f.world.scene.sceneContent :=
  Scene.children_eq _ fun _ hc => (h.content_children_node hc).2

/-- Whatever keeps the top-level nodes leaves the list that the pass reads a prefix of the new
one. -/
theorem children_grow {d : Detection π δ} {f f' : Frame ι κ π φ} (h : Valid f.world)
    {a : FrameAction ι κ π φ} (keeps : f.KeepsTop a) (hstep : f.step d a = some f') :
    f.children <+: f'.children := by
  have h' := step_valid h hstep
  cases a with
  | pass =>
    exact ⟨[], (List.append_nil _).trans (stepPass_children (d := d) hstep).symm⟩
  | app a =>
    obtain ⟨w, hw, rfl⟩ := Option.map_eq_some_iff.mp hstep
    rw [children_eq h, children_eq h', (step_fixed h hw).2]
    exact h.step_grows keeps hw
  | callback op =>
    obtain ⟨w, hw, rfl⟩ := Option.map_eq_some_iff.mp hstep
    obtain ⟨u, hu, rfl⟩ := Option.map_eq_some_iff.mp hw
    have hnone : Valid { f.world with adding := none } := { h with adding_role := by simp }
    obtain ⟨hcontent, hpre⟩ := hnone.steps_grow keeps hu
    rw [children_eq h, children_eq h']
    simp only at hcontent hpre ⊢
    rwa [hcontent]
  | updatePosition n value =>
    cases hstep
    exact List.prefix_refl _
  | setCollisionDetector n cb =>
    cases hstep
    exact List.prefix_refl _

end Frame

/-- The invariant of a pass that began with the children `l₀`, while these stay in place. -/
structure Covering (l₀ : List ι) (f : Frame ι κ π φ) : Prop where
  valid : Valid f.world
  initial : l₀ <+: f.children
  proper : f.pass.Proper
  sound : f.pass.Sound l₀ f.children
  known : ∀ a b, (a, b) ∈ f.compared → a ∈ f.children ∧ b ∈ f.children ∧ a ≠ b
  once : f.compared.Nodup
  ahead : ∀ i j a b, f.children[i]? = some a → f.children[j]? = some b → f.pass.Ahead i j →
    (a, b) ∉ f.compared
  behind : ∀ i j a b, i < l₀.length → j < l₀.length → i ≠ j → f.children[i]? = some a →
    f.children[j]? = some b → f.pass.Behind i j → (a, b) ∈ f.compared

namespace Covering
variable {l₀ : List ι} {f f' : Frame ι κ π φ} {d : Detection π δ} {emitted : List (ι × ι)}
  {called : List (φ × ι)}

/-- In a list without repetitions a node stands at one index. -/
theorem index_unique {l : List ι} (nodup : l.Nodup) {i j : ℕ} {a : ι} (hi : l[i]? = some a)
    (hj : l[j]? = some a) : i = j := by
  obtain ⟨hi', rfl⟩ := List.getElem?_eq_some_iff.mp hi
  obtain ⟨hj', heq⟩ := List.getElem?_eq_some_iff.mp hj
  exact (nodup.getElem_inj_iff.mp heq).symm

/-- A comparison: the pair is new, and it is the one that comes to lie behind the pass. -/
theorem stepCompare (h : Covering l₀ f) {nA countA nB countB : ℕ} {lhs rhs : ι}
    (hpass : f.pass = .compare nA countA nB countB lhs rhs) :
    Covering l₀ { f with
      pass := .inner nA countA (nB + 1) countB
      compared := f.compared ++ [(lhs, rhs)]
      emitted := emitted
      called := called } := by
  have nodup := f.children_nodup
  have here := h.sound
  rw [hpass] at here
  obtain ⟨_, _, _, _, _, _, hne, hlhs, hrhs⟩ := here
  have hnext : f.pass.next f.children = .inner nA countA (nB + 1) countB := by
    rw [hpass]
    rfl
  have fresh : (lhs, rhs) ∉ f.compared := by
    apply h.ahead nA nB lhs rhs hlhs hrhs
    rw [hpass]
    exact Or.inr ⟨rfl, le_rfl⟩
  refine ⟨h.valid, h.initial, hnext ▸ h.proper.next, hnext ▸ h.sound.next h.initial, ?_, ?_, ?_, ?_⟩
  · intro a b hab
    rcases List.mem_append.mp hab with hab | hab
    · exact h.known a b hab
    · cases List.mem_singleton.mp hab
      refine ⟨List.mem_of_getElem? hlhs, List.mem_of_getElem? hrhs, ?_⟩
      rintro rfl
      exact hne (index_unique nodup hlhs hrhs)
  · exact List.nodup_append'.mpr ⟨h.once, List.nodup_singleton _, by simpa using fresh⟩
  · intro i j a b hi hj hahead hab
    have hahead' : f.pass.Ahead i j := PassState.Ahead.of_next (l := f.children) (hnext ▸ hahead)
    rcases List.mem_append.mp hab with hab | hab
    · exact h.ahead i j a b hi hj hahead' hab
    · cases List.mem_singleton.mp hab
      have := index_unique nodup hi hlhs
      have := index_unique nodup hj hrhs
      simp only [PassState.Ahead] at hahead
      omega
  · intro i j a b hi₀ hj₀ hij hi hj hbehind
    apply List.mem_append.mpr
    rcases PassState.Behind.of_next (l := f.children) h.sound hi₀ hj₀ hij (hnext ▸ hbehind) with
      hold | ⟨_, _, lhs', rhs', heq⟩
    · exact Or.inl (h.behind i j a b hi₀ hj₀ hij hi hj hold)
    · cases hpass.symm.trans heq
      cases hi.symm.trans hlhs
      cases hj.symm.trans hrhs
      exact Or.inr (List.mem_singleton.mpr rfl)

/-- A step of the pass that compares nothing. -/
theorem stepOn (h : Covering l₀ f)
    (hcompare : ∀ nA countA nB countB lhs rhs, f.pass ≠ .compare nA countA nB countB lhs rhs) :
    Covering l₀ { f with pass := f.pass.next f.children } := by
  refine ⟨h.valid, h.initial, h.proper.next, h.sound.next h.initial, h.known, h.once, ?_, ?_⟩
  · exact fun i j a b hi hj hahead => h.ahead i j a b hi hj hahead.of_next
  · intro i j a b hi₀ hj₀ hij hi hj hbehind
    rcases hbehind.of_next h.sound hi₀ hj₀ hij with hold | ⟨_, _, _, _, heq⟩
    · exact h.behind i j a b hi₀ hj₀ hij hi hj hold
    · exact absurd heq (hcompare _ _ _ _ _ _)

theorem stepPass (h : Covering l₀ f) (hstep : f.stepPass d = some f') : Covering l₀ f' := by
  rcases Frame.stepPass_cases hstep with
    ⟨nA, countA, nB, countB, lhs, rhs, hpass, rfl⟩ | ⟨hcompare, _, rfl⟩
  · rw [Frame.compare_eq]
    exact h.stepCompare hpass
  · exact h.stepOn hcompare

/-- A step of the rest of the app: new children are behind all others and in no pair so far. -/
theorem stepOther [DecidableEq ι] [DecidableEq κ] (h : Covering l₀ f)
    {a : FrameAction ι κ π φ} (ha : a ≠ .pass) (keeps : f.KeepsTop a)
    (hstep : f.step d a = some f') : Covering l₀ f' := by
  obtain ⟨hpass, hcompared, _, _⟩ := Frame.step_quiet ha hstep
  have hpre := Frame.children_grow h.valid keeps hstep
  have old : ∀ {i : ℕ} {x : ι}, f'.children[i]? = some x → x ∈ f.children →
      f.children[i]? = some x := by
    intro i x hi hx
    obtain ⟨i', hi'⟩ := List.getElem?_of_mem hx
    rwa [index_unique f'.children_nodup hi (PassState.getElem?_mono hpre hi')]
  refine ⟨Frame.step_valid h.valid hstep, h.initial.trans hpre, by rw [hpass]; exact h.proper,
    by rw [hpass]; exact h.sound.mono hpre, ?_, by rw [hcompared]; exact h.once, ?_, ?_⟩
  · rw [hcompared]
    intro a b hab
    obtain ⟨ha, hb, hne⟩ := h.known a b hab
    exact ⟨hpre.subset ha, hpre.subset hb, hne⟩
  · rw [hcompared, hpass]
    intro i j a b hi hj hahead hab
    obtain ⟨ha, hb, _⟩ := h.known a b hab
    exact h.ahead i j a b (old hi ha) (old hj hb) hahead hab
  · rw [hcompared, hpass]
    intro i j a b hi₀ hj₀ hij hi hj hbehind
    have inside : ∀ {i : ℕ} {x : ι}, i < l₀.length → f'.children[i]? = some x →
        f.children[i]? = some x := by
      intro i x hi₀ hi
      have hlt : i < f.children.length := hi₀.trans_le h.initial.length_le
      rw [PassState.getElem?_mono hpre (List.getElem?_eq_getElem hlt)] at hi
      rw [List.getElem?_eq_getElem hlt, hi]
    exact h.behind i j a b hi₀ hj₀ hij (inside hi₀ hi) (inside hj₀ hj) hbehind

/-- A pass that begins in a valid world covers the children that are there. -/
theorem begin {w : World ι κ} (h : Valid w) (simdPosition : ι → π) (callback : ι → Option φ) :
    Covering (Frame.begin w simdPosition callback).children
      (Frame.begin w simdPosition callback) where
  valid := h
  initial := List.prefix_refl _
  proper := trivial
  sound := trivial
  known := by simp [Frame.begin]
  once := List.nodup_nil
  ahead := by simp [Frame.begin]
  behind := by simp [Frame.begin, PassState.Behind]

variable [DecidableEq ι] [DecidableEq κ]

theorem step (h : Covering l₀ f) {a : FrameAction ι κ π φ} (keeps : f.KeepsTop a)
    (hstep : f.step d a = some f') : Covering l₀ f' := by
  cases a with
  | pass => exact h.stepPass hstep
  | _ => exact h.stepOther (by simp) keeps hstep

theorem run (h : Covering l₀ f) (run : Run (Frame.step d) Frame.KeepsTop f f') :
    Covering l₀ f' :=
  run.invariant h fun _ _ _ ht keeps hstep => ht.step keeps hstep

omit [LT δ] [DecidableLT δ] [DecidableEq ι] [DecidableEq κ] in
theorem in_range (h : Covering l₀ f) : f.pass ≠ .trapped := by
  intro htrap
  have sound := h.sound
  rw [htrap] at sound
  exact sound

omit [LT δ] [DecidableLT δ] [DecidableEq ι] [DecidableEq κ] in
/-- At the end all pairs of initial children lie behind the pass. -/
theorem complete (h : Covering l₀ f) (hdone : f.pass = .done) {a b : ι} (ha : a ∈ l₀)
    (hb : b ∈ l₀) (hne : a ≠ b) : (a, b) ∈ f.compared := by
  obtain ⟨i, hi⟩ := List.getElem?_of_mem ha
  obtain ⟨j, hj⟩ := List.getElem?_of_mem hb
  have hij : i ≠ j := by
    rintro rfl
    exact hne (Option.some.inj (hi.symm.trans hj))
  refine h.behind i j a b (List.getElem?_eq_some_iff.mp hi).1
    (List.getElem?_eq_some_iff.mp hj).1 hij (PassState.getElem?_mono h.initial hi)
    (PassState.getElem?_mono h.initial hj) ?_
  rw [hdone]
  trivial

end Covering

variable [DecidableEq ι] [DecidableEq κ]

namespace Frame

/-- A step that compares two nodes calls the detector that the first one has now with the second
if and only if their present positions are close; other steps neither compare nor call. -/
def Reports (d : Detection π δ) (f f' : Frame ι κ π φ) : Prop :=
  (∃ lhs rhs, lhs ≠ rhs ∧ f'.compared = f.compared ++ [(lhs, rhs)] ∧
    (d.simd_distance (f.simdPosition lhs) (f.simdPosition rhs) < d.collisionThreshold →
      f'.called =
        f.called ++ (f.collisionDetectionCallback lhs).toList.map fun cb => (cb, rhs)) ∧
    (¬ d.simd_distance (f.simdPosition lhs) (f.simdPosition rhs) < d.collisionThreshold →
      f'.called = f.called)) ∨
  f'.compared = f.compared ∧ f'.called = f.called

/-- What a pass that began with the children `l₀` guarantees at any moment. -/
structure Covers (d : Detection π δ) (l₀ : List ι) (f : Frame ι κ π φ) : Prop where
  in_range : f.pass ≠ .trapped
  enabled : f.pass ≠ .done → ∃ f', f.step d .pass = some f'
  other : ∀ a, (a, a) ∉ f.compared
  once : ∀ a b, f.compared.count (a, b) ≤ 1
  complete : f.pass = .done → ∀ a ∈ l₀, ∀ b ∈ l₀, a ≠ b → f.compared.count (a, b) = 1
  reports : ∀ a f', f.step d a = some f' → f.Reports d f'

end Frame

theorem Covering.reports {l₀ : List ι} {f f' : Frame ι κ π φ} {d : Detection π δ}
    (h : Covering l₀ f) {a : FrameAction ι κ π φ} (hstep : f.step d a = some f') :
    f.Reports d f' := by
  by_cases ha : a = .pass
  · subst ha
    rcases Frame.stepPass_cases (d := d) hstep with
      ⟨nA, countA, nB, countB, lhs, rhs, hpass, rfl⟩ | ⟨_, _, rfl⟩
    · have sound := h.sound
      rw [hpass] at sound
      obtain ⟨_, _, _, _, _, _, hne, hlhs, hrhs⟩ := sound
      refine Or.inl ⟨lhs, rhs, ?_, ?_, fun near => ?_, fun far => ?_⟩
      · rintro rfl
        exact hne (index_unique f.children_nodup hlhs hrhs)
      · rw [Frame.compare_eq]
      · rw [Frame.compare_eq]
        simp only [if_pos near]
      · rw [Frame.compare_eq]
        simp only [if_neg far]
    · exact Or.inr ⟨rfl, rfl⟩
  · obtain ⟨_, hcompared, _, hcalled⟩ := Frame.step_quiet ha hstep
    exact Or.inr ⟨hcompared, hcalled⟩

theorem Covering.covers {l₀ : List ι} {f : Frame ι κ π φ} {d : Detection π δ}
    (h : Covering l₀ f) : f.Covers d l₀ where
  in_range := h.in_range
  enabled hdone := Frame.stepPass_enabled d hdone h.in_range
  other a ha := (h.known a a ha).2.2 rfl
  once _ _ := List.nodup_iff_count_le_one.mp h.once _
  complete hdone _ ha _ hb hne := List.count_eq_one_of_mem h.once (h.complete hdone ha hb hne)
  reports _ _ hstep := h.reports hstep

/-- As long as the pass is not done, its steps leave less of it. -/
theorem Covering.rank_lt {l₀ : List ι} {f f' : Frame ι κ π φ} {d : Detection π δ}
    (h : Covering l₀ f) (hdone : f.pass ≠ .done) (hstep : f.step d .pass = some f') :
    f'.pass.rank < f.pass.rank := by
  rw [Frame.stepPass_pass hstep]
  exact PassState.rank_next h.proper hdone h.in_range

/-- A pass during which no top-level node is taken away uses no index out of range, compares no
node with itself and no pair twice, and, if it goes on taking steps, comes to an end, when it has
compared each pair of the nodes that were there at its beginning. -/
theorem pass_complete {root content : ι} (apart : root ≠ content) {w : World ι κ}
    (reach : Run World.stepOrCallback (fun _ _ => True) (.init root content) w)
    (d : Detection π δ) (simdPosition : ι → π) (callback : ι → Option φ) :
    (∀ f, Run (Frame.step d) Frame.KeepsTop (.begin w simdPosition callback) f →
      f.Covers d (Frame.begin w simdPosition callback).children) ∧
    ∀ (trace : ℕ → Frame ι κ π φ) (act : ℕ → FrameAction ι κ π φ),
      trace 0 = .begin w simdPosition callback →
      Trace (Frame.step d) Frame.KeepsTop trace act →
      (∀ i, ∃ j, i ≤ j ∧ (act j = .pass ∨ (trace j).pass = .done)) →
      ∃ j, (trace j).pass = .done := by
  have start := Covering.begin (World.valid_of_callbacks apart reach) simdPosition callback
  refine ⟨fun f run => (start.run run).covers, fun trace act hzero htrace fair => ?_⟩
  have covering : ∀ i, Covering (Frame.begin w simdPosition callback).children (trace i) :=
    fun i => start.run (hzero ▸ htrace.run i)
  have falls : ∀ j, act j = .pass → (trace j).pass ≠ .done →
      (trace (j + 1)).pass.rank < (trace j).pass.rank :=
    fun j hj hdone => (covering j).rank_lt hdone (hj ▸ (htrace j).2)
  refine eventually_of_descent wellFounded_lt (fun f => f.pass.rank) (fun f => f.pass = .done)
    trace (fun i => ?_) fun i => ?_
  · by_cases hact : act i = .pass
    · by_cases hdone : (trace i).pass = .done
      · have hstep := (htrace i).2
        rw [hact] at hstep
        simp only [Frame.step, Frame.stepPass, hdone] at hstep
        cases hstep
      · exact Or.inr (falls i hact hdone)
    · rw [(Frame.step_quiet hact (htrace i).2).1]
      exact Or.inl rfl
  · obtain ⟨j, hij, hact | hdone⟩ := fair i
    · by_cases hdone : (trace j).pass = .done
      · exact ⟨j, hij, Or.inl hdone⟩
      · exact ⟨j, hij, Or.inr (falls j hact hdone)⟩
    · exact ⟨j, hij, Or.inl hdone⟩

/-- The detector of `2` puts a third node into the scene when it is called with `3`. -/
theorem pass_complete_append : ∃ f : Frame ℕ ℕ ℕ ℕ, f.pass = .done ∧ f.children = [2, 3, 4] ∧
    f.compared = [(2, 3), (3, 2), (3, 4)] ∧ f.called = [(7, 3)] ∧ f.Covers onLine [2, 3] := by
  let callback : ℕ → Option ℕ := fun n => if n = 2 then some 7 else none
  obtain ⟨w, reach, hchildren, hpass⟩ := Run.exists_of_exec
    World.stepOrCallback (fun _ _ => True) (World.init 0 1 : World ℕ ℕ)
    [.inr (.node 2), .inr (.sceneAdd 2), .inr (.node 3), .inr (.sceneAdd 3)]
    (fun w => (Frame.begin w (fun _ => 0) callback).children = [2, 3] ∧
      (exec (Frame.step onLine) Frame.KeepsTop (Frame.begin w (fun _ => 0) callback)
        (List.replicate 6 .pass ++ [.callback (.node 4), .callback (.sceneAdd 4)] ++
          List.replicate 11 .pass)).any (fun f => decide (f.pass = .done ∧
            f.children = [2, 3, 4] ∧ f.compared = [(2, 3), (3, 2), (3, 4)] ∧
            f.called = [(7, 3)])) = true) (by decide)
  obtain ⟨f, run, hdone, hlater, hcompared, hcalled⟩ := Run.exists_of_exec
    (Frame.step onLine) Frame.KeepsTop _ _ (fun f => f.pass = .done ∧
      f.children = [2, 3, 4] ∧ f.compared = [(2, 3), (3, 2), (3, 4)] ∧ f.called = [(7, 3)]) hpass
  have covers := (pass_complete (by decide) reach onLine (fun _ => 0) callback).1 f run
  rw [hchildren] at covers
  exact ⟨f, hdone, hlater, hcompared, hcalled, covers⟩

end AstroAR
