import AstroAR.CollisionPass

/-!
# Changes to the scene while the collision pass runs

The pass uses indices below the counts that it has read, in lists that it reads
afterwards. Which lists it can cope with depends on where it is.
-/

namespace AstroAR

open Runs

universe u v w
variable {ι : Type u}

namespace PassState
variable {l : List ι} {s : PassState ι} {nA countA nB countB : ℕ}

/-- The pass can go on from its inner loop with the children `l`: if it has still to look at
some `nB`, the list is as long as both counts, and otherwise the outer loop can go on. -/
def InnerFits (l : List ι) (nA countA nB countB : ℕ) : Prop :=
  if ∃ j < countB, nB ≤ j ∧ j ≠ nA then countA ≤ l.length ∧ countB ≤ l.length
  else nA + 1 < countA → l = [] ∨ countA ≤ l.length

/-- The pass can go on with the children `l`. Between two turns of the outer loop they must be
none or as many as it counts up to; between its two reads of the list the node at `nB` must
moreover not be the one it has read already. -/
def Fits (l : List ι) : PassState ι → Prop
  | .start => True
  | .outer nA countA => nA < countA → l = [] ∨ countA ≤ l.length
  | .inner nA countA nB countB => InnerFits l nA countA nB countB
  | .readRhs nA countA nB countB lhs =>
    (∃ rhs ∈ l[nB]?, rhs ≠ lhs) ∧ InnerFits l nA countA (nB + 1) countB
  | .compare nA countA nB countB lhs rhs => lhs ≠ rhs ∧ InnerFits l nA countA (nB + 1) countB
  | .done => True
  | .trapped => False

instance : Decidable (InnerFits l nA countA nB countB) := by
  unfold InnerFits
  infer_instance

instance [DecidableEq ι] : Decidable (s.Fits l) :=
  match s with
  | .start | .done => isTrue trivial
  | .outer nA countA => inferInstanceAs (Decidable (nA < countA → l = [] ∨ countA ≤ l.length))
  | .inner nA countA nB countB => inferInstanceAs (Decidable (InnerFits l nA countA nB countB))
  | .readRhs nA countA nB countB lhs =>
    inferInstanceAs
      (Decidable ((∃ rhs ∈ l[nB]?, rhs ≠ lhs) ∧ InnerFits l nA countA (nB + 1) countB))
  | .compare nA countA nB countB lhs rhs =>
    inferInstanceAs (Decidable (lhs ≠ rhs ∧ InnerFits l nA countA (nB + 1) countB))
  | .trapped => isFalse id

theorem InnerFits.of_pending (fits : InnerFits l nA countA nB countB) {j : ℕ} (hj : j < countB)
    (hnB : nB ≤ j) (hne : j ≠ nA) : countA ≤ l.length ∧ countB ≤ l.length := by
  rwa [InnerFits, if_pos ⟨j, hj, hnB, hne⟩] at fits

theorem InnerFits.of_long (hA : countA ≤ l.length) (hB : countB ≤ l.length) :
    InnerFits l nA countA nB countB := by
  unfold InnerFits
  split_ifs
  · exact ⟨hA, hB⟩
  · exact fun _ => Or.inr hA

/-- Skipping the index of `lhs` changes nothing. -/
theorem innerFits_skip :
    InnerFits l nA countA (nA + 1) countB ↔ InnerFits l nA countA nA countB := by
  have same : (∃ j < countB, nA + 1 ≤ j ∧ j ≠ nA) ↔ ∃ j < countB, nA ≤ j ∧ j ≠ nA := by
    refine exists_congr fun j => and_congr_right fun _ => ?_
    omega
  simp only [InnerFits, same]

/-- At the end of the inner loop the outer one must be able to go on. -/
theorem innerFits_end (hB : countB ≤ nB) :
    InnerFits l nA countA nB countB ↔ (nA + 1 < countA → l = [] ∨ countA ≤ l.length) := by
  rw [InnerFits, if_neg]
  rintro ⟨j, hj, hnB, _⟩
  omega

/-- As long as nobody interferes, the pass keeps fitting the list. -/
theorem Fits.next (nodup : l.Nodup) (proper : s.Proper) (fits : s.Fits l) :
    (s.next l).Fits l := by
  cases s with
  | start => exact fun _ => Or.inr le_rfl
  | outer nA countA =>
    simp only [PassState.next]
    split
    · rename_i hA
      rcases fits hA with rfl | hlong
      · simp [Fits, InnerFits]
      · exact InnerFits.of_long hlong le_rfl
    · trivial
  | inner nA countA nB countB =>
    have hA : nA < countA := proper
    simp only [PassState.next]
    split_ifs with hB hne
    · obtain ⟨hlongA, hlongB⟩ := InnerFits.of_pending fits hB le_rfl (Ne.symm hne)
      rw [List.getElem?_eq_getElem (hA.trans_le hlongA)]
      refine ⟨⟨l[nB], List.getElem?_eq_getElem (hB.trans_le hlongB), fun heq => ?_⟩,
        InnerFits.of_long hlongA hlongB⟩
      exact hne ((nodup.getElem_inj_iff).mp heq.symm)
    · rw [not_not] at hne
      subst hne
      exact innerFits_skip.mpr fits
    · exact (innerFits_end (not_lt.mp hB)).mp fits
  | readRhs nA countA nB countB lhs =>
    obtain ⟨⟨rhs, hrhs, hne⟩, hinner⟩ := fits
    simp only [PassState.next, Option.mem_def.mp hrhs]
    exact ⟨Ne.symm hne, hinner⟩
  | compare nA countA nB countB lhs rhs => exact fits.2
  | done => trivial
  | trapped => exact fits

/-- The pass, left alone with the children `l`, neither traps nor compares a node with itself. -/
def RunsSafely (l : List ι) (s : PassState ι) : Prop :=
  ∀ k, (PassState.next l)^[k] s ≠ .trapped ∧
    ∀ nA countA nB countB n, (PassState.next l)^[k] s ≠ .compare nA countA nB countB n n

theorem RunsSafely.next (h : s.RunsSafely l) : (s.next l).RunsSafely l := by
  intro k
  rw [← Function.iterate_succ_apply]
  exact h (k + 1)

theorem Fits.runsSafely (nodup : l.Nodup) (proper : s.Proper) (fits : s.Fits l) :
    s.RunsSafely l := by
  intro k
  induction k generalizing s with
  | zero =>
    constructor
    · rintro rfl
      exact fits
    · rintro nA countA nB countB n rfl
      exact fits.1 rfl
  | succ k ih =>
    rw [Function.iterate_succ_apply]
    exact ih proper.next (fits.next nodup proper)

/-- A pass that fits the list after its next step fits it now, if it does not go wrong at once. -/
theorem Fits.of_next (proper : s.Proper) (safe : s.RunsSafely l) (fits : (s.next l).Fits l) :
    s.Fits l := by
  cases s with
  | start => trivial
  | outer nA countA =>
    intro hA
    simp only [PassState.next, if_pos hA] at fits
    rcases Nat.eq_zero_or_pos l.length with hzero | hpos
    · exact Or.inl (List.length_eq_zero_iff.mp hzero)
    · apply Or.inr
      simp only [Fits, InnerFits] at fits
      split_ifs at fits with hpending
      · exact fits.1
      · -- the only child is the one at `nA`
        have hnA : 0 = nA := by
          by_contra hne
          exact hpending ⟨0, hpos, le_rfl, hne⟩
        by_cases hlast : nA + 1 < countA
        · exact (fits hlast).resolve_left (List.length_pos_iff.mp hpos)
        · omega
  | inner nA countA nB countB =>
    simp only [PassState.next] at fits
    split_ifs at fits with hB hne
    · split at fits
      · rename_i lhs hlhs
        obtain ⟨⟨rhs, hrhs, _⟩, hinner⟩ := fits
        have hA := (List.getElem?_eq_some_iff.mp hlhs).1
        have hB' := (List.getElem?_eq_some_iff.mp (Option.mem_def.mp hrhs)).1
        unfold InnerFits at hinner
        split_ifs at hinner with hpending
        · exact InnerFits.of_long hinner.1 hinner.2
        · -- past `nB` only `nA` is left, and both are in range
          have hcountA : countA ≤ l.length := by
            by_cases hlast : nA + 1 < countA
            · exact (hinner hlast).resolve_left (List.ne_nil_of_length_pos (by omega))
            · omega
          apply InnerFits.of_long hcountA
          by_contra hlong
          exact hpending ⟨countB - 1, by omega, by omega, by omega⟩
      · exact fits.elim
    · rw [not_not] at hne
      subst hne
      exact innerFits_skip.mp fits
    · exact (innerFits_end (not_lt.mp hB)).mpr fits
  | readRhs nA countA nB countB lhs =>
    simp only [PassState.next] at fits
    split at fits
    · rename_i rhs hrhs
      exact ⟨⟨rhs, hrhs, fits.1.symm⟩, fits.2⟩
    · exact fits.elim
  | compare nA countA nB countB lhs rhs =>
    refine ⟨?_, fits⟩
    rintro rfl
    exact (safe 0).2 nA countA nB countB lhs rfl
  | done => trivial
  | trapped => exact fits

/-- The condition is exact: the pass fits the list if and only if, left alone with it, it goes
wrong nowhere. -/
theorem fits_iff_runsSafely (nodup : l.Nodup) (proper : s.Proper) :
    s.Fits l ↔ s.RunsSafely l := by
  refine ⟨Fits.runsSafely nodup proper, fun safe => ?_⟩
  obtain ⟨rank, hrank⟩ : ∃ rank, s.rank = rank := ⟨_, rfl⟩
  induction rank using WellFoundedLT.induction generalizing s with
  | _ rank ih =>
    subst hrank
    by_cases hdone : s = .done
    · subst hdone
      trivial
    · have htrap : s ≠ .trapped := (safe 0).1
      exact Fits.of_next proper safe
        (ih _ (rank_next proper hdone htrap) proper.next safe.next rfl)

end PassState

variable {κ : Type v} {π φ δ : Type w} [LT δ] [DecidableLT δ]

namespace Frame

theorem children_nodup (f : Frame ι κ π φ) : f.children.Nodup := by
  unfold children Node.children Scene.asNodes
  split
  · rename_i l hl
    split at hl
    · cases hl
      exact f.world.scene.graph.nodup _
    · cases hl
  · exact List.nodup_nil

variable [DecidableEq ι] [DecidableEq κ]

/-- What the rest of the app does leaves a list of children that the pass can go on with. -/
def Accommodates (d : Detection π δ) (f : Frame ι κ π φ) : FrameAction ι κ π φ → Prop
  | .pass => True
  | a => ∀ f' ∈ f.step d a, f'.pass.Fits f'.children

instance (d : Detection π δ) (f : Frame ι κ π φ) (a : FrameAction ι κ π φ) :
    Decidable (f.Accommodates d a) :=
  match a with
  | .pass => isTrue trivial
  | .app a => inferInstanceAs (Decidable (∀ f' ∈ f.step d (.app a), f'.pass.Fits f'.children))
  | .callback op =>
    inferInstanceAs (Decidable (∀ f' ∈ f.step d (.callback op), f'.pass.Fits f'.children))
  | .updatePosition n value =>
    inferInstanceAs (Decidable (∀ f' ∈ f.step d (.updatePosition n value),
      f'.pass.Fits f'.children))
  | .setCollisionDetector n cb =>
    inferInstanceAs (Decidable (∀ f' ∈ f.step d (.setCollisionDetector n cb),
      f'.pass.Fits f'.children))

/-- Only the pass moves the pass on and emits. -/
theorem step_quiet {d : Detection π δ} {f f' : Frame ι κ π φ} {a : FrameAction ι κ π φ}
    (ha : a ≠ .pass) (hstep : f.step d a = some f') :
    f'.pass = f.pass ∧ f'.compared = f.compared ∧ f'.emitted = f.emitted ∧
      f'.called = f.called := by
  cases a with
  | pass => contradiction
  | app a =>
    obtain ⟨w, _, rfl⟩ := Option.map_eq_some_iff.mp hstep
    exact ⟨rfl, rfl, rfl, rfl⟩
  | callback op =>
    obtain ⟨w, _, rfl⟩ := Option.map_eq_some_iff.mp hstep
    exact ⟨rfl, rfl, rfl, rfl⟩
  | updatePosition n value =>
    cases hstep
    exact ⟨rfl, rfl, rfl, rfl⟩
  | setCollisionDetector n cb =>
    cases hstep
    exact ⟨rfl, rfl, rfl, rfl⟩

end Frame

/-- The invariant of a pass that everybody accommodates. -/
structure Undisturbed (f : Frame ι κ π φ) : Prop where
  proper : f.pass.Proper
  fits : f.pass.Fits f.children
  apart : ∀ a b, (a, b) ∈ f.emitted → a ≠ b

theorem Undisturbed.stepPass {d : Detection π δ} {f f' : Frame ι κ π φ} (h : Undisturbed f)
    (hstep : f.stepPass d = some f') : Undisturbed f' := by
  have hchildren := Frame.stepPass_children hstep
  have proper : (f.pass.next f.children).Proper := h.proper.next
  have fits := h.fits.next f.children_nodup h.proper
  rcases Frame.stepPass_cases hstep with
    ⟨nA, countA, nB, countB, lhs, rhs, hpass, rfl⟩ | ⟨_, _, rfl⟩
  · rw [hpass] at proper fits
    refine ⟨proper, by rw [hchildren]; exact fits, fun a b hab => ?_⟩
    rw [Frame.compare_eq] at hab
    have hfits := h.fits
    rw [hpass] at hfits
    simp only at hab
    split_ifs at hab
    · rcases List.mem_append.mp hab with hab | hab
      · exact h.apart a b hab
      · cases List.mem_singleton.mp hab
        exact hfits.1
    · exact h.apart a b hab
  · exact ⟨proper, by rw [hchildren]; exact fits, h.apart⟩

variable [DecidableEq ι] [DecidableEq κ]

/-- If whatever happens between two steps of the pass leaves a list that it can go on with, then
no index is ever out of range and no node is reported to collide with itself. -/
theorem pass_safe {d : Detection π δ} {w : World ι κ} {simdPosition : ι → π}
    {callback : ι → Option φ} {f : Frame ι κ π φ}
    (run : Run (Frame.step d) (Frame.Accommodates d) (.begin w simdPosition callback) f) :
    f.pass ≠ .trapped ∧ ∀ a b, (a, b) ∈ f.emitted → a ≠ b := by
  have start : Undisturbed (Frame.begin w simdPosition callback) :=
    ⟨trivial, trivial, by simp [Frame.begin]⟩
  have h := run.invariant start fun t a u h hok hstep => by
    cases a with
    | pass => exact h.stepPass hstep
    | _ =>
      obtain ⟨hpass, _, hemitted, _⟩ := Frame.step_quiet (by simp) hstep
      exact ⟨by rw [hpass]; exact h.proper, hok u hstep, by rw [hemitted]; exact h.apart⟩
  refine ⟨fun htrap => ?_, h.apart⟩
  have fits := h.fits
  rw [htrap] at fits
  exact fits

/-- Positions on a line; two nodes collide when they are at the same place. -/
def onLine : Detection ℕ ℕ := ⟨fun p q => (p - q) + (q - p), 1⟩

/-- Two nodes are put into the scene. -/
def twoNodes : List (FrameAction ℕ ℕ ℕ ℕ) :=
  [.app (.node 2), .app (.addLookup 2), .app .addAppend, .app (.node 3), .app (.addLookup 3),
    .app .addAppend]

/-- A third node arrives during the pass, which then comes to its end and reports both pairs. -/
theorem pass_safe_append : ∃ f : Frame ℕ ℕ ℕ ℕ, f.pass = .done ∧ f.children = [2, 3, 4] ∧
    f.emitted = [(2, 3), (3, 2), (3, 4)] ∧ ∀ a b, (a, b) ∈ f.emitted → a ≠ b := by
  obtain ⟨f, run, hdone, hchildren, hemitted⟩ := Run.exists_of_exec
    (Frame.step onLine) (Frame.Accommodates onLine)
    (Frame.begin (World.init 0 1) (fun _ => 0) fun _ => none)
    (twoNodes ++ List.replicate 7 .pass ++
      [.app (.node 4), .app (.addLookup 4), .app .addAppend] ++ List.replicate 10 .pass)
    (fun f => f.pass = .done ∧ f.children = [2, 3, 4] ∧
      f.emitted = [(2, 3), (3, 2), (3, 4)]) (by decide)
  exact ⟨f, hdone, hchildren, hemitted, (pass_safe run).2⟩

/-- The scene is cleared between the reading of the counts and that of the first node. -/
theorem pass_traps : ¬ ∀ f : Frame ℕ ℕ ℕ ℕ, Run (Frame.step onLine) (fun _ _ => True)
    (.begin (World.init 0 1) (fun _ => 0) fun _ => none) f →
      f.pass ≠ .trapped ∧ ∀ a b, (a, b) ∈ f.emitted → a ≠ b := by
  intro claim
  obtain ⟨f, run, htrap⟩ := Run.exists_of_exec
    (Frame.step onLine) (fun _ _ => True)
    (Frame.begin (World.init 0 1) (fun _ => 0) fun _ => none)
    (twoNodes ++ [.pass, .pass, .pass, .app .removeSceneContent, .pass])
    (fun f : Frame ℕ ℕ ℕ ℕ => f.pass = .trapped) (by decide)
  exact (claim f run).1 htrap

end AstroAR
