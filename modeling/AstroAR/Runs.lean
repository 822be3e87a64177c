import Mathlib.Logic.Relation
import Mathlib.Order.WellFounded

/-!
# Runs of a guarded step function

A system is a function `step`: an action either has one successor state or is
refused. A run is restricted by a condition on each step, read in the state
before it, so that one induction serves every theorem about the steps that the
condition lets through.
-/

namespace Runs

universe u v w
variable {σ : Type u} {α : Type v}

/-- The states reached from `s` by steps that `ok` allows. -/
inductive Run (step : σ → α → Option σ) (ok : σ → α → Prop) (s : σ) : σ → Prop where
  | refl : Run step ok s s
  | snoc {t u : σ} {a : α} : Run step ok s t → ok t a → step t a = some u → Run step ok s u

variable {step : σ → α → Option σ} {ok ok' : σ → α → Prop} {s t u : σ}

/-- What holds at the start and is kept by every allowed step holds in every state of a run. -/
theorem Run.invariant {I : σ → Prop} (start : I s)
    (keeps : ∀ t a u, I t → ok t a → step t a = some u → I u)
    (run : Run step ok s t) : I t := by
  induction run with
  | refl => exact start
  | snoc _ hok hstep ih => exact keeps _ _ _ ih hok hstep

/-- A second invariant may use the states the run passes through. -/
theorem Run.invariant_along {I : σ → Prop} (start : I s)
    (keeps : ∀ t a u, Run step ok s t → I t → ok t a → step t a = some u → I u)
    (run : Run step ok s t) : I t := by
  induction run with
  | refl => exact start
  | snoc hrun hok hstep ih => exact keeps _ _ _ hrun ih hok hstep

theorem Run.mono (weaker : ∀ t a, ok t a → ok' t a) (run : Run step ok s t) :
    Run step ok' s t := by
  induction run with
  | refl => exact .refl
  | snoc _ hok hstep ih => exact .snoc ih (weaker _ _ hok) hstep

theorem Run.trans (first : Run step ok s t) (second : Run step ok t u) : Run step ok s u := by
  induction second with
  | refl => exact first
  | snoc _ hok hstep ih => exact .snoc ih hok hstep

/-- Perform a list of actions, refusing at the first one that `ok` or `step` refuses. -/
def exec (step : σ → α → Option σ) (ok : σ → α → Prop) [∀ s a, Decidable (ok s a)] (s : σ) :
    List α → Option σ
  | [] => some s
  | a :: rest => if ok s a then (step s a).bind (fun t => exec step ok t rest) else none

theorem Run.of_exec [∀ s a, Decidable (ok s a)] {acts : List α}
    (h : exec step ok s acts = some t) : Run step ok s t := by
  induction acts generalizing s with
  | nil =>
    cases h
    exact .refl
  | cons a rest ih =>
    simp only [exec] at h
    split at h
    · rename_i hok
      obtain ⟨m, hm, hrest⟩ := Option.bind_eq_some_iff.mp h
      exact (Run.snoc .refl hok hm).trans (ih hrest)
    · cases h

/-- A run on concrete actions, for a state of which something decidable is claimed. -/
theorem Run.exists_of_exec (step : σ → α → Option σ) (ok : σ → α → Prop)
    [∀ s a, Decidable (ok s a)] (s : σ) (acts : List α) (P : σ → Prop) [DecidablePred P]
    (h : (exec step ok s acts).any (fun t => decide (P t)) = true) :
    ∃ t, Run step ok s t ∧ P t := by
  obtain ⟨t, ht, hP⟩ := (Option.any_eq_true _ _).mp h
  exact ⟨t, Run.of_exec ht, of_decide_eq_true hP⟩

theorem Run.of_foldlM_of_mem {acts : List α} (allowed : ∀ s, ∀ a ∈ acts, ok s a)
    (h : acts.foldlM step s = some t) : Run step ok s t := by
  induction acts generalizing s with
  | nil =>
    cases h
    exact .refl
  | cons a rest ih =>
    rw [List.foldlM_cons] at h
    obtain ⟨m, hm, hrest⟩ := Option.bind_eq_some_iff.mp h
    have later := ih (fun s b hb => allowed s b (List.mem_cons_of_mem a hb)) hrest
    exact (Run.snoc .refl (allowed s a List.mem_cons_self) hm).trans later

theorem Run.of_foldlM {acts : List α} (h : acts.foldlM step s = some t) :
    Run step (fun _ _ => True) s t :=
  .of_foldlM_of_mem (fun _ _ _ => trivial) h

/-- A list of actions that change nothing. -/
theorem foldlM_fixed {l : List α} (fixed : ∀ a ∈ l, step s a = some s) :
    l.foldlM step s = some s := by
  induction l with
  | nil => rfl
  | cons a rest ih =>
    rw [List.foldlM_cons, fixed a List.mem_cons_self]
    exact ih fun b hb => fixed b (List.mem_cons_of_mem a hb)

/-- A coarser machine whose every step is a list of finer steps has only the finer runs. -/
theorem Run.refine {β : Type w} {coarse : σ → β → Option σ} {okc : σ → β → Prop}
    (expand : ∀ t b u, okc t b → coarse t b = some u → Run step ok t u)
    (run : Run coarse okc s t) : Run step ok s t := by
  induction run with
  | refl => exact .refl
  | snoc _ hok hstep ih => exact ih.trans (expand _ _ _ hok hstep)

section Shadow
variable {τ : Type w} {ref : σ → τ → α → τ}

/-- The machine `step` with a reference running beside it. The reference may read the state
before each step; the machine never reads the reference. -/
def shadow (step : σ → α → Option σ) (ref : σ → τ → α → τ) (s : σ × τ) (a : α) :
    Option (σ × τ) :=
  (step s.1 a).map fun t => (t, ref s.1 s.2 a)

theorem shadow_eq_some {s t : σ × τ} {a : α} :
    shadow step ref s a = some t ↔ step s.1 a = some t.1 ∧ ref s.1 s.2 a = t.2 := by
  simp only [shadow, Option.map_eq_some_iff]
  constructor
  · rintro ⟨t', ht, rfl⟩
    exact ⟨ht, rfl⟩
  · rintro ⟨ht, href⟩
    exact ⟨t.1, ht, Prod.ext rfl href⟩

/-- Without its reference, a run is a run of the machine. -/
theorem Run.of_shadow {y z : τ}
    (run : Run (shadow step ref) (fun s a => ok s.1 a) (s, y) (t, z)) : Run step ok s t := by
  suffices general : ∀ p : σ × τ, Run (shadow step ref) (fun s a => ok s.1 a) (s, y) p →
      Run step ok s p.1 from general (t, z) run
  intro p run
  induction run with
  | refl => exact .refl
  | snoc _ hok hstep ih => exact .snoc ih hok (shadow_eq_some.mp hstep).1

end Shadow

/-- An infinite run: at each moment the action `act` is performed. -/
def Trace (step : σ → α → Option σ) (ok : σ → α → Prop) (trace : Nat → σ) (act : Nat → α) :
    Prop :=
  ∀ i, ok (trace i) (act i) ∧ step (trace i) (act i) = some (trace (i + 1))

theorem Trace.run {trace : Nat → σ} {act : Nat → α} (h : Trace step ok trace act) (i : Nat) :
    Run step ok (trace 0) (trace i) := by
  induction i with
  | zero => exact .refl
  | succ i ih => exact .snoc ih (h i).1 (h i).2

/-- Along an infinite run in which a well-founded measure never rises, and in which from every
moment on either the goal comes or the measure falls again, the goal is reached. -/
theorem eventually_of_descent {β : Type w} {r : β → β → Prop} (wf : WellFounded r)
    (measure : σ → β) (goal : σ → Prop) (trace : Nat → σ)
    (quiet : ∀ i, measure (trace (i + 1)) = measure (trace i) ∨
      r (measure (trace (i + 1))) (measure (trace i)))
    (fair : ∀ i, ∃ j, i ≤ j ∧ (goal (trace j) ∨
      r (measure (trace (j + 1))) (measure (trace j)))) :
    ∃ j, goal (trace j) := by
  suffices h : ∀ b i, measure (trace i) = b → ∃ j, goal (trace j) from h _ 0 rfl
  intro b
  induction b using wf.induction with
  | _ b ih =>
    intro i hi
    obtain ⟨j, hij, hj⟩ := fair i
    by_cases same : measure (trace j) = b
    · rcases hj with hgoal | hfall
      · exact ⟨j, hgoal⟩
      · exact ih _ (same ▸ hfall) (j + 1) rfl
    · -- the measure has already fallen somewhere between `i` and `j`
      have fallen : ∃ m, r (measure (trace m)) b := by
        by_contra none
        push Not at none
        apply same
        clear hj
        induction j, hij using Nat.le_induction with
        | base => exact hi
        | succ m _ ihm =>
          have hm : measure (trace m) = b := by
            by_contra hne
            exact hne (ihm (fun h => hne h))
          rcases quiet m with heq | hlt
          · exact heq.trans hm
          · exact absurd (hm ▸ hlt) (none _)
      obtain ⟨m, hm⟩ := fallen
      exact ih _ hm m rfl

end Runs
