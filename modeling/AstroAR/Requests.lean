import AstroAR.ScriptIsolation

/-!
# What the scene shows after any requests

`runScript` clears what is shown, but not what `jsQueue` has still to add. A
script therefore shares the scene with the nodes of earlier scripts that were
waiting when it was requested. They are the only ones, whatever is requested
when; and without a further request both sides come to rest.
-/

namespace AstroAR

open Runs

universe u v

/-- The last call of `runScript`: the nodes that its script adds, none if the file cannot be
read, and those that earlier scripts had still to add when it began. -/
structure Request (ι : Type u) where
  source : List ι
  waiting : List ι

variable {ι : Type u} {κ : Type v}

def Request.none : Request ι := ⟨[], []⟩

def Request.next (e : Engine ι κ) (r : Request ι) : EngineAction ι → Request ι
  | .runScript call => ⟨call.source.getD [], e.jsQueue.flatten⟩
  | _ => r

/-- Every step but the request of a script. -/
def EngineAction.Quiet : EngineAction ι → Prop
  | .runScript _ => False
  | _ => True

variable [DecidableEq ι]

namespace Engine

/-- What a step can do. -/
inductive Stepped (e : Engine ι κ) : EngineAction ι → Engine ι κ → Prop where
  | runScript (call : ScriptCall ι) (idle : e.call = none) :
      Stepped e (.runScript call)
        { e with call := some (e.scene.childNodes e.scene.sceneContent, call) }
  | remove {n : ι} {rest : List ι} {call : ScriptCall ι} (hcall : e.call = some (n :: rest, call)) :
      Stepped e .remove
        { e with scene := e.scene.removeFromParentNode n, call := some (rest, call) }
  | finish {call : ScriptCall ι} {source : List ι} (hcall : e.call = some ([], call))
      (hsource : call.source = some source) :
      Stepped e .finish { e with jsQueue := e.jsQueue ++ [source], call := none, shown := source }
  | unreadable {call : ScriptCall ι} (hcall : e.call = some ([], call))
      (hsource : call.source = none) : Stepped e .finish { e with call := none }
  | add {n : ι} {rest : List ι} {later : List (List ι)}
      (hqueue : e.jsQueue = (n :: rest) :: later) :
      Stepped e .evaluate { e with scene := e.scene.add n, jsQueue := rest :: later }
  | ended {later : List (List ι)} (hqueue : e.jsQueue = [] :: later) :
      Stepped e .evaluate { e with jsQueue := later }

theorem stepped {e e' : Engine ι κ} {a : EngineAction ι} (h : e.step a = some e') :
    e.Stepped a e' := by
  cases a with
  | runScript call =>
    simp only [step] at h
    split at h
    · rename_i idle
      cases h
      exact .runScript call idle
    · cases h
  | remove =>
    simp only [step] at h
    split at h
    · rename_i hcall
      cases h
      exact .remove hcall
    · cases h
  | finish =>
    simp only [step] at h
    split at h
    · rename_i hcall
      split at h
      · rename_i hsource
        cases h
        exact .finish hcall hsource
      · rename_i hsource
        cases h
        exact .unreadable hcall hsource
    · cases h
  | evaluate =>
    simp only [step] at h
    split at h
    · rename_i hqueue
      cases h
      exact .add hqueue
    · rename_i hqueue
      cases h
      exact .ended hqueue
    · cases h

/-- Shown below `sceneContent`. -/
def Shows (e : Engine ι κ) (n : ι) : Prop :=
  n ∈ e.scene.graph.childNodes e.scene.sceneContent

/-- Still to be added. -/
def Waits (e : Engine ι κ) (n : ι) : Prop := n ∈ e.jsQueue.flatten

/-- Nothing that a clear is about to remove is also waiting to be added. -/
def Fresh (e : Engine ι κ) : EngineAction ι → Prop
  | .runScript _ => ∀ n ∈ e.jsQueue.flatten, n ∉ e.scene.graph.childNodes e.scene.sceneContent
  | _ => True

instance (e : Engine ι κ) (a : EngineAction ι) : Decidable (e.Fresh a) :=
  match a with
  | .runScript _ => inferInstanceAs (Decidable (∀ n ∈ e.jsQueue.flatten,
      n ∉ e.scene.graph.childNodes e.scene.sceneContent))
  | .remove | .finish | .evaluate => isTrue trivial

/-- The machine with its last request beside it. -/
def requested : Engine ι κ × Request ι → EngineAction ι → Option (Engine ι κ × Request ι) :=
  shadow step Request.next

/-- What is shown and what waits, between two requests and during one. -/
structure Bounded (e : Engine ι κ) (r : Request ι) : Prop where
  table : ∀ k, e.scene.importedModelsList k = none
  above : e.call = none → ∀ n, e.Shows n ∨ e.Waits n → n ∈ r.source ∨ n ∈ r.waiting
  below : e.call = none → ∀ n ∈ r.source, e.Shows n ∨ e.Waits n
  source : ∀ left call, e.call = some (left, call) → r.source = call.source.getD []
  during : ∀ left call, e.call = some (left, call) →
    (∀ n, e.Shows n → n ∈ left ∨ n ∈ r.waiting) ∧ ∀ n, e.Waits n → n ∈ r.waiting

/-- The nodes that were waiting at the last request are not lost. -/
structure Kept (e : Engine ι κ) (r : Request ι) : Prop where
  apart : ∀ left call, e.call = some (left, call) → ∀ n ∈ left, n ∉ r.waiting
  kept : ∀ n ∈ r.waiting, e.Shows n ∨ e.Waits n

section Moves
variable {e : Engine ι κ} {n x : ι} {rest : List ι} {later : List (List ι)}

theorem shows_remove {c : Option (List ι × ScriptCall ι)} :
    Shows { e with scene := e.scene.removeFromParentNode n, call := c } x ↔ e.Shows x ∧ x ≠ n :=
  Hierarchy.mem_detach

theorem shows_add {q : List (List ι)} (table : ∀ k, e.scene.importedModelsList k = none) :
    Shows { e with scene := e.scene.add n, jsQueue := q } x ↔ x = n ∨ e.Shows x :=
  mem_content_add table

theorem waits_add (hqueue : e.jsQueue = (n :: rest) :: later) : e.Waits x ↔
    x = n ∨ Waits { e with scene := e.scene.add n, jsQueue := rest :: later } x := by
  simp [Waits, hqueue]

omit [DecidableEq ι] in
theorem waits_ended (hqueue : e.jsQueue = [] :: later) :
    e.Waits x ↔ Waits { e with jsQueue := later } x := by
  simp [Waits, hqueue]

omit [DecidableEq ι] in
theorem waits_finish {source : List ι} :
    Waits { e with jsQueue := e.jsQueue ++ [source], call := none, shown := source } x ↔
      e.Waits x ∨ x ∈ source := by
  simp [Waits]

end Moves

omit [DecidableEq ι] in
/-- Once its clear is over, only what waited at the request is left. -/
theorem Bounded.left_over {e : Engine ι κ} {r : Request ι} (h : Bounded e r) {call : ScriptCall ι}
    (hcall : e.call = some ([], call)) : ∀ n, e.Shows n ∨ e.Waits n → n ∈ r.waiting := by
  obtain ⟨hshown, hwaits⟩ := h.during _ _ hcall
  rintro n (hn | hn)
  · exact (hshown n hn).resolve_left List.not_mem_nil
  · exact hwaits n hn

theorem Bounded.step {e e' : Engine ι κ} {r : Request ι} (h : Bounded e r) {a : EngineAction ι}
    (hstep : e.Stepped a e') : Bounded e' (Request.next e r a) := by
  cases hstep with
  | runScript call idle =>
    refine ⟨h.table, ?_, ?_, ?_, ?_⟩
    · rintro ⟨⟩
    · rintro ⟨⟩
    · rintro _ _ ⟨⟩
      rfl
    · rintro _ _ ⟨⟩
      exact ⟨fun n hn => Or.inl hn, fun n hn => hn⟩
  | @remove n rest call hcall =>
    obtain ⟨hshown, hwaits⟩ := h.during _ _ hcall
    refine ⟨h.table, ?_, ?_, ?_, ?_⟩
    · rintro ⟨⟩
    · rintro ⟨⟩
    · rintro _ _ ⟨⟩
      exact h.source _ _ hcall
    · rintro _ _ ⟨⟩
      refine ⟨fun x hx => ?_, hwaits⟩
      obtain ⟨hx, hne⟩ := shows_remove.mp hx
      rcases hshown x hx with hleft | hlate
      · exact Or.inl ((List.mem_cons.mp hleft).resolve_left hne)
      · exact Or.inr hlate
  | @finish call source hcall hsource =>
    have heq : r.source = source := by
      rw [h.source _ _ hcall, hsource]
      rfl
    refine ⟨h.table, fun _ n hn => ?_, fun _ n hn => ?_, ?_, ?_⟩
    · rcases hn with hn | hn
      · exact Or.inr (h.left_over hcall n (Or.inl hn))
      · rcases waits_finish.mp hn with hn | hn
        · exact Or.inr (h.left_over hcall n (Or.inr hn))
        · exact Or.inl (heq ▸ hn)
    · exact Or.inr (waits_finish.mpr (Or.inr (heq ▸ hn)))
    · rintro _ _ ⟨⟩
    · rintro _ _ ⟨⟩
  | unreadable hcall hsource =>
    have heq : r.source = [] := by
      rw [h.source _ _ hcall, hsource]
      rfl
    refine ⟨h.table, fun _ n hn => Or.inr (h.left_over hcall n hn), fun _ n hn => ?_, ?_, ?_⟩
    · cases heq ▸ hn
    · rintro _ _ ⟨⟩
    · rintro _ _ ⟨⟩
  | @add n rest later hqueue =>
    -- the node passes from the queue into the scene
    have hadded : e.Waits n := (waits_add hqueue).mpr (Or.inl rfl)
    refine ⟨fun k => ?_, fun hcall x hx => ?_, fun hcall x hx => ?_, h.source,
      fun left call hcall => ?_⟩
    · rw [add_of_empty h.table]
      exact h.table k
    · rcases hx with hx | hx
      · rcases (shows_add h.table).mp hx with rfl | hx
        · exact h.above hcall x (Or.inr hadded)
        · exact h.above hcall x (Or.inl hx)
      · exact h.above hcall x (Or.inr ((waits_add hqueue).mpr (Or.inr hx)))
    · rcases h.below hcall x hx with hx | hx
      · exact Or.inl ((shows_add h.table).mpr (Or.inr hx))
      · rcases (waits_add hqueue).mp hx with rfl | hx
        · exact Or.inl ((shows_add h.table).mpr (Or.inl rfl))
        · exact Or.inr hx
    · obtain ⟨hshown, hwaits⟩ := h.during left call hcall
      refine ⟨fun x hx => ?_, fun x hx => hwaits x ((waits_add hqueue).mpr (Or.inr hx))⟩
      rcases (shows_add h.table).mp hx with rfl | hx
      · exact Or.inr (hwaits x hadded)
      · exact hshown x hx
  | ended hqueue =>
    refine ⟨h.table, fun hcall x hx => ?_, fun hcall x hx => ?_, h.source,
      fun left call hcall => ?_⟩
    · exact h.above hcall x (hx.imp_right (waits_ended hqueue).mpr)
    · exact (h.below hcall x hx).imp_right (waits_ended hqueue).mp
    · obtain ⟨hshown, hwaits⟩ := h.during left call hcall
      exact ⟨hshown, fun x hx => hwaits x ((waits_ended hqueue).mpr hx)⟩

theorem Kept.step {e e' : Engine ι κ} {r : Request ι} (h : Kept e r)
    (table : ∀ k, e.scene.importedModelsList k = none) {a : EngineAction ι} (fresh : e.Fresh a)
    (hstep : e.Stepped a e') : Kept e' (Request.next e r a) := by
  cases hstep with
  | runScript call idle =>
    refine ⟨?_, fun n hn => Or.inr hn⟩
    rintro _ _ ⟨⟩ n hn hwaits
    exact fresh n hwaits hn
  | remove hcall =>
    refine ⟨?_, fun x hx => ?_⟩
    · rintro _ _ ⟨⟩ x hx
      exact h.apart _ _ hcall x (List.mem_cons_of_mem _ hx)
    · rcases h.kept x hx with hshown | hwaits
      · refine Or.inl (shows_remove.mpr ⟨hshown, ?_⟩)
        rintro rfl
        exact h.apart _ _ hcall x List.mem_cons_self hx
      · exact Or.inr hwaits
  | finish hcall hsource =>
    refine ⟨?_, fun x hx => (h.kept x hx).imp_right fun hx => waits_finish.mpr (Or.inl hx)⟩
    rintro _ _ ⟨⟩
  | unreadable hcall hsource =>
    refine ⟨?_, h.kept⟩
    rintro _ _ ⟨⟩
  | add hqueue =>
    refine ⟨h.apart, fun x hx => ?_⟩
    rcases h.kept x hx with hshown | hwaits
    · exact Or.inl ((shows_add table).mpr (Or.inr hshown))
    · rcases (waits_add hqueue).mp hwaits with rfl | hwaits
      · exact Or.inl ((shows_add table).mpr (Or.inl rfl))
      · exact Or.inr hwaits
  | ended hqueue =>
    exact ⟨h.apart, fun x hx => (h.kept x hx).imp_right (waits_ended hqueue).mp⟩

theorem bounded_of_run {root content : ι} (apart : root ≠ content) {p : Engine ι κ × Request ι}
    (run : Run requested (fun _ _ => True) (init root content, .none) p) : Bounded p.1 p.2 := by
  refine run.invariant (I := fun p => Bounded p.1 p.2) ⟨fun _ => rfl, fun _ n hn => ?_,
    fun _ n hn => ?_, fun _ _ => ?_, fun _ _ => ?_⟩ fun p a q h _ hstep => ?_
  · simp [Shows, Waits, init, Scene.init, Hierarchy.mem_attach, apart.symm] at hn
  · cases hn
  · rintro ⟨⟩
  · rintro ⟨⟩
  · obtain ⟨hstep, hnext⟩ := shadow_eq_some.mp hstep
    exact hnext ▸ h.step (stepped hstep)

/-- Whenever both sides have come to rest, the scene shows all that the script of the last request
added and, besides, only nodes that earlier scripts had still to add when it was requested. -/
theorem rest_shows {root content : ι} (apart : root ≠ content) {e : Engine ι κ} {r : Request ι}
    (run : Run requested (fun _ _ => True) (init root content, .none) (e, r))
    (drained : e.Drained) :
    (∀ n ∈ r.source, e.Shows n) ∧ ∀ n, e.Shows n → n ∈ r.source ∨ n ∈ r.waiting := by
  have h := bounded_of_run apart run
  refine ⟨fun n hn => ?_, fun n hn => h.above drained.2 n (Or.inl hn)⟩
  exact (h.below drained.2 n hn).resolve_right (by simp [Waits, drained.1])

/-- If no node waits to be added that a clear is about to remove, these are all shown: so the last
script has the scene for itself exactly if it adds again what was waiting at its request. -/
theorem rest_shows_exactly {root content : ι} (apart : root ≠ content) {e : Engine ι κ}
    {r : Request ι} (run : Run requested (fun p a => p.1.Fresh a) (init root content, .none) (e, r))
    (drained : e.Drained) :
    (∀ n, e.Shows n ↔ n ∈ r.source ∨ n ∈ r.waiting) ∧
      ((∀ n, e.Shows n ↔ n ∈ r.source) ↔ ∀ n ∈ r.waiting, n ∈ r.source) := by
  have h := bounded_of_run apart (run.mono fun _ _ _ => trivial)
  have kept : Kept e r := by
    refine run.invariant_along (I := fun p => Kept p.1 p.2) ⟨fun _ _ => ?_, fun n hn => ?_⟩
      fun p a q before h fresh hstep => ?_
    · rintro ⟨⟩
    · cases hn
    · have table := (bounded_of_run apart (before.mono fun _ _ _ => trivial)).table
      obtain ⟨hstep, hnext⟩ := shadow_eq_some.mp hstep
      exact hnext ▸ h.step table fresh (stepped hstep)
  have idle : ∀ n, ¬ e.Waits n := by simp [Waits, drained.1]
  have shows : ∀ n, e.Shows n ↔ n ∈ r.source ∨ n ∈ r.waiting := by
    refine fun n => ⟨fun hn => h.above drained.2 n (Or.inl hn), ?_⟩
    rintro (hn | hn)
    · exact (h.below drained.2 n hn).resolve_right (idle n)
    · exact (kept.kept n hn).resolve_right (idle n)
  refine ⟨shows, fun alone n hn => ?_, fun again n => ?_⟩
  · exact (alone n).mp ((shows n).mpr (Or.inr hn))
  · rw [shows n]
    exact ⟨fun hn => hn.elim id (again n), Or.inl⟩

/-- A script that is requested while two nodes of the one before have still to be added. -/
theorem rest_shows_exactly_waiting : ∃ (e : Engine ℕ ℕ) (r : Request ℕ),
    e.scene.childNodes 1 = [3, 4, 5] ∧ r.source = [5] ∧
      ((∀ n, e.Shows n ↔ n ∈ r.source ∨ n ∈ r.waiting) ∧
        ((∀ n, e.Shows n ↔ n ∈ r.source) ↔ ∀ n ∈ r.waiting, n ∈ r.source)) := by
  obtain ⟨⟨e, r⟩, run, drained, hnodes, hsource⟩ := Run.exists_of_exec
    requested (fun p a => p.1.Fresh a) ((init 0 1 : Engine ℕ ℕ), Request.none)
    [.runScript (.script [2, 3, 4]), .finish, .evaluate, .runScript (.script [5]), .evaluate,
      .remove, .finish, .evaluate, .evaluate, .evaluate, .evaluate]
    (fun p => p.1.Drained ∧ p.1.scene.childNodes 1 = [3, 4, 5] ∧ p.2.source = [5]) (by decide)
  exact ⟨e, r, hnodes, hsource, rest_shows_exactly (by decide) run drained⟩

/-- A file that cannot be read: the clear is made all the same. -/
theorem rest_shows_unreadable : ∃ (e : Engine ℕ ℕ) (r : Request ℕ),
    e.scene.childNodes 1 = [3] ∧ r.source = [] ∧
      ((∀ n ∈ r.source, e.Shows n) ∧ ∀ n, e.Shows n → n ∈ r.source ∨ n ∈ r.waiting) := by
  obtain ⟨⟨e, r⟩, run, drained, hnodes, hsource⟩ := Run.exists_of_exec
    requested (fun _ _ => True) ((init 0 1 : Engine ℕ ℕ), Request.none)
    [.runScript (.script [2, 3]), .finish, .evaluate, .runScript (.scriptPath none), .remove,
      .finish, .evaluate, .evaluate]
    (fun p => p.1.Drained ∧ p.1.scene.childNodes 1 = [3] ∧ p.2.source = []) (by decide)
  exact ⟨e, r, hnodes, hsource, rest_shows (by decide) run drained⟩

/-- The steps that remain if nothing more is requested. -/
def toDo (e : Engine ι κ) : ℕ :=
  e.jsQueue.flatten.length + e.jsQueue.length +
    match e.call with
    | none => 0
    | some (left, call) =>
      left.length + 1 + call.source.elim 0 fun source => source.length + 1

theorem toDo_step {e e' : Engine ι κ} {a : EngineAction ι} (quiet : a.Quiet)
    (hstep : e.Stepped a e') : e.toDo = e'.toDo + 1 := by
  cases hstep with
  | runScript => exact quiet.elim
  | remove hcall =>
    simp only [toDo, hcall, List.length_cons]
    omega
  | finish hcall hsource =>
    simp only [toDo, hcall, hsource, Option.elim_some, List.flatten_append,
      List.flatten_singleton, List.length_append, List.length_singleton, List.length_nil]
    omega
  | unreadable hcall hsource => simp [toDo, hcall, hsource]
  | add hqueue =>
    simp only [toDo, hqueue, List.flatten_cons, List.length_append, List.length_cons]
    omega
  | ended hqueue =>
    simp only [toDo, hqueue, List.flatten_cons, List.nil_append, List.length_cons]
    omega

omit [DecidableEq ι] in
theorem toDo_eq_zero {e : Engine ι κ} : e.toDo = 0 ↔ e.Drained := by
  rcases hcall : e.call with _ | ⟨left, call⟩ <;> rcases hqueue : e.jsQueue with _ | ⟨s, later⟩ <;>
    simp [toDo, Drained, hcall, hqueue]

/-- Whatever is under way can go on. -/
theorem exists_quiet {e : Engine ι κ} (busy : ¬ e.Drained) :
    ∃ a : EngineAction ι, a.Quiet ∧ ∃ e', e.step a = some e' := by
  rcases hcall : e.call with _ | ⟨_ | ⟨n, rest⟩, call⟩
  · rcases hqueue : e.jsQueue with _ | ⟨_ | ⟨n, rest⟩, later⟩
    · exact absurd ⟨hqueue, hcall⟩ busy
    · exact ⟨.evaluate, trivial, by simp [step, hqueue]⟩
    · exact ⟨.evaluate, trivial, by simp [step, hqueue]⟩
  · rcases hsource : call.source with _ | source
    · exact ⟨.finish, trivial, by simp [step, hcall, hsource]⟩
    · exact ⟨.finish, trivial, by simp [step, hcall, hsource]⟩
  · exact ⟨.remove, trivial, by simp [step, hcall]⟩

/-- Without a further request, in whatever order the two sides act, they come to rest after
exactly `toDo` steps, and until then one of them can act. -/
theorem settles {e e' : Engine ι κ} {acts : List (EngineAction ι)} (quiet : ∀ a ∈ acts, a.Quiet)
    (h : acts.foldlM step e = some e') : acts.length ≤ e.toDo ∧
      (e'.Drained ↔ acts.length = e.toDo) ∧
      (¬ e'.Drained → ∃ a : EngineAction ι, a.Quiet ∧ ∃ e'', e'.step a = some e'') := by
  have count : e.toDo = e'.toDo + acts.length := by
    induction acts generalizing e with
    | nil =>
      cases h
      rfl
    | cons a rest ih =>
      rw [List.foldlM_cons] at h
      obtain ⟨m, hm, hrest⟩ := Option.bind_eq_some_iff.mp h
      have first := toDo_step (quiet a List.mem_cons_self) (stepped hm)
      have later := ih (fun b hb => quiet b (List.mem_cons_of_mem a hb)) hrest
      rw [first, later, List.length_cons]
      omega
  refine ⟨by omega, ?_, exists_quiet⟩
  rw [← toDo_eq_zero]
  omega

/-- A queued script that begins while the next one is still being requested. -/
theorem settles_both : ∃ e e' : Engine ℕ ℕ, e.call.isSome ∧ e.toDo = 5 ∧
    [EngineAction.evaluate, .finish, .evaluate, .evaluate, .evaluate].foldlM step e = some e' ∧
      e'.Drained := by
  let e : Engine ℕ ℕ := { init 0 1 with jsQueue := [[2]], call := some ([], .script [3]) }
  obtain ⟨e', he'⟩ := Option.isSome_iff_exists.mp (by decide : ([EngineAction.evaluate, .finish,
    .evaluate, .evaluate, .evaluate].foldlM step e).isSome = true)
  exact ⟨e, e', rfl, rfl, he', (settles (by simp [EngineAction.Quiet]) he').2.1.mpr rfl⟩

end Engine

end AstroAR
