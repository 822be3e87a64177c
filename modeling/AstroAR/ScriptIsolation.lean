import AstroAR.Runs
import AstroAR.Scene

/-!
# Running one script after another

`Engine.runScript` clears the scene on the thread of its caller and queues the
evaluation of the script on `jsQueue`. The two run side by side: an evaluation
that was queued earlier may add its nodes after the clear, or between two turns
of the clear's loop. An evaluation is the list of the nodes that it passes to
`scene.add`.
-/

namespace AstroAR

open Runs

universe u v

/-- The two overloads of `runScript`. A path has the script that the file holds, or none if it
cannot be read. -/
inductive ScriptCall (ι : Type u) where
  | script (source : List ι)
  | scriptPath (contents : Option (List ι))

def ScriptCall.source {ι : Type u} : ScriptCall ι → Option (List ι)
  | .script source => some source
  | .scriptPath contents => contents

/-- `jsQueue` holds for each queued evaluation the nodes it has still to add; only the first can
be under way. `call` is the call of `runScript` that the caller is in, with the nodes its clear
has still to remove. `shown` is a history that no step reads: the nodes of the last call whose
source was available. -/
structure Engine (ι : Type u) (κ : Type v) where
  scene : Scene ι κ
  jsQueue : List (List ι)
  call : Option (List ι × ScriptCall ι)
  shown : List ι

inductive EngineAction (ι : Type u) where
  /-- `runScript` starts its clear with a reading of the children of `sceneContent` -/
  | runScript (call : ScriptCall ι)
  /-- one turn of the loop in `removeSceneContent` -/
  | remove
  /-- `runScript` reads the source, queues its evaluation and returns -/
  | finish
  /-- `jsQueue` adds a node, or ends an evaluation -/
  | evaluate

variable {ι : Type u} {κ : Type v} [DecidableEq ι]

namespace Engine

def init (root content : ι) : Engine ι κ where
  scene := Scene.init root content
  jsQueue := []
  call := none
  shown := []

def step (e : Engine ι κ) : EngineAction ι → Option (Engine ι κ)
  | .runScript call =>
    match e.call with
    | none => some { e with call := some (e.scene.childNodes e.scene.sceneContent, call) }
    | some _ => none
  | .remove =>
    match e.call with
    | some (n :: rest, call) =>
      some { e with scene := e.scene.removeFromParentNode n, call := some (rest, call) }
    | _ => none
  | .finish =>
    match e.call with
    | some ([], call) =>
      match call.source with
      | some source =>
        some { e with jsQueue := e.jsQueue ++ [source], call := none, shown := source }
      | none => some { e with call := none }
    | _ => none
  | .evaluate =>
    match e.jsQueue with
    | (n :: rest) :: later => some { e with scene := e.scene.add n, jsQueue := rest :: later }
    | [] :: later => some { e with jsQueue := later }
    | [] => none

/-- Nothing is left to do on either side. -/
def Drained (e : Engine ι κ) : Prop := e.jsQueue = [] ∧ e.call = none

instance (e : Engine ι κ) : Decidable e.Drained :=
  inferInstanceAs (Decidable (e.jsQueue = [] ∧ e.call = none))

/-- The scene shows what the last available script added, and nothing else. -/
def Isolated (e : Engine ι κ) : Prop :=
  ∀ n, n ∈ e.scene.graph.childNodes e.scene.sceneContent ↔ n ∈ e.shown

/-- A script is only requested if it adds again all that earlier ones have still to add, and a
file that cannot be read only while the scene shows nothing. -/
def InTurn (e : Engine ι κ) : EngineAction ι → Prop
  | .runScript call =>
    match call.source with
    | some source => ∀ n ∈ e.jsQueue.flatten, n ∈ source
    | none => e.scene.graph.childNodes e.scene.sceneContent = []
  | _ => True

instance (e : Engine ι κ) (a : EngineAction ι) : Decidable (e.InTurn a) := by
  cases a with
  | runScript call => unfold InTurn; dsimp only; split <;> infer_instance
  | _ => unfold InTurn; infer_instance

/-- Turn by turn, a clear with nothing in between is `removeSceneContent`. -/
theorem clear_alone (e : Engine ι κ) (call : ScriptCall ι) :
    Run step (fun _ a => a = .remove)
      { e with call := some (e.scene.childNodes e.scene.sceneContent, call) }
      { e with scene := e.scene.removeSceneContent, call := some ([], call) } := by
  have general : ∀ (l : List ι) (e : Engine ι κ), e.call = some (l, call) →
      Run step (fun _ a => a = .remove) e
        { e with
          scene := l.foldl Scene.removeFromParentNode e.scene
          call := some ([], call) } := by
    intro l
    induction l with
    | nil =>
      intro e he
      have heq : e = { e with call := some ([], call) } := by rw [← he]
      exact heq ▸ .refl
    | cons n rest ih =>
      intro e he
      have hstep : e.step .remove =
          some { e with scene := e.scene.removeFromParentNode n, call := some (rest, call) } := by
        simp [step, he]
      have first : Run step (fun _ a => a = .remove) e _ := .snoc .refl rfl hstep
      exact first.trans (ih _ rfl)
  exact general _ _ rfl

/-- What is shown and what is still to be added, for each stage of a call: together they are
what the last available script adds, once the nodes that a clear has yet to remove are left
out and those of the requested script are counted in. -/
def Accounted (e : Engine ι κ) : Prop :=
  match e.call with
  | none => ∀ n, (n ∈ e.scene.graph.childNodes e.scene.sceneContent ∨ n ∈ e.jsQueue.flatten) ↔
      n ∈ e.shown
  | some (left, call) =>
    match call.source with
    | some source =>
      (∀ n ∈ e.scene.graph.childNodes e.scene.sceneContent, n ∈ left ∨ n ∈ source) ∧
        ∀ n ∈ e.jsQueue.flatten, n ∈ source
    | none => left = [] ∧
      ∀ n, (n ∈ e.scene.graph.childNodes e.scene.sceneContent ∨ n ∈ e.jsQueue.flatten) ↔
        n ∈ e.shown

/-- The invariant: every shown node is accounted for, and no import has completed. -/
structure InOrder (e : Engine ι κ) : Prop where
  table : ∀ k, e.scene.importedModelsList k = none
  accounted : e.Accounted

/-- With an empty table `scene.add` only appends. -/
theorem add_of_empty {s : Scene ι κ} (table : ∀ k, s.importedModelsList k = none) (n : ι) :
    s.add n = s.addChildNode s.sceneContent n := by
  rcases Scene.addLookup_cases s n with ⟨heq, _⟩ | ⟨k, g, _, hlist, _⟩
  · simp only [Scene.add, heq]
    rfl
  · cases (table k).symm.trans hlist

theorem mem_content_add {s : Scene ι κ} (table : ∀ k, s.importedModelsList k = none) {n x : ι} :
    x ∈ (s.add n).graph.childNodes (s.add n).sceneContent ↔
      x = n ∨ x ∈ s.graph.childNodes s.sceneContent := by
  rw [add_of_empty table]
  change x ∈ (s.graph.attach s.sceneContent n).childNodes s.sceneContent ↔ _
  rw [Hierarchy.mem_attach]
  by_cases hx : x = n
  · simp [hx]
  · simp [hx]

namespace InOrder
variable {e e' : Engine ι κ}

omit [DecidableEq ι] in
theorem runScript (h : InOrder e) {call : ScriptCall ι} (turn : e.InTurn (.runScript call))
    (idle : e.call = none) :
    InOrder { e with call := some (e.scene.childNodes e.scene.sceneContent, call) } := by
  refine ⟨h.table, ?_⟩
  have accounted := h.accounted
  simp only [Accounted, idle] at accounted
  simp only [Accounted]
  simp only [InTurn] at turn
  cases hsource : call.source with
  | some source =>
    rw [hsource] at turn
    exact ⟨fun n hn => Or.inl hn, turn⟩
  | none =>
    rw [hsource] at turn
    exact ⟨turn, accounted⟩

theorem remove (h : InOrder e) {n : ι} {rest : List ι} {call : ScriptCall ι}
    (hcall : e.call = some (n :: rest, call)) :
    InOrder { e with scene := e.scene.removeFromParentNode n, call := some (rest, call) } := by
  refine ⟨h.table, ?_⟩
  have accounted := h.accounted
  simp only [Accounted, hcall] at accounted
  simp only [Accounted]
  cases hsource : call.source with
  | some source =>
    rw [hsource] at accounted
    refine ⟨fun x hx => ?_, accounted.2⟩
    obtain ⟨hx, hne⟩ := Hierarchy.mem_detach.mp hx
    rcases accounted.1 x hx with hleft | hsrc
    · exact Or.inl ((List.mem_cons.mp hleft).resolve_left hne)
    · exact Or.inr hsrc
  | none =>
    rw [hsource] at accounted
    cases accounted.1

omit [DecidableEq ι] in
theorem finish (h : InOrder e) {call : ScriptCall ι} (hcall : e.call = some ([], call)) :
    (∀ source, call.source = some source →
      InOrder { e with jsQueue := e.jsQueue ++ [source], call := none, shown := source }) ∧
    (call.source = none → InOrder { e with call := none }) := by
  have accounted := h.accounted
  simp only [Accounted, hcall] at accounted
  constructor
  · intro source hsource
    rw [hsource] at accounted
    refine ⟨h.table, fun n => ?_⟩
    simp only [List.flatten_append, List.flatten_singleton, List.mem_append]
    constructor
    · rintro (hn | hn | hn)
      · exact (accounted.1 n hn).resolve_left (by simp)
      · exact accounted.2 n hn
      · exact hn
    · exact fun hn => Or.inr (Or.inr hn)
  · intro hsource
    rw [hsource] at accounted
    exact ⟨h.table, accounted.2⟩

/-- A node passes from the queue into the scene. -/
theorem add (h : InOrder e) {n : ι} {rest : List ι} {later : List (List ι)}
    (hqueue : e.jsQueue = (n :: rest) :: later) :
    InOrder { e with scene := e.scene.add n, jsQueue := rest :: later } := by
  have hmem := fun x => mem_content_add h.table (n := n) (x := x)
  have hflat : ∀ x, x ∈ e.jsQueue.flatten ↔ x = n ∨ x ∈ (rest :: later).flatten := by
    intro x
    rw [hqueue]
    simp
  refine ⟨fun k => ?_, ?_⟩
  · rw [add_of_empty h.table]
    exact h.table k
  have accounted := h.accounted
  rcases hcall : e.call with _ | ⟨left, call⟩
  · simp only [Accounted, hcall] at accounted ⊢
    intro x
    rw [hmem, ← accounted x, hflat]
    tauto
  · simp only [Accounted, hcall] at accounted ⊢
    cases hsource : call.source with
    | some source =>
      rw [hsource] at accounted
      refine ⟨fun x hx => ?_, fun x hx => accounted.2 x ((hflat x).mpr (Or.inr hx))⟩
      rcases (hmem x).mp hx with rfl | hx
      · exact Or.inr (accounted.2 x ((hflat x).mpr (Or.inl rfl)))
      · exact accounted.1 x hx
    | none =>
      rw [hsource] at accounted
      refine ⟨accounted.1, fun x => ?_⟩
      rw [hmem, ← accounted.2 x, hflat]
      tauto

theorem step (h : InOrder e) {a : EngineAction ι} (turn : e.InTurn a)
    (hstep : e.step a = some e') : InOrder e' := by
  cases a with
  | runScript call =>
    simp only [Engine.step] at hstep
    split at hstep
    · rename_i hcall
      cases hstep
      exact h.runScript turn hcall
    · cases hstep
  | remove =>
    simp only [Engine.step] at hstep
    split at hstep
    · rename_i n rest call hcall
      cases hstep
      exact h.remove hcall
    · cases hstep
  | finish =>
    simp only [Engine.step] at hstep
    split at hstep
    · rename_i call hcall
      split at hstep
      · rename_i source hsource
        cases hstep
        exact (h.finish hcall).1 source hsource
      · rename_i hsource
        cases hstep
        exact (h.finish hcall).2 hsource
    · cases hstep
  | evaluate =>
    simp only [Engine.step] at hstep
    split at hstep
    · rename_i n rest later hqueue
      cases hstep
      exact h.add hqueue
    · rename_i later hqueue
      cases hstep
      refine ⟨h.table, ?_⟩
      have accounted := h.accounted
      simpa only [Accounted, hqueue, List.flatten_cons, List.nil_append] using accounted
    · cases hstep

end InOrder

/-- If every call is in turn, then whenever both sides have come to rest the children of
`sceneContent` are exactly the nodes that the last available script added. -/
theorem script_isolation {root content : ι} (apart : root ≠ content) {e : Engine ι κ}
    (run : Run step InTurn (init root content) e) (drained : e.Drained) : e.Isolated := by
  have start : InOrder (init root content : Engine ι κ) := by
    refine ⟨fun _ => rfl, fun n => ?_⟩
    simp [init, Scene.init, Hierarchy.mem_attach, apart.symm]
  have h := run.invariant start fun _ _ _ h turn hstep => h.step turn hstep
  have accounted := h.accounted
  simp only [Accounted, drained.2, drained.1] at accounted
  intro n
  rw [← accounted n]
  simp

/-- A script that starts while the scene still shows an earlier one, and replaces it. -/
theorem script_isolation_replaced : ∃ e : Engine ℕ ℕ, e.Isolated ∧
    e.shown = [4, 2] ∧ e.scene.childNodes 1 = [4, 2] := by
  obtain ⟨e, run, drained, hshown, hnodes⟩ := Run.exists_of_exec
    step InTurn (init 0 1 : Engine ℕ ℕ)
    [.runScript (.scriptPath none), .finish, .runScript (.script [2, 3]), .finish, .evaluate,
      .evaluate, .evaluate, .runScript (.scriptPath (some [4, 2])), .remove, .remove, .finish,
      .evaluate, .evaluate, .evaluate]
    (fun e => e.Drained ∧ e.shown = [4, 2] ∧ e.scene.childNodes 1 = [4, 2]) (by decide)
  exact ⟨e, script_isolation (by decide) run drained, hshown, hnodes⟩

/-- Two scripts requested before the first is evaluated: both clears come first, and then both
scripts are shown. -/
theorem scripts_mixed : ¬ ∀ e : Engine ℕ ℕ, Run step (fun _ _ => True) (init 0 1) e →
    e.Drained → e.Isolated := by
  intro claim
  obtain ⟨e, run, drained, hshown, hcontent, hin⟩ := Run.exists_of_exec
    step (fun _ _ => True) (init 0 1 : Engine ℕ ℕ)
    [.runScript (.script [2]), .finish, .runScript (.script [3]), .finish, .evaluate, .evaluate,
      .evaluate, .evaluate]
    (fun e => e.Drained ∧ e.shown = [3] ∧ e.scene.sceneContent = 1 ∧
      2 ∈ e.scene.graph.childNodes 1) (by decide)
  have hshow := (claim e run drained 2).mp (hcontent ▸ hin)
  rw [hshown] at hshow
  exact absurd hshow (by decide)

end Engine

end AstroAR
