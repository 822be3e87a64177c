import AstroAR.Publishing
import AstroAR.Requests

/-!
# The app from a published script to the nodes on the screen

The whole service: authors publish, the app shows one view controller over the
other and never takes one away, and the engine runs what each `MainVC` asks
for. Authors and the database, the main thread and `jsQueue` take their steps in
any order. What a text adds when it is evaluated is a relation, since each
evaluation makes nodes of its own; the script of the SDK adds none.
-/

namespace AstroAR

open LastWrite Runs

universe u v w

/-- How far the view of a `MainVC` has got. -/
inductive Stage where
  | presented
  | loaded
  | appeared
deriving DecidableEq

/-- A view controller on the screen or behind others. `row` is a history that no step reads: the
token in the row that opened the `MainVC`. A `ScriptVC` keeps the number of its requests that the
database has not answered, and the answers that it has not received. -/
inductive Screen (κ : Type v) where
  | main (scriptToExecute : Option String) (row : Option String) (stage : Stage)
  | script (vc : ScriptVC) (requests : ℕ) (replies : List (List (DataSnapshot κ)))

/-- `screens` has the view controller in front first. `published` and `request` are histories that
no step reads. `ρ` has the keys of imported models. -/
structure App (ι : Type u) (κ : Type v) (ρ : Type w) where
  database : List (DataSnapshot κ)
  published : List Publish
  screens : List (Screen κ)
  engine : Engine ι ρ
  request : Request ι

inductive AppAction (ι : Type u) (κ : Type v) where
  /-- `publishCallback` in some editor -/
  | publish (key : κ) (random : Draw) (text : String)
  /-- the database answers a request of the `ScriptVC` at a place of `screens` -/
  | answer (place : ℕ)
  /-- the closure of `requestScriptsFromDatabase` receives an answer -/
  | receive (place : ℕ)
  | viewDidLoad
  /-- `nodes` is what the evaluation of `scriptToExecute` will add -/
  | viewDidAppear (nodes : List ι)
  | presentScriptVC
  | handleRefresh
  /-- `keys` is the order in which the dictionary gives its keys -/
  | didSelectRowAt (keys : List String) (row : ℕ)
  | didTapBackButton
  /-- a step of a clear, of the end of `runScript` or of `jsQueue` -/
  | engine (a : EngineAction ι)

namespace App
variable {ι : Type u} {κ : Type v} {ρ : Type w}

/-- The evaluation of `sdk.js`, which defines `console` and adds nothing. -/
def sdk : ScriptCall ι := .scriptPath (some [])

/-- The app after its launch: the storyboard begins with a `MainVC` without a script. -/
def init [DecidableEq ι] (root content : ι) : App ι κ ρ where
  database := []
  published := []
  screens := [.main none none .presented]
  engine := Engine.init root content
  request := .none

/-- `show`, which puts a view controller in front of the others. -/
def present (s : App ι κ ρ) (screen : Screen κ) : App ι κ ρ :=
  { s with screens := screen :: s.screens }

/-- The main thread is in no call of `runScript`. -/
def Idle (s : App ι κ ρ) : Prop := s.engine.call = none

instance (s : App ι κ ρ) : Decidable s.Idle :=
  inferInstanceAs (Decidable (s.engine.call = none))

variable [DecidableEq ι]

def runEngine (s : App ι κ ρ) (a : EngineAction ι) : Option (App ι κ ρ) :=
  (Engine.requested (s.engine, s.request) a).map fun p =>
    { s with engine := p.1, request := p.2 }

def step [LinearOrder κ] (s : App ι κ ρ) : AppAction ι κ → Option (App ι κ ρ)
  | .publish key random text =>
    if ∀ child ∈ s.database, child.key ≠ key then
      some { s with
        database := s.database.orderedInsert (fun a b => a.key ≤ b.key)
          ⟨key, .record (Editor.token random) text⟩
        published := ⟨random, text⟩ :: s.published }
    else none
  | .answer place =>
    match s.screens[place]? with
    | some (.script vc (requests + 1) replies) =>
      some { s with
        screens := s.screens.set place (.script vc requests (replies ++ [s.database])) }
    | _ => none
  | .receive place =>
    if s.Idle then
      match s.screens[place]? with
      | some (.script vc requests (snapshot :: replies)) =>
        some { s with
          screens := s.screens.set place
            (.script (vc.requestScriptsFromDatabase snapshot) requests replies) }
      | _ => none
    else none
  | .viewDidLoad =>
    match s.screens with
    | .main scriptToExecute row .presented :: behind =>
      { s with screens := .main scriptToExecute row .loaded :: behind }.runEngine (.runScript sdk)
    | _ => none
  | .viewDidAppear nodes =>
    match s.screens with
    | .main (some text) row .loaded :: behind =>
      { s with screens := .main (some text) row .appeared :: behind }.runEngine
        (.runScript (.script nodes))
    | .main none row .loaded :: behind =>
      if s.Idle then some { s with screens := .main none row .appeared :: behind } else none
    | _ => none
  | .presentScriptVC =>
    if s.Idle then
      match s.screens with
      | .main _ _ .appeared :: _ => some (s.present (.script ScriptVC.init 1 []))
      | _ => none
    else none
  | .handleRefresh =>
    if s.Idle then
      match s.screens with
      | .script vc requests replies :: behind =>
        some { s with screens := .script vc (requests + 1) replies :: behind }
      | _ => none
    else none
  | .didSelectRowAt keys row =>
    if s.Idle then
      match s.screens with
      | .script vc _ _ :: _ =>
        if h : keys.Nodup ∧ keys.toFinset = vc.scripts.keys then
          let order : KeyOrder vc.scripts := ⟨keys, h.1, fun token => by
            rw [← List.mem_toFinset, h.2, Finmap.mem_keys]⟩
          (ScriptVC.didSelectRowAt order row).map fun value =>
            s.present (.main value (ScriptVC.cellForRowAt order row) .presented)
        else none
      | _ => none
    else none
  | .didTapBackButton =>
    if s.Idle then
      match s.screens with
      | .script _ _ _ :: _ => some (s.present (.main none none .presented))
      | _ => none
    else none
  | .engine a =>
    match a with
    | .runScript _ => none
    | .remove | .finish | .evaluate => s.runEngine a

/-- The script, the row and the stage of the foremost `MainVC` whose view has loaded. -/
def current : List (Screen κ) → Option (Option String × Option String × Stage)
  | [] => none
  | .main _ _ .presented :: behind => current behind
  | .main scriptToExecute row stage :: _ => some (scriptToExecute, row, stage)
  | .script _ _ _ :: behind => current behind

theorem current_set {screens : List (Screen κ)} {place : ℕ} {vc vc' : ScriptVC}
    {requests requests' : ℕ} {replies replies' : List (List (DataSnapshot κ))}
    (h : screens[place]? = some (.script vc requests replies)) :
    current (screens.set place (.script vc' requests' replies')) = current screens := by
  induction screens generalizing place with
  | nil => rfl
  | cons screen behind ih =>
    cases place with
    | zero =>
      cases h
      rfl
    | succ place =>
      have hbehind := ih h
      match screen with
      | .main _ _ .presented | .script _ _ _ => exact hbehind
      | .main _ _ .loaded | .main _ _ .appeared => rfl

theorem current_mem {screens : List (Screen κ)} {scriptToExecute row : Option String}
    {stage : Stage} (h : current screens = some (scriptToExecute, row, stage)) :
    .main scriptToExecute row stage ∈ screens := by
  induction screens with
  | nil => cases h
  | cons screen behind ih =>
    match screen with
    | .main _ _ .presented | .script _ _ _ => exact List.mem_cons_of_mem _ (ih h)
    | .main _ _ .loaded | .main _ _ .appeared =>
      cases h
      exact List.mem_cons_self

/-- What the last request asked for: the script of the current `MainVC` once its view has
appeared, and before that the SDK. -/
def Asked (adds : String → List ι → Prop) (screens : List (Screen κ)) (source : List ι) : Prop :=
  match current screens with
  | some (some text, _, .appeared) => adds text source
  | _ => source = []

/-- A script evaluates to nodes that its text can add. -/
def Evaluates (adds : String → List ι → Prop) (s : App ι κ ρ) : AppAction ι κ → Prop
  | .viewDidAppear nodes =>
    match s.screens with
    | .main (some text) _ .loaded :: _ => adds text nodes
    | _ => True
  | _ => True

instance {adds : String → List ι → Prop} [∀ text nodes, Decidable (adds text nodes)]
    (s : App ι κ ρ) (a : AppAction ι κ) : Decidable (s.Evaluates adds a) := by
  cases a with
  | viewDidAppear nodes => unfold Evaluates; dsimp only; split <;> infer_instance
  | _ => unfold Evaluates; infer_instance

/-- The table of a `ScriptVC` and what is on its way to it. -/
def ReadsFrom (database : List (DataSnapshot κ)) (published : List Publish) (vc : ScriptVC)
    (replies : List (List (DataSnapshot κ))) : Prop :=
  Service.Filed ⟨database, vc, published⟩ ∧ ∀ reply ∈ replies, reply ⊆ database

/-- A `MainVC` was opened without a script, or through a row with a published one. -/
def OpenedFor (published : List Publish) (scriptToExecute row : Option String) : Prop :=
  (scriptToExecute = none ∧ row = none) ∨
    ∃ p ∈ published, scriptToExecute = some p.text ∧ row = some (Editor.token p.draw)

def WellMade (database : List (DataSnapshot κ)) (published : List Publish) : Screen κ → Prop
  | .main scriptToExecute row _ => OpenedFor published scriptToExecute row
  | .script vc _ replies => ReadsFrom database published vc replies

/-- The invariant of the app. -/
structure Sound (adds : String → List ι → Prop) (s : App ι κ ρ) : Prop where
  bounded : Engine.Bounded s.engine s.request
  asked : Asked adds s.screens s.request.source
  filed : Service.Filed ⟨s.database, ScriptVC.init, s.published⟩
  screens : ∀ screen ∈ s.screens, WellMade s.database s.published screen

section Filed
variable {database : List (DataSnapshot κ)} {published : List Publish} {vc : ScriptVC}

/-- An answer may be older than the database: it is part of it all the same. -/
theorem filed_receive [LinearOrder κ] (h : Service.Filed ⟨database, vc, published⟩)
    {snapshot : List (DataSnapshot κ)} (sub : snapshot ⊆ database) :
    Service.Filed ⟨database, vc.requestScriptsFromDatabase snapshot, published⟩ := by
  obtain ⟨earlier, hsub, hscripts⟩ := h.received
  refine ⟨h.filed, h.published, earlier ++ snapshot, List.append_subset.mpr ⟨hsub, sub⟩, ?_⟩
  change vc.scripts = _ at hscripts
  rw [ScriptVC.request_scripts, hscripts, putAll, putAll, putAll, List.foldl_append]

/-- Every text in the table was published under its token. -/
theorem filed_lookup [LinearOrder κ] (h : Service.Filed ⟨database, vc, published⟩)
    {token text : String} (hlookup : vc.scripts.lookup token = some text) :
    ∃ p ∈ published, text = p.text ∧ token = Editor.token p.draw := by
  obtain ⟨earlier, hsub, hscripts⟩ := h.received
  change vc.scripts = _ at hscripts
  rw [hscripts, lookup_putAll, Finmap.lookup_empty, Option.or_none] at hlookup
  obtain ⟨child, hchild, hwrite⟩ := lastWrite_mem hlookup
  obtain ⟨p, hp, hvalue⟩ := h.published child (hsub hchild)
  obtain ⟨key, value⟩ := child
  subst hvalue
  rw [Service.scriptOf_record] at hwrite
  simp only [Option.some.injEq, Prod.mk.injEq] at hwrite
  exact ⟨p, hp, hwrite.2.symm, hwrite.1.symm⟩

/-- A row hands over the text of the token in it. -/
theorem selected {order : KeyOrder vc.scripts} {row : ℕ} {value : Option String}
    (h : ScriptVC.didSelectRowAt order row = some value) : ∃ token text, value = some text ∧
      ScriptVC.cellForRowAt order row = some token ∧ vc.scripts.lookup token = some text := by
  obtain ⟨token, htoken, rfl⟩ := Option.map_eq_some_iff.mp h
  obtain ⟨text, htext⟩ :=
    Finmap.mem_iff.mp ((order.mem_keys token).mp (List.mem_of_getElem? htoken))
  exact ⟨token, text, htext, htoken, htext⟩

theorem WellMade.publish [LinearOrder κ] {screen : Screen κ}
    (h : WellMade database published screen) {key : κ}
    (fresh : ∀ child ∈ database, child.key ≠ key) (random : Draw) (text : String) :
    WellMade (database.orderedInsert (fun a b => a.key ≤ b.key)
      ⟨key, .record (Editor.token random) text⟩) (⟨random, text⟩ :: published) screen := by
  cases screen with
  | main scriptToExecute row stage =>
    rcases h with hnone | ⟨p, hp, heq⟩
    · exact Or.inl hnone
    · exact Or.inr ⟨p, List.mem_cons_of_mem _ hp, heq⟩
  | script vc requests replies =>
    refine ⟨h.1.step (Service.step_publish key fresh random text), fun reply hreply => ?_⟩
    exact fun child hchild => (List.mem_orderedInsert _).mpr (Or.inr (h.2 reply hreply hchild))

end Filed

section Step
variable {adds : String → List ι → Prop} {s s' : App ι κ ρ}

theorem Sound.runEngine (h : Sound adds s) {a : EngineAction ι} (quiet : a.Quiet)
    (hstep : s.runEngine a = some s') : Sound adds s' := by
  obtain ⟨p, hp, rfl⟩ := Option.map_eq_some_iff.mp hstep
  obtain ⟨hengine, hrequest⟩ := shadow_eq_some.mp hp
  refine ⟨hrequest ▸ h.bounded.step (Engine.stepped hengine), ?_, h.filed, h.screens⟩
  have same : p.2 = s.request := by
    rw [← hrequest]
    cases a with
    | runScript => exact quiet.elim
    | remove | finish | evaluate => rfl
  change Asked adds s.screens p.2.source
  rw [same]
  exact h.asked

omit [DecidableEq ι] in
/-- A screen is put in front or in the place of another, and the engine does not move. -/
theorem Sound.show (h : Sound adds s) {screens : List (Screen κ)}
    (same : current screens = current s.screens)
    (made : ∀ screen ∈ screens, screen ∈ s.screens ∨ WellMade s.database s.published screen) :
    Sound adds { s with screens := screens } := by
  refine ⟨h.bounded, ?_, h.filed, fun screen hscreen => ?_⟩
  · have hasked := h.asked
    unfold Asked at hasked ⊢
    rwa [same]
  · exact (made screen hscreen).elim (h.screens screen) id

omit [DecidableEq ι] in
theorem Sound.publish [LinearOrder κ] (h : Sound adds s) {key : κ}
    (fresh : ∀ child ∈ s.database, child.key ≠ key) (random : Draw) (text : String) :
    Sound adds { s with
      database := s.database.orderedInsert (fun a b => a.key ≤ b.key)
        ⟨key, .record (Editor.token random) text⟩
      published := ⟨random, text⟩ :: s.published } where
  bounded := h.bounded
  asked := h.asked
  filed := h.filed.step (Service.step_publish key fresh random text)
  screens := fun screen hscreen => (h.screens screen hscreen).publish fresh random text

omit [DecidableEq ι] in
/-- The answers that a `ScriptVC` waits for or receives are parts of the database. -/
theorem Sound.reply (h : Sound adds s) {place : ℕ} {vc vc' : ScriptVC}
    {requests requests' : ℕ} {replies replies' : List (List (DataSnapshot κ))}
    (hget : s.screens[place]? = some (.script vc requests replies))
    (reads : ReadsFrom s.database s.published vc replies →
      ReadsFrom s.database s.published vc' replies') :
    Sound adds { s with screens := s.screens.set place (.script vc' requests' replies') } := by
  refine h.show (current_set hget) fun screen hscreen => ?_
  rcases List.mem_or_eq_of_mem_set hscreen with hscreen | rfl
  · exact Or.inl hscreen
  · exact Or.inr (reads (h.screens _ (List.mem_of_getElem? hget)))

/-- The view of a `MainVC` loads or appears, and asks the engine for a script. -/
theorem Sound.advance (h : Sound adds s) {scriptToExecute row : Option String}
    {stage stage' : Stage} {behind : List (Screen κ)} {call : ScriptCall ι}
    (hscreens : s.screens = .main scriptToExecute row stage :: behind)
    (hstep : { s with screens := .main scriptToExecute row stage' :: behind }.runEngine
      (.runScript call) = some s')
    (asked : Asked adds (.main scriptToExecute row stage' :: behind) (call.source.getD [])) :
    Sound adds s' := by
  obtain ⟨p, hp, rfl⟩ := Option.map_eq_some_iff.mp hstep
  obtain ⟨hengine, hrequest⟩ := shadow_eq_some.mp hp
  refine ⟨hrequest ▸ h.bounded.step (Engine.stepped hengine), ?_, h.filed, ?_⟩
  · change Asked adds _ p.2.source
    rw [← hrequest]
    exact asked
  · intro screen hscreen
    rcases List.mem_cons.mp hscreen with rfl | hscreen
    · have hmain : .main scriptToExecute row stage ∈ s.screens := hscreens ▸ List.mem_cons_self
      have made := h.screens _ hmain
      exact made
    · exact h.screens screen (hscreens ▸ List.mem_cons_of_mem _ hscreen)

theorem Sound.step [LinearOrder κ] (h : Sound adds s) {a : AppAction ι κ}
    (evaluates : s.Evaluates adds a) (hstep : s.step a = some s') : Sound adds s' := by
  cases a with
  | publish key random text =>
    simp only [App.step] at hstep
    split at hstep
    · rename_i fresh
      cases hstep
      exact h.publish fresh random text
    · cases hstep
  | answer place =>
    simp only [App.step] at hstep
    split at hstep
    · rename_i vc requests replies hget
      cases hstep
      refine h.reply hget fun reads => ⟨reads.1, fun reply hreply => ?_⟩
      rcases List.mem_append.mp hreply with hreply | hreply
      · exact reads.2 reply hreply
      · cases List.mem_singleton.mp hreply
        exact List.Subset.refl _
    · cases hstep
  | receive place =>
    simp only [App.step] at hstep
    split at hstep
    · split at hstep
      · rename_i vc requests snapshot replies hget
        cases hstep
        refine h.reply hget fun reads => ⟨?_, fun reply hreply => ?_⟩
        · exact filed_receive reads.1 (reads.2 snapshot List.mem_cons_self)
        · exact reads.2 reply (List.mem_cons_of_mem _ hreply)
      · cases hstep
    · cases hstep
  | viewDidLoad =>
    simp only [App.step] at hstep
    split at hstep
    · rename_i scriptToExecute row behind hscreens
      refine h.advance hscreens hstep ?_
      cases scriptToExecute <;> rfl
    · cases hstep
  | viewDidAppear nodes =>
    simp only [App.step] at hstep
    split at hstep
    · rename_i text row behind hscreens
      have hnodes : adds text nodes := by simpa only [Evaluates, hscreens] using evaluates
      exact h.advance hscreens hstep hnodes
    · rename_i row behind hscreens
      split at hstep
      · cases hstep
        have hasked := h.asked
        refine ⟨h.bounded, ?_, h.filed, fun screen hscreen => ?_⟩
        · rw [hscreens] at hasked
          exact hasked
        · have hscreens' := h.screens
          rw [hscreens] at hscreens'
          rcases List.mem_cons.mp hscreen with rfl | hscreen
          · exact hscreens' (.main none row .loaded) List.mem_cons_self
          · exact hscreens' screen (List.mem_cons_of_mem _ hscreen)
      · cases hstep
    · cases hstep
  | presentScriptVC =>
    simp only [App.step] at hstep
    split at hstep
    · split at hstep
      · cases hstep
        refine h.show rfl fun screen hscreen => ?_
        rcases List.mem_cons.mp hscreen with rfl | hscreen
        · exact Or.inr ⟨h.filed, by simp⟩
        · exact Or.inl hscreen
      · cases hstep
    · cases hstep
  | handleRefresh =>
    simp only [App.step] at hstep
    split at hstep
    · split at hstep
      · rename_i vc requests replies behind hscreens
        cases hstep
        refine h.show (by rw [hscreens]; rfl) fun screen hscreen => ?_
        rcases List.mem_cons.mp hscreen with rfl | hscreen
        · have hscript : .script vc requests replies ∈ s.screens :=
            hscreens ▸ List.mem_cons_self
          have made := h.screens _ hscript
          exact Or.inr made
        · exact Or.inl (hscreens ▸ List.mem_cons_of_mem _ hscreen)
      · cases hstep
    · cases hstep
  | didSelectRowAt keys row =>
    simp only [App.step] at hstep
    split at hstep
    · split at hstep
      · rename_i vc requests replies behind hscreens
        split at hstep
        · rename_i hkeys
          obtain ⟨value, hvalue, rfl⟩ := Option.map_eq_some_iff.mp hstep
          refine h.show rfl fun screen hscreen => ?_
          rcases List.mem_cons.mp hscreen with rfl | hscreen
          · have hscript : .script vc requests replies ∈ s.screens :=
              hscreens ▸ List.mem_cons_self
            obtain ⟨token, text, rfl, hcell, hlookup⟩ := selected hvalue
            obtain ⟨p, hp, rfl, rfl⟩ := filed_lookup (h.screens _ hscript).1 hlookup
            exact Or.inr (Or.inr ⟨p, hp, rfl, hcell⟩)
          · exact Or.inl hscreen
        · cases hstep
      · cases hstep
    · cases hstep
  | didTapBackButton =>
    simp only [App.step] at hstep
    split at hstep
    · split at hstep
      · cases hstep
        refine h.show rfl fun screen hscreen => ?_
        rcases List.mem_cons.mp hscreen with rfl | hscreen
        · exact Or.inr (Or.inl ⟨rfl, rfl⟩)
        · exact Or.inl hscreen
      · cases hstep
    · cases hstep
  | engine a =>
    cases a with
    | runScript => cases hstep
    | remove | finish | evaluate =>
      refine h.runEngine ?_ hstep
      trivial

omit [DecidableEq ι] in
/-- At rest the scene shows what the current `MainVC` asked for. -/
theorem Sound.at_rest (h : Sound adds s) (drained : s.engine.Drained) :
    (∀ n ∈ s.request.source, s.engine.Shows n) ∧
      ∀ n, s.engine.Shows n → n ∈ s.request.source ∨ n ∈ s.request.waiting := by
  refine ⟨fun n hn => ?_, fun n hn => h.bounded.above drained.2 n (Or.inl hn)⟩
  exact (h.bounded.below drained.2 n hn).resolve_right (by simp [Engine.Waits, drained.1])

omit [DecidableEq ι] in
/-- Before the view of a `MainVC` has appeared, what waits did so when it loaded. -/
theorem Sound.nothing_waits (h : Sound adds s) (patient : s.request.waiting = [])
    {row : Option String} {text : String} {behind : List (Screen κ)}
    (hscreens : s.screens = .main (some text) row .loaded :: behind) (idle : s.Idle) :
    s.engine.jsQueue.flatten = [] := by
  have hasked := h.asked
  rw [hscreens] at hasked
  have hsource : s.request.source = [] := hasked
  refine List.eq_nil_iff_forall_not_mem.mpr fun n hn => ?_
  rcases h.bounded.above idle n (Or.inr hn) with hn | hn
  · rw [hsource] at hn
    cases hn
  · rw [patient] at hn
    cases hn

theorem runEngine_request {a : EngineAction ι} (hstep : s.runEngine a = some s') :
    s'.request = Request.next s.engine s.request a ∧ ∀ call, a = .runScript call → s.Idle := by
  obtain ⟨p, hp, rfl⟩ := Option.map_eq_some_iff.mp hstep
  obtain ⟨hengine, hrequest⟩ := shadow_eq_some.mp hp
  refine ⟨hrequest.symm, ?_⟩
  rintro call rfl
  simp only [Engine.step] at hengine
  split at hengine
  · assumption
  · cases hengine

/-- Only the two callbacks of a `MainVC` request a script. -/
theorem step_request [LinearOrder κ] {a : AppAction ι κ} (hstep : s.step a = some s') :
    s'.request = s.request ∨ s'.request.waiting = s.engine.jsQueue.flatten ∧
      (a = .viewDidLoad ∨ s.Idle ∧
        ∃ text row behind, s.screens = .main (some text) row .loaded :: behind) := by
  cases a with
  | viewDidLoad =>
    simp only [App.step] at hstep
    split at hstep
    · obtain ⟨hrequest, _⟩ := runEngine_request hstep
      exact Or.inr ⟨by rw [hrequest]; rfl, Or.inl rfl⟩
    · cases hstep
  | viewDidAppear nodes =>
    simp only [App.step] at hstep
    split at hstep
    · rename_i text row behind hscreens
      obtain ⟨hrequest, idle⟩ := runEngine_request hstep
      exact Or.inr ⟨by rw [hrequest]; rfl, Or.inr ⟨idle _ rfl, text, row, behind, hscreens⟩⟩
    · split at hstep
      · cases hstep
        exact Or.inl rfl
      · cases hstep
    · cases hstep
  | engine a =>
    cases a with
    | runScript => cases hstep
    | remove | finish | evaluate => exact Or.inl (runEngine_request hstep).1
  | didSelectRowAt keys row =>
    simp only [App.step] at hstep
    repeat' split at hstep
    · obtain ⟨_, _, rfl⟩ := Option.map_eq_some_iff.mp hstep
      exact Or.inl rfl
    all_goals cases hstep
  | publish | answer | receive | presentScriptVC | handleRefresh | didTapBackButton =>
    simp only [App.step] at hstep
    repeat' split at hstep
    all_goals cases hstep
    exact Or.inl rfl

end Step

section Rest
variable [LinearOrder κ] {adds : String → List ι → Prop} {root content : ι} {s : App ι κ ρ}

theorem sound_of_run (apart : root ≠ content)
    (run : Run step (fun s a => s.Evaluates adds a) (init root content) s) : Sound adds s := by
  refine run.invariant ⟨?_, ?_, ?_, ?_⟩ fun _ _ _ h evaluates hstep => h.step evaluates hstep
  · exact Engine.bounded_of_run apart .refl
  · exact rfl
  · exact Service.filed_of_run .refl
  · intro screen hscreen
    cases List.mem_singleton.mp hscreen
    exact Or.inl ⟨rfl, rfl⟩

/-- The view of a `MainVC` loads only when nothing waits to be added. -/
def Patient (s : App ι κ ρ) : AppAction ι κ → Prop
  | .viewDidLoad => s.engine.jsQueue.flatten = []
  | _ => True

instance (s : App ι κ ρ) (a : AppAction ι κ) : Decidable (s.Patient a) := by
  cases a with
  | viewDidLoad => exact inferInstanceAs (Decidable (s.engine.jsQueue.flatten = []))
  | _ => exact isTrue trivial

/-- What an appeared `MainVC` asks to be shown. -/
def Work (adds : String → List ι → Prop) (nodes : List ι) : Option String → Prop
  | some text => adds text nodes
  | none => nodes = []

theorem shown_of_run (apart : root ≠ content)
    (run : Run step (fun s a => s.Evaluates adds a) (init root content) s)
    (drained : s.engine.Drained) {scriptToExecute row : Option String}
    (front : current s.screens = some (scriptToExecute, row, .appeared)) :
    ∃ nodes, Work adds nodes scriptToExecute ∧ (∀ n ∈ nodes, s.engine.Shows n) ∧
      ∀ n, s.engine.Shows n → n ∈ nodes ∨ n ∈ s.request.waiting := by
  have h := sound_of_run apart run
  obtain ⟨all, only⟩ := h.at_rest drained
  have hasked := h.asked
  simp only [Asked, front] at hasked
  cases scriptToExecute with
  | none => exact ⟨_, hasked, all, only⟩
  | some text => exact ⟨_, hasked, all, only⟩

/-- In every run, whenever the engine has come to rest, the scene shows all the nodes of one
evaluation of the script of the current `MainVC`, and besides only nodes that waited to be added
when it was requested; and that script was published under the token in the row that was chosen.
A `MainVC` without a script has nothing of its own. -/
theorem shows_current (apart : root ≠ content)
    (run : Run step (fun s a => s.Evaluates adds a) (init root content) s)
    (drained : s.engine.Drained) {scriptToExecute row : Option String}
    (front : current s.screens = some (scriptToExecute, row, .appeared)) :
    (∃ nodes, Work adds nodes scriptToExecute ∧ (∀ n ∈ nodes, s.engine.Shows n) ∧
      ∀ n, s.engine.Shows n → n ∈ nodes ∨ n ∈ s.request.waiting) ∧
    OpenedFor s.published scriptToExecute row :=
  ⟨shown_of_run apart run drained front,
    (sound_of_run apart run).screens _ (current_mem front)⟩

theorem waiting_of_run (apart : root ≠ content)
    (run : Run step (fun s a => s.Evaluates adds a ∧ s.Patient a) (init root content) s) :
    s.request.waiting = [] := by
  refine run.invariant_along (I := fun s => s.request.waiting = []) rfl
    fun t a u before patient ok hstep => ?_
  rcases step_request hstep with hsame | ⟨hwaiting, rfl | ⟨idle, text, row, behind, hscreens⟩⟩
  · rw [hsame]
    exact patient
  · rw [hwaiting]
    exact ok.2
  · have h := sound_of_run apart (before.mono fun _ _ ok => ok.1)
    rw [hwaiting]
    exact h.nothing_waits patient hscreens idle

/-- The scene shows one evaluation of the text, and nothing else. -/
def ShowsWork (adds : String → List ι → Prop) (s : App ι κ ρ) (text : String) : Prop :=
  ∃ nodes, adds text nodes ∧ ∀ n, s.engine.Shows n ↔ n ∈ nodes

/-- From the editor to the screen: in a run in which the view of a `MainVC` loads only when nothing
waits to be added, whenever the engine is at rest the scene shows one evaluation of a text that
was published under the token in the row that was chosen, and nothing if none was chosen. If all
texts published in the slot of a publish are its own, that is its text. -/
theorem published_shown (apart : root ≠ content)
    (run : Run step (fun s a => s.Evaluates adds a ∧ s.Patient a) (init root content) s)
    (drained : s.engine.Drained) {scriptToExecute row : Option String}
    (front : current s.screens = some (scriptToExecute, row, .appeared)) :
    (row = none → ∀ n, ¬ s.engine.Shows n) ∧
    (∀ token, row = some token →
      ∃ p ∈ s.published, Editor.token p.draw = token ∧ s.ShowsWork adds p.text) ∧
    ∀ p ∈ s.published, row = some (Editor.token p.draw) →
      (∀ q ∈ s.published, q.draw.slot = p.draw.slot → q.text = p.text) →
        s.ShowsWork adds p.text := by
  have evaluated : Run step (fun s a => s.Evaluates adds a) (init root content) s :=
    run.mono fun _ _ ok => ok.1
  have patient := waiting_of_run apart run
  obtain ⟨nodes, hnodes, all, only⟩ := shown_of_run apart evaluated drained front
  have shows : ∀ n, s.engine.Shows n ↔ n ∈ nodes := by
    refine fun n => ⟨fun hn => (only n hn).resolve_right ?_, all n⟩
    rw [patient]
    exact List.not_mem_nil
  have opened : OpenedFor s.published scriptToExecute row :=
    (sound_of_run apart evaluated).screens _ (current_mem front)
  rcases opened with ⟨rfl, rfl⟩ | ⟨q, hq, rfl, rfl⟩
  · refine ⟨fun _ n hn => ?_, ?_, ?_⟩
    · rw [shows, show nodes = [] from hnodes] at hn
      cases hn
    · rintro _ ⟨⟩
    · rintro _ _ ⟨⟩
  · have work : s.ShowsWork adds q.text := ⟨nodes, hnodes, shows⟩
    refine ⟨?_, ?_, fun p _ htoken agree => ?_⟩
    · rintro ⟨⟩
    · rintro _ ⟨⟩
      exact ⟨q, hq, rfl, work⟩
    · rw [← agree q hq (Editor.token_inj.mp (Option.some.inj htoken))]
      exact work

end Rest

/-- The launch, a publish, the choice of the row that shows its token, and its script: the texts of
this example add one node each. -/
def opening : List (AppAction ℕ ℕ) :=
  [.viewDidLoad, .engine .finish, .engine .evaluate, .viewDidAppear [],
    .publish 5 Service.zero "ab", .presentScriptVC, .answer 0, .receive 0,
    .didSelectRowAt [Editor.token Service.zero] 0,
    .viewDidLoad, .engine .finish, .engine .evaluate, .viewDidAppear [2], .engine .finish,
    .engine .evaluate, .engine .evaluate]

/-- The way back is taken before the script has added its node, which is then shown with a `MainVC`
that has no script. -/
theorem shows_current_back : ∃ s : App ℕ ℕ ℕ, s.engine.scene.childNodes 1 = [2] ∧
    ((∃ nodes, Work (fun text nodes => nodes = [text.length]) nodes none ∧
        (∀ n ∈ nodes, s.engine.Shows n) ∧
        ∀ n, s.engine.Shows n → n ∈ nodes ∨ n ∈ s.request.waiting) ∧
      OpenedFor s.published none none) := by
  obtain ⟨s, run, drained, hnodes, front⟩ := Run.exists_of_exec step
    (fun s a => s.Evaluates (fun text nodes => nodes = [text.length]) a) (init 0 1 : App ℕ ℕ ℕ)
    (opening.dropLast.dropLast ++ [.presentScriptVC, .didTapBackButton, .viewDidLoad,
      .engine .finish, .viewDidAppear [], .engine .evaluate, .engine .evaluate, .engine .evaluate])
    (fun s => s.engine.Drained ∧ s.engine.scene.childNodes 1 = [2] ∧
      current s.screens = some (none, none, .appeared))
    (by decide +kernel)
  exact ⟨s, hnodes, shows_current (by decide) run drained front⟩

theorem published_shown_opening : ∃ s : App ℕ ℕ ℕ, s.engine.scene.childNodes 1 = [2] ∧
    ∃ p ∈ s.published, Editor.token p.draw = Editor.token Service.zero ∧
      s.ShowsWork (fun text nodes => nodes = [text.length]) p.text := by
  obtain ⟨s, run, drained, hnodes, front⟩ := Run.exists_of_exec step
    (fun s a => s.Evaluates (fun text nodes => nodes = [text.length]) a ∧ s.Patient a)
    (init 0 1 : App ℕ ℕ ℕ) opening
    (fun s => s.engine.Drained ∧ s.engine.scene.childNodes 1 = [2] ∧
      current s.screens = some (some "ab", some (Editor.token Service.zero), .appeared))
    (by decide +kernel)
  exact ⟨s, hnodes, (published_shown (by decide) run drained front).2.1 _ rfl⟩

end App

end AstroAR
