import Mathlib.Data.List.Sort
import AstroAR.JavaScript
import AstroAR.Runs
import AstroAR.ScriptTable

/-!
# Publishing a script and finding it again

An author publishes a script from the web editor and is shown a token; the app
lists the published scripts by their tokens. The editor draws the token at
random and never looks at those that exist, while the app keeps one script for
each token.
-/

namespace AstroAR

open JavaScript LastWrite Runs

universe u

/-- A value of `Math.random()`. -/
abbrev Draw := { r : ℚ // 0 ≤ r ∧ r < 1 }

namespace Editor

/-- The integer of which `_token` takes the digits. -/
def scaled (random : Draw) : ℤ := toInt32 (toDouble (1 + random) * 0x10000)

/-- `_token` -/
def token (random : Draw) : String := substring (toString16 (scaled random)) 1

end Editor

/-- The sixteen bits of a draw that decide its token: with `1 + r` rounded to a double, which of
the 65536 equal parts of the unit interval it falls in. -/
def Draw.slot (random : Draw) : ℤ := ⌊toDouble (1 + random) * 65536⌋ % 65536

namespace Editor

theorem scaled_eq (random : Draw) : scaled random = ⌊toDouble (1 + random) * 65536⌋ ∧
    0x10000 ≤ scaled random ∧ scaled random ≤ 0x20000 := by
  obtain ⟨r, h₀, h₁⟩ := random
  obtain ⟨low, high⟩ := toDouble_mem (x := 1 + r) (by linarith) (by linarith)
  have hscaled : scaled ⟨r, h₀, h₁⟩ = ⌊toDouble (1 + r) * 65536⌋ :=
    toInt32_of_small (by linarith) (by linarith)
  refine ⟨hscaled, ?_, ?_⟩
  · rw [hscaled]
    exact Int.le_floor.mpr (by push_cast; linarith)
  · rw [hscaled]
    exact Int.floor_le_iff.mpr (by push_cast; linarith)

/-- Two draws give the same token exactly when they fall into the same slot. -/
theorem token_inj {r r' : Draw} : token r = token r' ↔ r.slot = r'.slot := by
  obtain ⟨heq, low, high⟩ := scaled_eq r
  obtain ⟨heq', low', high'⟩ := scaled_eq r'
  unfold token Draw.slot
  rw [substring_toString16_inj (k := 4) (by omega) (by omega) (by omega) (by omega), heq, heq']
  norm_num

end Editor

structure Publish where
  draw : Draw
  text : String

/-- `published` is a history that no step reads: what the editors have published. -/
structure Service (κ : Type u) where
  database : List (DataSnapshot κ)
  vc : ScriptVC
  published : List Publish

inductive ServiceAction (κ : Type u) where
  /-- `publishCallback` in some editor; `push` files the record under a new key -/
  | publish (key : κ) (random : Draw) (text : String)
  /-- the app receives the snapshot that it requested -/
  | refresh

namespace Service
variable {κ : Type u} [LinearOrder κ]

def init : Service κ := ⟨[], ScriptVC.init, []⟩

def step (s : Service κ) : ServiceAction κ → Option (Service κ)
  | .publish key random text =>
    if ∀ child ∈ s.database, child.key ≠ key then
      some { s with
        database := s.database.orderedInsert (fun a b => a.key ≤ b.key)
          ⟨key, .record (Editor.token random) text⟩
        published := ⟨random, text⟩ :: s.published }
    else none
  | .refresh => some { s with vc := s.vc.requestScriptsFromDatabase s.database }

/-- The token shown to the author stands in exactly one row of the app's table, and choosing
that row runs the text the author published. -/
structure Identifies (vc : ScriptVC) (p : Publish) : Prop where
  text : vc.scripts.lookup (Editor.token p.draw) = some p.text
  row : ∀ order : KeyOrder vc.scripts,
    ∃! row, ScriptVC.cellForRowAt order row = some (Editor.token p.draw)
  runs : ∀ (order : KeyOrder vc.scripts) (row : ℕ),
    ScriptVC.cellForRowAt order row = some (Editor.token p.draw) →
      ScriptVC.didSelectRowAt order row = some (some p.text)

omit [LinearOrder κ] in
/-- The app reads a published record back. -/
theorem scriptOf_record (key : κ) (token value : String) :
    ScriptVC.scriptOf (⟨key, .record token value⟩ : DataSnapshot κ) = some (token, value) :=
  rfl

/-- A table that maps the token to the text shows it in one row and runs it from there. -/
theorem Identifies.of_lookup {vc : ScriptVC} {p : Publish}
    (h : vc.scripts.lookup (Editor.token p.draw) = some p.text) : Identifies vc p where
  text := h
  row := by
    intro order
    obtain ⟨row, ⟨_, hcell⟩, only⟩ :=
      (ScriptVC.rowsAgree vc order).2 _ (Finmap.mem_of_lookup_eq_some h)
    exact ⟨row, hcell, fun row' hcell' => only row' ⟨ScriptVC.lt_of_cellForRowAt hcell', hcell'⟩⟩
  runs := by
    intro order row hcell
    rw [ScriptVC.didSelectRowAt_of_cell hcell, h]

/-- What holds of the service: the database holds the published records and no others, and the
table of the app has received none but these. -/
structure Filed (s : Service κ) : Prop where
  filed : ∀ p ∈ s.published, ∃ key,
    (⟨key, .record (Editor.token p.draw) p.text⟩ : DataSnapshot κ) ∈ s.database
  published : ∀ child ∈ s.database, ∃ p ∈ s.published,
    child.value = .record (Editor.token p.draw) p.text
  received : ∃ earlier ⊆ s.database,
    s.vc.scripts = putAll ScriptVC.scriptOf ∅ earlier

theorem Filed.step {s s' : Service κ} (h : Filed s) {a : ServiceAction κ}
    (hstep : s.step a = some s') : Filed s' := by
  cases a with
  | publish key random text =>
    simp only [Service.step] at hstep
    split at hstep
    · cases hstep
      have hmem := fun child : DataSnapshot κ => List.mem_orderedInsert
        (r := fun a b : DataSnapshot κ => a.key ≤ b.key) (a := child)
        (b := ⟨key, .record (Editor.token random) text⟩) (l := s.database)
      refine ⟨fun p hp => ?_, fun child hchild => ?_, ?_⟩
      · rcases List.mem_cons.mp hp with rfl | hp
        · exact ⟨key, (hmem _).mpr (Or.inl rfl)⟩
        · obtain ⟨key', hkey'⟩ := h.filed p hp
          exact ⟨key', (hmem _).mpr (Or.inr hkey')⟩
      · rcases (hmem child).mp hchild with rfl | hchild
        · exact ⟨_, List.mem_cons_self, rfl⟩
        · obtain ⟨p, hp, hvalue⟩ := h.published child hchild
          exact ⟨p, List.mem_cons_of_mem _ hp, hvalue⟩
      · obtain ⟨earlier, sub, hscripts⟩ := h.received
        exact ⟨earlier, fun child hchild => (hmem child).mpr (Or.inr (sub hchild)), hscripts⟩
    · cases hstep
  | refresh =>
    cases hstep
    obtain ⟨earlier, sub, hscripts⟩ := h.received
    refine ⟨h.filed, h.published, s.database, List.Subset.refl _, ?_⟩
    rw [ScriptVC.refresh_of_subset hscripts sub, ScriptVC.request_scripts]
    rfl

theorem filed_of_run {s : Service κ} (run : Run step (fun _ _ => True) init s) : Filed s := by
  refine run.invariant ⟨by simp [init], by simp [init], [], List.Subset.refl _, ?_⟩
    fun _ _ _ h _ hstep => h.step hstep
  rfl

/-- After a refresh the app knows the last text in the order of the keys for every token. -/
theorem Filed.lookup_refresh {s s' : Service κ} (h : Filed s) (hstep : s.step .refresh = some s')
    (token : String) :
    s'.vc.scripts.lookup token = lastWrite ScriptVC.scriptOf token s.database := by
  cases hstep
  obtain ⟨earlier, sub, hscripts⟩ := h.received
  rw [ScriptVC.refresh_of_subset hscripts sub, ScriptVC.request_scripts, lookup_putAll]
  simp [ScriptVC.init]

/-- After any history of publishes and refreshes and one more refresh, every token that was shown
identifies the text it was shown for if and only if any two publishes whose draws fell into the
same slot published the same text. -/
theorem tokens_identify_iff {s s' : Service κ} (run : Run step (fun _ _ => True) init s)
    (hrefresh : s.step .refresh = some s') :
    (∀ p ∈ s'.published, Identifies s'.vc p) ↔
      ∀ p ∈ s'.published, ∀ q ∈ s'.published, p.draw.slot = q.draw.slot → p.text = q.text := by
  have h := filed_of_run run
  have hlookup := h.lookup_refresh hrefresh
  have hpublished : s'.published = s.published := by cases hrefresh; rfl
  rw [hpublished]
  constructor
  · intro identifies p hp q hq hslot
    have htoken := Editor.token_inj.mpr hslot
    have hp' := (identifies p hp).text
    rw [htoken, (identifies q hq).text] at hp'
    exact (Option.some.inj hp').symm
  · intro agree p hp
    apply Identifies.of_lookup
    rw [hlookup]
    obtain ⟨key, hkey⟩ := h.filed p hp
    cases hlast : lastWrite ScriptVC.scriptOf (Editor.token p.draw) s.database with
    | none => exact absurd (scriptOf_record _ _ _) (lastWrite_eq_none.mp hlast _ hkey p.text)
    | some text =>
      -- the record that won is that of some publish with the same token
      obtain ⟨child, hchild, hwrite⟩ := lastWrite_mem hlast
      obtain ⟨q, hq, hvalue⟩ := h.published child hchild
      obtain ⟨key', value⟩ := child
      subst hvalue
      rw [scriptOf_record] at hwrite
      simp only [Option.some.injEq, Prod.mk.injEq] at hwrite
      rw [← hwrite.2, agree p hp q hq (Editor.token_inj.mp hwrite.1.symm)]

theorem step_publish {s : Service κ} (key : κ) (fresh : ∀ child ∈ s.database, child.key ≠ key)
    (random : Draw) (text : String) :
    s.step (.publish key random text) = some { s with
      database := s.database.orderedInsert (fun a b => a.key ≤ b.key)
        ⟨key, .record (Editor.token random) text⟩
      published := ⟨random, text⟩ :: s.published } :=
  if_pos fresh

/-- The least draw, one in the same slot and one in another. -/
def zero : Draw := ⟨0, by norm_num⟩

def tiny : Draw := ⟨1 / 131072, by norm_num⟩

def half : Draw := ⟨1 / 2, by norm_num⟩

/-- Two publishes can follow one another whatever they draw. -/
theorem run_two (r r' : Draw) (text text' : String) :
    ∃ s : Service ℕ, Run step (fun _ _ => True) init s ∧
      s.published = [⟨r', text'⟩, ⟨r, text⟩] := by
  have first := step_publish (s := (init : Service ℕ)) 1 (by simp [init]) r text
  exact ⟨_, .snoc (.snoc .refl trivial first) trivial
    (step_publish 2 (by simp [init]) r' text'), rfl⟩

/-- Two authors with draws in different slots. -/
theorem tokens_identify_apart : ∃ s : Service ℕ,
    s.published = [⟨half, "b"⟩, ⟨zero, "a"⟩] ∧
      ∀ p ∈ s.published, Identifies s.vc p := by
  obtain ⟨s, run, hpublished⟩ := run_two zero half "a" "b"
  have apart : zero.slot ≠ half.slot := by decide +kernel
  refine ⟨{ s with vc := s.vc.requestScriptsFromDatabase s.database }, hpublished,
    (tokens_identify_iff run rfl).mpr ?_⟩
  change ∀ p ∈ s.published, ∀ q ∈ s.published, p.draw.slot = q.draw.slot → p.text = q.text
  rw [hpublished]
  intro p hp q hq hslot
  simp only [List.mem_cons, List.not_mem_nil, or_false] at hp hq
  rcases hp with rfl | rfl <;> rcases hq with rfl | rfl
  · rfl
  · exact absurd hslot.symm apart
  · exact absurd hslot apart
  · rfl

/-- Two authors whose draws differ but have the same sixteen bits: the text of the first is gone
from the table. -/
theorem token_shared : ¬ ∀ s s' : Service ℕ, Run step (fun _ _ => True) init s →
    s.step .refresh = some s' → ∀ p ∈ s'.published, Identifies s'.vc p := by
  intro claim
  obtain ⟨s, run, hpublished⟩ :=
    run_two zero tiny "a" "b"
  have same : Editor.token zero = Editor.token tiny :=
    Editor.token_inj.mpr (by decide +kernel)
  have identifies := claim s _ run rfl
  change ∀ p ∈ s.published, Identifies _ p at identifies
  rw [hpublished] at identifies
  have first := (identifies ⟨zero, "a"⟩ (by simp)).text
  have second := (identifies ⟨tiny, "b"⟩ (by simp)).text
  rw [same, second] at first
  exact absurd first (by decide)

end Service

end AstroAR
