import AstroAR.Runs
import AstroAR.Transactions

/-!
# Animations and their completions

A script starts animations on its nodes and passes a function to be called when
an animation has finished. Four of the five calls run an action, which takes the
function as its completion handler. The fifth opens a transaction of its own,
commits it, and only then sets the completion block, which is then the block of
the transaction of the whole turn. A callback that is left out arrives as
`undefined`, which is not `null`.

Coordinates and durations are values of a type that the code only passes on.
-/

namespace AstroAR

open Runs

universe u v

/-- What a script can pass for `onComplete`. -/
inductive JSValue where
  | function (f : ℕ)
  | null
  | undefined
  deriving DecidableEq

def JSValueIsNull : JSValue → Bool
  | .null => true
  | _ => false

/-- `Engine.isNull`; `context` tells whether the engine has its JavaScript context. -/
def isNull (context : Bool) (value : JSValue) : Bool :=
  if context then JSValueIsNull value else true

structure Float3 (F : Type v) where
  x : F
  y : F
  z : F

inductive SCNAction (F : Type v) where
  | rotateBy (x y z duration : F)
  | moveBy (x y z duration : F)
  | scaleTo (scale duration : F)
  | fadeOpacityTo (opacity duration : F)

/-- The closure `{ onComplete.call(withArguments: nil) }`, made in the call of number `call`. -/
structure Block where
  call : ℕ
  onComplete : JSValue
  deriving DecidableEq

structure RunningAction (ι : Type u) (F : Type v) where
  node : ι
  action : SCNAction F
  completionHandler : Option Block

/-- The five animations a script can ask for, with the values it asks for. -/
inductive Animation (F : Type v) where
  | rotation (value : Float3 F)
  | position (value : Float3 F)
  | scale (value : F)
  | opacity (value : F)
  | localTranslation (value : Float3 F)

structure AnimationCall (ι : Type u) (F : Type v) where
  node : ι
  animation : Animation F
  duration : F
  onComplete : JSValue

/-- Calls are numbered in the order in which they are made, and the animation that a call starts
has the number of the call. `calls`, `finished` and `called` are histories that the code does not
read: the calls, the animations that have finished and the closures that were run (one that was
made from `undefined` raises a JavaScript exception when it calls it). -/
structure Playback (ι : Type u) (F : Type v) where
  context : Bool
  running : ℕ → Option (RunningAction ι F)
  translating : ℕ → Option (ι × Float3 F)
  transactions : TransactionStack ℕ Block F
  calls : List (AnimationCall ι F)
  finished : List ℕ
  called : List Block

inductive PlaybackAction (ι : Type u) (F : Type v) where
  /-- a script calls one of the five functions -/
  | call (c : AnimationCall ι F)
  | endTurn
  /-- the animation of call number `i` has finished -/
  | finish (i : ℕ)

variable {ι : Type u} {F : Type v}

namespace Playback

/-- No animation was asked for yet. -/
def init : Playback ι F where
  context := true
  running := fun _ => none
  translating := fun _ => none
  transactions := .empty
  calls := []
  finished := []
  called := []

def runAction (p : Playback ι F) (self : ι) (animation : SCNAction F)
    (completionHandler : Option Block) : Playback ι F :=
  { p with running := fun i =>
      if i = p.calls.length then some ⟨self, animation, completionHandler⟩ else p.running i }

def run (p : Playback ι F) (self : ι) (animation : SCNAction F) (onComplete : JSValue) :
    Playback ι F :=
  if isNull p.context onComplete then p.runAction self animation none
  else p.runAction self animation (some ⟨p.calls.length, onComplete⟩)

def animateRotation (p : Playback ι F) (self : ι) (value : Float3 F) (duration : F)
    (onComplete : JSValue) : Playback ι F :=
  p.run self (.rotateBy value.x value.y value.z duration) onComplete

def animatePosition (p : Playback ι F) (self : ι) (value : Float3 F) (duration : F)
    (onComplete : JSValue) : Playback ι F :=
  p.run self (.moveBy value.x value.y value.z duration) onComplete

def animateScale (p : Playback ι F) (self : ι) (value duration : F) (onComplete : JSValue) :
    Playback ι F :=
  p.run self (.scaleTo value duration) onComplete

def animateOpacity (p : Playback ι F) (self : ι) (value duration : F) (onComplete : JSValue) :
    Playback ι F :=
  p.run self (.fadeOpacityTo value duration) onComplete

/-- The change of the transform of `self` is animated under the innermost transaction. -/
def simdLocalTranslate (p : Playback ι F) (self : ι) (value : Float3 F) : Playback ι F :=
  { p with
    translating := fun i => if i = p.calls.length then some (self, value) else p.translating i
    transactions := p.transactions.animate p.calls.length }

def animateLocalTranslation (p : Playback ι F) (self : ι) (value : Float3 F) (duration : F)
    (onComplete : JSValue) : Playback ι F :=
  let p := { p with transactions := p.transactions.begin }
  let p := { p with transactions := p.transactions.setAnimationDuration duration }
  let p := p.simdLocalTranslate self value
  let p := { p with transactions := p.transactions.commit }
  if isNull p.context onComplete then p
  else { p with transactions := p.transactions.setCompletionBlock ⟨p.calls.length, onComplete⟩ }

def animate (p : Playback ι F) (c : AnimationCall ι F) : Playback ι F :=
  match c.animation with
  | .rotation value => p.animateRotation c.node value c.duration c.onComplete
  | .position value => p.animatePosition c.node value c.duration c.onComplete
  | .scale value => p.animateScale c.node value c.duration c.onComplete
  | .opacity value => p.animateOpacity c.node value c.duration c.onComplete
  | .localTranslation value => p.animateLocalTranslation c.node value c.duration c.onComplete

def call (p : Playback ι F) (c : AnimationCall ι F) : Playback ι F :=
  { p.animate c with calls := p.calls ++ [c] }

/-- One step. Only an animation that runs can finish. -/
def step (p : Playback ι F) : PlaybackAction ι F → Option (Playback ι F)
  | .call c => some (p.call c)
  | .endTurn => some { p with
      transactions := p.transactions.flush.1
      called := p.called ++ p.transactions.flush.2 }
  | .finish i =>
    match p.running i with
    | some r => some { p with
        running := fun j => if j = i then none else p.running j
        finished := i :: p.finished
        called := p.called ++ r.completionHandler.toList }
    | none =>
      if ∃ t ∈ p.transactions.committed, i ∈ t.animations then
        some { p with
          translating := fun j => if j = i then none else p.translating j
          transactions := (p.transactions.finish i).1
          finished := i :: p.finished
          called := p.called ++ (p.transactions.finish i).2 }
      else none

/-- What will be run when the animation of call `i` has finished. -/
def completion (p : Playback ι F) (i : ℕ) : Option Block :=
  match p.running i with
  | some r => r.completionHandler
  | none => (p.transactions.holder i).bind Transaction.completionBlock

/-- Every function is registered for the animation of its own call until that has finished, and
is then called once; nothing is called for `null` or for a callback left out. -/
structure AsAsked (p : Playback ι F) : Prop where
  registered : ∀ i c f, p.calls[i]? = some c → c.onComplete = .function f → i ∉ p.finished →
    p.completion i = some ⟨i, .function f⟩
  once : ∀ i c f, p.calls[i]? = some c → c.onComplete = .function f →
    p.called.count ⟨i, .function f⟩ = if i ∈ p.finished then 1 else 0
  nothing : ∀ i c, p.calls[i]? = some c → c.onComplete = .null ∨ c.onComplete = .undefined →
    ∀ b ∈ p.called, b.call ≠ i

end Playback

namespace AnimationCall

/-- The action that a call runs, if it runs one. -/
def action (c : AnimationCall ι F) : Option (SCNAction F) :=
  match c.animation with
  | .rotation value => some (.rotateBy value.x value.y value.z c.duration)
  | .position value => some (.moveBy value.x value.y value.z c.duration)
  | .scale value => some (.scaleTo value c.duration)
  | .opacity value => some (.fadeOpacityTo value c.duration)
  | .localTranslation _ => none

/-- A local translation gets `null`, every other animation a function or `null`. -/
def Proper (c : AnimationCall ι F) : Prop :=
  match c.animation with
  | .localTranslation _ => c.onComplete = .null
  | _ => c.onComplete ≠ .undefined

instance (c : AnimationCall ι F) : Decidable c.Proper :=
  match h : c.animation with
  | .localTranslation _ => decidable_of_iff (c.onComplete = .null) (by simp [Proper, h])
  | .rotation _ | .position _ | .scale _ | .opacity _ =>
    decidable_of_iff (c.onComplete ≠ .undefined) (by simp [Proper, h])

/-- A local translation gets no function. -/
def FunctionsInActions (c : AnimationCall ι F) : Prop :=
  c.action = none → ∀ f, c.onComplete ≠ .function f

/-- What is left of the call of number `i` in the list of running actions. -/
def running (c : AnimationCall ι F) (i : ℕ) : Option (RunningAction ι F) :=
  c.action.map fun a =>
    ⟨c.node, a, if c.onComplete = .null then none else some ⟨i, c.onComplete⟩⟩

end AnimationCall

namespace Playback
variable {p p' : Playback ι F} {c c' : AnimationCall ι F} {b : Block} {i : ℕ}

/-! ## What a call does -/

theorem isNull_eq (v : JSValue) : isNull true v = true ↔ v = .null := by
  cases v <;> simp [isNull, JSValueIsNull]

theorem run_eq (hcontext : p.context = true) (self : ι) (a : SCNAction F) (v : JSValue) :
    p.run self a v = { p with
      running := fun i => if i = p.calls.length
        then some ⟨self, a, if v = .null then none else some ⟨i, v⟩⟩
        else p.running i } := by
  simp only [run, runAction, hcontext, isNull_eq]
  split_ifs with hv
  · rfl
  · congr 1
    funext i
    split_ifs with hi
    · rw [hi]
    · rfl

theorem animate_of_action (hcontext : p.context = true) {a : SCNAction F}
    (ha : c.action = some a) : p.animate c = { p with
      running := fun i => if i = p.calls.length then c.running i else p.running i } := by
  obtain ⟨node, animation, duration, v⟩ := c
  cases animation with
  | localTranslation value => cases ha
  | _ =>
    cases ha
    exact run_eq hcontext _ _ _

/-- The transactions after a local translation: its own one is committed without a block. -/
def translated (p : Playback ι F) (c : AnimationCall ι F) : TransactionStack ℕ Block F :=
  { p.transactions with
    committed := p.transactions.committed ++ [⟨[p.calls.length], some c.duration, none⟩] }

theorem animate_of_translation (hcontext : p.context = true) (hc : c.action = none) :
    ∃ translating, p.animate c = { p with
      translating := translating
      transactions := if c.onComplete = .null then p.translated c
        else (p.translated c).setCompletionBlock ⟨p.calls.length, c.onComplete⟩ } := by
  obtain ⟨node, animation, duration, v⟩ := c
  cases animation with
  | localTranslation value =>
    refine ⟨fun i => if i = p.calls.length then some (node, value) else p.translating i, ?_⟩
    simp only [animate, animateLocalTranslation, simdLocalTranslate, hcontext, isNull_eq,
      TransactionStack.commit_animate, translated]
    split_ifs <;> rfl
  | _ => cases hc

/-- The handler of an action is made from a callback other than `null`. -/
theorem mem_handler {v : JSValue}
    (hb : b ∈ (if v = .null then none else some ⟨i, v⟩ : Option Block).toList) :
    b = ⟨i, v⟩ ∧ v ≠ .null := by
  split_ifs at hb with hnull
  · cases hb
  · exact ⟨List.mem_singleton.mp hb, hnull⟩

theorem getElem?_append_call {calls : List (AnimationCall ι F)} :
    (calls ++ [c])[i]? = if i = calls.length then some c else calls[i]? := by
  rw [List.getElem?_append]
  split_ifs with hlt heq heq
  · omega
  · rfl
  · simp [heq]
  · rw [List.getElem?_eq_none (by simp; omega), List.getElem?_eq_none (by omega)]

/-- Calls that were made keep their numbers. -/
theorem getElem?_append_of_made {calls : List (AnimationCall ι F)} (hi : calls[i]? = some c') :
    (calls ++ [c])[i]? = some c' := by
  rw [getElem?_append_call, if_neg (List.getElem?_eq_some_iff.mp hi).1.ne, hi]

/-! ## What holds as long as no local translation gets a function -/

/-- The closure was made in one of the calls, from its callback. -/
def Made (calls : List (AnimationCall ι F)) (b : Block) : Prop :=
  ∃ c, calls[b.call]? = some c ∧ c.onComplete = b.onComplete ∧ b.onComplete ≠ .null

theorem Made.lt {calls : List (AnimationCall ι F)} (h : Made calls b) : b.call < calls.length := by
  obtain ⟨c, hc, _⟩ := h
  exact (List.getElem?_eq_some_iff.mp hc).1

theorem Made.append {calls : List (AnimationCall ι F)} (h : Made calls b) :
    Made (calls ++ [c]) b := by
  obtain ⟨c', hc', rest⟩ := h
  exact ⟨c', getElem?_append_of_made hc', rest⟩

structure Delivering (p : Playback ι F) : Prop where
  context : p.context = true
  silent : p.transactions.Silent
  functions : ∀ c ∈ p.calls, c.FunctionsInActions
  running : ∀ i, p.running i =
    if i ∈ p.finished then none else p.calls[i]?.bind fun c => c.running i
  translations : ∀ t ∈ p.transactions.committed, ∀ i ∈ t.animations,
    ∃ c, p.calls[i]? = some c ∧ c.action = none
  finished : ∀ i ∈ p.finished, i < p.calls.length
  block : ∀ b, p.transactions.implicit.completionBlock = some b →
    Made p.calls b ∧ ∀ f, b.onComplete ≠ .function f
  called : ∀ b ∈ p.called, Made p.calls b
  once : ∀ i c f, p.calls[i]? = some c → c.onComplete = .function f →
    p.called.count ⟨i, .function f⟩ = if i ∈ p.finished then 1 else 0

namespace Delivering

theorem init : Delivering (init : Playback ι F) where
  context := rfl
  silent := ⟨rfl, rfl, by simp [Playback.init, TransactionStack.empty]⟩
  functions := by simp [Playback.init]
  running := by simp [Playback.init]
  translations := by simp [Playback.init, TransactionStack.empty]
  finished := by simp [Playback.init]
  block := by simp [Playback.init, TransactionStack.empty, Transaction.empty]
  called := by simp [Playback.init]
  once := by simp [Playback.init]

/-- A call that has a function runs an action. -/
theorem action_of_function (h : p.Delivering) (hc : p.calls[i]? = some c) {f : ℕ}
    (hf : c.onComplete = .function f) : ∃ a, c.action = some a := by
  refine Option.ne_none_iff_exists'.mp fun none => ?_
  exact h.functions c (List.mem_of_getElem? hc) none f hf

/-- The new call has not finished, and nothing was called for it. -/
theorem unfinished (h : p.Delivering) : p.calls.length ∉ p.finished :=
  fun hmem => (h.finished _ hmem).false

theorem append_once (h : p.Delivering) {f : ℕ} (hc : (p.calls ++ [c])[i]? = some c')
    (hf : c'.onComplete = .function f) :
    p.called.count ⟨i, .function f⟩ = if i ∈ p.finished then 1 else 0 := by
  rw [getElem?_append_call] at hc
  split_ifs at hc with hi
  · subst hi
    rw [if_neg h.unfinished]
    exact List.count_eq_zero.mpr fun hmem => (h.called _ hmem).lt.false
  · exact h.once i c' f hc hf

theorem append_functions (h : p.Delivering) (hc : c.FunctionsInActions) :
    ∀ c' ∈ p.calls ++ [c], c'.FunctionsInActions := by
  intro c' hc'
  rcases List.mem_append.mp hc' with hc' | hc'
  · exact h.functions c' hc'
  · cases List.mem_singleton.mp hc'
    exact hc

theorem append_finished (h : p.Delivering) (hi : i ∈ p.finished) :
    i < (p.calls ++ [c]).length := by
  have := h.finished i hi
  simp only [List.length_append, List.length_singleton]
  omega

theorem append_running (h : p.Delivering) (c : AnimationCall ι F) (i : ℕ) :
    (if i = p.calls.length then c.running i else p.running i) =
      if i ∈ p.finished then none else (p.calls ++ [c])[i]?.bind fun c => c.running i := by
  rw [getElem?_append_call, h.running]
  by_cases hi : i = p.calls.length
  · subst hi
    rw [if_pos rfl, if_pos rfl, if_neg h.unfinished]
    rfl
  · rw [if_neg hi, if_neg hi]

theorem append_translations (h : p.Delivering) {t : Transaction ℕ Block F}
    (ht : t ∈ p.transactions.committed) (hi : i ∈ t.animations) :
    ∃ c', (p.calls ++ [c])[i]? = some c' ∧ c'.action = none := by
  obtain ⟨c', hc', hnone⟩ := h.translations t ht i hi
  exact ⟨c', getElem?_append_of_made hc', hnone⟩

theorem call_action (h : p.Delivering) (hc : c.FunctionsInActions) {a : SCNAction F}
    (ha : c.action = some a) : (p.call c).Delivering := by
  rw [call, animate_of_action h.context ha]
  exact { h with
    functions := h.append_functions hc
    running := h.append_running c
    translations := fun t ht i hi => h.append_translations ht hi
    finished := fun i hi => h.append_finished hi
    block := fun b hb => ⟨(h.block b hb).1.append, (h.block b hb).2⟩
    called := fun b hb => (h.called b hb).append
    once := fun i c' f hc' hf => h.append_once hc' hf }

/-- The transaction of a local translation is new and has no block. -/
theorem translated_silent (h : p.Delivering) (c : AnimationCall ι F) : (p.translated c).Silent :=
  h.silent.commit_animate p.calls.length c.duration

theorem call_translation (h : p.Delivering) (hc : c.FunctionsInActions)
    (ha : c.action = none) : (p.call c).Delivering := by
  obtain ⟨translating, heq⟩ := animate_of_translation h.context ha
  rw [call, heq]
  have silent := h.translated_silent c
  have hlast : (p.calls ++ [c])[p.calls.length]? = some c := by
    rw [getElem?_append_call, if_pos rfl]
  have running : ∀ i, p.running i =
      if i ∈ p.finished then none else (p.calls ++ [c])[i]?.bind fun c => c.running i := by
    intro i
    rw [← h.append_running c i]
    split_ifs with hi
    · rw [h.running, hi, List.getElem?_eq_none le_rfl]
      simp [AnimationCall.running, ha]
    · rfl
  have translations : ∀ t ∈ (p.translated c).committed, ∀ i ∈ t.animations,
      ∃ c', (p.calls ++ [c])[i]? = some c' ∧ c'.action = none := by
    intro t ht i hi
    rcases List.mem_append.mp ht with ht | ht
    · exact h.append_translations ht hi
    · cases List.mem_singleton.mp ht
      cases List.mem_singleton.mp hi
      exact ⟨c, hlast, ha⟩
  split_ifs with hnull
  · exact { h with
      silent := silent
      functions := h.append_functions hc
      running := running
      translations := translations
      finished := fun i hi => h.append_finished hi
      block := fun b hb => ⟨(h.block b hb).1.append, (h.block b hb).2⟩
      called := fun b hb => (h.called b hb).append
      once := fun i c' f hc' hf => h.append_once hc' hf }
  · rw [silent.setCompletionBlock_eq]
    exact { h with
      silent := ⟨silent.explicit, silent.animations, silent.blocks⟩
      functions := h.append_functions hc
      running := running
      translations := translations
      finished := fun i hi => h.append_finished hi
      block := by
        rintro b ⟨⟩
        exact ⟨⟨c, hlast, rfl, hnull⟩, hc ha⟩
      called := fun b hb => (h.called b hb).append
      once := fun i c' f hc' hf => h.append_once hc' hf }

theorem call (h : p.Delivering) (hc : c.FunctionsInActions) : (p.call c).Delivering := by
  cases ha : c.action with
  | none => exact h.call_translation hc ha
  | some a => exact h.call_action hc ha

theorem endTurn (h : p.Delivering) :
    Delivering { p with
      transactions := p.transactions.flush.1
      called := p.called ++ p.transactions.flush.2 } := by
  rw [h.silent.flush_snd]
  exact { h with
    silent := h.silent.flush
    translations := fun t ht => h.translations t (h.silent.mem_flush ht)
    block := by simp [TransactionStack.flush, TransactionStack.settle, Transaction.empty]
    called := by
      intro b hb
      rcases List.mem_append.mp hb with hb | hb
      · exact h.called b hb
      · exact (h.block b (Option.mem_toList.mp hb)).1
    once := by
      intro i c f hc hf
      have quiet : p.transactions.implicit.completionBlock.toList.count ⟨i, .function f⟩ = 0 := by
        refine List.count_eq_zero.mpr fun hmem => ?_
        exact (h.block _ (Option.mem_toList.mp hmem)).2 f rfl
      rw [List.count_append, quiet]
      exact h.once i c f hc hf }

/-- The call of an animation that finishes was made. -/
theorem cons_finished (h : p.Delivering) (hc : p.calls[i]? = some c) :
    ∀ j ∈ i :: p.finished, j < p.calls.length := by
  intro j hj
  rcases List.mem_cons.mp hj with rfl | hj
  · exact (List.getElem?_eq_some_iff.mp hc).1
  · exact h.finished j hj

/-- The end of an action, whose handler is that of its call. -/
theorem finish_action (h : p.Delivering) {r : RunningAction ι F} (hr : p.running i = some r) :
    Delivering { p with
      running := fun j => if j = i then none else p.running j
      finished := i :: p.finished
      called := p.called ++ r.completionHandler.toList } := by
  rw [h.running] at hr
  split_ifs at hr with hi
  obtain ⟨c, hc, hr⟩ := Option.bind_eq_some_iff.mp hr
  obtain ⟨a, _, rfl⟩ := Option.map_eq_some_iff.mp hr
  exact { h with
    running := by
      intro j
      by_cases hj : j = i
      · simp [hj]
      · simp [hj, h.running j]
    finished := h.cons_finished hc
    called := by
      intro b hb
      rcases List.mem_append.mp hb with hb | hb
      · exact h.called b hb
      · obtain ⟨rfl, hnull⟩ := mem_handler hb
        exact ⟨c, hc, rfl, hnull⟩
    once := by
      intro j c' f hc' hf
      have old := h.once j c' f hc' hf
      simp only [List.count_append, old]
      by_cases hj : j = i
      · subst hj
        cases hc.symm.trans hc'
        simp [hf, hi]
      · have quiet : (if c.onComplete = .null then none else some ⟨i, c.onComplete⟩ :
            Option Block).toList.count ⟨j, .function f⟩ = 0 := by
          refine List.count_eq_zero.mpr fun hmem => ?_
          exact hj (Block.mk.inj (mem_handler hmem).1).1
        simp [quiet, hj] }

/-- The end of a local translation, whose transaction has no block. -/
theorem finish_translation (h : p.Delivering)
    (hi : ∃ t ∈ p.transactions.committed, i ∈ t.animations)
    {translating : ℕ → Option (ι × Float3 F)} :
    Delivering { p with
      translating := translating
      transactions := (p.transactions.finish i).1
      finished := i :: p.finished
      called := p.called ++ (p.transactions.finish i).2 } := by
  obtain ⟨t, ht, hit⟩ := hi
  obtain ⟨c, hc, hnone⟩ := h.translations t ht i hit
  rw [h.silent.finish_snd, List.append_nil]
  exact { h with
    silent := h.silent.finish i
    running := by
      intro j
      rw [h.running]
      by_cases hj : j = i
      · subst hj
        simp [hc, AnimationCall.running, hnone]
      · simp [hj]
    translations := by
      intro t ht j hj
      obtain ⟨t', ht', _, hsub⟩ := TransactionStack.mem_finish ht
      exact h.translations t' ht' j (hsub j hj)
    finished := h.cons_finished hc
    once := by
      intro j c' f hc' hf
      have hj : j ≠ i := by
        rintro rfl
        cases hc.symm.trans hc'
        exact h.functions c (List.mem_of_getElem? hc) hnone f hf
      simpa [hj] using h.once j c' f hc' hf }

theorem step (h : p.Delivering) {a : PlaybackAction ι F}
    (hok : ∀ c, a = .call c → c.FunctionsInActions) (hstep : p.step a = some p') :
    p'.Delivering := by
  cases a with
  | call c =>
    cases hstep
    exact h.call (hok c rfl)
  | endTurn =>
    cases hstep
    exact h.endTurn
  | finish i =>
    simp only [Playback.step] at hstep
    split at hstep
    · rename_i r hr
      cases hstep
      exact h.finish_action hr
    · split_ifs at hstep with hi
      cases hstep
      exact h.finish_translation hi

/-- Functions are registered and called as asked. -/
theorem completion_function (h : p.Delivering) (hc : p.calls[i]? = some c) {f : ℕ}
    (hf : c.onComplete = .function f) (hi : i ∉ p.finished) :
    p.completion i = some ⟨i, .function f⟩ := by
  obtain ⟨a, ha⟩ := h.action_of_function hc hf
  simp [completion, h.running, hi, hc, AnimationCall.running, ha, hf]

/-- If no callback was left out, everything is as asked. -/
theorem asAsked (h : p.Delivering) (given : ∀ c ∈ p.calls, c.onComplete ≠ .undefined) :
    p.AsAsked where
  registered := fun i c f hc hf hi => h.completion_function hc hf hi
  once := h.once
  nothing := by
    rintro i c hc hnone b hb rfl
    obtain ⟨c', hc', heq, hnull⟩ := h.called b hb
    cases hc.symm.trans hc'
    rcases hnone with hnone | hnone
    · exact hnull (heq.symm.trans hnone)
    · exact given c (List.mem_of_getElem? hc) hnone

end Delivering

end Playback

/-! ## Calls that are answered as asked -/

namespace PlaybackAction

/-- The action is no call, or a call of the kind that is answered as asked. -/
def Proper : PlaybackAction ι F → Prop
  | .call c => c.Proper
  | _ => True

instance : (a : PlaybackAction ι F) → Decidable a.Proper
  | .call c => inferInstanceAs (Decidable c.Proper)
  | .endTurn | .finish _ => isTrue trivial

def IsCall : PlaybackAction ι F → Prop
  | .call _ => True
  | _ => False

end PlaybackAction

namespace AnimationCall
variable {c : AnimationCall ι F}

theorem Proper.functionsInActions (h : c.Proper) : c.FunctionsInActions := by
  obtain ⟨node, animation, duration, v⟩ := c
  cases animation with
  | localTranslation value =>
    intro _ f hf
    cases (show v = .null from h).symm.trans hf
  | _ =>
    intro hnone
    cases hnone

theorem Proper.given (h : c.Proper) : c.onComplete ≠ .undefined := by
  obtain ⟨node, animation, duration, v⟩ := c
  cases animation with
  | localTranslation value =>
    intro hv
    cases (show v = .null from h).symm.trans hv
  | _ => exact h

/-- The three ways in which a call goes wrong. -/
theorem cases_of_not_proper (h : ¬ c.Proper) :
    (c.action = none ∧ ∃ f, c.onComplete = .function f) ∨
    (c.action = none ∧ c.onComplete = .undefined) ∨
    ∃ a, c.action = some a ∧ c.onComplete = .undefined := by
  obtain ⟨node, animation, duration, v⟩ := c
  cases animation with
  | localTranslation value =>
    cases v with
    | function f => exact Or.inl ⟨rfl, f, rfl⟩
    | null => exact absurd rfl h
    | undefined => exact Or.inr (Or.inl ⟨rfl, rfl⟩)
  | _ =>
    cases v with
    | undefined => exact Or.inr (Or.inr ⟨_, rfl, rfl⟩)
    | _ => exact absurd (by simp [Proper]) h

end AnimationCall

namespace Playback
variable {p p' : Playback ι F} {c : AnimationCall ι F}

/-- As long as local translations get no function, the functions of all calls are registered for
their own animations and called once, when these have finished. -/
theorem delivering_of_run {ok : Playback ι F → PlaybackAction ι F → Prop}
    (silent : ∀ p c, ok p (.call c) → c.FunctionsInActions)
    (run : Run step ok (init : Playback ι F) p) : p.Delivering := by
  refine run.invariant Delivering.init fun t a u h hok hstep => h.step ?_ hstep
  rintro c rfl
  exact silent t c hok

theorem given_of_run {q : Playback ι F} (start : ∀ c ∈ q.calls, c.onComplete ≠ .undefined)
    (run : Run step (fun _ a => a.Proper) q p) : ∀ c ∈ p.calls, c.onComplete ≠ .undefined := by
  refine run.invariant (I := fun p => ∀ c ∈ p.calls, c.onComplete ≠ .undefined) start
    fun t a u h hok hstep => ?_
  cases a with
  | call c =>
    cases hstep
    intro c' hc'
    rcases List.mem_append.mp hc' with hc' | hc'
    · exact h c' hc'
    · cases List.mem_singleton.mp hc'
      exact hok.given
  | endTurn =>
    cases hstep
    exact h
  | finish i =>
    simp only [Playback.step] at hstep
    split at hstep
    · cases hstep
      exact h
    · split_ifs at hstep
      cases hstep
      exact h

theorem asAsked_of_run (run : Run step (fun _ a => a.Proper) (init : Playback ι F) p) :
    p.AsAsked :=
  (delivering_of_run (fun _ _ hok => hok.functionsInActions) run).asAsked
    (given_of_run (by simp [init]) run)

/-- A call that does not get `null` for a local translation sets the block of the turn. -/
theorem call_translation_eq (hcontext : p.context = true) (hc : c.action = none)
    (hnull : c.onComplete ≠ .null) : ∃ translating, p.call c = { p with
      translating := translating
      transactions := (p.translated c).setCompletionBlock ⟨p.calls.length, c.onComplete⟩
      calls := p.calls ++ [c] } := by
  obtain ⟨translating, heq⟩ := animate_of_translation hcontext hc
  exact ⟨translating, by rw [call, heq, if_neg hnull]⟩

theorem last_call : (p.calls ++ [c])[p.calls.length]? = some c := by
  rw [getElem?_append_call, if_pos rfl]

/-- A function given to a local translation is not registered for it. -/
theorem translation_unregistered (h : p.Delivering) (hc : c.action = none) {f : ℕ}
    (hf : c.onComplete = .function f) : ¬ (p.call c).AsAsked := by
  intro asked
  obtain ⟨translating, heq⟩ := call_translation_eq h.context hc (by simp [hf])
  rw [heq] at asked
  have registered := asked.registered p.calls.length c f last_call hf h.unfinished
  have silent := (h.translated_silent c).setCompletionBlock ⟨p.calls.length, c.onComplete⟩
  have hrunning : p.running p.calls.length = none := by
    rw [h.running, List.getElem?_eq_none le_rfl]
    simp
  simp only [completion, hrunning] at registered
  cases (silent.holder_block _).symm.trans registered

/-- A callback left out of a local translation is called at the end of the turn. -/
theorem translation_undefined (h : p.Delivering) (hc : c.action = none)
    (hv : c.onComplete = .undefined) : ∃ p', Run step (fun _ a => ¬ a.IsCall) (p.call c) p' ∧
      ¬ p'.AsAsked := by
  obtain ⟨translating, heq⟩ := call_translation_eq h.context hc (by simp [hv])
  have silent := h.translated_silent c
  refine ⟨_, .snoc (a := .endTurn) .refl (by simp [PlaybackAction.IsCall]) rfl, fun asked => ?_⟩
  rw [heq] at asked
  refine asked.nothing p.calls.length c last_call (Or.inr hv) ⟨_, c.onComplete⟩ ?_ rfl
  refine List.mem_append_right _ ?_
  rw [(silent.setCompletionBlock _).flush_snd, silent.setCompletionBlock_eq]
  exact List.mem_singleton_self _

/-- A callback left out of any other animation is called when that has finished. -/
theorem action_undefined (h : p.Delivering) {a : SCNAction F} (hc : c.action = some a)
    (hv : c.onComplete = .undefined) : ∃ p', Run step (fun _ a => ¬ a.IsCall) (p.call c) p' ∧
      ¬ p'.AsAsked := by
  have hrunning : (p.call c).running p.calls.length = some
      ⟨c.node, a, some ⟨p.calls.length, .undefined⟩⟩ := by
    simp [call, animate_of_action h.context hc, AnimationCall.running, hc, hv]
  have hstep : (p.call c).step (.finish p.calls.length) = some { p.call c with
      running := fun j => if j = p.calls.length then none else (p.call c).running j
      finished := p.calls.length :: (p.call c).finished
      called := (p.call c).called ++ [⟨p.calls.length, .undefined⟩] } := by
    simp [step, hrunning]
  refine ⟨_, .snoc .refl (by simp [PlaybackAction.IsCall]) hstep, fun asked => ?_⟩
  exact asked.nothing p.calls.length c last_call (Or.inr hv) _
    (List.mem_append_right _ (List.mem_singleton_self _)) rfl

/-- Over every run in which local translations get `null` and every other animation a function or
`null`, all completions are delivered as asked; a call of another kind breaks this, at once or
without any further call. -/
theorem completions_as_asked (run : Run step (fun _ a => a.Proper) (init : Playback ι F) p) :
    p.AsAsked ∧ ∀ c, (∀ p', Run step (fun _ a => ¬ a.IsCall) (p.call c) p' → p'.AsAsked) ↔
      c.Proper := by
  refine ⟨asAsked_of_run run, fun c => ?_⟩
  constructor
  · intro asked
    have h := delivering_of_run (fun _ _ hok => hok.functionsInActions) run
    by_contra hc
    rcases AnimationCall.cases_of_not_proper hc with ⟨hc, f, hf⟩ | ⟨hc, hv⟩ | ⟨a, hc, hv⟩
    · exact translation_unregistered h hc hf (asked _ .refl)
    · obtain ⟨p', rest, wrong⟩ := translation_undefined h hc hv
      exact wrong (asked p' rest)
    · obtain ⟨p', rest, wrong⟩ := action_undefined h hc hv
      exact wrong (asked p' rest)
  · intro proper p' rest
    have called : Run step (fun _ a => a.Proper) (init : Playback ι F) (p.call c) :=
      .snoc (a := .call c) run proper rfl
    refine asAsked_of_run (called.trans (rest.mono fun _ a ha => ?_))
    cases a with
    | call c => exact absurd trivial ha
    | endTurn => trivial
    | finish i => trivial

/-- Two local translations in one turn: at its end, with both still moving, the second function
is called and the first is lost. -/
theorem translation_callback_early : ¬ ∀ p : Playback ℕ ℕ,
    Run step (fun _ _ => True) init p → p.AsAsked := by
  intro claim
  obtain ⟨p, run, hcall, hfinished, hcalled⟩ := Run.exists_of_exec step (fun _ _ => True)
    (init : Playback ℕ ℕ)
    [.call ⟨2, .localTranslation ⟨1, 0, 0⟩, 4, .function 10⟩,
      .call ⟨3, .localTranslation ⟨0, 1, 0⟩, 4, .function 11⟩, .endTurn]
    (fun p => (p.calls[1]?.map fun c => c.onComplete) = some (.function 11) ∧
      p.finished = [] ∧ p.called = [⟨1, .function 11⟩]) (by decide)
  obtain ⟨c, hc, hf⟩ := Option.map_eq_some_iff.mp hcall
  have once := (claim p run).once 1 c 11 hc hf
  rw [hfinished, hcalled] at once
  cases once

/-- Three animations over two turns, one with a function. -/
theorem completions_as_asked_rotation : ∃ p : Playback ℕ ℕ, p.AsAsked ∧ p.finished = [2, 0] ∧
    p.called = [⟨0, .function 10⟩] := by
  obtain ⟨p, run, hfinished, hcalled⟩ := Run.exists_of_exec step (fun _ a => a.Proper)
    (init : Playback ℕ ℕ)
    [.call ⟨2, .rotation ⟨0, 6, 0⟩, 4, .function 10⟩, .call ⟨2, .scale 3, 4, .null⟩, .endTurn,
      .call ⟨3, .localTranslation ⟨0, 1, 0⟩, 4, .null⟩, .finish 0, .endTurn, .finish 2]
    (fun p => p.finished = [2, 0] ∧ p.called = [⟨0, .function 10⟩]) (by decide)
  exact ⟨p, (completions_as_asked run).1, hfinished, hcalled⟩

end Playback

end AstroAR
