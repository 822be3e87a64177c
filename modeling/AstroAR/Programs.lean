import Mathlib.Data.List.Basic

/-!
# Programs with a state and errors

A program runs from a state and ends in a result and a new state, or in an
error. `Yields` says what the one or the other satisfies; there is one rule for
each way to build a program, and a loop is described by what holds after a part
of its list.
-/

namespace Programs

universe u
variable {σ τ ε : Type u} {α β : Type u}

abbrev Program (σ ε α : Type u) := StateT σ (Except ε) α

/-- A run from `s` ends in a result and a state in `Q`, or in an error in `E`. -/
structure Yields (m : Program σ ε α) (s : σ) (Q : α → σ → Prop) (E : ε → Prop) : Prop where
  of_ok : ∀ {a t}, m s = .ok (a, t) → Q a t
  of_error : ∀ {e}, m s = .error e → E e

variable {m : Program σ ε α} {f : α → Program σ ε β} {s t : σ} {Q R : α → σ → Prop}
  {T : β → σ → Prop} {E F : ε → Prop} {a : α} {e : ε}

theorem Yields.ok_or_error (h : Yields m s Q E) :
    (∃ a t, m s = .ok (a, t) ∧ Q a t) ∨ ∃ e, m s = .error e ∧ E e := by
  cases hm : m s with
  | error e => exact Or.inr ⟨e, rfl, h.of_error hm⟩
  | ok p => exact Or.inl ⟨p.1, p.2, rfl, h.of_ok hm⟩

theorem yields_of_ok (hm : m s = .ok (a, t)) : Yields m s Q E ↔ Q a t := by
  constructor
  · exact fun h => h.of_ok hm
  · intro h
    constructor
    · intro b u hb
      cases hm.symm.trans hb
      exact h
    · intro e he
      cases hm.symm.trans he

theorem yields_of_error (hm : m s = .error e) : Yields m s Q E ↔ E e := by
  constructor
  · exact fun h => h.of_error hm
  · intro h
    constructor
    · intro b u hb
      cases hm.symm.trans hb
    · intro e' he
      cases hm.symm.trans he
      exact h

theorem Yields.mono (h : Yields m s Q E) (result : ∀ a t, Q a t → R a t)
    (error : ∀ e, E e → F e) : Yields m s R F where
  of_ok := fun hm => result _ _ (h.of_ok hm)
  of_error := fun hm => error _ (h.of_error hm)

theorem yields_pure : Yields (pure a : Program σ ε α) s Q E ↔ Q a s := yields_of_ok rfl

theorem yields_throw : Yields (throw e : Program σ ε α) s Q E ↔ E e := yields_of_error rfl

theorem yields_get {Q : σ → σ → Prop} : Yields (get : Program σ ε σ) s Q E ↔ Q s s :=
  yields_of_ok rfl

theorem yields_bind :
    Yields (m >>= f) s T E ↔ Yields m s (fun a t => Yields (f a) t T E) E := by
  have run : (m >>= f) s = (m s).bind fun p => f p.1 p.2 := rfl
  cases hm : m s with
  | error e =>
    rw [hm] at run
    rw [yields_of_error run, yields_of_error hm]
  | ok p =>
    rw [hm] at run
    have run' : (m >>= f) s = f p.1 p.2 := run
    rw [yields_of_ok hm]
    constructor
    · exact fun h => ⟨fun hp => h.of_ok (run'.trans hp), fun hp => h.of_error (run'.trans hp)⟩
    · exact fun h =>
        ⟨fun hp => h.of_ok (run'.symm.trans hp), fun hp => h.of_error (run'.symm.trans hp)⟩

theorem Yields.bind (first : Yields m s Q E) (rest : ∀ a t, Q a t → Yields (f a) t T E) :
    Yields (m >>= f) s T E :=
  yields_bind.mpr (first.mono rest fun _ h => h)

/-- A loop without results. -/
theorem Yields.forM {l : List α} {f : α → Program σ ε PUnit} {I : List α → σ → Prop}
    (start : I [] s)
    (turn : ∀ done a rest, l = done ++ a :: rest → ∀ t, I done t →
      Yields (f a) t (fun _ t' => I (done ++ [a]) t') E) :
    Yields (l.forM f) s (fun _ t => I l t) E := by
  suffices general : ∀ rest done t, l = done ++ rest → I done t →
      Yields (rest.forM f) t (fun _ t' => I l t') E from general l [] s rfl start
  intro rest
  induction rest with
  | nil =>
    intro done t hl h
    refine yields_pure.mpr ?_
    rw [hl, List.append_nil]
    exact h
  | cons a rest ih =>
    intro done t hl h
    refine (turn done a rest hl t h).bind fun _ t' h' => ?_
    exact ih (done ++ [a]) t' (by simp [hl]) h'

/-- A loop that collects its results. -/
theorem Yields.mapM {l : List α} {I : List α → List β → σ → Prop} (start : I [] [] s)
    (turn : ∀ done a rest, l = done ++ a :: rest → ∀ made t, I done made t →
      Yields (f a) t (fun b t' => I (done ++ [a]) (made ++ [b]) t') E) :
    Yields (l.mapM f) s (fun made t => I l made t) E := by
  suffices general : ∀ rest done made t, l = done ++ rest → I done made t →
      Yields (rest.mapM f) t (fun more t' => I l (made ++ more) t') E from by
    simpa using general l [] [] s rfl start
  intro rest
  induction rest with
  | nil =>
    intro done made t hl h
    rw [List.mapM_nil, yields_pure, hl, List.append_nil, List.append_nil]
    exact h
  | cons a rest ih =>
    intro done made t hl h
    rw [List.mapM_cons]
    refine (turn done a rest hl made t h).bind fun b t' h' => ?_
    refine (ih (done ++ [a]) (made ++ [b]) t' (by simp [hl]) h').bind fun more t'' h'' => ?_
    rw [yields_pure]
    simpa using h''

/-- A program on a part of the state. -/
def within (read : τ → σ) (write : τ → σ → τ) (m : Program σ ε α) : Program τ ε α := fun t =>
  (m (read t)).map fun p => (p.1, write t p.2)

theorem Yields.within {read : τ → σ} {write : τ → σ → τ} {t : τ} (h : Yields m (read t) Q E) :
    Yields (within read write m) t (fun a t' => ∃ s', Q a s' ∧ t' = write t s') E := by
  cases hm : m (read t) with
  | error e =>
    refine (yields_of_error ?_).mpr (h.of_error hm)
    rw [Programs.within, hm]
    rfl
  | ok p =>
    refine (yields_of_ok ?_).mpr ⟨p.2, h.of_ok hm, rfl⟩
    rw [Programs.within, hm]
    rfl

end Programs
