import Mathlib.Data.List.Basic

/-!
# What writes make known along the paths of a tree

A write gives a whole value to a path. What is known at a path is read from the
value written at it or above it, and a later write below is put into that value.
A write forgets all that earlier ones did at its path and below. Only at the
paths above it can a write be felt after it was overwritten, and not even there
as long as nothing is known at those paths.
-/

namespace PathOverlay

universe u v

/-- Neither path leads through the end of the other one. -/
def Apart {κ : Type u} (p q : List κ) : Prop := ¬ p <+: q ∧ ¬ q <+: p

theorem Apart.symm {κ : Type u} {p q : List κ} (h : Apart p q) : Apart q p := ⟨h.2, h.1⟩

instance {κ : Type u} {α : Type v} : Std.Symm fun a b : List κ × α => Apart a.1 b.1 :=
  ⟨fun _ _ h => h.symm⟩

/-- What is apart from a path is apart from all paths below it. -/
theorem Apart.below {κ : Type u} {p b q : List κ} (h : Apart p b) (hq : b <+: q) : Apart p q :=
  ⟨fun hp => (List.prefix_or_prefix_of_prefix hp hq).elim h.1 h.2, fun hp => h.2 (hq.trans hp)⟩

theorem apart_cons {κ : Type u} {k k' : κ} {p q : List κ} (h : k ≠ k') :
    Apart (k :: p) (k' :: q) :=
  ⟨fun hp => h (List.cons_prefix_cons.mp hp).1, fun hq => h (List.cons_prefix_cons.mp hq).1.symm⟩

/-- The values known at the paths. -/
abbrev Overlay (κ : Type u) (α : Type v) := List κ → Option α

def unknown {κ : Type u} {α : Type v} : Overlay κ α := fun _ => none

variable {κ : Type u} {α : Type v} [DecidableEq κ] (get : List κ → α → α)
  (set : List κ → α → α → α)

/-- `get` reads a value at a path inside it, and `set` puts another value there. -/
def write (known : Overlay κ α) (e : List κ × α) : Overlay κ α := fun p =>
  if e.1 <+: p then some (get (p.drop e.1.length) e.2)
  else if p <+: e.1 then (known p).map (set (e.1.drop p.length) e.2)
  else known p

/-- All writes, the first one first. -/
def writes (known : Overlay κ α) (l : List (List κ × α)) : Overlay κ α :=
  l.foldl (write get set) known

variable {get set} {known known' : Overlay κ α} {e : List κ × α} {l l' : List (List κ × α)}
  {b p : List κ}

theorem writes_append : writes get set known (l ++ l') =
    writes get set (writes get set known l) l' := List.foldl_append

theorem write_at_or_below (h : e.1 <+: p) :
    write get set known e p = some (get (p.drop e.1.length) e.2) := if_pos h

/-- What is known at a path after a write depends on what was known there, and on nothing else. -/
theorem write_congr (h : known p = known' p) :
    write get set known e p = write get set known' e p := by
  unfold write
  rw [h]

theorem writes_congr (h : known p = known' p) (l : List (List κ × α)) :
    writes get set known l p = writes get set known' l p := by
  induction l generalizing known known' with
  | nil => exact h
  | cons e l ih => exact ih (write_congr h)

theorem write_apart (h : Apart e.1 p) : write get set known e p = known p := by
  unfold write
  rw [if_neg h.1, if_neg h.2]

theorem write_eq_none (h : ¬ e.1 <+: p) (none : known p = none) :
    write get set known e p = Option.none := by
  unfold write
  rw [if_neg h, none, Option.map_none, ite_self]

/-- Only a write at a path or above it makes the path known. -/
theorem writes_eq_none (h : ∀ e ∈ l, ¬ e.1 <+: p) (none : known p = none) :
    writes get set known l p = Option.none := by
  induction l generalizing known with
  | nil => exact none
  | cons e l ih =>
    obtain ⟨he, hl⟩ := List.forall_mem_cons.mp h
    exact ih hl (write_eq_none he none)

theorem writes_apart (h : ∀ e ∈ l, Apart e.1 p) :
    writes get set known l p = known p := by
  induction l generalizing known with
  | nil => rfl
  | cons e l ih =>
    obtain ⟨he, hl⟩ := List.forall_mem_cons.mp h
    exact (ih hl).trans (write_apart he)

theorem write_ne_none (h : known p ≠ none) : write get set known e p ≠ none := by
  unfold write
  split
  · exact Option.some_ne_none _
  · split
    · exact fun h' => h (Option.map_eq_none_iff.mp h')
    · exact h

theorem writes_ne_none (h : known p ≠ none) : writes get set known l p ≠ none := by
  induction l generalizing known with
  | nil => exact h
  | cons e l ih => exact ih (write_ne_none h)

/-- Where nothing was known, the paths at or below the writes are the ones known after them. -/
theorem writes_eq_none_iff (none : known p = none) :
    writes get set known l p = Option.none ↔ ∀ e ∈ l, ¬ e.1 <+: p := by
  refine ⟨fun h => ?_, fun h => writes_eq_none h none⟩
  induction l generalizing known with
  | nil => exact fun _ h => absurd h List.not_mem_nil
  | cons e l ih =>
    have he : ¬ e.1 <+: p := by
      intro he
      have hfirst : write get set known e p ≠ Option.none := by
        rw [write_at_or_below he]
        exact Option.some_ne_none _
      exact writes_ne_none (l := l) hfirst h
    exact List.forall_mem_cons.mpr ⟨he, ih (write_eq_none he none) h⟩

/-- A write at a path or above it hides there what was known before. -/
theorem writes_eq_of_covered (h : ∃ e ∈ l, e.1 <+: p) :
    writes get set known l p = writes get set known' l p := by
  induction l generalizing known known' with
  | nil => exact absurd h (by simp)
  | cons e l ih =>
    by_cases he : e.1 <+: p
    · exact writes_congr ((write_at_or_below he).trans (write_at_or_below he).symm) l
    · obtain ⟨e', hmem, he'⟩ := h
      rcases List.mem_cons.mp hmem with rfl | hmem
      · exact absurd he' he
      · exact ih ⟨e', hmem, he'⟩

theorem write_below (t p : List κ) : write get set known (t ++ e.1, e.2) (t ++ p) =
    write get set (fun q => known (t ++ q)) e p := by
  unfold write
  simp only [List.prefix_append_right_inj, List.length_append, List.drop_append,
    Nat.add_sub_cancel_left, List.drop_of_length_le (Nat.le_add_right _ _), List.nil_append]

/-- Writes below `t` read from `t` on are the same as writes to what is known from `t` on. -/
theorem writes_below (t p : List κ) :
    writes get set known (l.map fun e => (t ++ e.1, e.2)) (t ++ p) =
      writes get set (fun q => known (t ++ q)) l p := by
  induction l generalizing known with
  | nil => rfl
  | cons e l ih =>
    refine (@ih (write get set known (t ++ e.1, e.2))).trans ?_
    exact congrArg (writes get set · l p) (funext fun q => write_below t q)

/-- Two overlays that differ at most at `b` and below, with nothing known above `b`. -/
structure SameOff (b : List κ) (known known' : Overlay κ α) : Prop where
  same : ∀ p, ¬ b <+: p → known p = known' p
  above : ∀ p, p <+: b → p ≠ b → known p = none

omit [DecidableEq κ] in
theorem not_prefix_of_above (h : p <+: b) (hne : p ≠ b) : ¬ b <+: p :=
  fun h' => hne (h.eq_of_length_le h'.length_le)

/-- A write at `b` or below is felt nowhere else. -/
theorem SameOff.below (h : SameOff b known known') (he : b <+: e.1) :
    SameOff b (write get set known e) known' where
  same := by
    intro p hp
    have hep : ¬ e.1 <+: p := fun h => hp (he.trans h)
    by_cases hpe : p <+: e.1
    · have hpb : p <+: b := (List.prefix_or_prefix_of_prefix hpe he).resolve_right hp
      have hnone : known p = none := h.above p hpb fun heq => hp (heq ▸ List.prefix_rfl)
      rw [write_eq_none hep hnone, ← h.same p hp, hnone]
    · rw [write_apart ⟨hep, hpe⟩, h.same p hp]
  above := fun p hp hne =>
    write_eq_none (fun hep => not_prefix_of_above hp hne (he.trans hep)) (h.above p hp hne)

theorem SameOff.writes_below (h : SameOff b known known') (hl : ∀ e ∈ l, b <+: e.1) :
    SameOff b (writes get set known l) known' := by
  induction l generalizing known with
  | nil => exact h
  | cons e l ih =>
    obtain ⟨he, hl⟩ := List.forall_mem_cons.mp hl
    exact ih (h.below he) hl

theorem SameOff.write (h : SameOff b known known') (he : ¬ e.1 <+: b) :
    SameOff b (write get set known e) (PathOverlay.write get set known' e) where
  same := fun p hp => write_congr (h.same p hp)
  above := fun p hp hne => write_eq_none (fun hep => he (hep.trans hp)) (h.above p hp hne)

/-- A write at `b` or above makes up for the difference. -/
theorem SameOff.write_covering (h : SameOff b known known') (he : e.1 <+: b) :
    PathOverlay.write get set known e = PathOverlay.write get set known' e := by
  funext p
  by_cases hp : b <+: p
  · rw [write_at_or_below (he.trans hp), write_at_or_below (he.trans hp)]
  · exact write_congr (h.same p hp)

theorem SameOff.writes (h : SameOff b known known') (hl : ∀ e ∈ l, ¬ e.1 <+: b) :
    SameOff b (writes get set known l) (PathOverlay.writes get set known' l) := by
  induction l generalizing known known' with
  | nil => exact h
  | cons e l ih =>
    obtain ⟨he, hl⟩ := List.forall_mem_cons.mp hl
    exact ih (h.write he) hl

theorem SameOff.writes_covering (h : SameOff b known known') (hl : ∃ e ∈ l, e.1 <+: b) :
    PathOverlay.writes get set known l = PathOverlay.writes get set known' l := by
  induction l generalizing known known' with
  | nil => exact absurd hl (by simp)
  | cons e l ih =>
    by_cases he : e.1 <+: b
    · exact congrArg (PathOverlay.writes get set · l) (h.write_covering he)
    · refine ih (h.write he) ?_
      obtain ⟨e', hmem, hcover⟩ := hl
      rcases List.mem_cons.mp hmem with rfl | hmem
      · exact absurd hcover he
      · exact ⟨e', hmem, hcover⟩

section Forget
variable {before removed after : List (List κ × α)}

theorem sameOff_removed (above : ∀ e ∈ before, e.1 <+: b → b <+: e.1)
    (below : ∀ e ∈ removed, b <+: e.1) :
    SameOff b (writes get set unknown (before ++ removed)) (writes get set unknown before) := by
  rw [writes_append]
  refine SameOff.writes_below ⟨fun _ _ => rfl, fun p hp hne => ?_⟩ below
  refine writes_eq_none (fun e he hep => ?_) rfl
  exact not_prefix_of_above hp hne ((above e he (hep.trans hp)).trans hep)

/-- Writes at `b` and below are forgotten once a later write covers `b`, unless something was
known above `b` before. -/
theorem writes_covered (above : ∀ e ∈ before, e.1 <+: b → b <+: e.1)
    (below : ∀ e ∈ removed, b <+: e.1) (covered : ∃ e ∈ after, e.1 <+: b) :
    writes get set unknown (before ++ removed ++ after) =
      writes get set unknown (before ++ after) := by
  rw [writes_append]
  refine Eq.trans ?_ writes_append.symm
  exact (sameOff_removed above below).writes_covering covered

/-- Where no other write is at `b`, above it or below it, the writes at `b` and below are all that
is known there. -/
theorem writes_alone (before_apart : ∀ e ∈ before, Apart e.1 b)
    (after_apart : ∀ e ∈ after, Apart e.1 b) (below : ∀ e ∈ removed, b <+: e.1)
    (p : List κ) : writes get set unknown (before ++ after) p =
      if ∃ e ∈ removed, e.1 <+: p then none
      else writes get set unknown (before ++ removed ++ after) p := by
  by_cases hp : b <+: p
  · have hbefore : ∀ e ∈ before, Apart e.1 p := fun e he => (before_apart e he).below hp
    have hafter : ∀ e ∈ after, Apart e.1 p := fun e he => (after_apart e he).below hp
    rw [writes_append, writes_apart hafter, writes_apart hbefore]
    split
    · rfl
    · next hnone =>
      rw [writes_append, writes_apart hafter]
      refine (writes_eq_none (fun e he hep => ?_) rfl).symm
      rcases List.mem_append.mp he with he | he
      · exact (hbefore e he).1 hep
      · exact hnone ⟨e, he, hep⟩
  · have hnone : ¬ ∃ e ∈ removed, e.1 <+: p := fun ⟨e, he, hep⟩ => hp ((below e he).trans hep)
    have off : SameOff b (writes get set (writes get set unknown (before ++ removed)) after)
        (writes get set (writes get set unknown before) after) :=
      (sameOff_removed (fun e he hcover => absurd hcover (before_apart e he).1) below).writes
        fun e he => (after_apart e he).1
    have same := off.same p hp
    rw [← writes_append, ← writes_append] at same
    rw [if_neg hnone, same]

end Forget

end PathOverlay
