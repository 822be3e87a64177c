import AstroAR.PendingWrites

/-!
# The data that a view is shown

A view has a path and a snapshot of the server there. The pending writes are put
over the snapshot either from `visibleWrites` or, where some of them are to be
left out or hidden ones to be taken, from a tree that is made for the view. All
this is said of writes, views and paths without a priority.
-/

namespace AstroAR

open SortedEntries Std FNode PathOverlay Runs

universe u v

namespace FWriteTree
open FImmutableTree FCompoundWrite
variable {κ : Type u} {β : Type v} [FKey κ] [DecidableEq κ] {s : FWriteTree κ β}
  {overlay overlay' : Overlay κ (FNode κ β)} {server n : FNode κ β} {t p : List κ}

/-- The records that a view reads. -/
def selects (writeIdsToExclude : Option (List ℤ)) (includeHiddenWrites : Bool)
    (record : FWriteRecord κ β) : Bool :=
  (record.visible || includeHiddenWrites) &&
    !(writeIdsToExclude.getD []).contains record.writeId

/-- What the records that a view reads make known. -/
def selected (s : FWriteTree κ β) (writeIdsToExclude : Option (List ℤ))
    (includeHiddenWrites : Bool) : Overlay κ (FNode κ β) :=
  writes getChild updateChild unknown
    ((s.allWrites.filter (selects writeIdsToExclude includeHiddenWrites)).flatMap
      FWriteRecord.elements)

theorem Applied.congr {r : List κ} (h : Applied r overlay server n)
    (same : ∀ p, Plain p → overlay p = overlay' p) : Applied r overlay' server n where
  proper := h.proper
  apart := h.apart
  written := fun p x hp hx => h.written p x hp ((same p hp).trans hx)
  untouched := fun p hp hnone => h.untouched p hp fun q hq =>
    (same _ (plain_append.mpr ⟨hp, hq⟩)).trans (hnone q hq)

/-- The oldest write is the one that is removed, merges write children only, and hidden writes are
not pending when the removal of an overlapping write makes the tree anew. -/
def InOrder (s : FWriteTree κ β) : WriteAction κ β → Prop
  | .overwrite path newData _ _ => Plain path ∧ newData.Proper
  | .merge path changedChildren _ => Plain path ∧ changedChildren.writeTree.Layered ∧
      ∀ e ∈ changedChildren.writeTree.forEach, e.1.length ≤ 1
  | .remove writeId => ∀ w rest, s.allWrites = w :: rest → w.writeId = writeId ∧
      (w.visible = true → (∃ r ∈ rest, r.visible = true ∧ w.path <+: r.path) →
        ∀ r ∈ rest, r.visible = true)
  | .removeAll => True

/-- A record writes at its path or at children of it. -/
def Shallow (record : FWriteRecord κ β) : Prop :=
  ∀ e ∈ record.elements, e.1.length ≤ record.path.length + 1

structure Orderly (s : FWriteTree κ β) : Prop where
  sound : s.Sound
  shallow : ∀ record ∈ s.allWrites, Shallow record

/-- In this order the shortcuts of a removal are right. -/
theorem Orderly.allowed {a : WriteAction κ β} (hs : s.Orderly) (ok : s.InOrder a) :
    s.Allowed a := by
  cases a with
  | overwrite => exact ok
  | merge => exact ⟨ok.1, ok.2.1⟩
  | removeAll => exact ok
  | remove writeId =>
    intro before w after hall hid hfirst hw
    have hbefore : before = [] := by
      cases before with
      | nil => rfl
      | cons r before => exact absurd (ok r _ hall).1 (hfirst r List.mem_cons_self)
    subst hbefore
    rw [List.nil_append] at hall
    constructor
    · exact fun _ h => absurd h List.not_mem_nil
    · exact fun _ h => absurd h List.not_mem_nil
    · intro r hr _ e he hprefix
      have hshallow : e.1.length ≤ r.path.length + 1 :=
        hs.shallow r (by rw [hall]; exact List.mem_cons_of_mem _ hr) e he
      rcases List.prefix_or_prefix_of_prefix hprefix (FWriteRecord.path_isPrefix he) with h | h
      · exact .inl h
      · by_cases hlen : w.path.length ≤ r.path.length
        · exact .inl (h.eq_of_length_le hlen ▸ List.prefix_rfl)
        · have heq : w.path = e.1 := hprefix.eq_of_length_le (by omega)
          exact .inr (heq ▸ List.prefix_rfl)
    · exact (ok w after hall).2 hw

omit [FKey κ] [DecidableEq κ] in
theorem shallow_overwrite {path : List κ} {node : FNode κ β} {writeId : ℤ} {visible : Bool} :
    Shallow ⟨path, .overwrite node, writeId, visible⟩ := by
  intro e he
  cases List.mem_singleton.mp he
  exact Nat.le_succ _

omit [FKey κ] [DecidableEq κ] in
theorem shallow_merge {path : List κ} {m : FCompoundWrite κ β} {writeId : ℤ} {visible : Bool}
    (hm : ∀ e ∈ m.writeTree.forEach, e.1.length ≤ 1) :
    Shallow ⟨path, .merge m, writeId, visible⟩ := by
  intro e he
  obtain ⟨e', he', rfl⟩ := List.mem_map.mp he
  have hlen := hm e' he'
  simp only [List.length_append]
  omega

theorem removeWriteAt_allWrites (index : ℕ) (w : FWriteRecord κ β) :
    (s.removeWriteAt index w).2.allWrites = s.allWrites.eraseIdx index := by
  unfold removeWriteAt
  simp only
  split <;> rfl

theorem Orderly.step {s' : FWriteTree κ β} {a : WriteAction κ β} (hs : s.Orderly)
    (ok : s.InOrder a) (h : s.step a = some s') : s'.Orderly := by
  refine ⟨hs.sound.step (hs.allowed ok) h, fun r hr => ?_⟩
  cases a with
  | overwrite path newData writeId visible =>
    simp only [FWriteTree.step, addOverwriteAtPath] at h
    split at h
    · cases h
      rcases List.mem_append.mp hr with hr | hr
      · exact hs.shallow r hr
      · exact List.mem_singleton.mp hr ▸ shallow_overwrite
    · cases h
  | merge path changedChildren writeId =>
    simp only [FWriteTree.step, addMergeAtPath] at h
    split at h
    · cases h
      rcases List.mem_append.mp hr with hr | hr
      · exact hs.shallow r hr
      · exact List.mem_singleton.mp hr ▸ shallow_merge ok.2.2
    · cases h
  | remove writeId =>
    obtain ⟨result, hremove, rfl⟩ := Option.map_eq_some_iff.mp h
    obtain ⟨before, w, after, _, _, _, rfl⟩ := removeWriteId_cases hremove
    rw [removeWriteAt_allWrites] at hr
    exact hs.shallow r (List.mem_of_mem_eraseIdx hr)
  | removeAll =>
    cases h
    exact absurd hr List.not_mem_nil

end FWriteTree

end AstroAR
