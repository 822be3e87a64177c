import AstroAR.CompoundWrites
import Mathlib.Data.List.Pairwise

/-!
# The tree that is made of a list of writes

`layerTreeFromWrites:filter:treeRoot:` puts the records that a filter takes into
one compound write, as far as they write at a root, below it or above it.
-/

namespace AstroAR

open SortedEntries Std FNode PathOverlay

universe u v

namespace FWriteRecord
variable {κ : Type u} {β : Type v}

/-- The snapshots that a record writes, each with its path. -/
def elements (record : FWriteRecord κ β) : List (List κ × FNode κ β) :=
  match record.write with
  | .overwrite node => [(record.path, node)]
  | .merge changedChildren => changedChildren.writesAt record.path

/-- The data of a record. -/
def WellFormed [FKey κ] (record : FWriteRecord κ β) : Prop :=
  Plain record.path ∧ match record.write with
    | .overwrite node => node.Proper
    | .merge changedChildren => changedChildren.writeTree.Layered

variable {record : FWriteRecord κ β} {e : List κ × FNode κ β}

theorem path_isPrefix (he : e ∈ record.elements) : record.path <+: e.1 := by
  unfold elements at he
  split at he
  · cases List.mem_singleton.mp he
    exact List.prefix_rfl
  · obtain ⟨e', _, rfl⟩ := List.mem_map.mp he
    exact List.prefix_append _ _

variable [FKey κ]

theorem WellFormed.elements_mem (h : record.WellFormed) :
    ∀ e ∈ record.elements, Plain e.1 ∧ e.2.Proper := by
  obtain ⟨plain, hwrite⟩ := h
  intro e he
  unfold elements at he
  split at he
  · next node hnode =>
    rw [hnode] at hwrite
    rw [List.mem_singleton.mp he]
    exact ⟨plain, hwrite⟩
  · next m hm =>
    rw [hm] at hwrite
    exact FCompoundWrite.writesAt_mem hwrite plain e he

theorem WellFormed.elements_apart (h : record.WellFormed) :
    record.elements.Pairwise fun a b => Apart a.1 b.1 := by
  obtain ⟨_, hwrite⟩ := h
  unfold elements
  split
  · exact List.pairwise_singleton _ _
  · next m hm =>
    rw [hm] at hwrite
    refine List.pairwise_map.mpr (hwrite.forEach_apart.imp fun hab => ?_)
    simpa [Apart] using hab

end FWriteRecord

namespace FWriteTree
open FImmutableTree FCompoundWrite
variable {κ : Type u} {β : Type v} [FKey κ] [DecidableEq κ] {c : FCompoundWrite κ β}
  {record : FWriteRecord κ β} {overlay : Overlay κ (FNode κ β)} {t : List κ}

/-- To add the snapshots of a record one by one is to add the record. -/
def addAll (visibleWrites : FCompoundWrite κ β) (l : List (List κ × FNode κ β)) :
    FCompoundWrite κ β := l.foldl (fun w e => w.addWrite e.2 e.1) visibleWrites

/-- Where the root of the view lies below the path of a merge, it is a child of it, and so are the
paths that the merge writes. -/
def Direct (treeRoot : List κ) (record : FWriteRecord κ β) : Prop :=
  ∀ m, record.write = .merge m → ∀ rest, treeRoot = record.path ++ rest → rest ≠ [] →
    rest.length ≤ 1 ∧ ∀ e ∈ m.writeTree.forEach, e.1.length ≤ 1

omit [FKey κ] [DecidableEq κ] in
theorem direct_root (record : FWriteRecord κ β) : Direct [] record := fun _ _ _ hroot hne =>
  absurd (List.append_eq_nil_iff.mp hroot.symm).2 hne

/-- Writes that are added below the root. -/
theorem addAll_below (hc : c.writeTree.Layered) {l : List (List κ × FNode κ β)}
    (hl : ∀ e ∈ l, Plain e.1 ∧ e.2.Proper)
    (h : ∀ p, Plain p → known c.writeTree p = overlay (t ++ p)) :
    (addAll c l).writeTree.Layered ∧ ∀ p, Plain p → known (addAll c l).writeTree p =
      writes getChild updateChild overlay (l.map fun e => (t ++ e.1, e.2)) (t ++ p) := by
  obtain ⟨layered, hknown⟩ := addWrites_spec hc hl
  refine ⟨layered, fun p hp => ?_⟩
  rw [writes_below]
  exact (hknown p hp).trans (writes_congr (h p hp) l)

/-- A snapshot that is written at the root. -/
theorem addWrite_root {x : FNode κ β} (hx : x.Proper) :
    (c.addWrite x []).writeTree.Layered ∧ ∀ p,
      known (c.addWrite x []).writeTree p = some (getChild p x) :=
  ⟨.value hx, known_value x []⟩

omit [FKey κ] [DecidableEq κ] in
/-- A path of at most one key other than `k`. -/
theorem apart_child {q p : List κ} {k : κ} (hlen : q.length ≤ 1) (hnot : ¬ q <+: [k]) :
    Apart q ([k] ++ p) := by
  cases q with
  | nil => exact absurd List.nil_prefix hnot
  | cons k' q =>
    have hq : q = [] := List.length_eq_zero_iff.mp (by simpa using hlen)
    subst hq
    have hk : k' ≠ k := fun heq => hnot (heq ▸ List.prefix_rfl)
    exact apart_cons hk

/-- A merge one key above the root either has a snapshot there or says nothing about it. -/
theorem layerMerge_above {m : FCompoundWrite κ β} {path : List κ} {k : κ} {writeId : ℤ}
    {visible : Bool} (hc : c.writeTree.Layered) (hm : m.writeTree.Layered) (hk : Plain [k])
    (shallow : ∀ e ∈ m.writeTree.forEach, e.1.length ≤ 1)
    (h : ∀ p, Plain p → known c.writeTree p = overlay (path ++ [k] ++ p)) :
    (layerWrite (path ++ [k]) c ⟨path, .merge m, writeId, visible⟩).writeTree.Layered ∧
      ∀ p, Plain p →
        known (layerWrite (path ++ [k]) c ⟨path, .merge m, writeId, visible⟩).writeTree p =
          writes getChild updateChild overlay (m.writesAt path) (path ++ [k] ++ p) := by
  have hdrop : FPath.relativePathFrom path (path ++ [k]) = [k] := List.drop_left
  have hne : ¬ path ++ [k] <+: path := by
    intro h
    have hlen := h.length_le
    simp only [List.length_append, List.length_cons, List.length_nil] at hlen
    omega
  have hbelow : ∀ p, writes getChild updateChild overlay (m.writesAt path) (path ++ [k] ++ p) =
      writes getChild updateChild (fun q => overlay (path ++ q)) m.writeTree.forEach
        ([k] ++ p) := by
    intro p
    rw [List.append_assoc]
    exact writes_below path ([k] ++ p)
  simp only [layerWrite, if_neg hne, List.prefix_append, if_true, hdrop]
  cases hchild : m.completeNodeAtPath [k] with
  | some child =>
    obtain ⟨hproper, hknown⟩ := known_append hm hk hchild
    obtain ⟨layered, hadded⟩ := addWrite_root (c := c) hproper
    refine ⟨layered, fun p _ => (hadded p).trans ?_⟩
    have hcovered : ∃ e ∈ m.writeTree.forEach, e.1 <+: [k] ++ p := by
      by_contra hnone
      have hnone : known m.writeTree ([k] ++ p) = none := by
        rw [hm.known_eq_writes, writes_eq_none_iff rfl]
        exact fun e he h => hnone ⟨e, he, h⟩
      cases (hknown p).symm.trans hnone
    rw [hbelow, ← hknown, hm.known_eq_writes]
    exact (writes_eq_of_covered hcovered).symm
  | none =>
    refine ⟨hc, fun p hp => (h p hp).trans ?_⟩
    have hnone : known m.writeTree [k] = none := hchild
    rw [hm.known_eq_writes, writes_eq_none_iff rfl] at hnone
    rw [hbelow, writes_apart, List.append_assoc]
    exact fun e he => apart_child (shallow e he) (hnone e he)

theorem layerWrite_above (hc : c.writeTree.Layered) (hrecord : record.WellFormed) (plain : Plain t)
    (habove : record.path <+: t) (hne : ¬ t <+: record.path) (direct : Direct t record)
    (h : ∀ p, Plain p → known c.writeTree p = overlay (t ++ p)) :
    (layerWrite t c record).writeTree.Layered ∧ ∀ p, Plain p →
      known (layerWrite t c record).writeTree p =
        writes getChild updateChild overlay record.elements (t ++ p) := by
  obtain ⟨path, write, writeId, visible⟩ := record
  obtain ⟨rest, rfl⟩ := habove
  obtain ⟨_, hrest⟩ := plain_append.mp plain
  obtain ⟨_, hwrite⟩ := hrecord
  have hnil : rest ≠ [] := by
    rintro rfl
    exact hne (by simp)
  cases write with
  | overwrite node =>
    have hdrop : FPath.relativePathFrom path (path ++ rest) = rest := List.drop_left
    simp only at hne
    simp only [layerWrite, if_neg hne, List.prefix_append, if_true, hdrop]
    obtain ⟨layered, hknown⟩ := addWrite_root (c := c) (hwrite.getChild hrest)
    refine ⟨layered, fun p _ => (hknown p).trans ?_⟩
    refine Eq.trans ?_ (write_at_or_below ?_).symm
    · rw [List.append_assoc, List.drop_left, getChild_append hrest]
    · rw [List.append_assoc]
      exact List.prefix_append _ _
  | merge m =>
    obtain ⟨hlength, hshallow⟩ := direct m rfl rest rfl hnil
    obtain ⟨k, rfl⟩ : ∃ k, rest = [k] := by
      cases rest with
      | nil => exact absurd rfl hnil
      | cons k rest => exact ⟨k, by simpa using hlength⟩
    exact layerMerge_above hc hwrite hrest hshallow h

/-- What a record writes below the root is added. -/
theorem layerWrite_spec (hc : c.writeTree.Layered) (hrecord : record.WellFormed) (plain : Plain t)
    (direct : Direct t record) (h : ∀ p, Plain p → known c.writeTree p = overlay (t ++ p)) :
    (layerWrite t c record).writeTree.Layered ∧ ∀ p, Plain p →
      known (layerWrite t c record).writeTree p =
        writes getChild updateChild overlay record.elements (t ++ p) := by
  by_cases hbelow : t <+: record.path
  · obtain ⟨path, write, writeId, visible⟩ := record
    obtain ⟨rest, rfl⟩ := hbelow
    obtain ⟨_, hrest⟩ := plain_append.mp hrecord.1
    have hdrop : FPath.relativePathFrom t (t ++ rest) = rest := List.drop_left
    cases write with
    | overwrite node =>
      simp only [layerWrite, List.prefix_append, if_true, hdrop]
      refine addAll_below (l := [(rest, node)]) hc (fun e he => ?_) h
      rw [List.mem_singleton.mp he]
      exact ⟨hrest, hrecord.2⟩
    | merge m =>
      have helements : m.writesAt (t ++ rest) =
          (m.writesAt rest).map fun e => (t ++ e.1, e.2) := by
        simp [writesAt]
      simp only [layerWrite, List.prefix_append, if_true, hdrop, FWriteRecord.elements, helements,
        addCompoundWrite_eq]
      exact addAll_below hc (writesAt_mem hrecord.2 hrest) h
  · by_cases habove : record.path <+: t
    · exact layerWrite_above hc hrecord plain habove hbelow direct h
    · have hstays : layerWrite t c record = c := by
        unfold layerWrite
        split <;> simp only [if_neg hbelow, if_neg habove]
      rw [hstays]
      refine ⟨hc, fun p hp => (h p hp).trans (writes_apart fun e he => ?_).symm⟩
      have hpath : Apart t e.1 :=
        Apart.below ⟨hbelow, habove⟩ (FWriteRecord.path_isPrefix he)
      exact hpath.symm.below (List.prefix_append _ _)

/-- The records one after the other, each below, above or apart from the root. -/
theorem layerWrites_spec {l : List (FWriteRecord κ β)} (hc : c.writeTree.Layered)
    (hl : ∀ record ∈ l, record.WellFormed ∧ Direct t record) (plain : Plain t)
    (h : ∀ p, Plain p → known c.writeTree p = overlay (t ++ p)) :
    (l.foldl (layerWrite t) c).writeTree.Layered ∧ ∀ p, Plain p →
      known (l.foldl (layerWrite t) c).writeTree p =
        writes getChild updateChild overlay (l.flatMap FWriteRecord.elements) (t ++ p) := by
  induction l generalizing c overlay with
  | nil => exact ⟨hc, h⟩
  | cons record l ih =>
    obtain ⟨⟨hrecord, direct⟩, hl⟩ := List.forall_mem_cons.mp hl
    obtain ⟨hc', h'⟩ := layerWrite_spec hc hrecord plain direct h
    rw [List.flatMap_cons, writes_append]
    exact ih hc' hl h'

/-- The tree knows what the records that the filter takes make known from the root on. -/
theorem layerTree_spec {l : List (FWriteRecord κ β)} {filter : FWriteRecord κ β → Bool}
    (records : ∀ record ∈ l, record.WellFormed)
    (direct : ∀ record ∈ l, filter record = true → Direct t record) (plain : Plain t) :
    (layerTree l filter t).writeTree.Layered ∧ ∀ p, Plain p →
      known (layerTree l filter t).writeTree p =
        writes getChild updateChild unknown ((l.filter filter).flatMap FWriteRecord.elements)
          (t ++ p) := by
  unfold layerTree
  rw [← List.foldl_filter]
  refine layerWrites_spec layered_empty (fun record h => ?_) plain fun p _ => known_empty p
  obtain ⟨hmem, hfilter⟩ := List.mem_filter.mp h
  exact ⟨records record hmem, direct record hmem hfilter⟩

end FWriteTree

end AstroAR
