import AstroAR.LayerTree
import AstroAR.Runs
import Mathlib.Data.List.Pairwise

/-!
# Pending writes and what the app sees of them

As long as writes are taken out of the tree in an order that the shortcuts of
`removeWriteId:` were made for, `visibleWrites` knows at each path what the
pending visible writes make known, put in one after the other. A snapshot of the
server is then shown with the pending writes over it and nothing else changed.
-/

namespace AstroAR

open SortedEntries Std FNode PathOverlay Runs

universe u v

inductive WriteAction (κ : Type u) (β : Type v) where
  | overwrite (path : List κ) (newData : FNode κ β) (writeId : ℤ) (visible : Bool)
  | merge (path : List κ) (changedChildren : FCompoundWrite κ β) (writeId : ℤ)
  | remove (writeId : ℤ)
  | removeAll

namespace FWriteTree
variable {κ : Type u} {β : Type v} [FKey κ] [DecidableEq κ]

def step (s : FWriteTree κ β) : WriteAction κ β → Option (FWriteTree κ β)
  | .overwrite path newData writeId visible => s.addOverwriteAtPath path newData writeId visible
  | .merge path changedChildren writeId => s.addMergeAtPath path changedChildren writeId
  | .remove writeId => (s.removeWriteId writeId).map Prod.snd
  | .removeAll => some s.removeAllWrites

/-- The visible ones of some writes, the oldest one first. -/
def shown (l : List (FWriteRecord κ β)) : List (List κ × FNode κ β) :=
  (l.filter FWriteRecord.visible).flatMap FWriteRecord.elements

/-- What the pending visible writes make known. -/
def pending (s : FWriteTree κ β) : Overlay κ (FNode κ β) :=
  writes getChild updateChild unknown (shown s.allWrites)

/-- `visibleWrites` knows what the pending visible writes make known. -/
structure Sound (s : FWriteTree κ β) : Prop where
  layered : s.visibleWrites.writeTree.Layered
  records : ∀ record ∈ s.allWrites, record.WellFormed
  known : ∀ p, Plain p → s.visibleWrites.completeNodeAtPath p = s.pending p

variable {s : FWriteTree κ β} {record w : FWriteRecord κ β}
  {l l' before after : List (FWriteRecord κ β)} {p : List κ}

omit [FKey κ] [DecidableEq κ] in
theorem shown_append : shown (l ++ l') = shown l ++ shown l' := by
  unfold shown
  rw [List.filter_append, List.flatMap_append]

omit [FKey κ] [DecidableEq κ] in
theorem shown_single : shown [record] = if record.visible then record.elements else [] := by
  unfold shown
  cases h : record.visible <;> simp [h]

omit [FKey κ] [DecidableEq κ] in
theorem mem_shown {e : List κ × FNode κ β} :
    e ∈ shown l ↔ ∃ record ∈ l, record.visible = true ∧ e ∈ record.elements := by
  unfold shown
  simp [List.mem_flatMap, and_assoc]

theorem Sound.added (hs : s.Sound) (hrecord : record.WellFormed) (lastWriteId : ℤ) :
    Sound ⟨if record.visible then addAll s.visibleWrites record.elements else s.visibleWrites,
      s.allWrites ++ [record], lastWriteId⟩ := by
  have hknown : ∀ p, Plain p → s.visibleWrites.completeNodeAtPath p = s.pending p := hs.known
  obtain ⟨layered, hadd⟩ := FCompoundWrite.addWrites_spec hs.layered hrecord.elements_mem
  constructor
  · show (ite _ _ _ : FCompoundWrite κ β).writeTree.Layered
    split
    · exact layered
    · exact hs.layered
  · intro r hr
    rcases List.mem_append.mp hr with hr | hr
    · exact hs.records r hr
    · rw [List.mem_singleton.mp hr]
      exact hrecord
  · intro p hp
    unfold pending
    rw [shown_append, shown_single, writes_append]
    split
    · refine (hadd p hp).trans (writes_congr (hknown p hp) _)
    · exact hknown p hp

/-! ### Removing a write -/

omit [FKey κ] in
theorem recordContainsPath_iff : recordContainsPath record p = true ↔
    ∃ e ∈ record.elements, e.1 <+: p := by
  obtain ⟨path, write, writeId, visible⟩ := record
  cases write with
  | overwrite node => simp [recordContainsPath, FWriteRecord.elements]
  | merge m =>
    simp only [recordContainsPath, FWriteRecord.elements, FCompoundWrite.writesAt, List.any_eq_true,
      decide_eq_true_eq]
    constructor
    · rintro ⟨e, he, hprefix⟩
      exact ⟨_, List.mem_map.mpr ⟨e, he, rfl⟩, hprefix⟩
    · rintro ⟨_, he, hprefix⟩
      obtain ⟨e', he', rfl⟩ := List.mem_map.mp he
      exact ⟨e', he', hprefix⟩

omit [FKey κ] in
theorem overlaps_hidden (w : FWriteRecord κ β) (index : ℕ) (others : List (FWriteRecord κ β))
    (i : ℕ) (overlapping : Bool) :
    overlaps w index others i (false, overlapping) = (false, overlapping) := by
  cases i <;> rfl

theorem mem_take_succ {α : Type*} {a cur : α} {i : ℕ} {l : List α} (hcur : l[i]? = some cur)
    (h : a ∈ l.take (i + 1)) : a ∈ l.take i ∨ a = cur := by
  rw [List.take_add_one, hcur, Option.toList_some] at h
  exact (List.mem_append.mp h).imp_right List.mem_singleton.mp

theorem mem_drop_take_succ {α : Type*} {a cur : α} {index i : ℕ} {l : List α} (hi : i ≤ l.length)
    (hcur : l[i]? = some cur) (h : a ∈ (l.take (i + 1)).drop index) :
    a ∈ (l.take i).drop index ∨ (index ≤ i ∧ a = cur) := by
  rw [List.take_add_one, hcur, Option.toList_some, List.drop_append, List.length_take_of_le hi] at h
  refine (List.mem_append.mp h).imp_right fun h => ?_
  by_cases hle : index ≤ i
  · rw [Nat.sub_eq_zero_of_le hle] at h
    exact ⟨hle, List.mem_singleton.mp h⟩
  · rw [List.drop_of_length_le (by simp; omega)] at h
    cases h

omit [FKey κ] in
/-- The loop ends with `false` only at a later visible write that covers the path. -/
theorem covered_of_overlaps {index i : ℕ} {others : List (FWriteRecord κ β)}
    (hi : i ≤ others.length) {overlapping : Bool}
    (h : (overlaps w index others i (true, overlapping)).1 = false) :
    ∃ r ∈ others.drop index, r.visible = true ∧ ∃ e ∈ r.elements, e.1 <+: w.path := by
  induction i generalizing overlapping with
  | zero => cases h
  | succ i ih =>
    obtain ⟨cur, hcur⟩ : ∃ cur, others[i]? = some cur := ⟨_, List.getElem?_eq_getElem hi⟩
    have hi' : i ≤ others.length := Nat.le_of_succ_le hi
    rw [overlaps, if_pos rfl, hcur] at h
    simp only at h
    split at h
    · next hvisible =>
      split at h
      · next hcovers =>
        refine ⟨cur, ?_, hvisible, recordContainsPath_iff.mp hcovers.2⟩
        refine List.mem_of_getElem? (i := i - index) ?_
        rw [List.getElem?_drop, Nat.add_sub_cancel' hcovers.1, hcur]
      · split at h
        · exact ih hi' h
        · exact ih hi' h
    · exact ih hi' h

omit [FKey κ] in
/-- Else it has met no such write, and it says whether a visible write is at the path or below. -/
theorem apart_of_overlaps {index i : ℕ} {others : List (FWriteRecord κ β)}
    (hi : i ≤ others.length) {overlapping b : Bool}
    (h : overlaps w index others i (true, overlapping) = (true, b)) :
    (∀ r ∈ (others.take i).drop index, r.visible = true → ∀ e ∈ r.elements, ¬ e.1 <+: w.path) ∧
      (b = false → overlapping = false ∧
        ∀ r ∈ others.take i, r.visible = true → ¬ w.path <+: r.path) := by
  induction i generalizing overlapping with
  | zero =>
    cases h
    exact ⟨by simp, fun h => ⟨h, by simp⟩⟩
  | succ i ih =>
    obtain ⟨cur, hcur⟩ : ∃ cur, others[i]? = some cur := ⟨_, List.getElem?_eq_getElem hi⟩
    have hi' : i ≤ others.length := Nat.le_of_succ_le hi
    rw [overlaps, if_pos rfl, hcur] at h
    simp only at h
    -- what the loop has found behind the current write, and what the current write adds to it
    have extend : ∀ overlapping', overlaps w index others i (true, overlapping') = (true, b) →
        (cur.visible = true → ¬ (index ≤ i ∧ recordContainsPath cur w.path = true)) →
        (overlapping' = false →
          overlapping = false ∧ (cur.visible = true → ¬ w.path <+: cur.path)) →
        (∀ r ∈ (others.take (i + 1)).drop index, r.visible = true →
          ∀ e ∈ r.elements, ¬ e.1 <+: w.path) ∧ (b = false → overlapping = false ∧
            ∀ r ∈ others.take (i + 1), r.visible = true → ¬ w.path <+: r.path) := by
      intro overlapping' h' uncovered hoverlap
      obtain ⟨apart, none⟩ := ih hi' h'
      refine ⟨fun r hr hvisible e he hprefix => ?_, fun hb => ?_⟩
      · rcases mem_drop_take_succ hi' hcur hr with hr | ⟨hle, rfl⟩
        · exact apart r hr hvisible e he hprefix
        · exact uncovered hvisible ⟨hle, recordContainsPath_iff.mpr ⟨e, he, hprefix⟩⟩
      · obtain ⟨hfalse, hnone⟩ := none hb
        refine ⟨(hoverlap hfalse).1, fun r hr hvisible => ?_⟩
        rcases mem_take_succ hcur hr with hr | rfl
        · exact hnone r hr hvisible
        · exact (hoverlap hfalse).2 hvisible
    split at h
    · next hvisible =>
      split at h
      · cases (overlaps_hidden ..).symm.trans h
      · next huncovered =>
        split at h
        · exact extend _ h (fun _ => huncovered) fun h => by cases h
        · next hpath => exact extend _ h (fun _ => huncovered) fun h => ⟨h, fun _ => hpath⟩
    · next hhidden =>
      exact extend _ h (fun h => absurd h hhidden) fun h' => ⟨h', fun h => absurd h hhidden⟩

omit [FKey κ] in
theorem overlapping_of_overlaps {index i : ℕ} {others : List (FWriteRecord κ β)}
    {wasVisible overlapping : Bool}
    (h : (overlaps w index others i (wasVisible, overlapping)).2 = true) :
    overlapping = true ∨ ∃ r ∈ others, r.visible = true ∧ w.path <+: r.path := by
  induction i generalizing wasVisible overlapping with
  | zero => exact .inl h
  | succ i ih =>
    rw [overlaps] at h
    split at h
    · split at h
      · next cur hcur =>
        split at h
        · next hvisible =>
          split at h
          · exact ih h
          · split at h
            · next hpath => exact .inr ⟨cur, List.mem_of_getElem? hcur, hvisible, hpath⟩
            · exact ih h
        · exact ih h
      · exact .inl h
    · exact .inl h

/-- What the removal of a visible write relies on. Nothing earlier was written strictly above its
path. Of the records whose own path is neither its path nor below, an earlier one writes nothing
there, and a later one writes there at its path only. And no hidden write is pending when another
visible record is at its path or below. -/
structure Removable (before : List (FWriteRecord κ β)) (w : FWriteRecord κ β)
    (after : List (FWriteRecord κ β)) : Prop where
  above : ∀ e ∈ shown before, e.1 <+: w.path → w.path <+: e.1
  earlier : ∀ r ∈ before, r.visible = true → ∀ e ∈ r.elements, w.path <+: e.1 → w.path <+: r.path
  later : ∀ r ∈ after, r.visible = true → ∀ e ∈ r.elements, w.path <+: e.1 →
    w.path <+: r.path ∨ e.1 <+: w.path
  visible : (∃ r ∈ before ++ after, r.visible = true ∧ w.path <+: r.path) →
    ∀ r ∈ before ++ after, r.visible = true

omit [DecidableEq κ] in
theorem withoutWrite_eq (visibleWrites : FCompoundWrite κ β) (w : FWriteRecord κ β) :
    withoutWrite visibleWrites w =
      w.elements.foldl (fun visibleWrites e => visibleWrites.removeWriteAtPath e.1)
        visibleWrites := by
  obtain ⟨path, write, writeId, visible⟩ := w
  cases write with
  | overwrite node => rfl
  | merge m =>
    simp only [withoutWrite, FWriteRecord.elements, FCompoundWrite.writesAt]
    rw [List.foldl_map]

/-- Writes with nothing known above them are removed one after the other. -/
theorem removeAll_spec {visibleWrites : FCompoundWrite κ β}
    (hlayered : visibleWrites.writeTree.Layered) {l : List (List κ × FNode κ β)}
    (plain : ∀ e ∈ l, Plain e.1)
    (above : ∀ e ∈ l, ∀ p, p <+: e.1 → p ≠ e.1 → visibleWrites.completeNodeAtPath p = none) :
    (l.foldl (fun w e => w.removeWriteAtPath e.1) visibleWrites).writeTree.Layered ∧ ∀ p,
      (l.foldl (fun w e => w.removeWriteAtPath e.1) visibleWrites).completeNodeAtPath p =
        if ∃ e ∈ l, e.1 <+: p then none else visibleWrites.completeNodeAtPath p := by
  induction l generalizing visibleWrites with
  | nil => exact ⟨hlayered, fun p => by simp⟩
  | cons e l ih =>
    obtain ⟨plaine, plainl⟩ := List.forall_mem_cons.mp plain
    obtain ⟨abovee, abovel⟩ := List.forall_mem_cons.mp above
    obtain ⟨hlayered', hknown⟩ :=
      FCompoundWrite.removeWriteAtPath_spec hlayered plaine abovee
    have hknown' : ∀ p, (visibleWrites.removeWriteAtPath e.1).completeNodeAtPath p =
        if e.1 <+: p then none else visibleWrites.completeNodeAtPath p := hknown
    obtain ⟨hlayered'', hknown''⟩ := ih hlayered' plainl fun e' he' p hp hne => by
      rw [hknown', abovel e' he' p hp hne, ite_self]
    refine ⟨hlayered'', fun p => (hknown'' p).trans ?_⟩
    rw [hknown']
    by_cases he : e.1 <+: p
    · have hcons : ∃ e' ∈ e :: l, e'.1 <+: p := ⟨e, List.mem_cons_self, he⟩
      rw [if_pos he, if_pos hcons, ite_self]
    · have hcons : (∃ e' ∈ e :: l, e'.1 <+: p) ↔ ∃ e' ∈ l, e'.1 <+: p := by
        constructor
        · rintro ⟨e', hmem, hp⟩
          rcases List.mem_cons.mp hmem with rfl | hmem
          · exact absurd hp he
          · exact ⟨e', hmem, hp⟩
        · exact fun ⟨e', hmem, hp⟩ => ⟨e', List.mem_cons_of_mem _ hmem, hp⟩
      rw [if_neg he]
      simp only [hcons]

omit [FKey κ] [DecidableEq κ] in
theorem shown_around (hw : w.visible = true) :
    shown (before ++ w :: after) = shown before ++ w.elements ++ shown after := by
  rw [List.append_cons, shown_append, shown_append, shown_single, if_pos hw]

/-- A tree that is made anew of visible writes. -/
theorem reset_sound (records : ∀ record ∈ l, record.WellFormed)
    (visible : ∀ record ∈ l, record.visible = true) (visibleWrites : FCompoundWrite κ β)
    (lastWriteId : ℤ) : (resetTree ⟨visibleWrites, l, lastWriteId⟩).Sound := by
  obtain ⟨layered, hknown⟩ := layerTree_spec (t := []) records
    (fun r _ _ => direct_root r) List.not_mem_nil
  refine ⟨layered, records, fun p hp => (hknown p hp).trans ?_⟩
  have hshown : (l.filter fun _ => true) = l.filter FWriteRecord.visible := by
    rw [List.filter_eq_self.mpr visible, List.filter_eq_self.mpr fun _ _ => rfl]
  rw [hshown]
  rfl

omit [FKey κ] [DecidableEq κ] in
/-- Without an overlap, the other writes are neither above the path nor at it nor below it. -/
theorem Removable.apart (hr : Removable before w after)
    (covers : ∀ r ∈ after, r.visible = true → ∀ e ∈ r.elements, ¬ e.1 <+: w.path)
    (none : ∀ r ∈ before ++ after, r.visible = true → ¬ w.path <+: r.path) :
    (∀ e ∈ shown before, Apart e.1 w.path) ∧
      ∀ e ∈ shown after, Apart e.1 w.path := by
  constructor
  · intro e he
    obtain ⟨r, hr', hvisible, he'⟩ := mem_shown.mp he
    have hbelow : ¬ w.path <+: e.1 := fun h =>
      none r (List.mem_append_left _ hr') hvisible (hr.earlier r hr' hvisible e he' h)
    exact ⟨fun h => hbelow (hr.above e he h), hbelow⟩
  · intro e he
    obtain ⟨r, hr', hvisible, he'⟩ := mem_shown.mp he
    refine ⟨covers r hr' hvisible e he', fun h => ?_⟩
    rcases hr.later r hr' hvisible e he' h with h | h
    · exact none r (List.mem_append_right _ hr') hvisible h
    · exact covers r hr' hvisible e he' h

/-- Above the paths that a write without an overlap writes, nothing is known. -/
theorem nothing_above (hw : w.WellFormed) {p : List κ} {e : List κ × FNode κ β}
    {others others' : List (List κ × FNode κ β)}
    (apart : ∀ e ∈ others, Apart e.1 w.path)
    (apart' : ∀ e ∈ others', Apart e.1 w.path) (he : e ∈ w.elements)
    (hp : p <+: e.1) (hne : p ≠ e.1) :
    writes getChild updateChild unknown (others ++ w.elements ++ others') p = none := by
  have hpath := FWriteRecord.path_isPrefix he
  have other : ∀ e' : List κ × FNode κ β, Apart e'.1 w.path → ¬ e'.1 <+: p :=
    fun e' he' h => (he'.below hpath).1 (h.trans hp)
  refine writes_eq_none (fun e' he' h => ?_) rfl
  rcases List.mem_append.mp he' with he' | he'
  · rcases List.mem_append.mp he' with he' | he'
    · exact other e' (apart e' he') h
    · by_cases heq : e' = e
      · subst heq
        exact hne (hp.eq_of_length_le h.length_le)
      · exact (hw.elements_apart.forall he' he heq).1 (h.trans hp)
  · exact other e' (apart' e' he') h

/-! ### The ways in which a write is removed -/

omit [FKey κ] [DecidableEq κ] in
theorem eraseIdx_others (hall : s.allWrites = before ++ w :: after) :
    s.allWrites.eraseIdx before.length = before ++ after := by
  rw [hall, List.eraseIdx_append_of_length_le le_rfl, Nat.sub_self, List.eraseIdx_cons_zero]

theorem Sound.others (hs : s.Sound) (hall : s.allWrites = before ++ w :: after) :
    ∀ r ∈ before ++ after, r.WellFormed := by
  intro r hr
  refine hs.records r ?_
  rw [hall]
  simp only [List.mem_append, List.mem_cons] at hr ⊢
  exact hr.imp_right .inr

theorem pending_around (hall : s.allWrites = before ++ w :: after) (hw : w.visible = true) :
    s.pending = writes getChild updateChild unknown
      (shown before ++ w.elements ++ shown after) := by
  unfold pending
  rw [hall, shown_around hw]

/-- A visible write that a later one covers leaves the tree as it is. -/
theorem Sound.without_covered (hs : s.Sound) (hall : s.allWrites = before ++ w :: after)
    (hw : w.visible = true) (hr : Removable before w after)
    (covered : ∃ e ∈ shown after, e.1 <+: w.path) :
    Sound ⟨s.visibleWrites, before ++ after, s.lastWriteId⟩ := by
  refine ⟨hs.layered, hs.others hall, fun p hp => (hs.known p hp).trans ?_⟩
  have below : ∀ e ∈ w.elements, w.path <+: e.1 := fun e he => FWriteRecord.path_isPrefix he
  rw [pending_around hall hw, writes_covered hr.above below covered, ← shown_append]
  rfl

/-- A visible write that no other one touches is taken out of the tree. -/
theorem Sound.without_alone (hs : s.Sound) (hall : s.allWrites = before ++ w :: after)
    (hw : w.visible = true) (before_apart : ∀ e ∈ shown before, Apart e.1 w.path)
    (after_apart : ∀ e ∈ shown after, Apart e.1 w.path) :
    Sound ⟨withoutWrite s.visibleWrites w, before ++ after, s.lastWriteId⟩ := by
  have hwell : w.WellFormed := hs.records w (by rw [hall]; simp)
  have below : ∀ e ∈ w.elements, w.path <+: e.1 := fun e he => FWriteRecord.path_isPrefix he
  have hpending := pending_around hall hw
  obtain ⟨layered, hknown⟩ := removeAll_spec hs.layered
    (fun e he => (hwell.elements_mem e he).1) fun e he p hp hne => by
      rw [hs.known p (Plain.of_isPrefix (hwell.elements_mem e he).1 hp), hpending]
      exact nothing_above hwell before_apart after_apart he hp hne
  rw [withoutWrite_eq]
  refine ⟨layered, hs.others hall, fun p hp => (hknown p).trans ?_⟩
  rw [hs.known p hp, hpending]
  refine (writes_alone before_apart after_apart below p).symm.trans ?_
  rw [← shown_append]
  rfl

/-- The three ends of the loop over the other writes. -/
theorem Sound.removed_visible (hs : s.Sound) (hall : s.allWrites = before ++ w :: after)
    (hw : w.visible = true) (hr : Removable before w after) :
    (s.removeWriteAt before.length w).2.Sound := by
  cases hov : overlaps w before.length (before ++ after) (before ++ after).length (true, false) with
  | mk wasVisible overlapping =>
    simp only [removeWriteAt, eraseIdx_others hall, hw, hov]
    cases wasVisible with
    | false =>
      obtain ⟨r, hr', hvisible, e, he, hcovers⟩ :=
        covered_of_overlaps (w := w) le_rfl (congrArg Prod.fst hov)
      rw [List.drop_left] at hr'
      exact hs.without_covered hall hw hr ⟨e, mem_shown.mpr ⟨r, hr', hvisible, he⟩, hcovers⟩
    | true =>
      cases overlapping with
      | true =>
        have hvisible := hr.visible ((overlapping_of_overlaps (congrArg Prod.snd hov)).resolve_left
          Bool.false_ne_true)
        exact reset_sound (hs.others hall) hvisible _ _
      | false =>
        obtain ⟨covers, none⟩ := apart_of_overlaps le_rfl hov
        rw [List.take_length, List.drop_left] at covers
        rw [List.take_length] at none
        obtain ⟨before_apart, after_apart⟩ := hr.apart covers (none rfl).2
        exact hs.without_alone hall hw before_apart after_apart

/-- A hidden write was never shown. -/
theorem Sound.removed_hidden (hs : s.Sound) (hall : s.allWrites = before ++ w :: after)
    (hw : w.visible = false) : (s.removeWriteAt before.length w).2.Sound := by
  have hpending : s.pending = writes getChild updateChild unknown (shown (before ++ after)) := by
    unfold pending
    rw [hall, List.append_cons, shown_append, shown_append, shown_single, hw,
      if_neg Bool.false_ne_true, List.append_nil, ← shown_append]
  simp only [removeWriteAt, eraseIdx_others hall, hw, overlaps_hidden]
  refine ⟨hs.layered, hs.others hall, fun p hp => (hs.known p hp).trans ?_⟩
  rw [hpending]
  rfl

theorem removeWriteId_cases {writeId : ℤ} {result : Bool × FWriteTree κ β}
    (h : s.removeWriteId writeId = some result) :
    ∃ before w after, s.allWrites = before ++ w :: after ∧ w.writeId = writeId ∧
      (∀ r ∈ before, r.writeId ≠ writeId) ∧ result = s.removeWriteAt before.length w := by
  unfold removeWriteId at h
  split at h
  · next index hindex =>
    obtain ⟨hlt, hid, hfirst⟩ := List.findIdx?_eq_some_iff_getElem.mp hindex
    rw [List.getElem?_eq_getElem hlt, Option.map_some, Option.some_inj] at h
    refine ⟨s.allWrites.take index, s.allWrites[index], s.allWrites.drop (index + 1), ?_, ?_, ?_,
      ?_⟩
    · rw [← List.drop_eq_getElem_cons hlt, List.take_append_drop]
    · exact of_decide_eq_true hid
    · intro r hr
      obtain ⟨j, hj, rfl⟩ := List.mem_take_iff_getElem.mp hr
      simpa using hfirst j (by omega)
    · rw [List.length_take_of_le hlt.le, h]
  · cases h

/-! ### Runs -/

/-- The steps after which `visibleWrites` is right. -/
def Allowed (s : FWriteTree κ β) : WriteAction κ β → Prop
  | .overwrite path newData _ _ => Plain path ∧ newData.Proper
  | .merge path changedChildren _ => Plain path ∧ changedChildren.writeTree.Layered
  | .remove writeId => ∀ before w after, s.allWrites = before ++ w :: after →
      w.writeId = writeId → (∀ r ∈ before, r.writeId ≠ writeId) → w.visible = true →
        Removable before w after
  | .removeAll => True

theorem Sound.step {s' : FWriteTree κ β} {a : WriteAction κ β} (hs : s.Sound) (ok : s.Allowed a)
    (h : s.step a = some s') : s'.Sound := by
  cases a with
  | overwrite path newData writeId visible =>
    simp only [FWriteTree.step, addOverwriteAtPath] at h
    split at h
    · cases h
      have hrecord : FWriteRecord.WellFormed ⟨path, .overwrite newData, writeId, visible⟩ := ok
      exact hs.added hrecord writeId
    · cases h
  | merge path changedChildren writeId =>
    simp only [FWriteTree.step, addMergeAtPath] at h
    split at h
    · cases h
      rw [FCompoundWrite.addCompoundWrite_eq]
      have hrecord : FWriteRecord.WellFormed ⟨path, .merge changedChildren, writeId, true⟩ := ok
      exact hs.added hrecord writeId
    · cases h
  | remove writeId =>
    obtain ⟨result, hremove, rfl⟩ := Option.map_eq_some_iff.mp h
    obtain ⟨before, w, after, hall, hid, hfirst, rfl⟩ := removeWriteId_cases hremove
    cases hw : w.visible with
    | false => exact hs.removed_hidden hall hw
    | true => exact hs.removed_visible hall hw (ok before w after hall hid hfirst hw)
  | removeAll =>
    cases h
    exact ⟨FImmutableTree.layered_empty, fun _ h => absurd h List.not_mem_nil,
      fun p _ => FImmutableTree.known_empty p⟩

/-- A merge at the root that writes deeper than a child is lost with an earlier write above it. -/
example : (do
    let s ← (init : FWriteTree ℕ ℕ).addOverwriteAtPath [1] (.leafNode 7 .emptyNode) 1 true
    let deep : FCompoundWrite ℕ ℕ :=
      FCompoundWrite.emptyWrite.addWrite (.leafNode 8 .emptyNode) [1, 2]
    let s ← s.addMergeAtPath [] deep 2
    let (_, s) ← s.removeWriteId 1
    pure ((s.visibleWrites.completeNodeAtPath [1, 2]).isSome, (s.pending [1, 2]).isSome)) =
      some (false, true) := rfl

/-- A tree that is made anew shows hidden writes, too. -/
example : (do
    let s ← (init : FWriteTree ℕ ℕ).addOverwriteAtPath [1] (.leafNode 7 .emptyNode) 1 true
    let s ← s.addOverwriteAtPath [1, 2] (.leafNode 8 .emptyNode) 2 true
    let s ← s.addOverwriteAtPath [3] (.leafNode 9 .emptyNode) 3 false
    let (_, s) ← s.removeWriteId 1
    pure ((s.visibleWrites.completeNodeAtPath [3]).isSome, (s.pending [3]).isSome)) =
      some (true, false) := rfl

end FWriteTree

end AstroAR
