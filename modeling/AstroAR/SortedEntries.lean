import Mathlib.Data.List.Basic

/-!
# Entries in the order of their keys

A sorted list of entries is cut by a key into the entries below the key, the
entry at the key, if there is one, and the entries above it. The operations of a
sorted dictionary put these three together again; a search that goes left or
right at a pivot finds the same three.
-/

namespace SortedEntries

open Std

universe u v

variable {κ : Type u} {ν : Type v}

/-- The keys go up strictly. -/
def Ascending (cmp : κ → κ → Ordering) (l : List (κ × ν)) : Prop :=
  l.Pairwise fun a b => cmp a.1 b.1 = .lt

def below (cmp : κ → κ → Ordering) (k : κ) (l : List (κ × ν)) : List (κ × ν) :=
  l.filter fun e => cmp e.1 k == .lt

def found (cmp : κ → κ → Ordering) (k : κ) (l : List (κ × ν)) : Option (κ × ν) :=
  l.find? fun e => cmp e.1 k == .eq

def above (cmp : κ → κ → Ordering) (k : κ) (l : List (κ × ν)) : List (κ × ν) :=
  l.filter fun e => cmp e.1 k == .gt

def erase (cmp : κ → κ → Ordering) (k : κ) (l : List (κ × ν)) : List (κ × ν) :=
  below cmp k l ++ above cmp k l

/-- Where the key is found, `again` says which of the two equivalent keys stays. -/
def upsert (cmp : κ → κ → Ordering) (again : κ → κ) (k : κ) (v : ν) (l : List (κ × ν)) :
    List (κ × ν) :=
  below cmp k l ++ ((found cmp k l).elim k (fun e => again e.1), v) :: above cmp k l

def lookup (cmp : κ → κ → Ordering) (k : κ) (l : List (κ × ν)) : Option ν :=
  (found cmp k l).map Prod.snd

variable {cmp : κ → κ → Ordering} {k k' : κ} {v : ν} {l left right : List (κ × ν)} {e : κ × ν}
  {again : κ → κ}

theorem mem_below : e ∈ below cmp k l ↔ e ∈ l ∧ cmp e.1 k = .lt := by
  unfold below
  rw [List.mem_filter, beq_iff_eq]

theorem mem_above : e ∈ above cmp k l ↔ e ∈ l ∧ cmp e.1 k = .gt := by
  unfold above
  rw [List.mem_filter, beq_iff_eq]

theorem mem_of_found (h : found cmp k l = some e) : e ∈ l ∧ cmp e.1 k = .eq :=
  ⟨List.mem_of_find?_eq_some h, by simpa using List.find?_some h⟩

theorem found_eq_none : found cmp k l = none ↔ ∀ e ∈ l, cmp e.1 k ≠ .eq := by
  unfold found
  rw [List.find?_eq_none]
  simp

theorem mem_erase : e ∈ erase cmp k l ↔ e ∈ l ∧ cmp e.1 k ≠ .eq := by
  unfold erase
  rw [List.mem_append, mem_below, mem_above, ← and_or_left]
  refine and_congr_right fun _ => ?_
  cases cmp e.1 k <;> decide

theorem mem_upsert : e ∈ upsert cmp again k v l ↔
    e = ((found cmp k l).elim k fun e => again e.1, v) ∨ e ∈ erase cmp k l := by
  unfold upsert erase
  rw [List.mem_append, List.mem_cons, or_left_comm, List.mem_append]

/-- A key cuts the list into what is below, at and above it. -/
structure Cut (cmp : κ → κ → Ordering) (k : κ) (l : List (κ × ν)) (before : List (κ × ν))
    (here : Option (κ × ν)) (after : List (κ × ν)) : Prop where
  low : below cmp k l = before
  hit : found cmp k l = here
  high : above cmp k l = after

theorem Cut.self : Cut cmp k l (below cmp k l) (found cmp k l) (above cmp k l) := ⟨rfl, rfl, rfl⟩

theorem Cut.nil : Cut cmp k ([] : List (κ × ν)) [] none [] := ⟨rfl, rfl, rfl⟩

variable {b b' a a' : List (κ × ν)} {f f' : Option (κ × ν)}

theorem Cut.append (h : Cut cmp k left b f a) (h' : Cut cmp k right b' f' a') :
    Cut cmp k (left ++ right) (b ++ b') (f.or f') (a ++ a') where
  low := by
    rw [← h.low, ← h'.low]
    exact List.filter_append ..
  hit := by
    rw [← h.hit, ← h'.hit]
    exact List.find?_append
  high := by
    rw [← h.high, ← h'.high]
    exact List.filter_append ..

theorem Cut.erase (h : Cut cmp k l b f a) : erase cmp k l = b ++ a := by
  unfold SortedEntries.erase
  rw [h.low, h.high]

theorem Cut.upsert (h : Cut cmp k l b f a) :
    upsert cmp again k v l = b ++ (f.elim k (fun e => again e.1), v) :: a := by
  unfold SortedEntries.upsert
  rw [h.low, h.hit, h.high]

theorem Cut.lookup (h : Cut cmp k l b f a) : lookup cmp k l = f.map Prod.snd := by
  unfold SortedEntries.lookup
  rw [h.hit]

/-- All entries are below the key. -/
theorem cut_below (h : ∀ e ∈ l, cmp e.1 k = .lt) : Cut cmp k l l none [] where
  low := List.filter_eq_self.mpr fun e he => by
    rw [h e he]
    rfl
  hit := found_eq_none.mpr fun e he => by
    rw [h e he]
    decide
  high := List.filter_eq_nil_iff.mpr fun e he => by
    rw [h e he]
    decide

section Pivot
variable [TransCmp cmp]

theorem ascending_pivot : Ascending cmp (left ++ e :: right) ↔
    (Ascending cmp left ∧ ∀ a ∈ left, cmp a.1 e.1 = .lt) ∧
      Ascending cmp right ∧ ∀ b ∈ right, cmp e.1 b.1 = .lt := by
  unfold Ascending
  rw [List.pairwise_append, List.pairwise_cons]
  constructor
  · rintro ⟨hleft, ⟨hpivot, hright⟩, hacross⟩
    exact ⟨⟨hleft, fun a ha => hacross a ha e List.mem_cons_self⟩, hright, hpivot⟩
  · rintro ⟨⟨hleft, hbefore⟩, hright, hafter⟩
    refine ⟨hleft, ⟨hafter, hright⟩, fun a ha b hb => ?_⟩
    rcases List.mem_cons.mp hb with rfl | hb
    · exact hbefore a ha
    · exact TransCmp.lt_trans (hbefore a ha) (hafter b hb)

/-- All entries are above the key. -/
theorem cut_above (h : ∀ e ∈ l, cmp k e.1 = .lt) : Cut cmp k l [] none l where
  low := List.filter_eq_nil_iff.mpr fun e he => by
    rw [OrientedCmp.gt_of_lt (h e he)]
    decide
  hit := found_eq_none.mpr fun e he => by
    rw [OrientedCmp.gt_of_lt (h e he)]
    decide
  high := List.filter_eq_self.mpr fun e he => by
    rw [OrientedCmp.gt_of_lt (h e he)]
    rfl

/-- A key below the pivot cuts the left part. -/
theorem cut_lt (h : Ascending cmp (left ++ e :: right)) (hk : cmp k e.1 = .lt)
    (cut : Cut cmp k left b f a) : Cut cmp k (left ++ e :: right) b f (a ++ e :: right) := by
  have all : ∀ e' ∈ e :: right, cmp k e'.1 = .lt := by
    intro e' he
    rcases List.mem_cons.mp he with rfl | he
    · exact hk
    · exact TransCmp.lt_trans hk ((ascending_pivot.mp h).2.2 e' he)
  simpa using cut.append (cut_above all)

/-- A key above the pivot cuts the right part. -/
theorem cut_gt (h : Ascending cmp (left ++ e :: right)) (hk : cmp k e.1 = .gt)
    (cut : Cut cmp k right b f a) : Cut cmp k (left ++ e :: right) (left ++ e :: b) f a := by
  have hk' : cmp e.1 k = .lt := OrientedCmp.lt_of_gt hk
  have all : ∀ e' ∈ left ++ [e], cmp e'.1 k = .lt := by
    intro e' he
    rcases List.mem_append.mp he with he | he
    · exact TransCmp.lt_trans ((ascending_pivot.mp h).1.2 e' he) hk'
    · rw [List.mem_singleton.mp he]
      exact hk'
  simpa using (cut_below all).append cut

/-- A key at the pivot cuts the list there. -/
theorem cut_eq (h : Ascending cmp (left ++ e :: right)) (hk : cmp k e.1 = .eq) :
    Cut cmp k (left ++ e :: right) left (some e) right := by
  obtain ⟨⟨_, hbefore⟩, _, hafter⟩ := ascending_pivot.mp h
  have hk' : cmp e.1 k = .eq := OrientedCmp.eq_symm hk
  have pivot : Cut cmp k [e] [] (some e) [] := by
    constructor
    · simp [SortedEntries.below, hk']
    · simp [SortedEntries.found, hk']
    · simp [SortedEntries.above, hk']
  have hleft : Cut cmp k left left none [] :=
    cut_below fun a ha => TransCmp.lt_of_lt_of_eq (hbefore a ha) hk'
  have hright : Cut cmp k right [] none right :=
    cut_above fun b hb => TransCmp.lt_of_eq_of_lt hk (hafter b hb)
  simpa using hleft.append (pivot.append hright)

omit [TransCmp cmp] in
theorem Ascending.tail (h : Ascending cmp (e :: l)) : Ascending cmp l := List.Pairwise.of_cons h

theorem cut_cons_lt (h : Ascending cmp (e :: l)) (hk : cmp k e.1 = .lt) :
    Cut cmp k (e :: l) [] none (e :: l) := by
  have hpivot : Ascending cmp ([] ++ e :: l) := h
  exact cut_lt hpivot hk Cut.nil

theorem cut_cons_eq (h : Ascending cmp (e :: l)) (hk : cmp k e.1 = .eq) :
    Cut cmp k (e :: l) [] (some e) l := by
  have hpivot : Ascending cmp ([] ++ e :: l) := h
  exact cut_eq hpivot hk

theorem cut_cons_gt (h : Ascending cmp (e :: l)) (hk : cmp k e.1 = .gt) (cut : Cut cmp k l b f a) :
    Cut cmp k (e :: l) (e :: b) f a := by
  have hpivot : Ascending cmp ([] ++ e :: l) := h
  exact cut_gt hpivot hk cut

/-- The three parts make up the list. -/
theorem below_found_above (h : Ascending cmp l) (k : κ) :
    below cmp k l ++ (found cmp k l).toList ++ above cmp k l = l := by
  induction l with
  | nil => rfl
  | cons e l ih =>
    cases hk : cmp k e.1 with
    | lt =>
      have cut := cut_cons_lt h hk
      rw [cut.low, cut.hit, cut.high]
      rfl
    | eq =>
      have cut := cut_cons_eq h hk
      rw [cut.low, cut.hit, cut.high]
      rfl
    | gt =>
      have cut := cut_cons_gt h hk Cut.self
      rw [cut.low, cut.hit, cut.high]
      exact congrArg (e :: ·) (ih h.tail)

/-- The place of the key in the list. -/
theorem drop_below (h : Ascending cmp l) (k : κ) :
    l.drop (below cmp k l).length = (found cmp k l).toList ++ above cmp k l := by
  have hparts := congrArg (List.drop (below cmp k l).length) (below_found_above h k)
  rw [List.append_assoc, List.drop_left] at hparts
  exact hparts.symm

theorem take_below (h : Ascending cmp l) (k : κ) :
    l.take (below cmp k l).length = below cmp k l := by
  have hparts := congrArg (List.take (below cmp k l).length) (below_found_above h k)
  rw [List.append_assoc, List.take_left] at hparts
  exact hparts.symm

theorem getElem?_below (h : Ascending cmp l) (k : κ) :
    l[(below cmp k l).length]? = (found cmp k l).or (above cmp k l).head? := by
  rw [← List.head?_drop, drop_below h]
  cases found cmp k l <;> rfl

theorem eq_of_found (h : Ascending cmp l) (hfound : found cmp k l = some e) :
    l = below cmp k l ++ e :: above cmp k l := by
  have hparts := below_found_above h k
  rw [hfound, Option.toList_some, List.append_assoc] at hparts
  exact hparts.symm

theorem eq_of_not_found (h : Ascending cmp l) (hfound : found cmp k l = none) :
    l = below cmp k l ++ above cmp k l := by
  have hparts := below_found_above h k
  rw [hfound, Option.toList_none, List.append_nil] at hparts
  exact hparts.symm

/-- Without the entries below the key. -/
theorem filter_not_below (h : Ascending cmp l) (k : κ) :
    l.filter (fun e => cmp e.1 k != .lt) = (found cmp k l).toList ++ above cmp k l := by
  have low : (below cmp k l).filter (fun e => cmp e.1 k != .lt) = [] := by
    refine List.filter_eq_nil_iff.mpr fun e he => ?_
    rw [(mem_below.mp he).2]
    decide
  have rest : ((found cmp k l).toList ++ above cmp k l).filter (fun e => cmp e.1 k != .lt) =
      (found cmp k l).toList ++ above cmp k l := by
    refine List.filter_eq_self.mpr fun e he => ?_
    rcases List.mem_append.mp he with he | he
    · rw [(mem_of_found (Option.mem_toList.mp he)).2]
      rfl
    · rw [(mem_above.mp he).2]
      rfl
  conv_lhs => rw [← below_found_above h k, List.append_assoc, List.filter_append, low, rest]
  exact List.nil_append _

/-- Without the entries above the key. -/
theorem filter_not_above (h : Ascending cmp l) (k : κ) :
    l.filter (fun e => cmp e.1 k != .gt) = below cmp k l ++ (found cmp k l).toList := by
  have high : (above cmp k l).filter (fun e => cmp e.1 k != .gt) = [] := by
    refine List.filter_eq_nil_iff.mpr fun e he => ?_
    rw [(mem_above.mp he).2]
    decide
  have rest : (below cmp k l ++ (found cmp k l).toList).filter (fun e => cmp e.1 k != .gt) =
      below cmp k l ++ (found cmp k l).toList := by
    refine List.filter_eq_self.mpr fun e he => ?_
    rcases List.mem_append.mp he with he | he
    · rw [(mem_below.mp he).2]
      rfl
    · rw [(mem_of_found (Option.mem_toList.mp he)).2]
      rfl
  conv_lhs => rw [← below_found_above h k, List.filter_append, high, rest]
  exact List.append_nil _

theorem length_erase (h : Ascending cmp l) :
    (SortedEntries.erase cmp k l).length + (found cmp k l).toList.length = l.length := by
  have hparts := congrArg List.length (below_found_above h k)
  rw [List.length_append, List.length_append] at hparts
  rw [SortedEntries.erase, List.length_append]
  omega

omit [TransCmp cmp] in
theorem length_upsert : (SortedEntries.upsert cmp again k v l).length =
    (SortedEntries.erase cmp k l).length + 1 := by
  unfold SortedEntries.upsert SortedEntries.erase
  rw [List.length_append, List.length_append, List.length_cons]
  rfl

theorem compare_again (hagain : ∀ k' : κ, cmp k' k = .eq → cmp (again k') k = .eq) :
    cmp ((found cmp k l).elim k fun e => again e.1) k = .eq := by
  cases hfound : found cmp k l with
  | none => exact ReflCmp.compare_self
  | some e => exact hagain e.1 (mem_of_found hfound).2

theorem Ascending.upsert (h : Ascending cmp l)
    (hagain : ∀ k' : κ, cmp k' k = .eq → cmp (again k') k = .eq) :
    Ascending cmp (upsert cmp again k v l) := by
  unfold SortedEntries.upsert
  have key := compare_again (l := l) hagain
  refine ascending_pivot.mpr ⟨⟨h.filter _, fun e he => ?_⟩, h.filter _, fun e he => ?_⟩
  · exact TransCmp.lt_of_lt_of_eq (mem_below.mp he).2 (OrientedCmp.eq_symm key)
  · exact TransCmp.lt_of_eq_of_lt key (OrientedCmp.lt_of_gt (mem_above.mp he).2)

theorem Ascending.erase (h : Ascending cmp l) : Ascending cmp (erase cmp k l) := by
  refine List.pairwise_append.mpr ⟨h.filter _, h.filter _, fun a ha b hb => ?_⟩
  exact TransCmp.lt_trans (mem_below.mp ha).2 (OrientedCmp.lt_of_gt (mem_above.mp hb).2)

omit [TransCmp cmp] in
/-- If only equal keys compare the same, it makes no difference which of them stays. -/
theorem upsert_id [LawfulEqCmp cmp] :
    SortedEntries.upsert cmp id k v l = SortedEntries.upsert cmp (fun _ => k) k v l := by
  unfold SortedEntries.upsert
  cases hfound : found cmp k l with
  | none => rfl
  | some e =>
    have he : e.1 = k := LawfulEqCmp.eq_of_compare (mem_of_found hfound).2
    rw [Option.elim_some, Option.elim_some, id, he]

/-- There is one ascending order of the entries. -/
theorem Ascending.eq_of_perm (h : Ascending cmp left) (h' : Ascending cmp right)
    (perm : left.Perm right) : left = right := by
  refine perm.eq_of_pairwise (fun a b _ _ hab hba => ?_) h h'
  cases (OrientedCmp.gt_of_lt hab).symm.trans hba

/-- Of equivalent keys a sorted list holds one. -/
theorem found_eq_some (h : Ascending cmp l) :
    found cmp k l = some e ↔ e ∈ l ∧ cmp e.1 k = .eq := by
  refine ⟨mem_of_found, fun ⟨hmem, hk⟩ => ?_⟩
  obtain ⟨left, right, rfl⟩ := List.append_of_mem hmem
  exact (cut_eq h (OrientedCmp.eq_symm hk)).hit

theorem lookup_eq_some {y : ν} (h : Ascending cmp l) :
    lookup cmp k l = some y ↔ ∃ e ∈ l, cmp e.1 k = .eq ∧ e.2 = y := by
  unfold lookup
  rw [Option.map_eq_some_iff]
  constructor
  · rintro ⟨e, hfound, hy⟩
    exact ⟨e, (mem_of_found hfound).1, (mem_of_found hfound).2, hy⟩
  · rintro ⟨e, he, hk, hy⟩
    exact ⟨e, (found_eq_some h).mpr ⟨he, hk⟩, hy⟩

theorem lookup_upsert (h : Ascending cmp l)
    (hagain : ∀ k' : κ, cmp k' k = .eq → cmp (again k') k = .eq) :
    lookup cmp k' (upsert cmp again k v l) =
      if cmp k k' = .eq then some v else lookup cmp k' l := by
  have key := compare_again (l := l) hagain
  refine Option.ext fun y => ?_
  rw [lookup_eq_some (h.upsert hagain)]
  split
  · next hk =>
    constructor
    · rintro ⟨e, he, hke, rfl⟩
      rcases mem_upsert.mp he with rfl | he
      · rfl
      · exact absurd (TransCmp.eq_trans hke (OrientedCmp.eq_symm hk)) (mem_erase.mp he).2
    · intro hy
      cases hy
      exact ⟨_, mem_upsert.mpr (Or.inl rfl), TransCmp.eq_trans key hk, rfl⟩
  · next hk =>
    rw [lookup_eq_some h]
    refine exists_congr fun e => ⟨?_, ?_⟩
    · rintro ⟨he, hke, hy⟩
      rcases mem_upsert.mp he with rfl | he
      · exact absurd (TransCmp.eq_trans (OrientedCmp.eq_symm key) hke) hk
      · exact ⟨(mem_erase.mp he).1, hke, hy⟩
    · rintro ⟨he, hke, hy⟩
      refine ⟨mem_upsert.mpr (Or.inr (mem_erase.mpr ⟨he, fun hke' => hk ?_⟩)), hke, hy⟩
      exact TransCmp.eq_trans (OrientedCmp.eq_symm hke') hke

theorem lookup_erase (h : Ascending cmp l) :
    lookup cmp k' (erase cmp k l) = if cmp k k' = .eq then none else lookup cmp k' l := by
  refine Option.ext fun y => ?_
  rw [lookup_eq_some h.erase]
  split
  · next hk =>
    refine ⟨?_, fun hy => by cases hy⟩
    rintro ⟨e, he, hke, _⟩
    exact absurd (TransCmp.eq_trans hke (OrientedCmp.eq_symm hk)) (mem_erase.mp he).2
  · next hk =>
    rw [lookup_eq_some h]
    refine exists_congr fun e => ⟨?_, ?_⟩
    · rintro ⟨he, hke, hy⟩
      exact ⟨(mem_erase.mp he).1, hke, hy⟩
    · rintro ⟨he, hke, hy⟩
      refine ⟨mem_erase.mpr ⟨he, fun hke' => hk ?_⟩, hke, hy⟩
      exact TransCmp.eq_trans (OrientedCmp.eq_symm hke') hke

end Pivot

end SortedEntries
