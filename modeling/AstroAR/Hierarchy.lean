import Mathlib.Data.List.Nodup
import Mathlib.Logic.Relation

/-!
# Parent and child lists

A hierarchy gives every node an ordered list of children, and no node has two
parents. Attaching a node takes it away from its old parent first. Nothing
forbids a node to be put below one of its own descendants: the two then form a
cycle that no other node leads to.
-/

universe u

/-- Ordered child lists in which every node occurs at most once. -/
structure Hierarchy (ι : Type u) where
  childNodes : ι → List ι
  nodup : ∀ p, (childNodes p).Nodup
  parent_unique : ∀ {p q c}, c ∈ childNodes p → c ∈ childNodes q → p = q

namespace Hierarchy

variable {ι : Type u} {g h : Hierarchy ι} {a b c p q x : ι}

def empty : Hierarchy ι where
  childNodes := fun _ => []
  nodup := fun _ => List.nodup_nil
  parent_unique := fun h => absurd h List.not_mem_nil

@[simp] theorem empty_childNodes (p : ι) : (empty : Hierarchy ι).childNodes p = [] := rfl

/-- `g.Below a x`: `x` is `a` or one of its descendants. -/
def Below (g : Hierarchy ι) : ι → ι → Prop :=
  Relation.ReflTransGen (fun p c => c ∈ g.childNodes p)

theorem Below.refl (g : Hierarchy ι) (a : ι) : g.Below a a := Relation.ReflTransGen.refl

theorem Below.child (hc : c ∈ g.childNodes p) : g.Below p c := Relation.ReflTransGen.single hc

theorem Below.tail (hab : g.Below a b) (hc : c ∈ g.childNodes b) : g.Below a c :=
  Relation.ReflTransGen.tail hab hc

theorem Below.trans (hab : g.Below a b) (hbc : g.Below b c) : g.Below a c :=
  Relation.ReflTransGen.trans hab hbc

theorem Below.eq_or_parent (hax : g.Below a x) :
    x = a ∨ ∃ p, g.Below a p ∧ x ∈ g.childNodes p :=
  hax.cases_tail

theorem Below.mono (sub : ∀ p c, c ∈ g.childNodes p → c ∈ h.childNodes p)
    (hax : g.Below a x) : h.Below a x :=
  Relation.ReflTransGen.mono sub _ _ hax

/-- A set that contains `a` and is closed under children contains all that is below `a`. -/
theorem Below.closed {S : ι → Prop} (start : S a)
    (closed : ∀ p c, S p → c ∈ g.childNodes p → S c) (hax : g.Below a x) : S x := by
  induction hax with
  | refl => exact start
  | tail _ hc ih => exact closed _ _ ih hc

/-- A node without a parent is below itself only. -/
theorem Below.of_orphan (orphan : ∀ p, x ∉ g.childNodes p) (hax : g.Below a x) : x = a := by
  rcases hax.eq_or_parent with heq | ⟨p, _, hp⟩
  · exact heq
  · exact absurd hp (orphan p)

/-- The node `x` occurs exactly once below `a`. -/
def OnceBelow [DecidableEq ι] (g : Hierarchy ι) (a x : ι) : Prop :=
  ∃ p, g.Below a p ∧ (g.childNodes p).count x = 1 ∧ ∀ q, x ∈ g.childNodes q → q = p

theorem onceBelow_iff [DecidableEq ι] :
    g.OnceBelow a x ↔ ∃ p, g.Below a p ∧ x ∈ g.childNodes p := by
  constructor
  · rintro ⟨p, hp, hcount, _⟩
    exact ⟨p, hp, List.count_pos_iff.mp (hcount ▸ Nat.one_pos)⟩
  · rintro ⟨p, hp, hx⟩
    exact ⟨p, hp, List.count_eq_one_of_mem (g.nodup p) hx, fun q hq => g.parent_unique hq hx⟩

section Edit
variable [DecidableEq ι]

/-- Take `c` away from its parent. -/
def detach (g : Hierarchy ι) (c : ι) : Hierarchy ι where
  childNodes := fun p => (g.childNodes p).filter (· ≠ c)
  nodup := fun p => (g.nodup p).filter _
  parent_unique := fun hp hq =>
    g.parent_unique (List.mem_of_mem_filter hp) (List.mem_of_mem_filter hq)

/-- Take `c` away from its parent and append it to the children of `p`. -/
def attach (g : Hierarchy ι) (p c : ι) : Hierarchy ι where
  childNodes := fun q =>
    if q = p then (g.detach c).childNodes p ++ [c] else (g.detach c).childNodes q
  nodup := by
    intro q
    split
    · refine List.nodup_append'.mpr ⟨(g.detach c).nodup p, List.nodup_singleton c, ?_⟩
      simp [detach]
    · exact (g.detach c).nodup q
  parent_unique := by
    intro p₁ p₂ x h₁ h₂
    have hx : x = c ∨ x ≠ c := eq_or_ne x c
    have gone : ∀ q, c ∉ (g.detach c).childNodes q := by simp [detach]
    rcases hx with rfl | hx
    · split at h₁ <;> split at h₂ <;> simp_all
    · have back : ∀ q, x ∈ (if q = p then (g.detach c).childNodes p ++ [c]
          else (g.detach c).childNodes q) → x ∈ (g.detach c).childNodes q := by
        intro q hq
        split at hq
        · rename_i hqp
          subst hqp
          simpa [hx] using hq
        · exact hq
      exact (g.detach c).parent_unique (back _ h₁) (back _ h₂)

@[simp] theorem mem_detach : x ∈ (g.detach c).childNodes p ↔ x ∈ g.childNodes p ∧ x ≠ c := by
  simp [detach]

theorem mem_attach :
    x ∈ (g.attach p c).childNodes q ↔ (q = p ∧ x = c) ∨ (x ∈ g.childNodes q ∧ x ≠ c) := by
  by_cases hq : q = p
  · subst hq
    simp only [attach, if_true, List.mem_append, mem_detach, List.mem_singleton]
    tauto
  · simp [attach, hq]

theorem attach_self : c ∈ (g.attach p c).childNodes p := mem_attach.mpr (Or.inl ⟨rfl, rfl⟩)

theorem mem_attach_of_ne (hx : x ≠ c) :
    x ∈ (g.attach p c).childNodes q ↔ x ∈ g.childNodes q := by
  simp [mem_attach, hx]

/-- Only the new parent gains a child. -/
theorem mem_of_mem_attach (hq : q ≠ p) (hx : x ∈ (g.attach p c).childNodes q) :
    x ∈ g.childNodes q := by
  rcases mem_attach.mp hx with ⟨heq, _⟩ | ⟨hold, _⟩
  · exact absurd heq hq
  · exact hold

theorem detach_childNodes_of_notMem (hc : c ∉ g.childNodes p) :
    (g.detach c).childNodes p = g.childNodes p := by
  refine List.filter_eq_self.mpr fun x hx => ?_
  simpa using fun heq : x = c => hc (heq ▸ hx)

theorem attach_childNodes_of_ne (hq : q ≠ p) (hc : c ∉ g.childNodes q) :
    (g.attach p c).childNodes q = g.childNodes q := by
  simp [attach, hq, detach_childNodes_of_notMem hc]

theorem attach_childNodes_of_notMem (hc : c ∉ g.childNodes p) :
    (g.attach p c).childNodes p = g.childNodes p ++ [c] := by
  simp [attach, detach_childNodes_of_notMem hc]

/-- Attaching commutes with looking only at the children of which `f` holds. -/
theorem filter_attach {f : ι → Bool} (hc : f c = true)
    (hq : (g.childNodes q).filter f = h.childNodes q) :
    ((g.attach p c).childNodes q).filter f = (h.attach p c).childNodes q := by
  have hdetach : ((g.detach c).childNodes q).filter f = (h.detach c).childNodes q := by
    simp only [detach, ← hq, List.filter_filter, Bool.and_comm]
  by_cases hqp : q = p
  · subst hqp
    simp only [attach, if_true, List.filter_append, hdetach, List.filter_cons_of_pos hc,
      List.filter_nil]
  · simpa only [attach, if_neg hqp] using hdetach

/-- Moving a node of which `f` does not hold is not seen. -/
theorem filter_attach_of_false {f : ι → Bool} (hc : f c = false) :
    ((g.attach p c).childNodes q).filter f = (g.childNodes q).filter f := by
  have hdetach : ((g.detach c).childNodes q).filter f = (g.childNodes q).filter f := by
    simp only [detach, List.filter_filter]
    refine List.filter_congr fun x _ => ?_
    by_cases hx : x = c
    · simp [hx, hc]
    · simp [hx]
  by_cases hqp : q = p
  · subst hqp
    simp [attach, hdetach, hc]
  · simpa only [attach, if_neg hqp] using hdetach

/-- A prefix of a child list that does not hold the moved node stays a prefix. -/
theorem prefix_attach {l : List ι} (hl : l <+: g.childNodes q) (hc : c ∉ l) :
    l <+: (g.attach p c).childNodes q := by
  have kept : l <+: (g.detach c).childNodes q := by
    have hfilter := hl.filter (fun x => decide (x ≠ c))
    rwa [List.filter_eq_self.mpr (by
      intro x hx
      simpa using fun heq : x = c => hc (heq ▸ hx))] at hfilter
  by_cases hq : q = p
  · subst hq
    simpa [attach] using kept.trans (List.prefix_append _ _)
  · simpa [attach, hq] using kept

/-- What is below `a` once `c` hangs below `p`: what `a` reached without `c`, and, if `a`
reached `p` that way, what `c` reached. -/
theorem below_attach :
    (g.attach p c).Below a x ↔
      (g.detach c).Below a x ∨ ((g.detach c).Below a p ∧ (g.detach c).Below c x) := by
  have sub : ∀ q y, y ∈ (g.detach c).childNodes q → y ∈ (g.attach p c).childNodes q :=
    fun q y hy => mem_attach.mpr (Or.inr (mem_detach.mp hy))
  constructor
  · intro hax
    induction hax with
    | refl => exact Or.inl (Below.refl _ _)
    | tail _ hy ih =>
      rcases mem_attach.mp hy with ⟨rfl, rfl⟩ | hold
      · refine Or.inr ⟨?_, Below.refl _ _⟩
        rcases ih with ih | ih
        · exact ih
        · exact ih.1
      · rcases ih with ih | ih
        · exact Or.inl (ih.tail (mem_detach.mpr hold))
        · exact Or.inr ⟨ih.1, ih.2.tail (mem_detach.mpr hold)⟩
  · rintro (hax | ⟨hap, hcx⟩)
    · exact hax.mono sub
    · exact ((hap.mono sub).tail attach_self).trans (hcx.mono sub)

theorem Below.of_detach (hax : (g.detach c).Below a x) : g.Below a x :=
  hax.mono fun _ _ hx => (mem_detach.mp hx).1

/-- Detach every node of a list, first to last. -/
def detachAll (g : Hierarchy ι) (l : List ι) : Hierarchy ι := l.foldl detach g

@[simp] theorem mem_detachAll {l : List ι} :
    x ∈ (g.detachAll l).childNodes p ↔ x ∈ g.childNodes p ∧ x ∉ l := by
  induction l generalizing g with
  | nil => simp [detachAll]
  | cons c rest ih =>
    change x ∈ ((g.detach c).detachAll rest).childNodes p ↔ _
    rw [ih, mem_detach, List.mem_cons]
    tauto

/-- Taking all children of `p` away empties `p` and changes no other child list. -/
theorem detachAll_childNodes_self : (g.detachAll (g.childNodes p)).childNodes p = [] := by
  refine List.eq_nil_iff_forall_not_mem.mpr fun x hx => ?_
  exact (mem_detachAll.mp hx).2 (mem_detachAll.mp hx).1

theorem mem_detachAll_children_of_ne (hq : q ≠ p) :
    x ∈ (g.detachAll (g.childNodes p)).childNodes q ↔ x ∈ g.childNodes q := by
  rw [mem_detachAll]
  exact ⟨fun hx => hx.1, fun hx => ⟨hx, fun hp => hq (g.parent_unique hx hp)⟩⟩

theorem detachAll_childNodes_of_disjoint {l : List ι} (apart : ∀ x ∈ g.childNodes q, x ∉ l) :
    (g.detachAll l).childNodes q = g.childNodes q := by
  induction l generalizing g with
  | nil => rfl
  | cons c rest ih =>
    have hc : c ∉ g.childNodes q := fun hc => apart c hc List.mem_cons_self
    have hrest : ∀ x ∈ (g.detach c).childNodes q, x ∉ rest := fun x hx hr =>
      apart x (mem_detach.mp hx).1 (List.mem_cons_of_mem c hr)
    change ((g.detach c).detachAll rest).childNodes q = _
    rw [ih hrest, detach_childNodes_of_notMem hc]

/-- Attach every node of a list below `p`, first to last. -/
def attachAll (g : Hierarchy ι) (p : ι) (l : List ι) : Hierarchy ι :=
  l.foldl (fun g c => g.attach p c) g

theorem mem_attachAll {l : List ι} :
    x ∈ (g.attachAll p l).childNodes q ↔ (q = p ∧ x ∈ l) ∨ (x ∈ g.childNodes q ∧ x ∉ l) := by
  induction l generalizing g with
  | nil => simp [attachAll]
  | cons c rest ih =>
    change x ∈ ((g.attach p c).attachAll p rest).childNodes q ↔ _
    rw [ih, mem_attach, List.mem_cons]
    by_cases hx : x ∈ rest
    · simp [hx]
    · simp only [hx, and_false, not_false_eq_true, and_true, or_false, false_or]

/-- Nodes attached one after the other below a node that had none of them stand in their order. -/
theorem attachAll_childNodes_self {l : List ι} (nodup : l.Nodup)
    (apart : ∀ x ∈ l, x ∉ g.childNodes p) :
    (g.attachAll p l).childNodes p = g.childNodes p ++ l := by
  induction l generalizing g with
  | nil => simp [attachAll]
  | cons c rest ih =>
    have hc : c ∉ g.childNodes p := apart c List.mem_cons_self
    have hnc : c ∉ rest := (List.nodup_cons.mp nodup).1
    have hrest : ∀ x ∈ rest, x ∉ (g.attach p c).childNodes p := by
      intro x hx hmem
      have hxc : x ≠ c := fun heq => hnc (heq ▸ hx)
      exact apart x (List.mem_cons_of_mem c hx) ((mem_attach_of_ne hxc).mp hmem)
    change ((g.attach p c).attachAll p rest).childNodes p = _
    rw [ih (List.nodup_cons.mp nodup).2 hrest, attach_childNodes_of_notMem hc,
      List.append_assoc, List.singleton_append]

theorem attachAll_childNodes_of_ne {l : List ι} (hq : q ≠ p)
    (apart : ∀ x ∈ g.childNodes q, x ∉ l) :
    (g.attachAll p l).childNodes q = g.childNodes q := by
  induction l generalizing g with
  | nil => rfl
  | cons c rest ih =>
    have hc : c ∉ g.childNodes q := fun hc => apart c hc List.mem_cons_self
    have same := attach_childNodes_of_ne hq hc
    change ((g.attach p c).attachAll p rest).childNodes q = _
    rw [ih (same.symm ▸ fun x hx hr => apart x hx (List.mem_cons_of_mem c hr)), same]

/-- Put the hierarchy `h` in place of `g` on the nodes of a list. -/
def graft (g h : Hierarchy ι) (nodes : List ι)
    (closed : ∀ n ∈ nodes, ∀ c ∈ h.childNodes n, c ∈ nodes) : Hierarchy ι where
  childNodes := fun n =>
    if n ∈ nodes then h.childNodes n else (g.childNodes n).filter (· ∉ nodes)
  nodup := by
    intro n
    split
    · exact h.nodup n
    · exact (g.nodup n).filter _
  parent_unique := by
    intro p q c hp hq
    split at hp <;> split at hq
    · exact h.parent_unique hp hq
    · rename_i hpn _
      exact absurd (closed p hpn c hp) (by simpa using (List.mem_filter.mp hq).2)
    · rename_i _ hqn
      exact absurd (closed q hqn c hq) (by simpa using (List.mem_filter.mp hp).2)
    · exact g.parent_unique (List.mem_of_mem_filter hp) (List.mem_of_mem_filter hq)

variable {nodes : List ι} {closed : ∀ n ∈ nodes, ∀ c ∈ h.childNodes n, c ∈ nodes}

theorem graft_childNodes_of_mem (hp : p ∈ nodes) :
    (g.graft h nodes closed).childNodes p = h.childNodes p := by
  simp [graft, hp]

/-- A child list that holds none of the grafted nodes is left alone. -/
theorem graft_childNodes_of_notMem (hp : p ∉ nodes) (apart : ∀ x ∈ g.childNodes p, x ∉ nodes) :
    (g.graft h nodes closed).childNodes p = g.childNodes p := by
  simpa [graft, hp] using apart

end Edit

end Hierarchy
