import AstroAR.SortedEntries

/-!
# The snapshots of the database client

A snapshot is a leaf with a value or a node with children, either with a
priority. `getChild` reads at a path and `updateChild` makes a snapshot in which
another one is at the path: a leaf on the way becomes a node with children, and
what is left without a child becomes empty. Away from priorities the two obey
the laws that one expects of them.
-/

namespace AstroAR

open SortedEntries Std

universe u v

/-- Keys that the two comparators of `FUtilities` tell apart. -/
class FKey (κ : Type u) where
  keyComparator : κ → κ → Ordering
  stringComparator : κ → κ → Ordering
  /-- `.priority` -/
  priority : κ
  keyTrans : TransCmp keyComparator
  keyLawful : LawfulEqCmp keyComparator
  stringTrans : TransCmp stringComparator
  stringLawful : LawfulEqCmp stringComparator

attribute [instance] FKey.keyTrans FKey.keyLawful FKey.stringTrans FKey.stringLawful

/-- Numbered keys, with `0` for the priority. -/
instance : FKey ℕ where
  keyComparator := compare
  stringComparator := compare
  priority := 0
  keyTrans := inferInstance
  keyLawful := inferInstance
  stringTrans := inferInstance
  stringLawful := inferInstance

/-- A path that leads to no priority. -/
def Plain {κ : Type u} [FKey κ] (p : List κ) : Prop := FKey.priority ∉ p

instance {κ : Type u} [FKey κ] [DecidableEq κ] (p : List κ) : Decidable (Plain p) :=
  inferInstanceAs (Decidable (FKey.priority ∉ p))

theorem plain_cons {κ : Type u} [FKey κ] {k : κ} {p : List κ} :
    Plain (k :: p) ↔ k ≠ FKey.priority ∧ Plain p := by
  unfold Plain
  rw [List.mem_cons, not_or, ne_comm]

theorem plain_append {κ : Type u} [FKey κ] {p q : List κ} :
    Plain (p ++ q) ↔ Plain p ∧ Plain q := by
  unfold Plain
  rw [List.mem_append, not_or]

theorem Plain.of_isPrefix {κ : Type u} [FKey κ] {p q : List κ} (h : Plain q) (hp : p <+: q) :
    Plain p := fun hmem => h (hp.subset hmem)

/-- `FLeafNode` and `FChildrenNode`. The children are the entries of a sorted dictionary. -/
inductive FNode (κ : Type u) (β : Type v) where
  | leafNode (value : β) (priorityNode : FNode κ β)
  | childrenNode (priorityNode : Option (FNode κ β)) (children : List (κ × FNode κ β))

namespace FNode
variable {κ : Type u} {β : Type v}

/-- `[FEmptyNode emptyNode]` -/
def emptyNode : FNode κ β := childrenNode none []

def isEmpty : FNode κ β → Bool
  | leafNode _ _ => false
  | childrenNode _ children => children.isEmpty

def getPriority : FNode κ β → FNode κ β
  | leafNode _ priorityNode => priorityNode
  | childrenNode priorityNode _ => priorityNode.getD emptyNode

def updatePriority : FNode κ β → FNode κ β → FNode κ β
  | leafNode value _, aPriority => leafNode value aPriority
  | childrenNode _ children, aPriority =>
    if children.isEmpty then emptyNode else childrenNode (some aPriority) children

variable [FKey κ] [DecidableEq κ]

def getImmediateChild (childName : κ) (n : FNode κ β) : FNode κ β :=
  if childName = FKey.priority then n.getPriority
  else match n with
    | leafNode _ _ => emptyNode
    | childrenNode _ children => (lookup FKey.keyComparator childName children).getD emptyNode

/-- A leaf answers a path to its priority without looking at the rest of the path. -/
def getChild : List κ → FNode κ β → FNode κ β
  | [], n => n
  | front :: rest, n =>
    match n with
    | leafNode _ priorityNode => if front = FKey.priority then priorityNode else emptyNode
    | childrenNode p children => getChild rest ((childrenNode p children).getImmediateChild front)

/-- `updateImmediateChild:withNewChild:` of `FChildrenNode`, where the key is not the priority. -/
def updateChildren (childName : κ) (newChildNode priority : FNode κ β)
    (children : List (κ × FNode κ β)) : FNode κ β :=
  let newChildren :=
    if newChildNode.isEmpty then erase FKey.keyComparator childName children
    else upsert FKey.keyComparator (fun _ => childName) childName newChildNode children
  if newChildren.isEmpty then emptyNode else childrenNode (some priority) newChildren

def updateImmediateChild (childName : κ) (newChildNode n : FNode κ β) : FNode κ β :=
  if childName = FKey.priority then n.updatePriority newChildNode
  else match n with
    | leafNode value priorityNode =>
      if newChildNode.isEmpty then leafNode value priorityNode
      else (updateChildren childName newChildNode emptyNode []).updatePriority priorityNode
    | childrenNode p children =>
      updateChildren childName newChildNode (childrenNode p children).getPriority children

def updateChild : List κ → FNode κ β → FNode κ β → FNode κ β
  | [], newChildNode, _ => newChildNode
  | front :: rest, newChildNode, n =>
    match n with
    | leafNode value priorityNode =>
      if newChildNode.isEmpty ∧ front ≠ FKey.priority then leafNode value priorityNode
      else updateImmediateChild front (updateChild rest newChildNode emptyNode)
        (leafNode value priorityNode)
    | childrenNode p children =>
      updateImmediateChild front
        (updateChild rest newChildNode ((childrenNode p children).getImmediateChild front))
        (childrenNode p children)

/-! ### Well-formed snapshots -/

/-- The children are in order and none is empty, and the empty snapshot has no priority. -/
inductive Proper : FNode κ β → Prop
  | leafNode (value : β) (priorityNode : FNode κ β) : Proper (.leafNode value priorityNode)
  | emptyNode : Proper emptyNode
  | childrenNode {priorityNode : Option (FNode κ β)} {children : List (κ × FNode κ β)}
    (asc : Ascending FKey.keyComparator children) (full : ∀ e ∈ children, e.2.isEmpty = false)
    (proper : ∀ e ∈ children, Proper e.2) (some_child : children ≠ []) :
    Proper (.childrenNode priorityNode children)

variable {n new : FNode κ β} {k k' : κ} {p q r : List κ}

omit [DecidableEq κ] in
theorem Proper.eq_emptyNode (h : n.Proper) (empty : n.isEmpty = true) : n = .emptyNode := by
  cases h with
  | leafNode => cases empty
  | emptyNode => rfl
  | childrenNode _ _ _ some_child => exact absurd (List.isEmpty_iff.mp empty) some_child

omit [DecidableEq κ] in
theorem Proper.ascending {p : Option (FNode κ β)} {children : List (κ × FNode κ β)}
    (h : (FNode.childrenNode p children).Proper) : Ascending FKey.keyComparator children := by
  cases h with
  | emptyNode => exact List.Pairwise.nil
  | childrenNode asc => exact asc

omit [DecidableEq κ] in
theorem Proper.mem {p : Option (FNode κ β)} {children : List (κ × FNode κ β)}
    (h : (FNode.childrenNode p children).Proper) :
    ∀ e ∈ children, e.2.isEmpty = false ∧ e.2.Proper := by
  cases h with
  | emptyNode => exact fun e he => absurd he List.not_mem_nil
  | childrenNode _ full proper => exact fun e he => ⟨full e he, proper e he⟩

omit [DecidableEq κ] in
/-- The two constructors of snapshots with children, as one. -/
theorem proper_of_children {p : FNode κ β} {children : List (κ × FNode κ β)}
    (asc : Ascending FKey.keyComparator children)
    (mem : ∀ e ∈ children, e.2.isEmpty = false ∧ e.2.Proper) :
    (if children.isEmpty then emptyNode else childrenNode (some p) children).Proper := by
  split
  · exact .emptyNode
  · next hne =>
    exact .childrenNode asc (fun e he => (mem e he).1) (fun e he => (mem e he).2)
      fun heq => hne (List.isEmpty_iff.mpr heq)

omit [DecidableEq κ] in
theorem mem_of_lookup {children : List (κ × FNode κ β)} {c : FNode κ β}
    (asc : Ascending FKey.keyComparator children)
    (h : lookup FKey.keyComparator k children = some c) : (k, c) ∈ children := by
  obtain ⟨e', he', hk, rfl⟩ := (lookup_eq_some asc).mp h
  rw [← LawfulEqCmp.eq_of_compare hk]
  exact he'

/-! ### Immediate children -/

theorem getImmediateChild_emptyNode (k : κ) :
    (emptyNode : FNode κ β).getImmediateChild k = emptyNode := by
  unfold getImmediateChild
  split <;> rfl

theorem getImmediateChild_childrenNode (hk : k ≠ FKey.priority) (p : Option (FNode κ β))
    (children : List (κ × FNode κ β)) : (childrenNode p children).getImmediateChild k =
      (lookup FKey.keyComparator k children).getD emptyNode := if_neg hk

theorem getImmediateChild_leafNode (hk : k ≠ FKey.priority) (value : β) (p : FNode κ β) :
    (leafNode value p).getImmediateChild k = emptyNode := if_neg hk

theorem Proper.getImmediateChild (h : n.Proper) (hk : k ≠ FKey.priority) :
    (n.getImmediateChild k).Proper := by
  cases n with
  | leafNode value p =>
    rw [getImmediateChild_leafNode hk]
    exact .emptyNode
  | childrenNode p children =>
    rw [getImmediateChild_childrenNode hk]
    cases hlookup : lookup FKey.keyComparator k children with
    | none => exact .emptyNode
    | some c => exact (h.mem _ (mem_of_lookup h.ascending hlookup)).2

/-- The children after an update. -/
theorem updated_children {children : List (κ × FNode κ β)}
    (asc : Ascending FKey.keyComparator children)
    (mem : ∀ e ∈ children, e.2.isEmpty = false ∧ e.2.Proper) (hnew : new.Proper) (k : κ) :
    ∃ newChildren, Ascending FKey.keyComparator newChildren ∧
      (∀ e ∈ newChildren, e.2.isEmpty = false ∧ e.2.Proper) ∧
      (∀ priority, updateChildren k new priority children =
        if newChildren.isEmpty then emptyNode else childrenNode (some priority) newChildren) ∧
      ∀ k', (lookup FKey.keyComparator k' newChildren).getD emptyNode =
        if k = k' then new else (lookup FKey.keyComparator k' children).getD emptyNode := by
  have same : ∀ k', FKey.keyComparator k k' = .eq ↔ k = k' :=
    fun _ => LawfulEqCmp.compare_eq_iff_eq
  cases hempty : new.isEmpty with
  | true =>
    refine ⟨erase FKey.keyComparator k children, asc.erase,
      fun e he => mem e (mem_erase.mp he).1, fun _ => ?_, fun k' => ?_⟩
    · unfold updateChildren
      rw [hempty]
      rfl
    · rw [lookup_erase asc, hnew.eq_emptyNode hempty]
      simp only [same]
      split <;> rfl
  | false =>
    have again : ∀ k' : κ, FKey.keyComparator k' k = .eq → FKey.keyComparator k k = .eq :=
      fun _ _ => ReflCmp.compare_self
    refine ⟨upsert FKey.keyComparator (fun _ => k) k new children, asc.upsert again,
      fun e he => ?_, fun _ => ?_, fun k' => ?_⟩
    · rcases mem_upsert.mp he with rfl | he
      · exact ⟨hempty, hnew⟩
      · exact mem e (mem_erase.mp he).1
    · unfold updateChildren
      rw [hempty]
      rfl
    · rw [lookup_upsert asc again]
      simp only [same]
      split <;> rfl

theorem getImmediateChild_of_children (hk : k ≠ FKey.priority) (p : FNode κ β)
    (children : List (κ × FNode κ β)) :
    (if children.isEmpty then emptyNode else childrenNode (some p) children).getImmediateChild k =
      (lookup FKey.keyComparator k children).getD emptyNode := by
  split
  · next hempty =>
    rw [getImmediateChild_emptyNode, List.isEmpty_iff.mp hempty]
    rfl
  · exact getImmediateChild_childrenNode hk _ _

omit [FKey κ] [DecidableEq κ] in
theorem updatePriority_of_children (p p' : FNode κ β) (children : List (κ × FNode κ β)) :
    (if children.isEmpty then emptyNode else childrenNode (some p) children).updatePriority p' =
      if children.isEmpty then emptyNode else childrenNode (some p') children := by
  cases children with
  | nil => simp [updatePriority, emptyNode]
  | cons => simp [updatePriority]

/-- An update of a child, seen from all children. -/
theorem updateImmediateChild_spec (h : n.Proper) (hnew : new.Proper) (hk : k ≠ FKey.priority) :
    (updateImmediateChild k new n).Proper ∧ ∀ k' : κ, k' ≠ FKey.priority →
      (updateImmediateChild k new n).getImmediateChild k' =
        if k = k' then new else n.getImmediateChild k' := by
  unfold updateImmediateChild
  rw [if_neg hk]
  cases n with
  | leafNode value p =>
    have none : Ascending FKey.keyComparator ([] : List (κ × FNode κ β)) := List.Pairwise.nil
    obtain ⟨children, asc, mem, hupdate, hlookup⟩ :=
      updated_children none (fun e he => absurd he List.not_mem_nil) hnew k
    simp only [hupdate, updatePriority_of_children]
    split
    · next hempty =>
      refine ⟨.leafNode value p, fun k' hk' => ?_⟩
      rw [getImmediateChild_leafNode hk', hnew.eq_emptyNode hempty, ite_self]
    · refine ⟨proper_of_children asc mem, fun k' hk' => ?_⟩
      rw [getImmediateChild_of_children hk', hlookup, getImmediateChild_leafNode hk']
      rfl
  | childrenNode p children =>
    obtain ⟨newChildren, asc, mem, hupdate, hlookup⟩ :=
      updated_children h.ascending h.mem hnew k
    refine ⟨?_, fun k' hk' => ?_⟩
    · simp only [hupdate]
      exact proper_of_children asc mem
    · simp only [hupdate]
      rw [getImmediateChild_of_children hk', hlookup, getImmediateChild_childrenNode hk']

theorem updateImmediateChild_emptyNode (hk : k ≠ FKey.priority) (empty : new.isEmpty = true) :
    updateImmediateChild k new (emptyNode : FNode κ β) = emptyNode := by
  unfold updateImmediateChild
  rw [if_neg hk]
  simp [emptyNode, updateChildren, empty, SortedEntries.erase, below, above]

/-! ### Paths -/

theorem getChild_emptyNode (p : List κ) : getChild p (emptyNode : FNode κ β) = emptyNode := by
  induction p with
  | nil => rfl
  | cons k p ih =>
    have hchild : getChild (k :: p) (emptyNode : FNode κ β) =
        getChild p ((emptyNode : FNode κ β).getImmediateChild k) := rfl
    rw [hchild, getImmediateChild_emptyNode, ih]

theorem getChild_cons (hk : k ≠ FKey.priority) (p : List κ) (n : FNode κ β) :
    getChild (k :: p) n = getChild p (n.getImmediateChild k) := by
  cases n with
  | leafNode value priorityNode =>
    rw [getImmediateChild_leafNode hk, getChild_emptyNode]
    exact if_neg hk
  | childrenNode => rfl

theorem isEmpty_updateChild_emptyNode (plain : Plain p) (empty : new.isEmpty = true) :
    (updateChild p new (emptyNode : FNode κ β)).isEmpty = true := by
  induction p with
  | nil => exact empty
  | cons k p ih =>
    obtain ⟨hk, hp⟩ := plain_cons.mp plain
    have hupdate : updateChild (k :: p) new (emptyNode : FNode κ β) = updateImmediateChild k
        (updateChild p new ((emptyNode : FNode κ β).getImmediateChild k)) emptyNode := rfl
    rw [hupdate, getImmediateChild_emptyNode, updateImmediateChild_emptyNode hk (ih hp)]
    rfl

theorem updateChild_cons (hk : k ≠ FKey.priority) (plain : Plain p) (n : FNode κ β) :
    updateChild (k :: p) new n =
      updateImmediateChild k (updateChild p new (n.getImmediateChild k)) n := by
  cases n with
  | leafNode value priorityNode =>
    rw [getImmediateChild_leafNode hk, updateChild]
    split
    · next hempty =>
      unfold updateImmediateChild
      simp [hk, isEmpty_updateChild_emptyNode plain hempty.1]
    · rfl
  | childrenNode => rfl

theorem Proper.getChild (h : n.Proper) (plain : Plain p) : (getChild p n).Proper := by
  induction p generalizing n with
  | nil => exact h
  | cons k p ih =>
    obtain ⟨hk, hp⟩ := plain_cons.mp plain
    rw [getChild_cons hk]
    exact ih (h.getImmediateChild hk) hp

theorem getChild_append (plain : Plain p) (q : List κ) (n : FNode κ β) :
    FNode.getChild (p ++ q) n = FNode.getChild q (FNode.getChild p n) := by
  induction p generalizing n with
  | nil => rfl
  | cons k p ih =>
    obtain ⟨hk, hp⟩ := plain_cons.mp plain
    rw [List.cons_append, getChild_cons hk, getChild_cons hk, ih hp]

theorem Proper.updateChild (h : n.Proper) (hnew : new.Proper) (plain : Plain p) :
    (updateChild p new n).Proper := by
  induction p generalizing n with
  | nil => exact hnew
  | cons k p ih =>
    obtain ⟨hk, hp⟩ := plain_cons.mp plain
    rw [updateChild_cons hk hp]
    exact (updateImmediateChild_spec h (ih (h.getImmediateChild hk) hp) hk).1

/-- What is put at a path is read there. -/
theorem getChild_updateChild_append (h : n.Proper) (hnew : new.Proper) (plain : Plain p)
    (q : List κ) : getChild (p ++ q) (updateChild p new n) = getChild q new := by
  induction p generalizing n with
  | nil => rfl
  | cons k p ih =>
    obtain ⟨hk, hp⟩ := plain_cons.mp plain
    have hchild := h.getImmediateChild hk
    have spec := (updateImmediateChild_spec h (hchild.updateChild hnew hp) hk).2
    rw [updateChild_cons hk hp, List.cons_append, getChild_cons hk, spec k hk,
      if_pos rfl, ih hchild hp]

/-- Above the path, the update is one of what is read there. -/
theorem getChild_updateChild_prefix (h : n.Proper) (hnew : new.Proper)
    (plain : Plain (p ++ q)) :
    getChild p (updateChild (p ++ q) new n) = updateChild q new (getChild p n) := by
  induction p generalizing n with
  | nil => rfl
  | cons k p ih =>
    rw [List.cons_append] at plain
    obtain ⟨hk, hp⟩ := plain_cons.mp plain
    have hchild := h.getImmediateChild hk
    have spec := (updateImmediateChild_spec h (hchild.updateChild hnew hp) hk).2
    rw [List.cons_append, updateChild_cons hk hp, getChild_cons hk,
      getChild_cons hk, spec k hk, if_pos rfl]
    exact ih hchild hp

/-- Apart from the path, nothing changes. -/
theorem getChild_updateChild_apart (h : n.Proper) (hnew : new.Proper) (plain : Plain p)
    (plain' : Plain q) (apart : ¬ p <+: q) (apart' : ¬ q <+: p) :
    getChild q (updateChild p new n) = getChild q n := by
  induction p generalizing n q with
  | nil => exact absurd List.nil_prefix apart
  | cons k p ih =>
    cases q with
    | nil => exact absurd List.nil_prefix apart'
    | cons k' q =>
      obtain ⟨hk, hp⟩ := plain_cons.mp plain
      obtain ⟨hk', hq⟩ := plain_cons.mp plain'
      have hchild := h.getImmediateChild hk
      have spec := (updateImmediateChild_spec h (hchild.updateChild hnew hp) hk).2
      rw [updateChild_cons hk hp, getChild_cons hk', getChild_cons hk',
        spec k' hk']
      split
      · next heq =>
        subst heq
        rw [List.prefix_cons_inj] at apart apart'
        exact ih hchild hp hq apart apart'
      · rfl

end FNode

end AstroAR
