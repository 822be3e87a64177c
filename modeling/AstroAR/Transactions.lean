import Mathlib.Data.List.Basic

/-!
# A stack of animation transactions

Animations are grouped by transactions. One transaction is open in every turn
without being asked for; more are opened and committed explicitly, the innermost
first. A transaction has one slot for a completion block, and a committed one
runs its block when the last of its animations has ended.
-/

universe u v w

structure Transaction (α : Type u) (β : Type v) (δ : Type w) where
  animations : List α
  animationDuration : Option δ
  completionBlock : Option β

namespace Transaction
variable {α : Type u} {β : Type v} {δ : Type w}

def empty : Transaction α β δ := ⟨[], none, none⟩

/-- No animation of the transaction is left. -/
def ended (t : Transaction α β δ) : Bool := t.animations.isEmpty

end Transaction

/-- The explicit transactions, innermost first, the implicit one at the bottom, and the committed
ones that still have animations. -/
structure TransactionStack (α : Type u) (β : Type v) (δ : Type w) where
  explicit : List (Transaction α β δ)
  implicit : Transaction α β δ
  committed : List (Transaction α β δ)

namespace TransactionStack
variable {α : Type u} {β : Type v} {δ : Type w}

def empty : TransactionStack α β δ := ⟨[], .empty, []⟩

def begin (s : TransactionStack α β δ) : TransactionStack α β δ :=
  { s with explicit := .empty :: s.explicit }

/-- Change the innermost open transaction. -/
def onTop (f : Transaction α β δ → Transaction α β δ) (s : TransactionStack α β δ) :
    TransactionStack α β δ :=
  match s.explicit with
  | [] => { s with implicit := f s.implicit }
  | t :: rest => { s with explicit := f t :: rest }

def setAnimationDuration (s : TransactionStack α β δ) (d : δ) : TransactionStack α β δ :=
  s.onTop fun t => { t with animationDuration := some d }

def setCompletionBlock (s : TransactionStack α β δ) (b : β) : TransactionStack α β δ :=
  s.onTop fun t => { t with completionBlock := some b }

/-- An animation starts under the innermost open transaction. -/
def animate (s : TransactionStack α β δ) (a : α) : TransactionStack α β δ :=
  s.onTop fun t => { t with animations := t.animations ++ [a] }

def commit (s : TransactionStack α β δ) : TransactionStack α β δ :=
  match s.explicit with
  | [] => s
  | t :: rest => { s with explicit := rest, committed := s.committed ++ [t] }

/-- Drop the committed transactions that have ended, and give the blocks they run. -/
def settle (s : TransactionStack α β δ) : TransactionStack α β δ × List β :=
  ({ s with committed := s.committed.filter fun t => !t.ended },
    (s.committed.filter Transaction.ended).filterMap Transaction.completionBlock)

/-- The end of a turn commits the implicit transaction. -/
def flush (s : TransactionStack α β δ) : TransactionStack α β δ × List β :=
  settle { s with implicit := .empty, committed := s.committed ++ [s.implicit] }

section Decidable
variable [DecidableEq α]

/-- The animation `a` of a committed transaction ends. -/
def finish (s : TransactionStack α β δ) (a : α) : TransactionStack α β δ × List β :=
  settle { s with committed := s.committed.map fun t =>
    { t with animations := t.animations.filter (· ≠ a) } }

/-- The transaction that waits for `a`. -/
def holder (s : TransactionStack α β δ) (a : α) : Option (Transaction α β δ) :=
  (s.committed ++ s.explicit ++ [s.implicit]).find? fun t => a ∈ t.animations

end Decidable

/-- Between turns of code that commits what it begins, and that sets no block in between: only the
implicit transaction is open, it has no animation, and no committed one has a block. -/
structure Silent (s : TransactionStack α β δ) : Prop where
  explicit : s.explicit = []
  animations : s.implicit.animations = []
  blocks : ∀ t ∈ s.committed, t.completionBlock = none

variable {s : TransactionStack α β δ}

/-- An animation between its own `begin` and `commit` leaves the transactions around it alone. -/
theorem commit_animate (s : TransactionStack α β δ) (a : α) (d : δ) :
    ((s.begin.setAnimationDuration d).animate a).commit =
      { s with committed := s.committed ++ [⟨[a], some d, none⟩] } := rfl

theorem Silent.commit_animate (h : s.Silent) (a : α) (d : δ) :
    ((s.begin.setAnimationDuration d).animate a).commit.Silent where
  explicit := h.explicit
  animations := h.animations
  blocks := by
    intro t ht
    rcases List.mem_append.mp ht with ht | ht
    · exact h.blocks t ht
    · cases List.mem_singleton.mp ht
      rfl

/-- A block set when nothing is open goes to the implicit transaction. -/
theorem Silent.setCompletionBlock_eq (h : s.Silent) (b : β) :
    s.setCompletionBlock b =
      { s with implicit := { s.implicit with completionBlock := some b } } := by
  simp only [TransactionStack.setCompletionBlock, onTop, h.explicit]

theorem Silent.setCompletionBlock (h : s.Silent) (b : β) : (s.setCompletionBlock b).Silent := by
  rw [h.setCompletionBlock_eq b]
  exact ⟨h.explicit, h.animations, h.blocks⟩

/-- The end of a turn runs the block of the implicit transaction, which waits for nothing. -/
theorem Silent.flush_snd (h : s.Silent) : s.flush.2 = s.implicit.completionBlock.toList := by
  have implicit : s.implicit.ended = true := by simp [Transaction.ended, h.animations]
  have committed : (s.committed.filter Transaction.ended).filterMap
      Transaction.completionBlock = [] := by
    refine List.filterMap_eq_nil_iff.mpr fun t ht => ?_
    exact h.blocks t (List.mem_of_mem_filter ht)
  simp only [flush, settle, List.filter_append, List.filterMap_append, committed, List.nil_append,
    List.filter_cons_of_pos implicit, List.filter_nil, List.filterMap_cons, List.filterMap_nil]
  cases s.implicit.completionBlock <;> rfl

theorem Silent.mem_flush (h : s.Silent) {t : Transaction α β δ}
    (ht : t ∈ s.flush.1.committed) : t ∈ s.committed := by
  obtain ⟨ht, hended⟩ := List.mem_filter.mp ht
  rcases List.mem_append.mp ht with ht | ht
  · exact ht
  · cases List.mem_singleton.mp ht
    simp [Transaction.ended, h.animations] at hended

theorem Silent.flush (h : s.Silent) : s.flush.1.Silent where
  explicit := h.explicit
  animations := rfl
  blocks := fun t ht => h.blocks t (h.mem_flush ht)

section Decidable
variable [DecidableEq α]

theorem mem_finish {a : α} {t : Transaction α β δ} (ht : t ∈ (s.finish a).1.committed) :
    ∃ t' ∈ s.committed, t.completionBlock = t'.completionBlock ∧
      ∀ x ∈ t.animations, x ∈ t'.animations := by
  obtain ⟨t', ht', rfl⟩ := List.mem_map.mp (List.mem_of_mem_filter ht)
  exact ⟨t', ht', rfl, fun x hx => List.mem_of_mem_filter hx⟩

theorem Silent.finish_snd (h : s.Silent) (a : α) : (s.finish a).2 = [] := by
  refine List.filterMap_eq_nil_iff.mpr fun t ht => ?_
  obtain ⟨t', ht', rfl⟩ := List.mem_map.mp (List.mem_of_mem_filter ht)
  exact h.blocks t' ht'

theorem Silent.finish (h : s.Silent) (a : α) : (s.finish a).1.Silent where
  explicit := h.explicit
  animations := h.animations
  blocks := by
    intro t ht
    obtain ⟨t', ht', heq, _⟩ := mem_finish ht
    exact heq.trans (h.blocks t' ht')

/-- Nothing that a silent stack holds runs a block at its end. -/
theorem Silent.holder_block (h : s.Silent) (a : α) :
    (s.holder a).bind Transaction.completionBlock = none := by
  refine Option.bind_eq_none_iff.mpr fun t ht => ?_
  have hmem := List.mem_of_find?_eq_some ht
  have ha := List.find?_some ht
  simp only [h.explicit, List.append_nil] at hmem
  rcases List.mem_append.mp hmem with hmem | hmem
  · exact h.blocks t hmem
  · cases List.mem_singleton.mp hmem
    simp [h.animations] at ha

end Decidable

end TransactionStack
