import AstroAR.SortedTree

/-!
# The balance of the red-black tree

A balanced tree has no red right child, no red child of a red node and on all
ways down the same number of black nodes. An insertion and a removal break this
on the way down and mend it on the way up; what each leaves behind depends on
the colours it starts from.
-/

namespace AstroAR

namespace FLLRBNode

open SortedEntries Std

universe u v

variable {κ : Type u} {ν : Type v}

/-- The colour of the root and the number of black nodes on every way down. -/
inductive Balanced : FLLRBNode κ ν → FLLRBColor → ℕ → Prop where
  | empty : Balanced emptyNode .black 0
  | red {k x l r h} (left : Balanced l .black h) (right : Balanced r .black h) :
    Balanced (valueNode k x .red l r) .red h
  | black {k x l r c h} (left : Balanced l c h) (right : Balanced r .black h) :
    Balanced (valueNode k x .black l r) .black (h + 1)

/-- A tree but for a red root with a red left child. -/
inductive RedRed : FLLRBNode κ ν → ℕ → Prop where
  | mk {k x l r h} (left : Balanced l .red h) (right : Balanced r .black h) :
    RedRed (valueNode k x .red l r) h

variable {n n' l r l' r' : FLLRBNode κ ν} {k k' : κ} {x x' : ν} {c c' : FLLRBColor} {h h' : ℕ}

theorem Balanced.color_eq (hn : Balanced n c h) : n.color = c := by
  cases hn <;> rfl

@[simp] theorem Balanced.isRed_of_black (hn : Balanced n .black h) : n.isRed = false := by
  rw [isRed, hn.color_eq]
  rfl

@[simp] theorem Balanced.isRed_of_red (hn : Balanced n .red h) : n.isRed = true := by
  rw [isRed, hn.color_eq]
  rfl

/-- A red node has black children. -/
theorem Balanced.of_red (hn : Balanced n .red h) : ∃ k x l r, n = valueNode k x .red l r ∧
    Balanced l .black h ∧ Balanced r .black h := by
  cases hn with
  | red left right => exact ⟨_, _, _, _, rfl, left, right⟩

theorem Balanced.of_black_succ (hn : Balanced n .black (h + 1)) : ∃ k x l r c,
    n = valueNode k x .black l r ∧ Balanced l c h ∧ Balanced r .black h := by
  cases hn with
  | black left right => exact ⟨_, _, _, _, _, rfl, left, right⟩

theorem Balanced.of_black_zero (hn : Balanced n .black 0) : n = emptyNode := by
  cases hn with
  | empty => rfl

/-! ### `fixUp` -/

@[simp] theorem left_valueNode : (valueNode k x c l r).left = l := rfl
@[simp] theorem right_valueNode : (valueNode k x c l r).right = r := rfl
@[simp] theorem isEmpty_valueNode : (valueNode k x c l r).isEmpty = false := rfl
@[simp] theorem isRed_red : (valueNode k x .red l r).isRed = true := rfl
@[simp] theorem isRed_black : (valueNode k x .black l r).isRed = false := rfl

@[simp] theorem rotateLeft_valueNode :
    (valueNode k x c l (valueNode k' x' c' l' r')).rotateLeft =
      valueNode k' x' c (valueNode k x .red l l') r' := rfl

@[simp] theorem rotateRight_valueNode :
    (valueNode k x c (valueNode k' x' c' l' r') r).rotateRight =
      valueNode k' x' c l' (valueNode k x .red r' r) := rfl

@[simp] theorem colorFlip_valueNode {kl kr : κ} {xl xr : ν} {cl cr : FLLRBColor}
    {ll lr rl rr : FLLRBNode κ ν} :
    (valueNode k x c (valueNode kl xl cl ll lr) (valueNode kr xr cr rl rr)).colorFlip =
      valueNode k x c.flip (valueNode kl xl cl.flip ll lr) (valueNode kr xr cr.flip rl rr) := rfl

/-- With a black right child and no two red nodes in a row on the left there is nothing to do. -/
theorem fixUp_eq_self (hr : r.isRed = false) (hl : l.isRed = true → l.left.isRed = false) :
    (valueNode k x c l r).fixUp = valueNode k x c l r := by
  cases hred : l.isRed with
  | true => simp [fixUp, hr, hred, hl hred]
  | false => simp [fixUp, hr, hred]

/-- A red right child alone is turned to the left. -/
theorem fixUp_rotateLeft (hl : l.isRed = false) (hr : r'.isRed = false) :
    (valueNode k x c l (valueNode k' x' .red l' r')).fixUp =
      valueNode k' x' c (valueNode k x .red l l') r' := by
  simp [fixUp, hl, hr]

/-- Two red children pass their colour up. -/
theorem fixUp_colorFlip {kl kr : κ} {xl xr : ν} {ll lr rl rr : FLLRBNode κ ν}
    (hl : ll.isRed = false) :
    (valueNode k x c (valueNode kl xl .red ll lr) (valueNode kr xr .red rl rr)).fixUp =
      valueNode k x c.flip (valueNode kl xl .black ll lr) (valueNode kr xr .black rl rr) := by
  simp [fixUp, hl, FLLRBColor.flip]

/-- Two red nodes in a row on the left become children of the one between them. -/
theorem fixUp_rotateRight {kl : κ} {xl : ν} {ll lr : FLLRBNode κ ν} (hr : r.isRed = false) :
    (valueNode k x c (valueNode k' x' .red (valueNode kl xl .red ll lr) r') r).fixUp =
      valueNode k' x' c.flip (valueNode kl xl .black ll lr) (valueNode k x .black r' r) := by
  simp [fixUp, hr, FLLRBColor.flip]

theorem Balanced.left_not_red (hn : Balanced n c h) (hred : n.isRed = true) :
    n.left.isRed = false := by
  cases hn with
  | empty => rfl
  | red left right => exact left.isRed_of_black
  | black left right => cases hred

/-- Two red children of a black node pass their colour up. -/
theorem Balanced.fixUp_black_of_red (hl : Balanced l .red h) (hr : Balanced r .red h) :
    Balanced (valueNode k x .black l r).fixUp .red (h + 1) := by
  obtain ⟨kl, xl, ll, lr, rfl, hll, hlr⟩ := hl.of_red
  obtain ⟨kr, xr, rl, rr, rfl, hrl, hrr⟩ := hr.of_red
  rw [fixUp_colorFlip hll.isRed_of_black]
  exact .red (.black hll hlr) (.black hrl hrr)

/-- Under a black node any two children with the same number of black nodes do. -/
theorem Balanced.fixUp_black (hl : Balanced l c h) (hr : Balanced r c' h) :
    ∃ c, Balanced (valueNode k x .black l r).fixUp c (h + 1) := by
  cases c' with
  | black =>
    rw [fixUp_eq_self hr.isRed_of_black hl.left_not_red]
    exact ⟨_, .black hl hr⟩
  | red =>
    obtain ⟨kr, xr, rl, rr, rfl, hrl, hrr⟩ := hr.of_red
    cases c with
    | black =>
      rw [fixUp_rotateLeft hl.isRed_of_black hrr.isRed_of_black]
      exact ⟨_, .black (.red hl hrl) hrr⟩
    | red => exact ⟨_, hl.fixUp_black_of_red (.red hrl hrr)⟩

/-- One black child keeps the node black. -/
theorem Balanced.fixUp_black_of_left (hl : Balanced l .black h) (hr : Balanced r c' h) :
    Balanced (valueNode k x .black l r).fixUp .black (h + 1) := by
  cases c' with
  | black =>
    rw [fixUp_eq_self hr.isRed_of_black hl.left_not_red]
    exact .black hl hr
  | red =>
    obtain ⟨kr, xr, rl, rr, rfl, hrl, hrr⟩ := hr.of_red
    rw [fixUp_rotateLeft hl.isRed_of_black hrr.isRed_of_black]
    exact .black (.red hl hrl) hrr

theorem Balanced.fixUp_eq (hn : Balanced n c h) : n.fixUp = n := by
  cases hn with
  | empty => rfl
  | red left right => exact fixUp_eq_self right.isRed_of_black left.left_not_red
  | black left right => exact fixUp_eq_self right.isRed_of_black left.left_not_red

theorem Balanced.fixUp (hn : Balanced n c h) : Balanced n.fixUp c h := by
  rw [hn.fixUp_eq]
  exact hn

/-- Two red nodes in a row under a black one become the children of a red one. -/
theorem RedRed.fixUp_black (hl : RedRed l h) (hr : Balanced r .black h) :
    Balanced (valueNode k x .black l r).fixUp .red (h + 1) := by
  cases hl with
  | mk hll hlr =>
    obtain ⟨kl, xl, ll, lr, rfl, hlll, hllr⟩ := hll.of_red
    rw [fixUp_rotateRight hr.isRed_of_black]
    exact .red (.black hlll hllr) (.black hlr hr)

/-- Under a red node two children with the same number of black nodes do, or pass their colour
up, or one of them is left red on the left. -/
theorem Balanced.fixUp_red (hl : Balanced l c h) (hr : Balanced r c' h) :
    (c = .black ∧ c' = .black ∧ Balanced (valueNode k x .red l r).fixUp .red h) ∨
    (c = .red ∧ c' = .red ∧ Balanced (valueNode k x .red l r).fixUp .black (h + 2)) ∨
      c ≠ c' ∧ RedRed (valueNode k x .red l r).fixUp h := by
  cases c' with
  | black =>
    rw [fixUp_eq_self hr.isRed_of_black hl.left_not_red]
    cases c with
    | black => exact Or.inl ⟨rfl, rfl, .red hl hr⟩
    | red => exact Or.inr (Or.inr ⟨by decide, .mk hl hr⟩)
  | red =>
    obtain ⟨kr, xr, rl, rr, rfl, hrl, hrr⟩ := hr.of_red
    cases c with
    | black =>
      rw [fixUp_rotateLeft hl.isRed_of_black hrr.isRed_of_black]
      exact Or.inr (Or.inr ⟨by decide, .mk (.red hl hrl) hrr⟩)
    | red =>
      obtain ⟨kl, xl, ll, lr, rfl, hll, hlr⟩ := hl.of_red
      rw [fixUp_colorFlip hll.isRed_of_black]
      exact Or.inr (Or.inl ⟨rfl, rfl, .black (.black hll hlr) (.black hrl hrr)⟩)

/-! ### Insertion -/

section Insert
variable (cmp : κ → κ → Ordering)

/-- An insertion under a black root keeps the number of black nodes; under a red one it may leave
two red nodes in a row. -/
theorem Balanced.insertKey (hn : Balanced n c h) (k : κ) (x : ν) :
    (∃ c', Balanced (n.insertKey cmp k x) c' h) ∨ c = .red ∧ RedRed (n.insertKey cmp k x) h := by
  induction hn with
  | empty => exact Or.inl ⟨_, .red .empty .empty⟩
  | @red k' x' l r h left right ihl ihr =>
    rw [FLLRBNode.insertKey]
    cases cmp k k' with
    | lt =>
      obtain ⟨c', hl⟩ := ihl.resolve_right (by simp)
      rcases hl.fixUp_red right with ⟨_, _, hb⟩ | ⟨_, hc, _⟩ | ⟨_, hrr⟩
      · exact Or.inl ⟨_, hb⟩
      · cases hc
      · exact Or.inr ⟨rfl, hrr⟩
    | eq => exact Or.inl ⟨_, (Balanced.red left right).fixUp⟩
    | gt =>
      obtain ⟨c', hr⟩ := ihr.resolve_right (by simp)
      rcases left.fixUp_red hr with ⟨_, _, hb⟩ | ⟨hc, _, _⟩ | ⟨_, hrr⟩
      · exact Or.inl ⟨_, hb⟩
      · cases hc
      · exact Or.inr ⟨rfl, hrr⟩
  | @black k' x' l r c h left right ihl ihr =>
    rw [FLLRBNode.insertKey]
    refine Or.inl ?_
    cases cmp k k' with
    | lt =>
      rcases ihl with ⟨c', hl⟩ | ⟨_, hl⟩
      · exact hl.fixUp_black right
      · exact ⟨_, hl.fixUp_black right⟩
    | eq => exact ⟨_, (Balanced.black left right).fixUp⟩
    | gt =>
      obtain ⟨c', hr⟩ := ihr.resolve_right (by simp)
      exact left.fixUp_black hr

end Insert

/-! ### On the way down of a removal -/

/-- A subtree that can lose a node without losing a black one on some way down. -/
def Ready (n : FLLRBNode κ ν) : Prop := n.isEmpty = true ∨ n.left.isRed = true

theorem readyLeft_of_red (hl : l.isRed = true) :
    (valueNode k x c l r).readyLeft = valueNode k x c l r := by
  simp [readyLeft, hl]

/-- Left of a node with black children, the subtree is or becomes ready, or both children turn
red. -/
theorem readyLeft_of_black (k : κ) (x : ν) (c : FLLRBColor) (hl : Balanced l .black h)
    (hr : Balanced r .black h) :
    (∃ k' x' l' r', (valueNode k x c l r).readyLeft = valueNode k' x' c l' r' ∧
      Balanced l' .black h ∧ l'.Ready ∧ Balanced r' .black h ∧
      (k' = k ∨ ∃ e ∈ r.entries, e.1 = k')) ∨
    ∃ l' r' h₀, (valueNode k x c l r).readyLeft = valueNode k x c.flip l' r' ∧
      h = h₀ + 1 ∧ Balanced l' .red h₀ ∧ Balanced r' .red h₀ := by
  cases h with
  | zero =>
    cases hl.of_black_zero
    exact Or.inl ⟨k, x, emptyNode, r, rfl, hl, Or.inl rfl, hr, Or.inl rfl⟩
  | succ h =>
    obtain ⟨kl, xl, ll, lr, cl, rfl, hll, hlr⟩ := hl.of_black_succ
    obtain ⟨kr, xr, rl, rr, cr, rfl, hrl, hrr⟩ := hr.of_black_succ
    cases cl with
    | red =>
      have hready : (valueNode k x c (valueNode kl xl .black ll lr)
          (valueNode kr xr .black rl rr)).readyLeft = valueNode k x c (valueNode kl xl .black ll lr)
          (valueNode kr xr .black rl rr) := by
        simp [readyLeft, hll.isRed_of_red]
      exact Or.inl ⟨k, x, _, _, hready, hl, Or.inr hll.isRed_of_red, hr, Or.inl rfl⟩
    | black =>
      cases cr with
      | black =>
        refine Or.inr ⟨valueNode kl xl .red ll lr, valueNode kr xr .red rl rr, h, ?_, rfl,
          .red hll hlr, .red hrl hrr⟩
        simp [readyLeft, moveRedLeft, hll.isRed_of_black, hrl.isRed_of_black, FLLRBColor.flip]
      | red =>
        obtain ⟨km, xm, ml, mr, rfl, hml, hmr⟩ := hrl.of_red
        refine Or.inl ⟨km, xm, valueNode k x .black (valueNode kl xl .red ll lr) ml,
          valueNode kr xr .black mr rr, ?_, .black (.red hll hlr) hml, Or.inr rfl,
          .black hmr hrr, Or.inr ⟨(km, xm), by simp [entries], rfl⟩⟩
        simp [readyLeft, moveRedLeft, hll.isRed_of_black, FLLRBColor.flip, copyWith]
        cases c <;> rfl

/-- A black node whose right child alone is red. -/
inductive Leaning : FLLRBNode κ ν → ℕ → Prop where
  | mk {k : κ} {x : ν} {l r : FLLRBNode κ ν} {h : ℕ} (left : Balanced l .black h)
    (right : Balanced r .red h) : Leaning (valueNode k x .black l r) (h + 1)

/-- Right of a node with black children, the subtree is or becomes ready, or both children turn
red, or the node itself goes down leaning to the right. -/
theorem readyRight_of_black (k : κ) (x : ν) (c : FLLRBColor) (hl : Balanced l .black h)
    (hr : Balanced r .black h) :
    (r.Ready ∧ (valueNode k x c l r).readyRight = valueNode k x c l r) ∨
    (∃ l' r' h₀, (valueNode k x c l r).readyRight = valueNode k x c.flip l' r' ∧
      h = h₀ + 1 ∧ Balanced l' .red h₀ ∧ Balanced r' .red h₀) ∨
    ∃ k' x' l' r', (valueNode k x c l r).readyRight = valueNode k' x' c l' r' ∧
      Balanced l' .black h ∧ Leaning r' h ∧ r'.key = some k ∧ ∃ e ∈ l.entries, e.1 = k' := by
  cases h with
  | zero =>
    cases hl.of_black_zero
    cases hr.of_black_zero
    exact Or.inl ⟨Or.inl rfl, rfl⟩
  | succ h =>
    obtain ⟨kl, xl, ll, lr, cl, rfl, hll, hlr⟩ := hl.of_black_succ
    obtain ⟨kr, xr, rl, rr, cr, rfl, hrl, hrr⟩ := hr.of_black_succ
    cases cr with
    | red =>
      refine Or.inl ⟨Or.inr hrl.isRed_of_red, ?_⟩
      simp [readyRight, hrl.isRed_of_red]
    | black =>
      cases cl with
      | black =>
        refine Or.inr (Or.inl ⟨valueNode kl xl .red ll lr, valueNode kr xr .red rl rr, h, ?_, rfl,
          .red hll hlr, .red hrl hrr⟩)
        simp [readyRight, moveRedRight, hll.isRed_of_black, hrl.isRed_of_black, FLLRBColor.flip]
      | red =>
        obtain ⟨km, xm, ml, mr, rfl, hml, hmr⟩ := hll.of_red
        refine Or.inr (Or.inr ⟨kl, xl, valueNode km xm .black ml mr,
          valueNode k x .black lr (valueNode kr xr .red rl rr), ?_, .black hml hmr,
          .mk hlr (.red hrl hrr), rfl, (kl, xl), by simp [entries], rfl⟩)
        simp [readyRight, moveRedRight, hrl.isRed_of_black, FLLRBColor.flip]
        cases c <;> rfl

theorem readyRight_of_red (k : κ) (x : ν) (hl : Balanced l .red h) (hr : Balanced r .black h) :
    ∃ k' x' l' r', (valueNode k x .black l r).readyRight = valueNode k' x' .black l' r' ∧
      Balanced l' .black h ∧ Balanced r' .red h ∧ r'.key = some k ∧ ∃ e ∈ l.entries, e.1 = k' := by
  obtain ⟨kl, xl, ll, lr, rfl, hll, hlr⟩ := hl.of_red
  refine ⟨kl, xl, ll, valueNode k x .red lr r, ?_, hll, .red hlr hr, rfl, (kl, xl),
    by simp [entries], rfl⟩
  simp [readyRight]

theorem readyRight_of_leaning (k : κ) (x : ν) (hl : Balanced l .black h) (hr : Balanced r .red h) :
    (valueNode k x .black l r).readyRight = valueNode k x .black l r := by
  simp [readyRight, hl.isRed_of_black, hr.isRed_of_red]

/-- A subtree has lost at most a red node: a red one may have turned black, a ready black one
stays black. -/
structure Shrunk (n n' : FLLRBNode κ ν) : Prop where
  red : ∀ {h}, Balanced n .red h → ∃ c, Balanced n' c h
  ready : ∀ {h}, Balanced n .black h → n.Ready → Balanced n' .black h

/-- The subtree was rebalanced, but looks as before from above. -/
def Kept (n n' : FLLRBNode κ ν) : Prop := ∀ {c h}, Balanced n c h → Balanced n' c h

/-- A subtree has lost a node. If it was black and not ready, two red nodes in a row may be left
at the top. -/
structure Removed (n n' : FLLRBNode κ ν) : Prop extends Shrunk n n' where
  black : ∀ {h}, Balanced n .black h → (∃ h', Balanced n' .black h') ∨ ∃ h', RedRed n' h'

variable {t : FLLRBNode κ ν}

theorem Shrunk.trans_kept (hs : Shrunk n n') (hk : Kept n' t) : Shrunk n t where
  red := fun hn => (hs.red hn).imp fun _ => hk
  ready := fun hn hready => hk (hs.ready hn hready)

theorem not_ready_valueNode (hl : l.isRed = false) : ¬ (valueNode k x c l r).Ready := by
  rintro (hempty | hred)
  · cases hempty
  · exact Bool.false_ne_true (hl.symm.trans hred)

/-- After the step to the left. -/
theorem Removed.of_left (hs : Shrunk (valueNode k x c l r).readyLeft.left t) :
    Removed (valueNode k x c l r)
      ((valueNode k x c l r).readyLeft.copyWith none none none (some t) none).fixUp where
  red := fun {h} hn => by
    cases hn with
    | red left right =>
      rcases readyLeft_of_black k x .red left right with ⟨k', x', l', r', hm, hl, hready, hr, _⟩ |
        ⟨l', r', h₀, hm, rfl, hl, hr⟩
      · rw [hm] at hs ⊢
        exact ⟨_, Balanced.fixUp (.red (hs.ready hl hready) hr)⟩
      · rw [hm] at hs ⊢
        obtain ⟨c', ht⟩ := hs.red hl
        exact ht.fixUp_black hr
  ready := fun {h} hn hready => by
    cases hn with
    | @black _ _ _ _ cl _ left right =>
      cases cl with
      | black => exact absurd hready (not_ready_valueNode left.isRed_of_black)
      | red =>
        rw [readyLeft_of_red left.isRed_of_red] at hs ⊢
        obtain ⟨c', ht⟩ := hs.red left
        exact Balanced.fixUp (.black ht right)
  black := fun {h} hn => by
    cases hn with
    | @black _ _ _ _ cl h left right =>
      cases cl with
      | red =>
        rw [readyLeft_of_red left.isRed_of_red] at hs ⊢
        obtain ⟨c', ht⟩ := hs.red left
        exact Or.inl ⟨_, Balanced.fixUp (.black ht right)⟩
      | black =>
        rcases readyLeft_of_black k x .black left right with
          ⟨k', x', l', r', hm, hl, hready, hr, _⟩ | ⟨l', r', h₀, hm, rfl, hl, hr⟩
        · rw [hm] at hs ⊢
          exact Or.inl ⟨_, Balanced.fixUp (.black (hs.ready hl hready) hr)⟩
        · rw [hm] at hs ⊢
          obtain ⟨c', ht⟩ := hs.red hl
          rcases ht.fixUp_red hr with ⟨_, hc, _⟩ | ⟨_, _, hb⟩ | ⟨_, hrr⟩
          · cases hc
          · exact Or.inl ⟨_, hb⟩
          · exact Or.inr ⟨_, hrr⟩

theorem Kept.of_left (hk : Kept (valueNode k x c l r).readyLeft.left t) :
    Kept (valueNode k x c l r)
      ((valueNode k x c l r).readyLeft.copyWith none none none (some t) none).fixUp := by
  intro c' h hn
  cases hn with
  | red left right =>
    rcases readyLeft_of_black k x .red left right with ⟨k', x', l', r', hm, hl, _, hr, _⟩ |
      ⟨l', r', h₀, hm, rfl, hl, hr⟩
    · rw [hm] at hk ⊢
      exact Balanced.fixUp (.red (hk hl) hr)
    · rw [hm] at hk ⊢
      exact Balanced.fixUp_black_of_red (hk hl) hr
  | @black _ _ _ _ cl h left right =>
    cases cl with
    | red =>
      rw [readyLeft_of_red left.isRed_of_red] at hk ⊢
      exact Balanced.fixUp (.black (hk left) right)
    | black =>
      rcases readyLeft_of_black k x .black left right with ⟨k', x', l', r', hm, hl, _, hr, _⟩ |
        ⟨l', r', h₀, hm, rfl, hl, hr⟩
      · rw [hm] at hk ⊢
        exact Balanced.fixUp (.black (hk hl) hr)
      · rw [hm] at hk ⊢
        rcases Balanced.fixUp_red (hk hl) hr with ⟨hc, _⟩ | ⟨_, _, hb⟩ | ⟨hne, _⟩
        · cases hc
        · exact hb
        · exact absurd rfl hne

theorem Leaning.not_balanced (hn : Leaning n h) : ¬ Balanced n c h' := by
  intro hb
  cases hn with
  | mk left right =>
    cases hb with
    | black _ hr => exact Bool.false_ne_true (hr.isRed_of_black.symm.trans right.isRed_of_red)

/-- After the step to the right. A subtree that leans to the right may have come down with the
key of the node, under a key from the left. -/
theorem Removed.of_right {k₁ : Option κ} {x₁ : Option ν}
    (hs : Shrunk (valueNode k x c l r).readyRight.right t)
    (leaning : ∀ {h}, Leaning (valueNode k x c l r).readyRight.right h →
      (valueNode k x c l r).readyRight.right.key = some k →
      (∃ e ∈ l.entries, (valueNode k x c l r).readyRight.key = some e.1) → Balanced t .black h) :
    Removed (valueNode k x c l r)
      ((valueNode k x c l r).readyRight.copyWith k₁ x₁ none none (some t)).fixUp where
  red := fun {h} hn => by
    cases hn with
    | red left right =>
      rcases readyRight_of_black k x .red left right with ⟨hready, hm⟩ |
        ⟨l', r', h₀, hm, rfl, hl, hr⟩ | ⟨k', x', l', r', hm, hl, hlean, hkey, e, he, rfl⟩
      · rw [hm] at hs ⊢
        exact ⟨_, Balanced.fixUp (.red left (hs.ready right hready))⟩
      · rw [hm] at hs ⊢
        obtain ⟨c', ht⟩ := hs.red hr
        exact hl.fixUp_black ht
      · rw [hm] at leaning ⊢
        exact ⟨_, Balanced.fixUp (.red hl (leaning hlean hkey ⟨e, he, rfl⟩))⟩
  ready := fun {h} hn hready => by
    cases hn with
    | @black _ _ _ _ cl _ left right =>
      cases cl with
      | black => exact absurd hready (not_ready_valueNode left.isRed_of_black)
      | red =>
        obtain ⟨k', x', l', r', hm, hl, hr, _⟩ := readyRight_of_red k x left right
        rw [hm] at hs ⊢
        obtain ⟨c', ht⟩ := hs.red hr
        exact hl.fixUp_black_of_left ht
  black := fun {h} hn => by
    cases hn with
    | @black _ _ _ _ cl h left right =>
      cases cl with
      | red =>
        obtain ⟨k', x', l', r', hm, hl, hr, _⟩ := readyRight_of_red k x left right
        rw [hm] at hs ⊢
        obtain ⟨c', ht⟩ := hs.red hr
        exact Or.inl ⟨_, hl.fixUp_black_of_left ht⟩
      | black =>
        rcases readyRight_of_black k x .black left right with ⟨hready, hm⟩ |
          ⟨l', r', h₀, hm, rfl, hl, hr⟩ | ⟨k', x', l', r', hm, hl, hlean, hkey, e, he, rfl⟩
        · rw [hm] at hs ⊢
          exact Or.inl ⟨_, Balanced.fixUp (.black left (hs.ready right hready))⟩
        · rw [hm] at hs ⊢
          obtain ⟨c', ht⟩ := hs.red hr
          rcases hl.fixUp_red ht with ⟨hc, _⟩ | ⟨_, _, hb⟩ | ⟨_, hrr⟩
          · cases hc
          · exact Or.inl ⟨_, hb⟩
          · exact Or.inr ⟨_, hrr⟩
        · rw [hm] at leaning ⊢
          exact Or.inl ⟨_, Balanced.fixUp (.black hl (leaning hlean hkey ⟨e, he, rfl⟩))⟩

/-- A node that leans to the right gives the red node on its right away. -/
theorem Leaning.of_right {k₁ : Option κ} {x₁ : Option ν} (hn : Leaning (valueNode k x c l r) h)
    (hs : Shrunk (valueNode k x c l r).readyRight.right t) :
    Balanced ((valueNode k x c l r).readyRight.copyWith k₁ x₁ none none (some t)).fixUp
      .black h := by
  cases hn with
  | mk left right =>
    rw [readyRight_of_leaning k x left right] at hs ⊢
    obtain ⟨c', ht⟩ := hs.red right
    exact left.fixUp_black_of_left ht

/-! ### What is removed -/

theorem Balanced.isEmpty_iff (hn : Balanced n .black h) : n.isEmpty = true ↔ h = 0 := by
  cases hn with
  | empty => exact ⟨fun _ => rfl, fun _ => rfl⟩
  | black =>
    constructor
    · intro hempty
      cases hempty
    · intro hzero
      cases hzero

/-- A node without a left child has no right one either. -/
theorem Balanced.right_isEmpty (hn : Balanced n c h) (hl : n.left.isEmpty = true) :
    n.right = emptyNode := by
  cases hn with
  | empty => rfl
  | red left right =>
    cases left.isEmpty_iff.mp hl
    exact right.of_black_zero
  | @black _ _ _ _ cl _ left right =>
    cases cl with
    | black =>
      cases left.isEmpty_iff.mp hl
      exact right.of_black_zero
    | red =>
      obtain ⟨_, _, _, _, rfl, _⟩ := left.of_red
      cases hl

/-- Induction on the subtrees to which a removal goes on. -/
theorem ready_induction {motive : FLLRBNode κ ν → Prop} (empty : motive emptyNode)
    (step : ∀ k x c l r, motive (valueNode k x c l r).readyLeft.left →
      motive (valueNode k x c l r).readyRight.right → motive (valueNode k x c l r)) :
    ∀ n, motive n
  | emptyNode => empty
  | valueNode k x c l r =>
    step k x c l r (ready_induction empty step _) (ready_induction empty step _)
termination_by n => n.entries.length
decreasing_by
  · exact (length_children_lt (entries_readyLeft _) rfl).1
  · exact (length_children_lt (entries_readyRight _) rfl).2

theorem removeMin_of_left (h : l.isEmpty = false) : (valueNode k x c l r).removeMin =
    ((valueNode k x c l r).readyLeft.copyWith none none none
      (some (valueNode k x c l r).readyLeft.left.removeMin) none).fixUp := by
  rw [removeMin]
  simp [readyLeft, h]

/-- `removeMin` takes at most a red node from a subtree that is ready. -/
theorem Shrunk.removeMin (n : FLLRBNode κ ν) : Shrunk n n.removeMin := by
  induction n using ready_induction with
  | empty =>
    rw [FLLRBNode.removeMin]
    exact ⟨fun hn => ⟨_, hn⟩, fun hn _ => hn⟩
  | step k x c l r ih =>
    cases hl : l.isEmpty with
    | false =>
      rw [removeMin_of_left hl]
      exact (Removed.of_left ih).toShrunk
    | true =>
      rw [FLLRBNode.removeMin, if_pos hl]
      constructor
      · intro h hn
        cases hn with
        | red left right =>
          cases left.isEmpty_iff.mp hl
          exact ⟨_, .empty⟩
      · intro h hn hready
        rcases hready with hempty | hred
        · cases hempty
        · exact absurd (isEmpty_of_isRed hred) (by simp [hl])

/-- To the left of a balanced node the removal goes on in a balanced one. -/
theorem Balanced.readyLeft (hn : Balanced (valueNode k x c l r) c' h) :
    ∃ k' x' c₁ l' r' c₂ h₂, (valueNode k x c l r).readyLeft = valueNode k' x' c₁ l' r' ∧
      Balanced l' c₂ h₂ ∧ l'.isEmpty = l.isEmpty ∧ (k' = k ∨ ∃ e ∈ r.entries, e.1 = k') := by
  have ofBlack : ∀ {h}, Balanced l .black h → Balanced r .black h →
      ∃ k' x' c₁ l' r' c₂ h₂, (valueNode k x c l r).readyLeft = valueNode k' x' c₁ l' r' ∧
        Balanced l' c₂ h₂ ∧ l'.isEmpty = l.isEmpty ∧ (k' = k ∨ ∃ e ∈ r.entries, e.1 = k') := by
    intro h left right
    rcases readyLeft_of_black k x c left right with ⟨k', x', l', r', hm, hl, _, _, hkey⟩ |
      ⟨l', r', h₀, hm, rfl, hl, _⟩
    · refine ⟨k', x', c, l', r', _, _, hm, hl, ?_, hkey⟩
      rw [Bool.eq_iff_iff, hl.isEmpty_iff, left.isEmpty_iff]
    · refine ⟨k, x, _, l', r', _, _, hm, hl, ?_, Or.inl rfl⟩
      rw [isEmpty_of_isRed hl.isRed_of_red, eq_comm, Bool.eq_false_iff, Ne, left.isEmpty_iff]
      omega
  cases hn with
  | red left right => exact ofBlack left right
  | @black _ _ _ _ cl _ left right =>
    cases cl with
    | black => exact ofBlack left right
    | red => exact ⟨k, x, _, l, r, _, _, readyLeft_of_red left.isRed_of_red, left, rfl, Or.inl rfl⟩

theorem entries_eq_nil : n.entries = [] ↔ n = emptyNode := by
  cases n with
  | emptyNode => exact ⟨fun _ => rfl, fun _ => rfl⟩
  | valueNode => simp [entries]

theorem isEmpty_iff : n.isEmpty = true ↔ n = emptyNode := by
  cases n with
  | emptyNode => exact ⟨fun _ => rfl, fun _ => rfl⟩
  | valueNode => simp

theorem entries_removeMin (hn : Balanced n c h) : n.removeMin.entries = n.entries.tail := by
  induction n using ready_induction generalizing c h with
  | empty =>
    rw [removeMin]
    rfl
  | step k x c₀ l r ih =>
    cases hl : l.isEmpty with
    | true =>
      rw [removeMin, if_pos hl, entries, show r = emptyNode from hn.right_isEmpty hl]
      cases l with
      | emptyNode => rfl
      | valueNode => cases hl
    | false =>
      obtain ⟨k', x', c₁, l', r', c₂, h₂, hm, hl', hempty, _⟩ := hn.readyLeft
      have hih : l'.removeMin.entries = l'.entries.tail := by
        rw [hm] at ih
        exact ih hl'
      have hne : l'.entries ≠ [] := by
        rw [Ne, entries_eq_nil, ← isEmpty_iff, hempty, hl]
        exact Bool.false_ne_true
      rw [removeMin_of_left hl, entries_fixUp, ← entries_readyLeft (valueNode k x c₀ l r), hm]
      simp only [copyWith, entries, Option.getD, left_valueNode]
      rw [hih, List.tail_append_of_ne_nil hne]

/-! ### The order of the keys -/

section Order
variable {cmp : κ → κ → Ordering} [TransCmp cmp]

theorem entries_insertKey (asc : Ascending cmp n.entries) (k : κ) (x : ν) :
    (n.insertKey cmp k x).entries = upsert cmp id k x n.entries := by
  induction n with
  | emptyNode => rfl
  | valueNode k' x' c l r ihl ihr =>
    obtain ⟨⟨ascl, _⟩, ascr, _⟩ := ascending_pivot.mp asc
    rw [insertKey, entries_fixUp]
    cases hk : cmp k k' with
    | lt =>
      simp only [copyWith, entries, Option.getD]
      rw [ihl ascl, (cut_lt asc hk Cut.self).upsert]
      simp [upsert]
    | eq =>
      simp only [copyWith, entries, Option.getD]
      rw [(cut_eq asc hk).upsert]
      rfl
    | gt =>
      simp only [copyWith, entries, Option.getD]
      rw [ihr ascr, (cut_gt asc hk Cut.self).upsert]
      simp [upsert]

theorem get_eq (asc : Ascending cmp n.entries) (k : κ) : n.get cmp k = lookup cmp k n.entries := by
  induction n with
  | emptyNode => rfl
  | valueNode k' x' c l r ihl ihr =>
    obtain ⟨⟨ascl, _⟩, ascr, _⟩ := ascending_pivot.mp asc
    rw [get]
    cases hk : cmp k k' with
    | lt => exact (ihl ascl).trans (cut_lt asc hk Cut.self).lookup.symm
    | eq => exact (cut_eq asc hk).lookup.symm
    | gt => exact (ihr ascr).trans (cut_gt asc hk Cut.self).lookup.symm

omit [TransCmp cmp] in
theorem remove_lt (hk : cmp k k' = .lt) : (valueNode k' x c l r).remove cmp k =
    ((valueNode k' x c l r).readyLeft.copyWith none none none
      (some ((valueNode k' x c l r).readyLeft.left.remove cmp k)) none).fixUp := by
  rw [remove, if_pos hk]

omit [TransCmp cmp] in
/-- A removal of a key below all others only rebalances the tree. -/
theorem remove_of_above (all : ∀ e ∈ n.entries, cmp k e.1 = .lt) :
    Kept n (n.remove cmp k) ∧ (n.remove cmp k).entries = n.entries := by
  induction n using ready_induction with
  | empty =>
    rw [remove]
    exact ⟨id, rfl⟩
  | step k' x c l r ih =>
    have hall : ∀ e ∈ (valueNode k' x c l r).readyLeft.left.entries, cmp k e.1 = .lt := by
      intro e he
      refine all e ?_
      rw [← entries_readyLeft]
      cases hm : (valueNode k' x c l r).readyLeft with
      | emptyNode =>
        rw [hm] at he
        cases he
      | valueNode =>
        rw [hm] at he
        exact List.mem_append_left _ he
    obtain ⟨kept, same⟩ := ih hall
    rw [remove_lt (all (k', x) (by simp [entries]))]
    refine ⟨Kept.of_left kept, ?_⟩
    rw [entries_fixUp, ← entries_readyLeft (valueNode k' x c l r)]
    cases hm : (valueNode k' x c l r).readyLeft with
    | emptyNode => rfl
    | valueNode =>
      rw [hm] at same
      exact congrArg (· ++ _) same

/-- `min` is the first entry. -/
theorem min_eq (h : n.isEmpty = false) :
    ∃ e, n.min.key = some e.1 ∧ n.min.value = some e.2 ∧ n.entries = e :: n.entries.tail := by
  induction n with
  | emptyNode => cases h
  | valueNode k x c l r ihl =>
    rw [min]
    cases hl : l.isEmpty with
    | true =>
      cases l with
      | emptyNode => exact ⟨(k, x), rfl, rfl, rfl⟩
      | valueNode => cases hl
    | false =>
      obtain ⟨e, hkey, hvalue, hentries⟩ := ihl hl
      refine ⟨e, hkey, hvalue, ?_⟩
      rw [entries, hentries]
      rfl

/-- A removal meets balanced nodes and nodes that lean to the right, these not with a key on their
left. -/
def Searchable (cmp : κ → κ → Ordering) (k : κ) (n : FLLRBNode κ ν) : Prop :=
  (∃ c h, Balanced n c h) ∨ (∃ h, Leaning n h) ∧ ∀ k', n.key = some k' → cmp k k' ≠ .lt

/-- To the right of a node the removal goes on with a key that is not below the new pivot. -/
theorem Searchable.readyRight (hn : Searchable cmp k (valueNode k' x c l r))
    (asc : Ascending cmp (valueNode k' x c l r).entries) (hk : cmp k k' ≠ .lt) :
    ∃ k₁ x₁ c₁ l₁ r₁, (valueNode k' x c l r).readyRight = valueNode k₁ x₁ c₁ l₁ r₁ ∧
      cmp k k₁ ≠ .lt ∧ Searchable cmp k r₁ ∧ (cmp k k₁ = .eq →
        (∃ c₂ h₂, Balanced r₁ c₂ h₂) ∧ (r₁.isEmpty = true → l₁ = emptyNode)) := by
  have fromLeft : ∀ {k₁}, (∃ e ∈ l.entries, e.1 = k₁) → cmp k k₁ = .gt := by
    rintro _ ⟨e, he, rfl⟩
    have below : cmp e.1 k' = .lt := (ascending_pivot.mp asc).1.2 e he
    exact TransCmp.gt_of_isGE_of_gt (Ordering.ne_lt_iff_isGE.mp hk) (OrientedCmp.gt_of_lt below)
  have ofBlack : ∀ {h}, Balanced l .black h → Balanced r .black h →
      ∃ k₁ x₁ c₁ l₁ r₁, (valueNode k' x c l r).readyRight = valueNode k₁ x₁ c₁ l₁ r₁ ∧
        cmp k k₁ ≠ .lt ∧ Searchable cmp k r₁ ∧ (cmp k k₁ = .eq →
          (∃ c₂ h₂, Balanced r₁ c₂ h₂) ∧ (r₁.isEmpty = true → l₁ = emptyNode)) := by
    intro h left right
    rcases readyRight_of_black k' x c left right with ⟨_, hm⟩ | ⟨l₁, r₁, h₀, hm, rfl, hl, hr⟩ |
      ⟨k₁, x₁, l₁, r₁, hm, hl, hlean, hkey, hmem⟩
    · refine ⟨k', x, c, l, r, hm, hk, Or.inl ⟨_, _, right⟩, fun _ => ⟨⟨_, _, right⟩, ?_⟩⟩
      intro hempty
      cases right.isEmpty_iff.mp hempty
      exact left.of_black_zero
    · refine ⟨k', x, _, l₁, r₁, hm, hk, Or.inl ⟨_, _, hr⟩, fun _ => ⟨⟨_, _, hr⟩, ?_⟩⟩
      intro hempty
      rw [isEmpty_of_isRed hr.isRed_of_red] at hempty
      cases hempty
    · have hgt := fromLeft hmem
      refine ⟨k₁, x₁, c, l₁, r₁, hm, by rw [hgt]; decide, Or.inr ⟨⟨_, hlean⟩, ?_⟩, fun heq => ?_⟩
      · intro k₂ hk₂
        cases hkey.symm.trans hk₂
        exact hk
      · cases hgt.symm.trans heq
  rcases hn with ⟨c', h, hn⟩ | ⟨⟨h, hn⟩, _⟩
  · cases hn with
    | red left right => exact ofBlack left right
    | @black _ _ _ _ cl _ left right =>
      cases cl with
      | black => exact ofBlack left right
      | red =>
        obtain ⟨k₁, x₁, l₁, r₁, hm, hl, hr, hkey, hmem⟩ := readyRight_of_red k' x left right
        have hgt := fromLeft hmem
        refine ⟨k₁, x₁, _, l₁, r₁, hm, by rw [hgt]; decide, Or.inl ⟨_, _, hr⟩, fun heq => ?_⟩
        cases hgt.symm.trans heq
  · cases hn with
    | mk left right =>
      refine ⟨k', x, _, l, r, readyRight_of_leaning k' x left right, hk, Or.inl ⟨_, _, right⟩,
        fun _ => ⟨⟨_, _, right⟩, fun hempty => ?_⟩⟩
      rw [isEmpty_of_isRed right.isRed_of_red] at hempty
      cases hempty

omit [TransCmp cmp] in
theorem remove_last {k₁ : κ} {x₁ : ν} {c₁ : FLLRBColor} {l₁ r₁ : FLLRBNode κ ν}
    (hm : (valueNode k' x c l r).readyRight = valueNode k₁ x₁ c₁ l₁ r₁) (hk : cmp k k' ≠ .lt)
    (same : cmp k k₁ = .eq) (last : r₁.isEmpty = true) :
    (valueNode k' x c l r).remove cmp k = emptyNode := by
  rw [remove, if_neg hk]
  simp [hm, key, same, last]

omit [TransCmp cmp] in
theorem remove_same {k₁ : κ} {x₁ : ν} {c₁ : FLLRBColor} {l₁ r₁ : FLLRBNode κ ν}
    (hm : (valueNode k' x c l r).readyRight = valueNode k₁ x₁ c₁ l₁ r₁) (hk : cmp k k' ≠ .lt)
    (same : cmp k k₁ = .eq) (last : r₁.isEmpty = false) :
    (valueNode k' x c l r).remove cmp k = ((valueNode k' x c l r).readyRight.copyWith r₁.min.key
      r₁.min.value none none (some (r₁.removeMin.remove cmp k))).fixUp := by
  rw [remove, if_neg hk]
  simp [hm, key, same, last, copyWith]

omit [TransCmp cmp] in
theorem remove_gt {k₁ : κ} {x₁ : ν} {c₁ : FLLRBColor} {l₁ r₁ : FLLRBNode κ ν}
    (hm : (valueNode k' x c l r).readyRight = valueNode k₁ x₁ c₁ l₁ r₁) (hk : cmp k k' ≠ .lt)
    (above : cmp k k₁ ≠ .eq) :
    (valueNode k' x c l r).remove cmp k = ((valueNode k' x c l r).readyRight.copyWith none none
      none none (some (r₁.remove cmp k))).fixUp := by
  rw [remove, if_neg hk]
  simp [hm, key, above, copyWith]

/-- What a removal makes of a subtree. -/
structure Deletes (cmp : κ → κ → Ordering) (k : κ) (n n' : FLLRBNode κ ν) : Prop where
  entries : n'.entries = erase cmp k n.entries
  removed : Removed n n'
  leaning : ∀ {h}, Leaning n h → Balanced n' .black h

omit [TransCmp cmp] in
theorem Removed.of_single :
    Removed (valueNode k x c emptyNode emptyNode) (emptyNode : FLLRBNode κ ν) where
  red := fun hn => by
    cases hn with
    | red left => exact ⟨_, left⟩
  ready := fun _ hready => absurd hready (not_ready_valueNode rfl)
  black := fun _ => Or.inl ⟨0, .empty⟩

section Step
variable (asc : Ascending cmp (valueNode k' x c l r).entries)
include asc

theorem deletes_left (hk : cmp k k' = .lt) (hb : Balanced (valueNode k' x c l r) c' h)
    (ih : Ascending cmp (valueNode k' x c l r).readyLeft.left.entries →
      Searchable cmp k (valueNode k' x c l r).readyLeft.left →
        Deletes cmp k (valueNode k' x c l r).readyLeft.left
          ((valueNode k' x c l r).readyLeft.left.remove cmp k)) :
    Deletes cmp k (valueNode k' x c l r) ((valueNode k' x c l r).remove cmp k) := by
  obtain ⟨k₁, x₁, c₁, l₁, r₁, c₂, h₂, hm, hl₁, _, hkey⟩ := hb.readyLeft
  have same : (valueNode k' x c l r).entries = l₁.entries ++ (k₁, x₁) :: r₁.entries := by
    rw [← entries_readyLeft (valueNode k' x c l r), hm, entries]
  have hk₁ : cmp k k₁ = .lt := by
    rcases hkey with rfl | ⟨e, he, rfl⟩
    · exact hk
    · exact TransCmp.lt_trans hk ((ascending_pivot.mp asc).2.2 e he)
  rw [same] at asc
  have hdel : Deletes cmp k l₁ (l₁.remove cmp k) := by
    rw [hm] at ih
    exact ih (ascending_pivot.mp asc).1.1 (Or.inl ⟨_, _, hl₁⟩)
  refine ⟨?_, ?_, fun hlean => absurd hb hlean.not_balanced⟩
  · rw [remove_lt hk, entries_fixUp, hm, same, (cut_lt asc hk₁ Cut.self).erase]
    simp only [copyWith, FLLRBNode.entries, Option.getD, left_valueNode]
    rw [hdel.entries, erase, List.append_assoc]
  · rw [remove_lt hk]
    refine Removed.of_left ?_
    rw [hm]
    exact hdel.removed.toShrunk

variable {k₁ : κ} {x₁ : ν} {c₁ : FLLRBColor} {l₁ r₁ : FLLRBNode κ ν}
  (hm : (valueNode k' x c l r).readyRight = valueNode k₁ x₁ c₁ l₁ r₁) (hk : cmp k k' ≠ .lt)
include hm hk

/-- The node with the key is the last one. -/
theorem deletes_last (heq : cmp k k₁ = .eq) (hl : l₁ = emptyNode) (hr : r₁ = emptyNode) :
    Deletes cmp k (valueNode k' x c l r) ((valueNode k' x c l r).remove cmp k) := by
  subst hl hr
  have same : (valueNode k' x c l r).entries = [] ++ (k₁, x₁) :: [] := by
    rw [← entries_readyRight (valueNode k' x c l r), hm, entries, entries]
  have single : l = emptyNode ∧ r = emptyNode := by
    have hlength := congrArg List.length same
    simp only [entries, List.length_append, List.length_cons, List.length_nil] at hlength
    rw [← entries_eq_nil, ← entries_eq_nil, ← List.length_eq_zero_iff, ← List.length_eq_zero_iff]
    omega
  rw [remove_last hm hk heq rfl]
  refine ⟨?_, ?_, fun hlean => ?_⟩
  · rw [same] at asc ⊢
    rw [(cut_eq asc heq).erase]
    rfl
  · obtain ⟨rfl, rfl⟩ := single
    exact .of_single
  · obtain ⟨rfl, rfl⟩ := single
    cases hlean with
    | mk _ right => cases right

/-- The node with the key takes the next entry over. -/
theorem deletes_same (heq : cmp k k₁ = .eq) (hr₁ : Balanced r₁ c' h)
    (hempty : r₁.isEmpty = false) :
    Deletes cmp k (valueNode k' x c l r) ((valueNode k' x c l r).remove cmp k) := by
  have same : (valueNode k' x c l r).entries = l₁.entries ++ (k₁, x₁) :: r₁.entries := by
    rw [← entries_readyRight (valueNode k' x c l r), hm, entries]
  rw [same] at asc
  obtain ⟨kept, hentries⟩ : Kept r₁.removeMin (r₁.removeMin.remove cmp k) ∧ _ := by
    refine remove_of_above fun e he => ?_
    rw [entries_removeMin hr₁] at he
    exact TransCmp.lt_of_eq_of_lt heq
      ((ascending_pivot.mp asc).2.2 e (List.mem_of_mem_tail he))
  have hs : Shrunk (valueNode k' x c l r).readyRight.right (r₁.removeMin.remove cmp k) := by
    rw [hm]
    exact (Shrunk.removeMin r₁).trans_kept kept
  rw [remove_same hm hk heq hempty]
  refine ⟨?_, Removed.of_right hs fun hlean => ?_, fun hlean => hlean.of_right hs⟩
  · obtain ⟨e, hkey, hvalue, hcons⟩ := min_eq hempty
    rw [entries_fixUp, hm, same, (cut_eq asc heq).erase, hkey, hvalue]
    simp only [copyWith, FLLRBNode.entries, Option.getD]
    rw [hentries, entries_removeMin hr₁, hcons]
    rfl
  · rw [hm] at hlean
    exact absurd hr₁ hlean.not_balanced

theorem deletes_right (hgt : cmp k k₁ = .gt)
    (ih : Ascending cmp r₁.entries → Deletes cmp k r₁ (r₁.remove cmp k)) :
    Deletes cmp k (valueNode k' x c l r) ((valueNode k' x c l r).remove cmp k) := by
  have same : (valueNode k' x c l r).entries = l₁.entries ++ (k₁, x₁) :: r₁.entries := by
    rw [← entries_readyRight (valueNode k' x c l r), hm, entries]
  rw [same] at asc
  have hdel := ih (ascending_pivot.mp asc).2.1
  have hs : Shrunk (valueNode k' x c l r).readyRight.right (r₁.remove cmp k) := by
    rw [hm]
    exact hdel.removed.toShrunk
  rw [remove_gt hm hk (by rw [hgt]; decide)]
  refine ⟨?_, Removed.of_right hs fun hlean _ _ => ?_, fun hlean => hlean.of_right hs⟩
  · rw [entries_fixUp, hm, same, (cut_gt asc hgt Cut.self).erase]
    simp only [copyWith, FLLRBNode.entries, Option.getD]
    rw [hdel.entries, erase, List.append_assoc]
    rfl
  · rw [hm] at hlean
    exact hdel.leaning hlean

end Step

/-- A removal takes the entry with the key out and leaves a tree of the same form. -/
theorem remove_deletes (asc : Ascending cmp n.entries) (hn : Searchable cmp k n) :
    Deletes cmp k n (n.remove cmp k) := by
  induction n using ready_induction with
  | empty =>
    rw [remove]
    exact ⟨rfl, ⟨⟨fun hb => ⟨_, hb⟩, fun hb _ => hb⟩, fun hb => Or.inl ⟨_, hb⟩⟩,
      fun hl => by cases hl⟩
  | step k' x c l r ihl ihr =>
    by_cases hk : cmp k k' = .lt
    · obtain ⟨c', h, hb⟩ := hn.resolve_right fun hlean => hlean.2 k' rfl hk
      exact deletes_left asc hk hb ihl
    · obtain ⟨k₁, x₁, c₁, l₁, r₁, hm, hk₁, hsearch, hpivot⟩ := hn.readyRight asc hk
      cases heq : cmp k k₁ with
      | lt => exact absurd heq hk₁
      | eq =>
        obtain ⟨⟨c₂, h₂, hr₁⟩, hlast⟩ := hpivot heq
        cases hempty : r₁.isEmpty with
        | true => exact deletes_last asc hm hk heq (hlast hempty) (isEmpty_iff.mp hempty)
        | false => exact deletes_same asc hm hk heq hr₁ hempty
      | gt =>
        rw [hm] at ihr
        exact deletes_right asc hm hk heq fun ascr => ihr ascr hsearch

end Order

/-! ### What `check` sees -/

theorem Balanced.check (hn : Balanced n c h) : n.check = .ok h := by
  induction hn with
  | empty => rfl
  | red left right ihl ihr =>
    rw [FLLRBNode.check, left.isRed_of_black, right.isRed_of_black, ihl, ihr]
    simp [bind, Except.bind, pure, Except.pure]
  | black left right ihl ihr =>
    rw [FLLRBNode.check, right.isRed_of_black, ihl, ihr]
    simp [bind, Except.bind, pure, Except.pure]

/-- `check` raises no exception exactly on balanced trees, and answers with the number of black
nodes on every way down. -/
theorem check_eq_ok : n.check = .ok h ↔ ∃ c, Balanced n c h := by
  refine ⟨fun hok => ?_, fun ⟨c, hn⟩ => hn.check⟩
  induction n generalizing h with
  | emptyNode =>
    cases hok
    exact ⟨_, .empty⟩
  | valueNode k x c l r ihl ihr =>
    rw [FLLRBNode.check] at hok
    split at hok
    · cases hok
    · next hchild =>
      split at hok
      · cases hok
      · next hright =>
        cases hl : l.check with
        | error e =>
          rw [hl] at hok
          cases hok
        | ok hl' =>
          cases hr : r.check with
          | error e =>
            rw [hl, hr] at hok
            cases hok
          | ok hr' =>
            obtain ⟨cl, hbl⟩ := ihl hl
            obtain ⟨cr, hbr⟩ := ihr hr
            rw [hl, hr] at hok
            simp only [bind, Except.bind, pure, Except.pure] at hok
            split at hok
            · cases hok
            · next hsame =>
              cases not_not.mp hsame
              cases cr with
              | red => exact absurd hbr.isRed_of_red hright
              | black =>
                cases c with
                | black =>
                  cases hok
                  exact ⟨_, .black hbl hbr⟩
                | red =>
                  cases hok
                  cases cl with
                  | red => exact absurd (by simp [hbl.isRed_of_red]) hchild
                  | black => exact ⟨_, .red hbl hbr⟩

theorem Balanced.two_pow_le (hn : Balanced n c h) : 2 ^ h ≤ n.entries.length + 1 := by
  induction hn with
  | empty => exact Nat.le_refl 1
  | red left right ihl ihr =>
    rw [entries, List.length_append, List.length_cons]
    omega
  | black left right ihl ihr =>
    rw [entries, List.length_append, List.length_cons, Nat.pow_succ]
    omega

/-- The longest way down. -/
def height : FLLRBNode κ ν → ℕ
  | emptyNode => 0
  | valueNode _ _ _ l r => Nat.max l.height r.height + 1

/-- At most every other node on a way down is red. -/
theorem Balanced.height_le (hn : Balanced n c h) :
    n.height ≤ 2 * h + (if c = .red then 1 else 0) := by
  induction hn with
  | empty => exact Nat.le_refl 0
  | red left right ihl ihr =>
    rw [if_neg (by decide)] at ihl ihr
    rw [height, if_pos rfl]
    exact Nat.succ_le_succ (Nat.max_le.mpr ⟨ihl, ihr⟩)
  | @black _ _ l r cl h left right ihl ihr =>
    have hleft : l.height ≤ 2 * h + 1 := by
      split at ihl <;> omega
    rw [if_neg (by decide)] at ihr
    rw [height, if_neg (by decide)]
    exact Nat.succ_le_succ (Nat.max_le.mpr ⟨hleft, Nat.le_succ_of_le ihr⟩)

end FLLRBNode

end AstroAR
