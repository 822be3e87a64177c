import AstroAR.DictionaryRuns

/-!
# The enumerators of a sorted dictionary

A tree is enumerated with a stack of the nodes that are still to come, an array
with a position. Each call of `nextObject` takes the next key off, so that what
an enumerator will return can be read off its state.
-/

namespace AstroAR

open SortedEntries Std FLLRBNode

universe u v

/-! ### The stack of a tree -/

/-- The last object of the stack comes first. -/
structure FTreeSortedDictionaryEnumerator (κ : Type u) (ν : Type v) where
  stack : List (FLLRBNode κ ν)
  isReverse : Bool

namespace FTreeSortedDictionaryEnumerator
variable {κ : Type u} {ν : Type v} (cmp : κ → κ → Ordering)

/-- How a node stands to the start key. Without one every node counts as greater, before the
comparison is turned around for the reverse order. -/
def order (startKey : Option κ) (isReverse : Bool) (k : κ) : Ordering :=
  let order := startKey.elim .gt fun s => cmp k s
  if isReverse then order.swap else order

/-- The loop of the initializer. -/
def start (startKey : Option κ) (isReverse : Bool) :
    FLLRBNode κ ν → List (FLLRBNode κ ν) → List (FLLRBNode κ ν)
  | emptyNode, stack => stack
  | valueNode k x c l r, stack =>
    match order cmp startKey isReverse k with
    | .lt =>
      if isReverse then start startKey isReverse l stack else start startKey isReverse r stack
    | .eq => valueNode k x c l r :: stack
    | .gt =>
      let stack := valueNode k x c l r :: stack
      if isReverse then start startKey isReverse r stack else start startKey isReverse l stack

/-- `initWithImmutableSortedDictionary:startKey:isReverse:` -/
def new (root : FLLRBNode κ ν) (startKey : Option κ) (isReverse : Bool) :
    FTreeSortedDictionaryEnumerator κ ν :=
  ⟨start cmp startKey isReverse root [], isReverse⟩

/-- The loop of `nextObject` puts a node and what is to come before it on the stack. -/
def push (isReverse : Bool) : FLLRBNode κ ν → List (FLLRBNode κ ν) → List (FLLRBNode κ ν)
  | emptyNode, stack => stack
  | valueNode k x c l r, stack =>
    let stack := valueNode k x c l r :: stack
    if isReverse then push isReverse r stack else push isReverse l stack

def nextObject (e : FTreeSortedDictionaryEnumerator κ ν) :
    Option κ × FTreeSortedDictionaryEnumerator κ ν :=
  match e.stack with
  | [] => (none, e)
  | node :: rest =>
    (node.key, { e with
      stack := push e.isReverse (if e.isReverse then node.left else node.right) rest })

end FTreeSortedDictionaryEnumerator

/-! ### The position in an array -/

structure FArraySortedDictionaryEnumerator (κ : Type u) where
  keys : List κ
  pos : ℤ
  reverse : Bool

namespace FArraySortedDictionaryEnumerator
variable {κ : Type u}

def nextObject (e : FArraySortedDictionaryEnumerator κ) :
    Option κ × FArraySortedDictionaryEnumerator κ :=
  if 0 ≤ e.pos ∧ e.pos < e.keys.length then
    (e.keys[e.pos.toNat]?, { e with pos := if e.reverse then e.pos - 1 else e.pos + 1 })
  else (none, e)

end FArraySortedDictionaryEnumerator

/-- The enumerators of the two classes; that of `NSArray` runs as the one with a position. -/
inductive KeyEnumerator (κ : Type u) (ν : Type v) where
  | array (e : FArraySortedDictionaryEnumerator κ)
  | tree (e : FTreeSortedDictionaryEnumerator κ ν)

namespace KeyEnumerator
variable {κ : Type u} {ν : Type v}

def nextObject : KeyEnumerator κ ν → Option κ × KeyEnumerator κ ν
  | array e => (e.nextObject.1, array e.nextObject.2)
  | tree e => (e.nextObject.1, tree e.nextObject.2)

/-- What the call number `i` of `nextObject` returns. -/
def object (e : KeyEnumerator κ ν) : ℕ → Option κ
  | 0 => e.nextObject.1
  | i + 1 => e.nextObject.2.object i

end KeyEnumerator

namespace FImmutableSortedDictionary
variable {κ : Type u} {ν : Type v} (cmp : κ → κ → Ordering)

def keyEnumerator : FImmutableSortedDictionary κ ν → KeyEnumerator κ ν
  | array d => .array ⟨d.keys, 0, false⟩
  | tree root => .tree (.new cmp root none false)

def keyEnumeratorFrom (startKey : κ) : FImmutableSortedDictionary κ ν → KeyEnumerator κ ν
  | array d => .array ⟨d.keys, FArraySortedDictionary.findInsertPositionForKey cmp startKey d.keys,
      false⟩
  | tree root => .tree (.new cmp root (some startKey) false)

def reverseKeyEnumerator : FImmutableSortedDictionary κ ν → KeyEnumerator κ ν
  | array d => .array ⟨d.keys, d.keys.length - 1, true⟩
  | tree root => .tree (.new cmp root none true)

/-- Without an exact match the array starts just before the place where the key belongs. -/
def reverseKeyEnumeratorFrom (startKey : κ) : FImmutableSortedDictionary κ ν → KeyEnumerator κ ν
  | array d =>
    let startPos := FArraySortedDictionary.findInsertPositionForKey cmp startKey d.keys
    if d.keys.length ≤ startPos ∨ d.keys[startPos]?.map (cmp · startKey) ≠ some .eq then
      .array ⟨d.keys, startPos - 1, true⟩
    else .array ⟨d.keys, startPos, true⟩
  | tree root => .tree (.new cmp root (some startKey) true)

end FImmutableSortedDictionary

/-! ### What is still to come -/

namespace FTreeSortedDictionaryEnumerator
variable {κ : Type u} {ν : Type v} {cmp : κ → κ → Ordering} {n : FLLRBNode κ ν}
  {stack : List (FLLRBNode κ ν)} {isReverse : Bool}

/-- What a node on the stack stands for: itself and the subtree behind it. -/
def coming (isReverse : Bool) : FLLRBNode κ ν → List (κ × ν)
  | emptyNode => []
  | valueNode k x _ l r => (k, x) :: if isReverse then l.entries.reverse else r.entries

def ahead (isReverse : Bool) (stack : List (FLLRBNode κ ν)) : List (κ × ν) :=
  stack.flatMap (coming isReverse)

theorem ahead_cons : ahead isReverse (n :: stack) = coming isReverse n ++ ahead isReverse stack :=
  List.flatMap_cons

theorem ahead_push (isReverse : Bool) (n : FLLRBNode κ ν) (stack : List (FLLRBNode κ ν)) :
    ahead isReverse (push isReverse n stack) =
      (if isReverse then n.entries.reverse else n.entries) ++ ahead isReverse stack := by
  induction n generalizing stack with
  | emptyNode => cases isReverse <;> rfl
  | valueNode k x c l r ihl ihr =>
    cases isReverse with
    | true =>
      simp only [push, if_true]
      rw [ihr, ahead_cons]
      simp [coming, entries]
    | false =>
      simp only [push, Bool.false_eq_true, if_false]
      rw [ihl, ahead_cons]
      simp [coming, entries]

/-- What comes after a node is what a call leaves. -/
theorem ahead_next {k : κ} {x : ν} {c : FLLRBColor} {l r : FLLRBNode κ ν} :
    (ahead isReverse (valueNode k x c l r :: stack)).map Prod.fst =
      k :: (ahead isReverse (push isReverse (if isReverse then l else r) stack)).map Prod.fst := by
  rw [ahead_push, ahead_cons, coming]
  cases isReverse <;> rfl

theorem full_push (full : ∀ m ∈ stack, m.isEmpty = false) :
    ∀ m ∈ push isReverse n stack, m.isEmpty = false := by
  induction n generalizing stack with
  | emptyNode => exact full
  | valueNode k x c l r ihl ihr =>
    have hfull : ∀ m ∈ valueNode k x c l r :: stack, m.isEmpty = false := by
      simpa using full
    cases isReverse with
    | true => exact ihr hfull
    | false => exact ihl hfull

theorem full_start (startKey : Option κ) (full : ∀ m ∈ stack, m.isEmpty = false) :
    ∀ m ∈ start cmp startKey isReverse n stack, m.isEmpty = false := by
  induction n generalizing stack with
  | emptyNode => exact full
  | valueNode k x c l r ihl ihr =>
    have hfull : ∀ m ∈ valueNode k x c l r :: stack, m.isEmpty = false := by
      simpa using full
    rw [start]
    split
    · split
      · exact ihl full
      · exact ihr full
    · exact hfull
    · split
      · exact ihr hfull
      · exact ihl hfull

/-- In reverse order and without a start key all nodes count as past it, so none is put on the
stack. -/
theorem start_reverse_none (n : FLLRBNode κ ν) (stack : List (FLLRBNode κ ν)) :
    start cmp none true n stack = stack := by
  induction n with
  | emptyNode => rfl
  | valueNode k x c l r ihl _ => exact ihl

theorem start_none (n : FLLRBNode κ ν) (stack : List (FLLRBNode κ ν)) :
    start cmp none false n stack = push false n stack := by
  induction n generalizing stack with
  | emptyNode => rfl
  | valueNode k x c l r ihl _ => exact ihl _

variable [TransCmp cmp]

/-- From a start key on come the entry at the key and what is behind it. -/
theorem ahead_start (asc : Ascending cmp n.entries) (s : κ) (stack : List (FLLRBNode κ ν)) :
    ahead isReverse (start cmp (some s) isReverse n stack) =
      ((found cmp s n.entries).toList ++
        if isReverse then (below cmp s n.entries).reverse else above cmp s n.entries) ++
          ahead isReverse stack := by
  induction n generalizing stack with
  | emptyNode => cases isReverse <;> rfl
  | valueNode k x c l r ihl ihr =>
    obtain ⟨⟨ascl, _⟩, ascr, _⟩ := ascending_pivot.mp asc
    have horder : order cmp (some s) isReverse k = if isReverse then cmp s k else cmp k s := by
      rw [order, Option.elim_some, ← OrientedCmp.eq_swap]
    rw [entries]
    cases hk : cmp s k with
    | lt =>
      have cut := cut_lt asc hk Cut.self
      rw [hk, OrientedCmp.gt_of_lt hk] at horder
      rw [cut.hit, cut.low, cut.high]
      cases isReverse with
      | true =>
        simp only [start, horder, if_true]
        exact ihl ascl _
      | false =>
        simp only [start, horder, Bool.false_eq_true, if_false]
        refine (ihl ascl _).trans ?_
        rw [ahead_cons]
        simp [coming]
    | eq =>
      have cut := cut_eq asc hk
      rw [hk, OrientedCmp.eq_symm hk, ite_self] at horder
      rw [cut.hit, cut.low, cut.high]
      simp only [start, horder, ahead_cons]
      cases isReverse <;> rfl
    | gt =>
      have cut := cut_gt asc hk Cut.self
      rw [hk, OrientedCmp.lt_of_gt hk] at horder
      rw [cut.hit, cut.low, cut.high]
      cases isReverse with
      | true =>
        simp only [start, horder, if_true]
        refine (ihr ascr _).trans ?_
        rw [ahead_cons]
        simp [coming]
      | false =>
        simp only [start, horder, Bool.false_eq_true, if_false]
        exact ihr ascr _

end FTreeSortedDictionaryEnumerator

namespace KeyEnumerator
open FTreeSortedDictionaryEnumerator
variable {κ : Type u} {ν : Type v} {e : KeyEnumerator κ ν} {l : List κ}

/-- These keys are still to come, in this order. -/
inductive Pending : KeyEnumerator κ ν → List κ → Prop
  | forward {keys l : List κ} {n : ℕ} (rest : keys.drop n = l) :
    Pending (.array ⟨keys, n, false⟩) l
  | backward {keys l : List κ} {n : ℕ} (hn : n ≤ keys.length) (rest : (keys.take n).reverse = l) :
    Pending (.array ⟨keys, (n : ℤ) - 1, true⟩) l
  | stack {e : FTreeSortedDictionaryEnumerator κ ν} {l : List κ}
    (full : ∀ m ∈ e.stack, m.isEmpty = false)
    (rest : (ahead e.isReverse e.stack).map Prod.fst = l) : Pending (.tree e) l

/-- A call takes the first key off. -/
theorem Pending.next (h : Pending e l) :
    e.nextObject.1 = l.head? ∧ Pending e.nextObject.2 l.tail := by
  cases h with
  | @forward keys _ n rest =>
    rw [← rest, List.head?_drop, List.tail_drop]
    simp only [nextObject, FArraySortedDictionaryEnumerator.nextObject]
    split
    · exact ⟨rfl, .forward (n := n + 1) rfl⟩
    · next hpos =>
      have hn : keys.length ≤ n := by omega
      refine ⟨(List.getElem?_eq_none hn).symm, .forward ?_⟩
      rw [List.drop_of_length_le hn, List.drop_of_length_le (Nat.le_succ_of_le hn)]
  | @backward keys _ n hn rest =>
    rw [← rest]
    cases n with
    | zero => exact ⟨rfl, .backward (Nat.zero_le _) rfl⟩
    | succ n =>
      have hget : keys[n]? = some keys[n] := List.getElem?_eq_getElem hn
      have hpos : (↑(n + 1) - 1 : ℤ) = n := by omega
      rw [List.take_add_one, hget, Option.toList_some, List.reverse_concat, hpos]
      simp only [nextObject, FArraySortedDictionaryEnumerator.nextObject]
      rw [if_pos (by omega)]
      exact ⟨hget, .backward (Nat.le_of_succ_le hn) rfl⟩
  | @stack e _ full rest =>
    rw [← rest]
    obtain ⟨stack, isReverse⟩ := e
    cases stack with
    | nil => exact ⟨rfl, .stack full rfl⟩
    | cons node rest =>
      cases node with
      | emptyNode => cases full _ List.mem_cons_self
      | valueNode k x c left right =>
        rw [ahead_next]
        exact ⟨rfl, .stack (full_push fun m hm => full m (List.mem_cons_of_mem _ hm)) rfl⟩

/-- The calls return the keys one after the other. -/
theorem Pending.object (h : Pending e l) (i : ℕ) : e.object i = l[i]? := by
  induction i generalizing e l with
  | zero => exact h.next.1.trans List.head?_eq_getElem?
  | succ i ih => exact (ih h.next.2).trans List.getElem?_tail

end KeyEnumerator

/-! ### The enumerators of a dictionary -/

namespace FImmutableSortedDictionary
open FTreeSortedDictionaryEnumerator KeyEnumerator
variable {κ : Type u} {ν : Type v} {cmp : κ → κ → Ordering} {d : FImmutableSortedDictionary κ ν}
  {l : List (κ × ν)}

theorem pending_new {root : FLLRBNode κ ν} {startKey : Option κ} {isReverse : Bool} {keys : List κ}
    (hahead : (ahead isReverse (start cmp startKey isReverse root [])).map Prod.fst = keys) :
    Pending (.tree (.new cmp root startKey isReverse)) keys :=
  .stack (e := .new cmp root startKey isReverse)
    (full_start startKey fun _ h => absurd h List.not_mem_nil) hahead

theorem Holds.keyEnumerator (hd : Holds cmp d l) :
    Pending (d.keyEnumerator cmp) (l.map Prod.fst) := by
  cases hd with
  | array => exact .forward (n := 0) rfl
  | tree =>
    refine pending_new ?_
    rw [start_none, ahead_push, if_neg Bool.false_ne_true]
    exact congrArg _ (List.append_nil _)

theorem Holds.reverseKeyEnumerator_array {a : FArraySortedDictionary κ ν}
    (hd : Holds cmp (.array a) l) :
    Pending (reverseKeyEnumerator cmp (.array a)) (l.map Prod.fst).reverse := by
  cases hd with
  | array => exact .backward le_rfl (congrArg _ List.take_length)

theorem reverseKeyEnumerator_tree (root : FLLRBNode κ ν) :
    Pending (reverseKeyEnumerator cmp (.tree root)) [] := by
  refine pending_new ?_
  rw [start_reverse_none]
  rfl

variable [TransCmp cmp]

theorem Holds.keyEnumeratorFrom (hd : Holds cmp d l) (s : κ) :
    Pending (d.keyEnumeratorFrom cmp s) ((l.filter fun e => cmp e.1 s != .lt).map Prod.fst) := by
  rw [filter_not_below hd.ascending]
  cases hd with
  | array asc =>
    refine .forward ?_
    rw [FArraySortedDictionary.ofEntries, FArraySortedDictionary.findInsertPosition_eq asc,
      ← List.map_drop, drop_below asc]
  | tree asc =>
    refine pending_new ?_
    rw [ahead_start asc, if_neg Bool.false_ne_true]
    exact congrArg _ (List.append_nil _)

/-- The search of the array ends behind the entry at the key or, without one, behind those below
it. -/
theorem Holds.reverseKeyEnumeratorFrom (hd : Holds cmp d l) (s : κ) :
    Pending (d.reverseKeyEnumeratorFrom cmp s)
      ((l.filter fun e => cmp e.1 s != .gt).map Prod.fst).reverse := by
  rw [filter_not_above hd.ascending]
  cases hd with
  | array asc =>
    unfold FImmutableSortedDictionary.reverseKeyEnumeratorFrom
    simp only [FArraySortedDictionary.ofEntries, FArraySortedDictionary.findInsertPosition_eq asc,
      List.getElem?_map, getElem?_below asc]
    have hparts := congrArg List.length (below_found_above asc s)
    rw [List.length_append, List.length_append] at hparts
    cases hfound : found cmp s l with
    | none =>
      rw [if_pos]
      · refine .backward ?_ ?_
        · rw [List.length_map]
          omega
        · rw [← List.map_take, take_below asc, Option.toList_none, List.append_nil]
      · cases habove : (above cmp s l).head? with
        | none =>
          rw [List.head?_eq_none_iff.mp habove, hfound] at hparts
          rw [List.length_map, ← hparts]
          exact .inl le_rfl
        | some e =>
          have hk := (mem_above.mp (List.mem_of_head? habove)).2
          refine .inr fun heq => ?_
          cases hk.symm.trans (Option.some.inj heq)
    | some e =>
      have hk := (mem_of_found hfound).2
      rw [hfound, Option.toList_some, List.length_singleton] at hparts
      rw [if_neg]
      · have hpos : ((below cmp s l).length : ℤ) = ((below cmp s l).length + 1 : ℕ) - 1 := by omega
        rw [hpos]
        refine .backward ?_ ?_
        · rw [List.length_map]
          omega
        · rw [← List.map_take, List.take_add_one, take_below asc, getElem?_below asc, hfound]
          rfl
      · rw [List.length_map]
        rintro (hle | hne)
        · omega
        · exact hne (congrArg some hk)
  | tree asc =>
    refine pending_new ?_
    rw [ahead_start asc, if_pos rfl]
    cases found cmp s _ <;> simp [ahead]

/-- What the four enumerators of a dictionary return, call by call. That from the end of a tree
returns nothing: the missing start key counts as smaller than every key. -/
structure Enumerates (cmp : κ → κ → Ordering) (d : FImmutableSortedDictionary κ ν)
    (keys : List κ) : Prop where
  all : ∀ i, (d.keyEnumerator cmp).object i = keys[i]?
  startingAt : ∀ s i, (d.keyEnumeratorFrom cmp s).object i = (keys.filter (cmp · s != .lt))[i]?
  reverseStartingAt : ∀ s i,
    (d.reverseKeyEnumeratorFrom cmp s).object i = (keys.filter (cmp · s != .gt)).reverse[i]?
  reverseArray : ∀ a, d = .array a → ∀ i, (d.reverseKeyEnumerator cmp).object i = keys.reverse[i]?
  reverseTree : ∀ root, d = .tree root → ∀ i, (d.reverseKeyEnumerator cmp).object i = none

theorem Holds.enumerates (hd : Holds cmp d l) : Enumerates cmp d (l.map Prod.fst) where
  all := hd.keyEnumerator.object
  startingAt := fun s i => by
    rw [(hd.keyEnumeratorFrom s).object, List.filter_map]
    rfl
  reverseStartingAt := fun s i => by
    rw [(hd.reverseKeyEnumeratorFrom s).object, List.filter_map]
    rfl
  reverseArray := by
    rintro a rfl
    exact hd.reverseKeyEnumerator_array.object
  reverseTree := by
    rintro root rfl
    exact (reverseKeyEnumerator_tree root).object

/-- In every run the enumerators return the keys of the dictionary in order. -/
theorem run_enumerates (cmp : κ → κ → Ordering) [TransCmp cmp] [LawfulEqCmp cmp]
    {dictionary : List (κ × ν)} (small : dictionary.length + 1 < 2 ^ 32)
    (nodup : (dictionary.map Prod.fst).Nodup) (edits : List (Edit κ ν)) :
    ∃ d₀ d, fromDictionary cmp dictionary = .ok d₀ ∧ d₀.editAll cmp edits = .ok d ∧
      Enumerates cmp d ((d.enumeration false).map Prod.fst) := by
  classical
  obtain ⟨d₀, d, l, hd₀, hrun, hd, _⟩ := holds_run cmp small nodup edits
  refine ⟨d₀, d, hd₀, hrun, ?_⟩
  rw [hd.enumeration]
  exact hd.enumerates

/-- Backwards from the key 2, the second key is 1. -/
theorem run_enumerates_array : ∃ d₀ d : FImmutableSortedDictionary ℕ String,
    fromDictionary compare [(2, "b")] = .ok d₀ ∧
    d₀.editAll compare [.insert 3 "c", .insert 1 "a"] = .ok d ∧
    (d.reverseKeyEnumeratorFrom compare 2).object 1 = some 1 := by
  obtain ⟨d₀, d, hd₀, hd, hkeys⟩ := run_enumerates (compare : ℕ → ℕ → Ordering)
    (show [(2, "b")].length + 1 < 2 ^ 32 by decide) (by decide) [.insert 3 "c", .insert 1 "a"]
  refine ⟨d₀, d, hd₀, hd, ?_⟩
  have h₀ : sortedKeys compare [(2, "b")] = .ok [(2, "b")] := by
    rw [sortedKeys, List.mergeSort_singleton]
    rfl
  rw [fromDictionary, if_pos (by decide), FArraySortedDictionary.fromDictionary, h₀] at hd₀
  cases hd₀
  have h : .ok (.array ⟨[1, 2, 3], ["a", "b", "c"]⟩) = Except.ok d := Eq.trans (by rfl) hd
  cases h
  exact hkeys.reverseStartingAt 2 1

end FImmutableSortedDictionary

end AstroAR
