import AstroAR.TreeBuilder
import Mathlib.Data.List.InsertIdx

/-!
# The sorted dictionary of the database client

`FImmutableSortedDictionary` is an array of keys and one of values as long as it
is small, and a red-black tree from the 26th key on. Either answers as one
sorted list of entries does, whatever was inserted into it and removed from it.
-/

namespace AstroAR

open SortedEntries Std FLLRBNode

universe u v w

/-! ### The tree -/

namespace FTreeSortedDictionary
variable {κ : Type u} {ν : Type v} (cmp : κ → κ → Ordering)

/-- Every operation colours the root black. -/
def blacken (root : FLLRBNode κ ν) : FLLRBNode κ ν :=
  root.copyWith none none (some .black) none none

def insertKey (k : κ) (x : ν) (root : FLLRBNode κ ν) : FLLRBNode κ ν :=
  blacken (root.insertKey cmp k x)

def contains (k : κ) (root : FLLRBNode κ ν) : Bool := (root.get cmp k).isSome

def removeKey (k : κ) (root : FLLRBNode κ ν) : FLLRBNode κ ν :=
  if contains cmp k root then blacken (root.remove cmp k) else root

def nonexistentKey : NSException :=
  ⟨"NonexistentKey", "getPredecessorKey called with nonexistent key."⟩

/-- The loop of `getPredecessorKey:`; `rightParent` is the last node that was left to the right. -/
def predecessorFrom (k : κ) (rightParent : Option κ) : FLLRBNode κ ν → Except NSException (Option κ)
  | emptyNode => .error nonexistentKey
  | valueNode k' _ _ l r =>
    match cmp k k' with
    | .eq => .ok (if !l.isEmpty then l.maxKey else rightParent)
    | .lt => predecessorFrom k rightParent l
    | .gt => predecessorFrom k (some k') r

def getPredecessorKey (k : κ) (root : FLLRBNode κ ν) : Except NSException (Option κ) :=
  predecessorFrom cmp k none root

end FTreeSortedDictionary

namespace FLLRBNode
variable {κ : Type u} {ν : Type v} {σ : Type w}

/-- An action with a state that says whether to stop. -/
abbrev Action (κ : Type u) (ν : Type v) (σ : Type w) := κ → ν → σ → Bool × σ

/-- The result says whether an action stopped the traversal. -/
def inorderTraversal (action : Action κ ν σ) : FLLRBNode κ ν → σ → Bool × σ
  | emptyNode, s => (false, s)
  | valueNode k x _ l r, s =>
    let (stop, s) := l.inorderTraversal action s
    if stop then (true, s)
    else
      let (stop, s) := action k x s
      if stop then (true, s) else r.inorderTraversal action s

def reverseTraversal (action : Action κ ν σ) : FLLRBNode κ ν → σ → Bool × σ
  | emptyNode, s => (false, s)
  | valueNode k x _ l r, s =>
    let (stop, s) := r.reverseTraversal action s
    if stop then (true, s)
    else
      let (stop, s) := action k x s
      if stop then (true, s) else l.reverseTraversal action s

end FLLRBNode

/-! ### The array -/

/-- `keys` and `values` at the same places. -/
structure FArraySortedDictionary (κ : Type u) (ν : Type v) where
  keys : List κ
  values : List ν

namespace FArraySortedDictionary
variable {κ : Type u} {ν : Type v} {σ : Type w} (cmp : κ → κ → Ordering)

def empty : FArraySortedDictionary κ ν := ⟨[], []⟩

def count (d : FArraySortedDictionary κ ν) : ℤ := int d.keys.length

def fromDictionary (dictionary : List (κ × ν)) : Except NSException (FArraySortedDictionary κ ν) :=
  do
    let keys ← FImmutableSortedDictionary.sortedKeys cmp dictionary
    return ⟨keys.map Prod.fst, keys.map Prod.snd⟩

/-- The place of the first key that is not below `k`. -/
def findInsertPositionForKey (k : κ) : List κ → ℕ
  | [] => 0
  | key :: rest => if cmp key k = .lt then findInsertPositionForKey k rest + 1 else 0

/-- The place of the key; the search ends at the first key above it. -/
def findKey (k : κ) : List κ → Option ℕ
  | [] => none
  | key :: rest =>
    match cmp k key with
    | .eq => some 0
    | .lt => none
    | .gt => (findKey k rest).map (· + 1)

/-- `insertKey:withValue:` where the array is kept. -/
def insertKey (k : κ) (x : ν) (d : FArraySortedDictionary κ ν) : FArraySortedDictionary κ ν :=
  match findKey cmp k d.keys with
  | none =>
    let newPos := findInsertPositionForKey cmp k d.keys
    ⟨d.keys.insertIdx newPos k, d.values.insertIdx newPos x⟩
  | some pos => ⟨d.keys.set pos k, d.values.set pos x⟩

def removeKey (k : κ) (d : FArraySortedDictionary κ ν) : FArraySortedDictionary κ ν :=
  match findKey cmp k d.keys with
  | none => d
  | some pos => ⟨d.keys.eraseIdx pos, d.values.eraseIdx pos⟩

def get (k : κ) (d : FArraySortedDictionary κ ν) : Option ν :=
  (findKey cmp k d.keys).bind fun pos => d.values[pos]?

def contains (k : κ) (d : FArraySortedDictionary κ ν) : Bool := (findKey cmp k d.keys).isSome

def nonexistentKey : NSException :=
  ⟨"NSInternalInconsistencyException", "Can't get predecessor key for non-existent key"⟩

def getPredecessorKey (k : κ) (d : FArraySortedDictionary κ ν) : Except NSException (Option κ) :=
  match findKey cmp k d.keys with
  | none => .error nonexistentKey
  | some 0 => .ok none
  | some (pos + 1) => .ok d.keys[pos]?

/-- The loop over the entries, from the first or from the last one. -/
def visit (action : Action κ ν σ) : List (κ × ν) → σ → Bool × σ
  | [], s => (false, s)
  | e :: rest, s =>
    let (stop, s) := action e.1 e.2 s
    if stop then (true, s) else visit action rest s

def entries (d : FArraySortedDictionary κ ν) : List (κ × ν) := d.keys.zip d.values

end FArraySortedDictionary

/-! ### Both -/

inductive FImmutableSortedDictionary (κ : Type u) (ν : Type v) where
  | array (d : FArraySortedDictionary κ ν)
  | tree (root : FLLRBNode κ ν)

namespace FImmutableSortedDictionary
variable {κ : Type u} {ν : Type v} {σ : Type w} (cmp : κ → κ → Ordering)

/-- `SORTED_DICTIONARY_ARRAY_TO_RB_TREE_SIZE_THRESHOLD` -/
def threshold : ℕ := 25

/-- `dictionaryWithComparator:` -/
def empty : FImmutableSortedDictionary κ ν := .array .empty

def fromDictionary (dictionary : List (κ × ν)) :
    Except NSException (FImmutableSortedDictionary κ ν) :=
  if dictionary.length ≤ threshold then
    array <$> FArraySortedDictionary.fromDictionary cmp dictionary
  else tree <$> FTreeSortedDictionary.fromDictionary cmp dictionary

/-- A full array becomes a tree. No key of it compares the same as the new one, so none equals
it. -/
def insertKey (k : κ) (x : ν) : FImmutableSortedDictionary κ ν →
    Except NSException (FImmutableSortedDictionary κ ν)
  | array d =>
    if (FArraySortedDictionary.findKey cmp k d.keys).isNone && threshold ≤ d.count then
      tree <$> FTreeSortedDictionary.fromDictionary cmp (d.entries ++ [(k, x)])
    else .ok (array (d.insertKey cmp k x))
  | tree root => .ok (tree (FTreeSortedDictionary.insertKey cmp k x root))

def removeKey (k : κ) : FImmutableSortedDictionary κ ν → FImmutableSortedDictionary κ ν
  | array d => array (d.removeKey cmp k)
  | tree root => tree (FTreeSortedDictionary.removeKey cmp k root)

def get (k : κ) : FImmutableSortedDictionary κ ν → Option ν
  | array d => d.get cmp k
  | tree root => root.get cmp k

def contains (k : κ) : FImmutableSortedDictionary κ ν → Bool
  | array d => d.contains cmp k
  | tree root => FTreeSortedDictionary.contains cmp k root

def getPredecessorKey (k : κ) : FImmutableSortedDictionary κ ν → Except NSException (Option κ)
  | array d => d.getPredecessorKey cmp k
  | tree root => FTreeSortedDictionary.getPredecessorKey cmp k root

def count : FImmutableSortedDictionary κ ν → ℤ
  | array d => d.count
  | tree root => root.count

def isEmpty : FImmutableSortedDictionary κ ν → Bool
  | array d => d.keys.length == 0
  | tree root => root.isEmpty

def minKey : FImmutableSortedDictionary κ ν → Option κ
  | array d => d.keys.head?
  | tree root => root.minKey

def maxKey : FImmutableSortedDictionary κ ν → Option κ
  | array d => d.keys.getLast?
  | tree root => root.maxKey

/-- `enumerateKeysAndObjectsReverse:usingBlock:` -/
def enumerateKeysAndObjects (reverse : Bool) (action : Action κ ν σ) (s : σ) :
    FImmutableSortedDictionary κ ν → σ
  | array d =>
    if reverse then (FArraySortedDictionary.visit action d.entries.reverse s).2
    else (FArraySortedDictionary.visit action d.entries s).2
  | tree root =>
    if reverse then (root.reverseTraversal action s).2 else (root.inorderTraversal action s).2

/-- `isEqual:` of two dictionaries -/
def isEqual [DecidableEq ν] (d other : FImmutableSortedDictionary κ ν) : Bool :=
  if d.count ≠ other.count then false
  else d.enumerateKeysAndObjects false
    (fun k x isEqual =>
      let isEqual := isEqual && other.get cmp k = some x
      (!isEqual, isEqual)) true

end FImmutableSortedDictionary

/-! ### What the tree answers -/

namespace FLLRBNode
variable {κ : Type u} {ν : Type v} {σ : Type w} {n : FLLRBNode κ ν} {h : ℕ} {c : FLLRBColor}

theorem minKey_eq (n : FLLRBNode κ ν) : n.minKey = n.entries.head?.map Prod.fst := by
  cases hn : n.isEmpty with
  | true =>
    rw [isEmpty_iff.mp hn]
    rfl
  | false =>
    obtain ⟨e, hkey, _, hentries⟩ := min_eq hn
    rw [minKey, hkey, hentries]
    rfl

theorem maxKey_eq (n : FLLRBNode κ ν) : n.maxKey = n.entries.getLast?.map Prod.fst := by
  induction n with
  | emptyNode => rfl
  | valueNode k x c l r _ ihr =>
    rw [maxKey, entries]
    cases hr : r.isEmpty with
    | true =>
      rw [isEmpty_iff.mp hr]
      simp [entries]
    | false =>
      have hne : r.entries ≠ [] := by
        rw [Ne, entries_eq_nil, ← isEmpty_iff, hr]
        exact Bool.false_ne_true
      rw [if_neg Bool.false_ne_true, ihr, List.getLast?_append_of_ne_nil _ (List.cons_ne_nil _ _),
        List.getLast?_cons_of_ne_nil hne]

theorem visit_append (action : Action κ ν σ) (l l' : List (κ × ν)) (s : σ) :
    FArraySortedDictionary.visit action (l ++ l') s =
      if (FArraySortedDictionary.visit action l s).1 then FArraySortedDictionary.visit action l s
      else FArraySortedDictionary.visit action l' (FArraySortedDictionary.visit action l s).2 := by
  induction l generalizing s with
  | nil => rfl
  | cons e l ih =>
    rw [List.cons_append, FArraySortedDictionary.visit, FArraySortedDictionary.visit]
    cases haction : action e.1 e.2 s with
    | mk stop t =>
      cases stop with
      | true => rfl
      | false => exact ih t

theorem inorderTraversal_eq (action : Action κ ν σ) (n : FLLRBNode κ ν) (s : σ) :
    n.inorderTraversal action s = FArraySortedDictionary.visit action n.entries s := by
  induction n generalizing s with
  | emptyNode => rfl
  | valueNode k x c l r ihl ihr =>
    rw [inorderTraversal, entries, visit_append, ← ihl]
    cases hl : l.inorderTraversal action s with
    | mk stop t =>
      cases stop with
      | true => rfl
      | false =>
        simp only [FArraySortedDictionary.visit]
        cases haction : action k x t with
        | mk stop t => cases stop <;> simp [ihr]

theorem reverseTraversal_eq (action : Action κ ν σ) (n : FLLRBNode κ ν) (s : σ) :
    n.reverseTraversal action s = FArraySortedDictionary.visit action n.entries.reverse s := by
  induction n generalizing s with
  | emptyNode => rfl
  | valueNode k x c l r ihl ihr =>
    rw [reverseTraversal, entries, List.reverse_append, List.reverse_cons, List.append_assoc,
      visit_append, ← ihr]
    cases hr : r.reverseTraversal action s with
    | mk stop t =>
      cases stop with
      | true => rfl
      | false =>
        simp only [List.singleton_append, FArraySortedDictionary.visit]
        cases haction : action k x t with
        | mk stop t => cases stop <;> simp [ihl]

end FLLRBNode

namespace FTreeSortedDictionary
variable {κ : Type u} {ν : Type v} {cmp : κ → κ → Ordering} {n : FLLRBNode κ ν} {k : κ} {x : ν}
  {c : FLLRBColor} {h : ℕ}

theorem entries_blacken (n : FLLRBNode κ ν) : (blacken n).entries = n.entries :=
  entries_copyWith_color _

theorem balanced_blacken (hn : Balanced n c h) : ∃ h', Balanced (blacken n) .black h' := by
  cases hn with
  | empty => exact ⟨_, .empty⟩
  | red left right => exact ⟨_, .black left right⟩
  | black left right => exact ⟨_, .black left right⟩

theorem blacken_redRed (hn : RedRed n h) : ∃ h', Balanced (blacken n) .black h' := by
  cases hn with
  | mk left right => exact ⟨_, .black left right⟩

theorem balanced_insertKey (hn : Balanced n .black h) :
    ∃ h', Balanced (insertKey cmp k x n) .black h' := by
  obtain ⟨c', hb⟩ := (hn.insertKey cmp k x).resolve_right (by simp)
  exact balanced_blacken hb

variable [TransCmp cmp]

theorem contains_eq (asc : Ascending cmp n.entries) :
    contains cmp k n = (found cmp k n.entries).isSome := by
  unfold contains
  rw [get_eq asc, lookup, Option.isSome_map]

theorem removeKey_spec (asc : Ascending cmp n.entries) (hn : Balanced n .black h) :
    (removeKey cmp k n).entries = erase cmp k n.entries ∧
      ∃ h', Balanced (removeKey cmp k n) .black h' := by
  unfold removeKey
  rw [contains_eq asc]
  cases hfound : found cmp k n.entries with
  | none => exact ⟨eq_of_not_found asc hfound, h, hn⟩
  | some e =>
    have hdel := remove_deletes asc (k := k) (Or.inl ⟨_, _, hn⟩)
    refine ⟨(entries_blacken _).trans hdel.entries, ?_⟩
    rcases hdel.removed.black hn with ⟨h', hb⟩ | ⟨h', hrr⟩
    · exact balanced_blacken hb
    · exact blacken_redRed hrr

/-- The predecessor is the last entry below the key, or else the node last left to the right. -/
theorem predecessorFrom_eq (asc : Ascending cmp n.entries) (rightParent : Option κ) :
    predecessorFrom cmp k rightParent n = match found cmp k n.entries with
      | none => .error nonexistentKey
      | some _ => .ok (((below cmp k n.entries).getLast?.map Prod.fst).or rightParent) := by
  induction n generalizing rightParent with
  | emptyNode => rfl
  | valueNode k' x' c l r ihl ihr =>
    obtain ⟨⟨ascl, _⟩, ascr, _⟩ := ascending_pivot.mp asc
    rw [predecessorFrom, entries]
    cases hk : cmp k k' with
    | lt =>
      have cut := cut_lt asc hk Cut.self
      rw [cut.hit, cut.low]
      exact ihl ascl rightParent
    | eq =>
      have cut := cut_eq asc hk
      rw [cut.hit, cut.low]
      rw [maxKey_eq]
      cases hlast : l.entries.getLast? with
      | none =>
        rw [List.getLast?_eq_none_iff, entries_eq_nil] at hlast
        rw [hlast]
        rfl
      | some e =>
        have hl : l.isEmpty = false := by
          cases l with
          | emptyNode => cases hlast
          | valueNode => rfl
        rw [hl]
        rfl
    | gt =>
      have cut := cut_gt asc hk Cut.self
      rw [cut.hit, cut.low]
      rw [ihr ascr, List.getLast?_append, List.getLast?_cons]
      cases (below cmp k r.entries).getLast? <;> rfl

end FTreeSortedDictionary

/-! ### What the array answers -/

namespace FArraySortedDictionary
variable {κ : Type u} {ν : Type v} {cmp : κ → κ → Ordering} {l : List (κ × ν)} {k : κ} {x : ν}
  {e : κ × ν}

/-- The two arrays of a list of entries. -/
def ofEntries (l : List (κ × ν)) : FArraySortedDictionary κ ν := ⟨l.map Prod.fst, l.map Prod.snd⟩

@[simp] theorem entries_ofEntries (l : List (κ × ν)) : (ofEntries l).entries = l := by
  unfold entries ofEntries
  rw [List.zip_map', List.map_id'']
  exact fun _ => rfl

theorem count_ofEntries (l : List (κ × ν)) : (ofEntries l).count = int l.length := by
  rw [count, ofEntries, List.length_map]

variable [TransCmp cmp]

/-- A new key goes between the entries below it and those above it. -/
theorem findInsertPosition_eq (asc : Ascending cmp l) :
    findInsertPositionForKey cmp k (l.map Prod.fst) = (below cmp k l).length := by
  induction l with
  | nil => rfl
  | cons e l ih =>
    rw [List.map_cons, findInsertPositionForKey]
    cases hk : cmp k e.1 with
    | lt =>
      rw [OrientedCmp.gt_of_lt hk, (cut_cons_lt asc hk).low]
      rfl
    | eq =>
      rw [OrientedCmp.eq_symm hk, (cut_cons_eq asc hk).low]
      rfl
    | gt =>
      rw [OrientedCmp.lt_of_gt hk, if_pos rfl, ih asc.tail, (cut_cons_gt asc hk Cut.self).low]
      rfl

/-- The search finds the key behind the entries below it. -/
theorem findKey_eq (asc : Ascending cmp l) : findKey cmp k (l.map Prod.fst) =
    (found cmp k l).map fun _ => (below cmp k l).length := by
  induction l with
  | nil => rfl
  | cons e l ih =>
    rw [List.map_cons, findKey]
    cases hk : cmp k e.1 with
    | lt =>
      rw [(cut_cons_lt asc hk).hit]
      rfl
    | eq =>
      rw [(cut_cons_eq asc hk).hit, (cut_cons_eq asc hk).low]
      rfl
    | gt =>
      have cut := cut_cons_gt asc hk Cut.self
      rw [cut.hit, cut.low]
      simp only [ih asc.tail, Option.map_map]
      rfl

theorem insertIdx_append_length {α : Type u} (b a : List α) (y : α) :
    (b ++ a).insertIdx b.length y = b ++ y :: a := by
  induction b with
  | nil => rfl
  | cons z b ih => exact congrArg (z :: ·) ih

/-- The array takes the new key over where the tree keeps its own. -/
theorem insertKey_ofEntries (asc : Ascending cmp l) (k : κ) (x : ν) :
    (ofEntries l).insertKey cmp k x = ofEntries (upsert cmp (fun _ => k) k x l) := by
  unfold insertKey upsert
  simp only [ofEntries, findKey_eq asc, findInsertPosition_eq asc]
  cases hfound : found cmp k l with
  | none =>
    simp only [Option.map_none, Option.elim_none]
    rw [← insertIdx_append_length, ← eq_of_not_found asc hfound, List.map_insertIdx,
      List.map_insertIdx]
  | some e =>
    have hsplit := eq_of_found asc hfound
    obtain ⟨b, hb⟩ : ∃ b, below cmp k l = b := ⟨_, rfl⟩
    obtain ⟨a, ha⟩ : ∃ a, above cmp k l = a := ⟨_, rfl⟩
    rw [hb, ha] at hsplit
    rw [hb, ha, hsplit]
    simp

theorem removeKey_ofEntries (asc : Ascending cmp l) (k : κ) :
    (ofEntries l).removeKey cmp k = ofEntries (erase cmp k l) := by
  unfold removeKey erase
  simp only [ofEntries, findKey_eq asc]
  cases hfound : found cmp k l with
  | none => rw [← eq_of_not_found asc hfound]; rfl
  | some e =>
    have hsplit := eq_of_found asc hfound
    obtain ⟨b, hb⟩ : ∃ b, below cmp k l = b := ⟨_, rfl⟩
    obtain ⟨a, ha⟩ : ∃ a, above cmp k l = a := ⟨_, rfl⟩
    rw [hb, ha] at hsplit
    rw [hb, ha, hsplit]
    simp [List.eraseIdx_append_of_length_le]

theorem get_ofEntries (asc : Ascending cmp l) (k : κ) :
    (ofEntries l).get cmp k = lookup cmp k l := by
  unfold get lookup
  simp only [ofEntries, findKey_eq asc]
  cases hfound : found cmp k l with
  | none => rfl
  | some e =>
    have hsplit := eq_of_found asc hfound
    obtain ⟨b, hb⟩ : ∃ b, below cmp k l = b := ⟨_, rfl⟩
    rw [hb] at hsplit
    rw [hb, hsplit]
    simp

theorem contains_ofEntries (asc : Ascending cmp l) (k : κ) :
    (ofEntries l).contains cmp k = (found cmp k l).isSome := by
  unfold contains
  simp only [ofEntries, findKey_eq asc, Option.isSome_map]

theorem getPredecessorKey_ofEntries (asc : Ascending cmp l) (k : κ) :
    (ofEntries l).getPredecessorKey cmp k = match found cmp k l with
      | none => .error nonexistentKey
      | some _ => .ok ((below cmp k l).getLast?.map Prod.fst) := by
  unfold getPredecessorKey
  simp only [ofEntries, findKey_eq asc]
  cases hfound : found cmp k l with
  | none => rfl
  | some e =>
    have hsplit := eq_of_found asc hfound
    obtain ⟨b, hb⟩ : ∃ b, below cmp k l = b := ⟨_, rfl⟩
    rw [hb] at hsplit
    rw [hb, hsplit]
    cases b using List.reverseRecOn with
    | nil => rfl
    | append_singleton b e' _ => simp

end FArraySortedDictionary

/-! ### What both answer -/

namespace FImmutableSortedDictionary
variable {κ : Type u} {ν : Type v} {cmp : κ → κ → Ordering}
  {d : FImmutableSortedDictionary κ ν} {l dictionary : List (κ × ν)} {k : κ} {x : ν}

/-- The dictionary holds the entries of a sorted list, in a small array or in a balanced tree. -/
inductive Holds (cmp : κ → κ → Ordering) :
    FImmutableSortedDictionary κ ν → List (κ × ν) → Prop where
  | array {l : List (κ × ν)} (asc : Ascending cmp l) (small : l.length ≤ threshold) :
    Holds cmp (.array (.ofEntries l)) l
  | tree {root : FLLRBNode κ ν} {h : ℕ} (asc : Ascending cmp root.entries)
    (balanced : Balanced root .black h) : Holds cmp (.tree root) root.entries

theorem Holds.ascending (hd : Holds cmp d l) : Ascending cmp l := by
  cases hd <;> assumption

theorem holds_empty : Holds cmp (empty : FImmutableSortedDictionary κ ν) [] :=
  .array List.Pairwise.nil (Nat.zero_le _)

variable [TransCmp cmp]

/-- A dictionary can be made of entries of which no two keys compare the same, and of no others. -/
theorem holds_fromDictionary (small : dictionary.length + 1 < 2 ^ 32) :
    (∃ e, fromDictionary cmp dictionary = .error e ∧
      ¬ dictionary.Pairwise fun a b => cmp a.1 b.1 ≠ .eq) ∨
    ∃ d l, fromDictionary cmp dictionary = .ok d ∧ Holds cmp d l ∧ l.Perm dictionary := by
  unfold fromDictionary
  split
  · next harray =>
    unfold FArraySortedDictionary.fromDictionary
    cases hkeys : sortedKeys cmp dictionary with
    | error e =>
      refine Or.inl ⟨e, rfl, fun distinct => ?_⟩
      obtain ⟨keys, hok⟩ := sortedKeys_ok_iff.mpr distinct
      cases hkeys.symm.trans hok
    | ok keys =>
      obtain ⟨asc, hperm⟩ := sortedKeys_eq_ok hkeys
      exact Or.inr ⟨_, keys, rfl, .array asc (hperm.length_eq ▸ harray), hperm⟩
  · rcases FTreeSortedDictionary.fromDictionary_eq cmp small with ⟨e, he, hne⟩ |
      ⟨root, h, hroot, hbalanced, asc, hperm⟩
    · rw [he]
      exact Or.inl ⟨e, rfl, hne⟩
    · rw [hroot]
      exact Or.inr ⟨_, _, rfl, .tree asc hbalanced, hperm⟩

omit [TransCmp cmp] in
theorem count_ofEntries_of_small (small : l.length ≤ threshold) :
    (FArraySortedDictionary.ofEntries l).count = l.length := by
  unfold threshold at small
  rw [FArraySortedDictionary.count_ofEntries, int_eq (by omega)]

/-- A new key in a full array makes it a tree. -/
theorem holds_insertKey_full [LawfulEqCmp cmp] (asc : Ascending cmp l)
    (small : l.length ≤ threshold) (hfound : found cmp k l = none) (x : ν) :
    ∃ root, FTreeSortedDictionary.fromDictionary cmp (l ++ [(k, x)]) = .ok root ∧
      Holds cmp (tree root) (upsert cmp (fun _ => k) k x l) := by
  have hlength : (l ++ [(k, x)]).length + 1 < 2 ^ 32 := by
    rw [List.length_append, List.length_singleton]
    unfold threshold at small
    omega
  have distinct : (l ++ [(k, x)]).Pairwise fun a b => cmp a.1 b.1 ≠ .eq := by
    refine List.pairwise_append.mpr ⟨asc.imp fun hab => ?_, List.pairwise_singleton .., ?_⟩
    · rw [hab]
      decide
    · intro a ha b hb
      rw [List.mem_singleton.mp hb]
      exact found_eq_none.mp hfound a ha
  obtain ⟨root, h, hroot, hbalanced, hroot_asc, hperm⟩ :=
    (FTreeSortedDictionary.fromDictionary_eq cmp hlength).resolve_left
      fun ⟨_, _, hne⟩ => hne distinct
  have hsplit := eq_of_not_found asc hfound
  have hentries : root.entries = upsert cmp (fun _ => k) k x l := by
    refine hroot_asc.eq_of_perm (asc.upsert fun _ _ => ReflCmp.compare_self) (hperm.trans ?_)
    unfold upsert
    rw [hfound]
    refine List.Perm.trans ?_ List.perm_middle.symm
    rw [← hsplit]
    exact List.perm_append_singleton _ _
  refine ⟨root, hroot, ?_⟩
  rw [← hentries]
  exact .tree hroot_asc hbalanced

theorem Holds.insertKey [LawfulEqCmp cmp] (hd : Holds cmp d l) (k : κ) (x : ν) :
    ∃ d', insertKey cmp k x d = .ok d' ∧ Holds cmp d' (upsert cmp (fun _ => k) k x l) := by
  have hasc : Ascending cmp (upsert cmp (fun _ => k) k x l) :=
    hd.ascending.upsert fun _ _ => ReflCmp.compare_self
  cases hd with
  | array asc small =>
    have hkey :
        FArraySortedDictionary.findKey cmp k (FArraySortedDictionary.ofEntries l).keys = _ :=
      FArraySortedDictionary.findKey_eq asc
    have hcount : (FArraySortedDictionary.ofEntries l).count = l.length :=
      count_ofEntries_of_small small
    rw [FImmutableSortedDictionary.insertKey, FArraySortedDictionary.entries_ofEntries, hkey,
      hcount]
    by_cases hfull : found cmp k l = none ∧ threshold ≤ l.length
    · obtain ⟨root, hroot, hholds⟩ := holds_insertKey_full asc small hfull.1 x
      refine ⟨_, ?_, hholds⟩
      rw [if_pos (by simpa using hfull), hroot]
      rfl
    · rw [if_neg (by simpa using hfull), FArraySortedDictionary.insertKey_ofEntries asc]
      refine ⟨_, rfl, .array hasc ?_⟩
      have hlength := length_erase (k := k) asc
      rw [length_upsert]
      cases hfound : found cmp k l with
      | none =>
        rw [hfound, Option.toList_none, List.length_nil] at hlength
        have hroom : ¬ threshold ≤ l.length := fun hge => hfull ⟨hfound, hge⟩
        omega
      | some e =>
        rw [hfound, Option.toList_some, List.length_singleton] at hlength
        omega
  | tree asc balanced =>
    obtain ⟨h', hb⟩ : ∃ h', Balanced (FTreeSortedDictionary.insertKey cmp k x _) .black h' :=
      FTreeSortedDictionary.balanced_insertKey balanced
    have hentries := (FTreeSortedDictionary.entries_blacken _).trans (entries_insertKey asc k x)
    rw [upsert_id] at hentries
    refine ⟨_, rfl, ?_⟩
    rw [← hentries]
    exact .tree (hentries.symm ▸ hasc) hb

theorem Holds.removeKey (hd : Holds cmp d l) (k : κ) :
    Holds cmp (removeKey cmp k d) (erase cmp k l) := by
  cases hd with
  | array asc small =>
    rw [FImmutableSortedDictionary.removeKey, FArraySortedDictionary.removeKey_ofEntries asc]
    have hcount := length_erase (k := k) asc
    exact .array asc.erase (by omega)
  | tree asc balanced =>
    obtain ⟨hentries, h', hb⟩ := FTreeSortedDictionary.removeKey_spec (k := k) asc balanced
    rw [← hentries]
    exact .tree (hentries.symm ▸ asc.erase) hb

theorem Holds.get (hd : Holds cmp d l) (k : κ) : get cmp k d = lookup cmp k l := by
  cases hd with
  | array asc => exact FArraySortedDictionary.get_ofEntries asc k
  | tree asc => exact get_eq asc k

theorem Holds.contains (hd : Holds cmp d l) (k : κ) :
    contains cmp k d = (found cmp k l).isSome := by
  cases hd with
  | array asc => exact FArraySortedDictionary.contains_ofEntries asc k
  | tree asc => exact FTreeSortedDictionary.contains_eq asc

omit [TransCmp cmp] in
theorem Holds.count (hd : Holds cmp d l) : d.count = int l.length := by
  cases hd with
  | array => exact FArraySortedDictionary.count_ofEntries _
  | tree => exact count_eq _

omit [TransCmp cmp] in
theorem Holds.minKey (hd : Holds cmp d l) : d.minKey = l.head?.map Prod.fst := by
  cases hd with
  | array => exact List.head?_map ..
  | tree => exact minKey_eq _

omit [TransCmp cmp] in
theorem Holds.maxKey (hd : Holds cmp d l) : d.maxKey = l.getLast?.map Prod.fst := by
  cases hd with
  | array => exact List.getLast?_map ..
  | tree => exact maxKey_eq _

omit [TransCmp cmp] in
theorem Holds.isEmpty (hd : Holds cmp d l) : d.isEmpty = l.isEmpty := by
  cases hd with
  | @array l => cases l <;> rfl
  | @tree root =>
    cases root with
    | emptyNode => rfl
    | valueNode => simp [FImmutableSortedDictionary.isEmpty, entries]

/-- A key that is not there has no predecessor to ask for; the two classes say so each in its own
words. -/
theorem Holds.getPredecessorKey (hd : Holds cmp d l) (k : κ) :
    (found cmp k l = none ∧ ∃ e, getPredecessorKey cmp k d = .error e) ∨
      getPredecessorKey cmp k d = .ok ((below cmp k l).getLast?.map Prod.fst) := by
  cases hd with
  | array asc =>
    have h := FArraySortedDictionary.getPredecessorKey_ofEntries asc k
    cases hfound : found cmp k l with
    | none =>
      rw [hfound] at h
      exact Or.inl ⟨rfl, _, h⟩
    | some e =>
      rw [hfound] at h
      exact Or.inr h
  | @tree root _ asc =>
    have h := FTreeSortedDictionary.predecessorFrom_eq (k := k) asc none
    cases hfound : found cmp k root.entries with
    | none =>
      rw [hfound] at h
      exact Or.inl ⟨rfl, _, h⟩
    | some e =>
      rw [hfound, Option.or_none] at h
      exact Or.inr h

omit [TransCmp cmp] in
/-- The block sees the entries in order, or in reverse order, until it stops. -/
theorem Holds.enumerate {σ : Type w} (hd : Holds cmp d l) (reverse : Bool) (action : Action κ ν σ)
    (s : σ) : d.enumerateKeysAndObjects reverse action s =
      (FArraySortedDictionary.visit action (if reverse then l.reverse else l) s).2 := by
  cases hd with
  | array =>
    rw [enumerateKeysAndObjects, FArraySortedDictionary.entries_ofEntries]
    cases reverse <;> rfl
  | tree =>
    rw [enumerateKeysAndObjects, reverseTraversal_eq, inorderTraversal_eq]
    cases reverse <;> rfl

end FImmutableSortedDictionary

end AstroAR
