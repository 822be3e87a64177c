import AstroAR.TreeBalance
import Mathlib.Data.List.Chain

/-!
# Building the red-black tree of a sorted list

A dictionary that is made from many entries at once is not filled one by one:
its sorted entries are split into complete black trees whose sizes are the
digits of their number in base {1, 2}, the largest first and the last keys in
it, and these hang on one another along the left edge.
-/

namespace AstroAR

open SortedEntries Std

universe u v

structure NSException where
  name : String
  reason : String
deriving DecidableEq

/-- What an array raises for an index beyond its end; the text is its own. -/
def NSException.range : NSException := ⟨"NSRangeException", "index beyond bounds"⟩

/-- The digits of a number in base {1, 2} from the most significant one: a bit that is not set
stands for 1, one that is set for 2. The last two fields are `unsigned short`. -/
structure Base1_2List where
  bits : ℕ
  count : ℕ
  current : ℕ

/-- The quotient of two logarithms is exact enough for every `unsigned int`. -/
def log_base2 (num : ℕ) : ℕ := Nat.log2 num

def bit_mask (x : ℕ) : ℕ := if 32 ≤ x then 2 ^ 32 - 1 else 2 ^ x - 1

namespace Base1_2List

/-- `base1_2List_new` -/
def new (length : ℕ) : Base1_2List :=
  let count := log_base2 ((length + 1) % 2 ^ 32) % 2 ^ 16
  { bits := (length + 1) % 2 ^ 32 &&& bit_mask count
    count := count
    current := (count + (2 ^ 16 - 1)) % 2 ^ 16 }

/-- `base1_2List_next`; with the last digit `current` goes from 0 to 65535. -/
def next (list : Base1_2List) : Bool × Base1_2List :=
  (!list.bits.testBit list.current,
    { list with current := (list.current + (2 ^ 16 - 1)) % 2 ^ 16 })

/-- Before the digit 0 the count down does not wrap. -/
theorem current_of_pos {turns : ℕ} (digits : 0 < turns) (short : turns ≤ 2 ^ 16) :
    (turns + (2 ^ 16 - 1)) % 2 ^ 16 = turns - 1 := by
  omega

end Base1_2List

namespace FTreeSortedDictionary
variable {κ : Type u} {ν : Type v}

open FLLRBNode

/-- The array of keys comes with their values. No result is an exception of the array. -/
def buildBalancedTree (keys : List (κ × ν)) (startIndex length : ℕ) : Option (FLLRBNode κ ν) :=
  let bounded := min (keys.length - startIndex) length
  if bounded = 0 then some emptyNode
  else if bounded = 1 then do
    let e ← keys[startIndex]?
    some (valueNode e.1 e.2 .black emptyNode emptyNode)
  else do
    let middle := bounded / 2
    let left ← buildBalancedTree keys startIndex middle
    let right ← buildBalancedTree keys (startIndex + middle + 1) middle
    let e ← keys[startIndex + middle]?
    some (valueNode e.1 e.2 .black left right)
termination_by length
decreasing_by all_goals omega

/-- A node that waits for its left child. -/
structure Pennant (κ : Type u) (ν : Type v) where
  color : FLLRBColor
  entry : κ × ν
  childTree : FLLRBNode κ ν

/-- `node.left = pennant` -/
def Pennant.attach (p : Pennant κ ν) (left : FLLRBNode κ ν) : FLLRBNode κ ν :=
  valueNode p.entry.1 p.entry.2 p.color left p.childTree

/-- The pennant of the `chunkSize` keys before `index`, and their index. -/
def buildPennant (keyList : List (κ × ν)) (index : ℕ) (color : FLLRBColor) (chunkSize : ℕ) :
    Option (Pennant κ ν × ℕ) := do
  let startIndex := index - chunkSize + 1
  let index := index - chunkSize
  let e ← keyList[index]?
  let childTree ← buildBalancedTree keyList startIndex (chunkSize - 1)
  some (⟨color, e, childTree⟩, index)

/-- The loop of `rootFrom12List:`, with the number of turns that are left. -/
def buildPennants (keyList : List (κ × ν)) :
    ℕ → Base1_2List → ℕ → Option (List (Pennant κ ν))
  | 0, _, _ => some []
  | turns + 1, list, index => do
    let (isOne, list) := list.next
    let chunkSize := 2 ^ turns
    if isOne then
      let (p, index) ← buildPennant keyList index .black chunkSize
      let rest ← buildPennants keyList turns list index
      some (p :: rest)
    else
      let (p, index) ← buildPennant keyList index .black chunkSize
      let (q, index) ← buildPennant keyList index .red chunkSize
      let rest ← buildPennants keyList turns list index
      some (p :: q :: rest)

def rootFrom12List (base1_2List : Base1_2List) (keyList : List (κ × ν)) :
    Option (FLLRBNode κ ν) :=
  (buildPennants keyList base1_2List.count base1_2List keyList.length).map fun pennants =>
    pennants.foldr Pennant.attach emptyNode

/-! ### Complete trees -/

variable {keys : List (κ × ν)} {index turns : ℕ}

/-- The keys from `start` on, `length` of them. -/
def segment (keys : List (κ × ν)) (start length : ℕ) : List (κ × ν) := (keys.drop start).take length

theorem segment_pivot {start before after : ℕ} (h : start + before < keys.length) :
    segment keys start (before + 1 + after) = segment keys start before ++
      keys.get ⟨start + before, h⟩ :: segment keys (start + before + 1) after := by
  unfold segment
  rw [Nat.add_assoc, List.take_add, List.drop_drop, List.drop_eq_getElem_cons h, Nat.add_comm 1,
    List.take_succ_cons]
  rfl

/-- A complete tree of `2 ^ j - 1` black nodes. -/
theorem buildBalancedTree_spec (keys : List (κ × ν)) (j start : ℕ)
    (h : start + (2 ^ j - 1) ≤ keys.length) :
    ∃ t, buildBalancedTree keys start (2 ^ j - 1) = some t ∧
      t.entries = segment keys start (2 ^ j - 1) ∧ Balanced t .black j := by
  induction j generalizing start with
  | zero =>
    refine ⟨emptyNode, ?_, rfl, .empty⟩
    rw [buildBalancedTree]
    simp
  | succ j ih =>
    have hpos : 0 < 2 ^ j := Nat.two_pow_pos j
    have hpow : 2 ^ (j + 1) - 1 = 2 ^ j - 1 + 1 + (2 ^ j - 1) := by
      rw [Nat.pow_succ]
      omega
    have hbound : min (keys.length - start) (2 ^ (j + 1) - 1) = 2 ^ (j + 1) - 1 :=
      Nat.min_eq_right (by omega)
    have hmiddle : (2 ^ (j + 1) - 1) / 2 = 2 ^ j - 1 := by omega
    have hget : start + (2 ^ j - 1) < keys.length := by omega
    obtain ⟨l, hl, hlentries, hlbalanced⟩ := ih start (by omega)
    obtain ⟨r, hr, hrentries, hrbalanced⟩ := ih (start + (2 ^ j - 1) + 1) (by omega)
    obtain ⟨e, he⟩ : ∃ e, keys.get ⟨_, hget⟩ = e := ⟨_, rfl⟩
    have hentry : keys[start + (2 ^ j - 1)]? = some e := by
      rw [← he]
      exact List.getElem?_eq_getElem hget
    refine ⟨valueNode e.1 e.2 .black l r, ?_, ?_, .black hlbalanced hrbalanced⟩
    · rw [buildBalancedTree]
      simp only [hbound]
      cases j with
      | zero =>
        -- the recursion ends one level above the empty trees
        cases hlbalanced.of_black_zero
        cases hrbalanced.of_black_zero
        have hstart : keys[start]? = some e := hentry
        rw [if_neg (by decide), if_pos (by decide), hstart]
        rfl
      | succ j =>
        rw [if_neg (by omega), if_neg (by omega), hmiddle]
        simp only [hl, hr, hentry]
        rfl
    · rw [entries, hpow, segment_pivot hget, he, hlentries, hrentries]

/-! ### The left edge -/

theorem Pennant.entries_attach (p : Pennant κ ν) (l : FLLRBNode κ ν) :
    (p.attach l).entries = l.entries ++ p.entry :: p.childTree.entries := rfl

/-- A pennant takes the last `2 ^ turns` keys before the index. -/
theorem buildPennant_spec (color : FLLRBColor) (room : 2 ^ turns ≤ index)
    (h : index ≤ keys.length) :
    ∃ p, buildPennant keys index color (2 ^ turns) = some (p, index - 2 ^ turns) ∧
      p.color = color ∧ Balanced p.childTree .black turns ∧
      ∀ l : FLLRBNode κ ν, l.entries = keys.take (index - 2 ^ turns) →
        (p.attach l).entries = keys.take index := by
  have hpos : 0 < 2 ^ turns := Nat.two_pow_pos turns
  have hget : index - 2 ^ turns < keys.length := by omega
  obtain ⟨e, he⟩ : ∃ e, keys.get ⟨_, hget⟩ = e := ⟨_, rfl⟩
  have hentry : keys[index - 2 ^ turns]? = some e := by
    rw [← he]
    exact List.getElem?_eq_getElem hget
  obtain ⟨t, ht, htentries, htbalanced⟩ :=
    buildBalancedTree_spec keys turns (index - 2 ^ turns + 1) (by omega)
  refine ⟨⟨color, e, t⟩, ?_, rfl, htbalanced, fun l hl => ?_⟩
  · unfold buildPennant
    simp only [hentry, ht]
    rfl
  · rw [Pennant.entries_attach, hl, htentries]
    have hindex : index = index - 2 ^ turns + (0 + 1 + (2 ^ turns - 1)) := by omega
    have hpivot : segment keys (index - 2 ^ turns) (0 + 1 + (2 ^ turns - 1)) =
        e :: segment keys (index - 2 ^ turns + 1) (2 ^ turns - 1) := by
      rw [segment_pivot hget, ← he]
      rfl
    conv_rhs => rw [hindex, List.take_add]
    exact congrArg _ hpivot.symm

theorem Pennant.attach_black {p : Pennant κ ν} (hcolor : p.color = .black)
    (hchild : Balanced p.childTree .black turns) {l : FLLRBNode κ ν} {c : FLLRBColor}
    (hl : Balanced l c turns) : Balanced (p.attach l) .black (turns + 1) := by
  unfold attach
  rw [hcolor]
  exact .black hl hchild

theorem Pennant.attach_red {p : Pennant κ ν} (hcolor : p.color = .red)
    (hchild : Balanced p.childTree .black turns) {l : FLLRBNode κ ν}
    (hl : Balanced l .black turns) : Balanced (p.attach l) .red turns := by
  unfold attach
  rw [hcolor]
  exact .red hl hchild

/-- The digits that are left say how many keys are left. -/
theorem buildPennants_spec (keys : List (κ × ν)) (turns : ℕ) (list : Base1_2List) (index : ℕ)
    (short : turns ≤ 2 ^ 16) (current : 0 < turns → list.current = turns - 1)
    (left : index = list.bits % 2 ^ turns + (2 ^ turns - 1)) (h : index ≤ keys.length) :
    ∃ ps, buildPennants keys turns list index = some ps ∧
      (ps.foldr Pennant.attach emptyNode).entries = keys.take index ∧
      Balanced (ps.foldr Pennant.attach emptyNode) .black turns := by
  induction turns generalizing list index with
  | zero =>
    refine ⟨[], rfl, ?_, .empty⟩
    rw [left, Nat.pow_zero, Nat.mod_one]
    rfl
  | succ turns ih =>
    have hpos : 0 < 2 ^ turns := Nat.two_pow_pos turns
    have hdigit : list.bits % 2 ^ (turns + 1) =
        list.bits % 2 ^ turns + 2 ^ turns * (list.bits.testBit turns).toNat := by
      rw [Nat.mod_pow_succ, Nat.toNat_testBit]
    obtain ⟨c, hc⟩ : ∃ c, c = (turns + (2 ^ 16 - 1)) % 2 ^ 16 := ⟨_, rfl⟩
    have hnext : list.next = (!list.bits.testBit turns, ⟨list.bits, list.count, c⟩) := by
      rw [Base1_2List.next, current turns.succ_pos, hc]
      rfl
    have hshort : turns ≤ 2 ^ 16 := by omega
    have hcurrent : 0 < turns → c = turns - 1 := fun digits =>
      hc.trans (Base1_2List.current_of_pos digits hshort)
    rw [hdigit, Nat.pow_succ] at left
    unfold buildPennants
    rw [hnext]
    have room : 2 ^ turns ≤ index := by omega
    obtain ⟨p, hp, hcolor, hchild, hattach⟩ := buildPennant_spec .black room h
    cases hbit : list.bits.testBit turns with
    | false =>
      rw [hbit, Bool.toNat_false] at left
      obtain ⟨ps, hps, hentries, hbalanced⟩ := ih ⟨list.bits, list.count, c⟩
        (index - 2 ^ turns) hshort hcurrent (by simp only; omega) (by omega)
      refine ⟨p :: ps, ?_, hattach _ hentries, p.attach_black hcolor hchild hbalanced⟩
      simp [hp, hps]
    | true =>
      rw [hbit, Bool.toNat_true] at left
      have room' : 2 ^ turns ≤ index - 2 ^ turns := by omega
      have h' : index - 2 ^ turns ≤ keys.length := by omega
      obtain ⟨q, hq, hcolor', hchild', hattach'⟩ := buildPennant_spec .red room' h'
      obtain ⟨ps, hps, hentries, hbalanced⟩ := ih ⟨list.bits, list.count, c⟩
        (index - 2 ^ turns - 2 ^ turns) hshort hcurrent (by simp only; omega) (by omega)
      refine ⟨p :: q :: ps, ?_, hattach _ (hattach' _ hentries),
        p.attach_black hcolor hchild (q.attach_red hcolor' hchild' hbalanced)⟩
      simp [hp, hq, hps]

/-- The digits of a length make up the length. -/
theorem new_spec {length : ℕ} (small : length + 1 < 2 ^ 32) :
    (Base1_2List.new length).count ≤ 2 ^ 16 ∧
      (0 < (Base1_2List.new length).count →
        (Base1_2List.new length).current = (Base1_2List.new length).count - 1) ∧
      length = (Base1_2List.new length).bits % 2 ^ (Base1_2List.new length).count +
        (2 ^ (Base1_2List.new length).count - 1) := by
  have hmod : (length + 1) % 2 ^ 32 = length + 1 := Nat.mod_eq_of_lt small
  have hlog : Nat.log2 (length + 1) < 32 := (Nat.log2_lt (by omega)).mpr small
  have hlog16 : Nat.log2 (length + 1) % 2 ^ 16 = Nat.log2 (length + 1) :=
    Nat.mod_eq_of_lt (by omega)
  have hcount : (Base1_2List.new length).count = Nat.log2 (length + 1) := by
    simp only [Base1_2List.new, log_base2, hmod, hlog16]
  have hshort : (Base1_2List.new length).count ≤ 2 ^ 16 := by omega
  refine ⟨hshort, fun digits => Base1_2List.current_of_pos digits hshort, ?_⟩
  have hmask : bit_mask (Nat.log2 (length + 1)) = 2 ^ Nat.log2 (length + 1) - 1 :=
    if_neg (by omega)
  have low : 2 ^ Nat.log2 (length + 1) ≤ length + 1 := Nat.log2_self_le (by omega)
  have high : length + 1 < 2 ^ Nat.log2 (length + 1) * 2 := by
    rw [← Nat.pow_succ]
    exact Nat.lt_log2_self
  unfold Base1_2List.new log_base2
  simp only [hmod, hlog16, hmask, Nat.and_two_pow_sub_one_eq_mod]
  have hbits : (length + 1) % 2 ^ Nat.log2 (length + 1) =
      length + 1 - 2 ^ Nat.log2 (length + 1) := by
    rw [Nat.mod_eq_sub_mod low, Nat.mod_eq_of_lt (by omega)]
  rw [Nat.mod_mod, hbits]
  have hpos := Nat.two_pow_pos (Nat.log2 (length + 1))
  omega

/-- From a sorted list comes a black tree with the entries of the list, and as many black nodes on
every way down as the length has digits. -/
theorem rootFrom12List_spec {keyList : List (κ × ν)} (small : keyList.length + 1 < 2 ^ 32) :
    ∃ root, rootFrom12List (Base1_2List.new keyList.length) keyList = some root ∧
      root.entries = keyList ∧ Balanced root .black (Base1_2List.new keyList.length).count := by
  obtain ⟨short, current, hlength⟩ := new_spec small
  obtain ⟨ps, hps, hentries, hbalanced⟩ := buildPennants_spec keyList _ _ _ short current hlength
    (Nat.le_refl _)
  refine ⟨_, ?_, hentries.trans (List.take_length ..), hbalanced⟩
  unfold rootFrom12List
  rw [hps]
  rfl

end FTreeSortedDictionary

/-! ### Sorting the entries -/

namespace FImmutableSortedDictionary
variable {κ : Type u} {ν : Type v} (cmp : κ → κ → Ordering)

/-- The sorted keys of a dictionary that is given by its entries in any order. Both classes raise
the same exception if two neighbours are not in ascending order. -/
def sortedKeys (dictionary : List (κ × ν)) : Except NSException (List (κ × ν)) :=
  let keys := dictionary.mergeSort fun a b => (cmp a.1 b.1).isLE
  if keys.IsChain fun a b => cmp a.1 b.1 = .lt then .ok keys
  else .error ⟨"NSInvalidArgumentException",
    "Can't create FImmutableSortedDictionary with keys with same ordering!"⟩

variable {cmp} [TransCmp cmp] {dictionary keys : List (κ × ν)}

theorem ascending_of_isChain (h : keys.IsChain fun a b => cmp a.1 b.1 = .lt) :
    Ascending cmp keys := by
  have : IsTrans (κ × ν) fun a b => cmp a.1 b.1 = .lt := ⟨fun _ _ _ => TransCmp.lt_trans⟩
  exact List.isChain_iff_pairwise.mp h

theorem sortedKeys_eq_ok (h : sortedKeys cmp dictionary = .ok keys) :
    Ascending cmp keys ∧ keys.Perm dictionary := by
  simp only [sortedKeys] at h
  split at h
  · next hchain =>
    cases h
    exact ⟨ascending_of_isChain hchain, List.mergeSort_perm _ _⟩
  · cases h

theorem distinct_of_perm (h : keys.Perm dictionary) :
    (keys.Pairwise fun a b => cmp a.1 b.1 ≠ .eq) ↔
      dictionary.Pairwise fun a b => cmp a.1 b.1 ≠ .eq :=
  h.pairwise_iff fun hab hba => hab (OrientedCmp.eq_symm hba)

/-- The keys can be sorted exactly if no two of them compare the same. -/
theorem sortedKeys_ok_iff : (∃ keys, sortedKeys cmp dictionary = .ok keys) ↔
    dictionary.Pairwise fun a b => cmp a.1 b.1 ≠ .eq := by
  constructor
  · rintro ⟨keys, h⟩
    obtain ⟨asc, hperm⟩ := sortedKeys_eq_ok h
    refine (distinct_of_perm hperm).mp (asc.imp fun hab => ?_)
    rw [hab]
    decide
  · intro distinct
    have hperm := List.mergeSort_perm dictionary fun a b => (cmp a.1 b.1).isLE
    have total : ∀ a b : κ × ν, ((cmp a.1 b.1).isLE || (cmp b.1 a.1).isLE) = true := by
      intro a b
      cases hab : cmp a.1 b.1 with
      | lt => rfl
      | eq => rfl
      | gt => rw [OrientedCmp.lt_of_gt hab]; rfl
    have hsorted := List.pairwise_mergeSort (fun a b c : κ × ν => TransCmp.isLE_trans) total
      dictionary
    refine ⟨_, if_pos (List.Pairwise.isChain ?_)⟩
    refine (hsorted.and ((distinct_of_perm hperm).mpr distinct)).imp fun {a b} hab => ?_
    exact (Ordering.isLE_iff_eq_lt_or_eq_eq.mp hab.1).resolve_right hab.2

end FImmutableSortedDictionary

namespace FTreeSortedDictionary
variable {κ : Type u} {ν : Type v} (cmp : κ → κ → Ordering)

open FLLRBNode

def fromDictionary (dictionary : List (κ × ν)) : Except NSException (FLLRBNode κ ν) := do
  let sortedKeyList ← FImmutableSortedDictionary.sortedKeys cmp dictionary
  let list := Base1_2List.new (sortedKeyList.length % 2 ^ 32)
  match rootFrom12List list sortedKeyList with
  | some root => .ok root
  | none => .error .range

variable {cmp} [TransCmp cmp] {dictionary : List (κ × ν)}

variable (cmp) in
/-- A tree is built from every dictionary whose keys can be sorted. -/
theorem fromDictionary_eq (small : dictionary.length + 1 < 2 ^ 32) :
    (∃ e, fromDictionary cmp dictionary = .error e ∧
      ¬ dictionary.Pairwise fun a b => cmp a.1 b.1 ≠ .eq) ∨
    ∃ root h, fromDictionary cmp dictionary = .ok root ∧ Balanced root .black h ∧
      Ascending cmp root.entries ∧ root.entries.Perm dictionary := by
  unfold fromDictionary
  cases hkeys : FImmutableSortedDictionary.sortedKeys cmp dictionary with
  | error e =>
    refine Or.inl ⟨e, rfl, fun distinct => ?_⟩
    obtain ⟨keys, hok⟩ := FImmutableSortedDictionary.sortedKeys_ok_iff.mpr distinct
    cases hkeys.symm.trans hok
  | ok keys =>
    obtain ⟨asc, hperm⟩ := FImmutableSortedDictionary.sortedKeys_eq_ok hkeys
    have hlength : keys.length + 1 < 2 ^ 32 := by
      rw [hperm.length_eq]
      exact small
    obtain ⟨root, hroot, hentries, hbalanced⟩ := rootFrom12List_spec hlength
    refine Or.inr ⟨root, _, ?_, hbalanced, hentries.symm ▸ asc, hentries.symm ▸ hperm⟩
    simp only [bind, Except.bind, Nat.mod_eq_of_lt (Nat.lt_of_succ_lt hlength), hroot]

end FTreeSortedDictionary

end AstroAR
