import AstroAR.LastWrite
import AstroAR.SortedDictionary
import Mathlib.Data.List.Perm.Subperm

/-!
# Runs of a sorted dictionary

Whatever is inserted into a dictionary and removed from it, in whatever order,
it answers as the partial function that maps each key to what was last inserted
for it; that it changes from an array to a tree does not show. A tree stays
balanced in every run.
-/

namespace AstroAR

open SortedEntries LastWrite Std FLLRBNode

universe u v w

inductive Edit (κ : Type u) (ν : Type v) where
  | insert (key : κ) (value : ν)
  | remove (key : κ)

namespace Edit
variable {κ : Type u} {ν : Type v}

/-- What an edit writes to which key: a value, or that there is none. -/
def write : Edit κ ν → Option (κ × Option ν)
  | insert k x => some (k, some x)
  | remove k => some (k, none)

def toEntries (cmp : κ → κ → Ordering) (l : List (κ × ν)) : Edit κ ν → List (κ × ν)
  | insert k x => upsert cmp (fun _ => k) k x l
  | remove k => erase cmp k l

end Edit

namespace FImmutableSortedDictionary
variable {κ : Type u} {ν : Type v} (cmp : κ → κ → Ordering)

def edit (d : FImmutableSortedDictionary κ ν) :
    Edit κ ν → Except NSException (FImmutableSortedDictionary κ ν)
  | .insert k x => d.insertKey cmp k x
  | .remove k => .ok (d.removeKey cmp k)

def editAll (d : FImmutableSortedDictionary κ ν) (edits : List (Edit κ ν)) :
    Except NSException (FImmutableSortedDictionary κ ν) :=
  edits.foldlM (edit cmp) d

/-- What a block sees that never stops. -/
def enumeration (reverse : Bool) (d : FImmutableSortedDictionary κ ν) : List (κ × ν) :=
  d.enumerateKeysAndObjects reverse (fun k x seen => (false, seen ++ [(k, x)])) []

/-- The dictionary answers as a partial function on ordered keys. -/
structure Answers (d : FImmutableSortedDictionary κ ν) (value : κ → Option ν) : Prop where
  get : ∀ k, d.get cmp k = value k
  contains : ∀ k, d.contains cmp k = (value k).isSome
  ascending : Ascending cmp (d.enumeration false)
  mem : ∀ k x, (k, x) ∈ d.enumeration false ↔ value k = some x
  reverse : d.enumeration true = (d.enumeration false).reverse
  count : d.count = int (d.enumeration false).length
  isEmpty : d.isEmpty = (d.enumeration false).isEmpty
  minKey : d.minKey = (d.enumeration false).head?.map Prod.fst
  maxKey : d.maxKey = (d.enumeration false).getLast?.map Prod.fst
  getPredecessorKey : ∀ k, (value k = none ∧ ∃ e, d.getPredecessorKey cmp k = .error e) ∨
    d.getPredecessorKey cmp k =
      .ok (((d.enumeration false).filter fun e => cmp e.1 k == .lt).getLast?.map Prod.fst)

variable {cmp} {d : FImmutableSortedDictionary κ ν} {l : List (κ × ν)}

theorem visit_collect (l seen : List (κ × ν)) :
    (FArraySortedDictionary.visit (fun k x seen => (false, seen ++ [(k, x)])) l seen).2 =
      seen ++ l := by
  induction l generalizing seen with
  | nil => exact (List.append_nil _).symm
  | cons e l ih => exact (ih _).trans (by simp)

theorem Holds.enumeration (hd : Holds cmp d l) (reverse : Bool) :
    d.enumeration reverse = if reverse then l.reverse else l :=
  (hd.enumerate reverse _ _).trans ((visit_collect _ _).trans (List.nil_append _))

section Lawful
variable [TransCmp cmp] [LawfulEqCmp cmp]

theorem Holds.answers (hd : Holds cmp d l) : Answers cmp d fun k => lookup cmp k l := by
  have hl : d.enumeration false = l := hd.enumeration false
  constructor
  · exact hd.get
  · intro k
    rw [hd.contains, lookup, Option.isSome_map]
  · rw [hl]
    exact hd.ascending
  · intro k x
    rw [hl, lookup_eq_some hd.ascending]
    constructor
    · exact fun h => ⟨(k, x), h, ReflCmp.compare_self, rfl⟩
    · rintro ⟨e, he, hk, rfl⟩
      rw [← LawfulEqCmp.eq_of_compare hk]
      exact he
  · rw [hl]
    exact hd.enumeration true
  · rw [hl]
    exact hd.count
  · rw [hl]
    exact hd.isEmpty
  · rw [hl]
    exact hd.minKey
  · rw [hl]
    exact hd.maxKey
  · intro k
    rw [hl]
    refine (hd.getPredecessorKey k).imp_left fun h => ⟨?_, h.2⟩
    rw [lookup, h.1]
    rfl

theorem Holds.edit (hd : Holds cmp d l) (a : Edit κ ν) :
    ∃ d', d.edit cmp a = .ok d' ∧ Holds cmp d' (a.toEntries cmp l) := by
  cases a with
  | insert k x => exact hd.insertKey k x
  | remove k => exact ⟨_, rfl, hd.removeKey k⟩

/-- No run raises an exception. -/
theorem Holds.editAll (hd : Holds cmp d l) (edits : List (Edit κ ν)) :
    ∃ d', d.editAll cmp edits = .ok d' ∧
      Holds cmp d' (edits.foldl (fun l a => a.toEntries cmp l) l) := by
  induction edits generalizing d l with
  | nil => exact ⟨d, rfl, hd⟩
  | cons a edits ih =>
    obtain ⟨d₁, hedit, hd₁⟩ := hd.edit a
    obtain ⟨d', hrun, hd'⟩ := ih hd₁
    refine ⟨d', ?_, hd'⟩
    unfold FImmutableSortedDictionary.editAll at hrun ⊢
    rw [List.foldlM_cons, hedit]
    exact hrun

omit [LawfulEqCmp cmp] in
theorem length_toEntries (h : Ascending cmp l) (a : Edit κ ν) :
    (a.toEntries cmp l).length ≤ l.length + 1 := by
  cases a with
  | insert k x =>
    have hlength := length_erase (k := k) h
    rw [Edit.toEntries, length_upsert]
    omega
  | remove k =>
    have hlength := length_erase (k := k) h
    rw [Edit.toEntries]
    omega

theorem ascending_toEntries (h : Ascending cmp l) (a : Edit κ ν) :
    Ascending cmp (a.toEntries cmp l) := by
  cases a with
  | insert k x => exact h.upsert fun _ _ => ReflCmp.compare_self
  | remove k => exact h.erase

/-- An edit brings one key at most. -/
theorem length_foldl (h : Ascending cmp l) (edits : List (Edit κ ν)) :
    (edits.foldl (fun l a => a.toEntries cmp l) l).length ≤ l.length + edits.length := by
  induction edits generalizing l with
  | nil => exact Nat.le_refl _
  | cons a edits ih =>
    have hfirst := length_toEntries h a
    have hrest := ih (ascending_toEntries h a)
    rw [List.foldl_cons, List.length_cons]
    omega

variable [DecidableEq κ]

theorem lookup_toEntries (h : Ascending cmp l) (a : Edit κ ν) (k : κ) :
    lookup cmp k (a.toEntries cmp l) = (writeTo Edit.write k a).elim (lookup cmp k l) id := by
  have same : ∀ k', cmp k' k = .eq ↔ k' = k := fun _ => LawfulEqCmp.compare_eq_iff_eq
  cases a with
  | insert k' x =>
    rw [Edit.toEntries, lookup_upsert h fun _ _ => ReflCmp.compare_self]
    simp only [writeTo, Edit.write, Option.bind_some, same]
    split <;> rfl
  | remove k' =>
    rw [Edit.toEntries, lookup_erase h]
    simp only [writeTo, Edit.write, Option.bind_some, same]
    split <;> rfl

theorem lookup_foldl (h : Ascending cmp l) (edits : List (Edit κ ν)) (k : κ) :
    Ascending cmp (edits.foldl (fun l a => a.toEntries cmp l) l) ∧
    lookup cmp k (edits.foldl (fun l a => a.toEntries cmp l) l) =
      (lastWrite Edit.write k edits).elim (lookup cmp k l) id := by
  induction edits using List.reverseRecOn with
  | nil => exact ⟨h, rfl⟩
  | append_singleton edits a ih =>
    rw [List.foldl_append, List.foldl_cons, List.foldl_nil, lastWrite_concat,
      lookup_toEntries ih.1, ih.2]
    refine ⟨ascending_toEntries ih.1 a, ?_⟩
    cases writeTo Edit.write k a <;> rfl

/-- The value of a key in a dictionary that is given by its entries. -/
def valueIn (dictionary : List (κ × ν)) (k : κ) : Option ν :=
  (dictionary.find? fun e => e.1 = k).map Prod.snd

omit [TransCmp cmp] [LawfulEqCmp cmp] in
theorem valueIn_eq_some {dictionary : List (κ × ν)} (nodup : (dictionary.map Prod.fst).Nodup)
    {k : κ} {x : ν} : valueIn dictionary k = some x ↔ (k, x) ∈ dictionary := by
  unfold valueIn
  rw [Option.map_eq_some_iff]
  constructor
  · rintro ⟨e, hfind, rfl⟩
    have hk : e.1 = k := by simpa using List.find?_some hfind
    rw [← hk]
    exact List.mem_of_find?_eq_some hfind
  · intro hmem
    obtain ⟨e, hfind⟩ : ∃ e, dictionary.find? (fun e => e.1 = k) = some e := by
      rw [← Option.isSome_iff_exists, List.find?_isSome]
      exact ⟨(k, x), hmem, by simp⟩
    have hk : e.1 = k := by simpa using List.find?_some hfind
    refine ⟨e, hfind, ?_⟩
    rw [List.inj_on_of_nodup_map nodup (List.mem_of_find?_eq_some hfind) hmem hk]

/-- What is to be answered for a key: what was last inserted for it, if anything was and it was not
removed since, and else what the dictionary was made with. -/
def valueAfter (dictionary : List (κ × ν)) (edits : List (Edit κ ν)) (k : κ) : Option ν :=
  (lastWrite Edit.write k edits).elim (valueIn dictionary k) id

variable (cmp) in
theorem holds_run {dictionary : List (κ × ν)} (small : dictionary.length + 1 < 2 ^ 32)
    (nodup : (dictionary.map Prod.fst).Nodup) (edits : List (Edit κ ν)) :
    ∃ d₀ d l, fromDictionary cmp dictionary = .ok d₀ ∧ d₀.editAll cmp edits = .ok d ∧
      Holds cmp d l ∧ l.length ≤ dictionary.length + edits.length ∧
      ∀ k, lookup cmp k l = valueAfter dictionary edits k := by
  have distinct : dictionary.Pairwise fun a b => cmp a.1 b.1 ≠ .eq :=
    (List.pairwise_map.mp nodup).imp fun hab heq => hab (LawfulEqCmp.eq_of_compare heq)
  obtain ⟨d₀, l, hd₀, hl, hperm⟩ :=
    (holds_fromDictionary small).resolve_left fun ⟨_, _, hne⟩ => hne distinct
  obtain ⟨d, hrun, hd⟩ := hl.editAll edits
  have hvalue : ∀ k, lookup cmp k l = valueIn dictionary k := by
    refine fun k => Option.ext fun x => ?_
    rw [valueIn_eq_some nodup, lookup_eq_some hl.ascending, ← hperm.mem_iff]
    constructor
    · rintro ⟨e, he, hk, rfl⟩
      rw [← LawfulEqCmp.eq_of_compare hk]
      exact he
    · exact fun h => ⟨(k, x), h, ReflCmp.compare_self, rfl⟩
  refine ⟨d₀, d, _, hd₀, hrun, hd, hperm.length_eq ▸ length_foldl hl.ascending edits,
    fun k => ?_⟩
  rw [(lookup_foldl hl.ascending edits k).2, hvalue]
  rfl

/-- A dictionary that is made of entries with different keys, fewer than 2³² of them, answers in
every run as the last edits say, and else as those entries do. -/
theorem run_answers (cmp : κ → κ → Ordering) [TransCmp cmp] [LawfulEqCmp cmp]
    {dictionary : List (κ × ν)} (small : dictionary.length + 1 < 2 ^ 32)
    (nodup : (dictionary.map Prod.fst).Nodup) (edits : List (Edit κ ν)) :
    ∃ d₀ d, fromDictionary cmp dictionary = .ok d₀ ∧ d₀.editAll cmp edits = .ok d ∧
      Answers cmp d (valueAfter dictionary edits) := by
  obtain ⟨d₀, d, l, hd₀, hrun, hd, _, hvalue⟩ := holds_run cmp small nodup edits
  refine ⟨d₀, d, hd₀, hrun, ?_⟩
  rw [← funext hvalue]
  exact hd.answers

/-- An array takes its 26th key and becomes a tree, which loses a key again. -/
theorem run_answers_tree : ∃ d₀ d : FImmutableSortedDictionary ℕ ℕ,
    fromDictionary compare [(3, 0)] = .ok d₀ ∧
    d₀.editAll compare (((List.range 26).map fun i => .insert (25 - i) (i * i)) ++ [.remove 4]) =
      .ok d ∧ d.get compare 3 = some 484 ∧ d.get compare 4 = none := by
  obtain ⟨d₀, d, hd₀, hd, answers⟩ := run_answers (compare : ℕ → ℕ → Ordering)
    (show [((3 : ℕ), (0 : ℕ))].length + 1 < 2 ^ 32 by decide) (by decide)
    (((List.range 26).map fun i => .insert (25 - i) (i * i)) ++ [.remove 4])
  exact ⟨d₀, d, hd₀, hd, (answers.get 3).trans (by decide), (answers.get 4).trans (by decide)⟩

end Lawful

/-! ### `isEqual:` -/

theorem visit_isEqual (p : κ → ν → Bool) (l : List (κ × ν)) :
    (FArraySortedDictionary.visit (fun k x isEqual => (!(isEqual && p k x), isEqual && p k x))
      l true).2 = l.all fun e => p e.1 e.2 := by
  induction l with
  | nil => rfl
  | cons e l ih =>
    rw [FArraySortedDictionary.visit, List.all_cons]
    cases p e.1 e.2 with
    | false => rfl
    | true => exact ih

section Equal
variable [TransCmp cmp] [LawfulEqCmp cmp] {d' : FImmutableSortedDictionary κ ν} {l' : List (κ × ν)}

omit [LawfulEqCmp cmp] in
theorem Holds.isEqual_iff_lookup [DecidableEq ν] (hd : Holds cmp d l) (hd' : Holds cmp d' l')
    (small : l.length < 2 ^ 32) (small' : l'.length < 2 ^ 32) :
    d.isEqual cmp d' = true ↔ l.length = l'.length ∧ ∀ e ∈ l, lookup cmp e.1 l' = some e.2 := by
  unfold isEqual
  simp only [hd.count, hd'.count, ne_eq, int_inj small small']
  split
  · next hne => exact ⟨fun h => (Bool.false_ne_true h).elim, fun h => absurd h.1 hne⟩
  · next heq =>
    rw [hd.enumerate, visit_isEqual fun k x => d'.get cmp k = some x]
    simp only [Bool.false_eq_true, if_false, List.all_eq_true, decide_eq_true_iff, hd'.get]
    exact ⟨fun h => ⟨not_not.mp heq, h⟩, And.right⟩

omit [LawfulEqCmp cmp] in
theorem nodup_of_ascending (h : Ascending cmp l) : l.Nodup := by
  refine h.imp fun {a b} hab heq => ?_
  rw [heq] at hab
  cases (ReflCmp.compare_self : cmp b.1 b.1 = .eq).symm.trans hab

theorem lookup_of_mem (h : Ascending cmp l) {e : κ × ν} (he : e ∈ l) :
    lookup cmp e.1 l = some e.2 :=
  (lookup_eq_some h).mpr ⟨e, he, ReflCmp.compare_self, rfl⟩

theorem mem_of_lookup (h : Ascending cmp l) {e : κ × ν} (he : lookup cmp e.1 l = some e.2) :
    e ∈ l := by
  obtain ⟨e', he', hk, hx⟩ := (lookup_eq_some h).mp he
  have hsame : e' = e := Prod.ext (LawfulEqCmp.eq_of_compare hk) hx
  rw [← hsame]
  exact he'

/-- Of two dictionaries with as many keys it is enough to go through one. -/
theorem Holds.isEqual_iff [DecidableEq ν] (hd : Holds cmp d l) (hd' : Holds cmp d' l')
    (small : l.length < 2 ^ 32) (small' : l'.length < 2 ^ 32) :
    d.isEqual cmp d' = true ↔ ∀ k, d.get cmp k = d'.get cmp k := by
  rw [hd.isEqual_iff_lookup hd' small small']
  simp only [hd.get, hd'.get]
  constructor
  · rintro ⟨hlength, hall⟩
    have hsub : l ⊆ l' := fun e he => mem_of_lookup hd'.ascending (hall e he)
    have hperm : l.Perm l' := (List.subperm_of_subset (nodup_of_ascending hd.ascending)
      hsub).perm_of_length_le hlength.ge
    rw [hd.ascending.eq_of_perm hd'.ascending hperm]
    exact fun _ => rfl
  · intro hsame
    have hmem : ∀ e, e ∈ l ↔ e ∈ l' := by
      refine fun e => ⟨fun he => mem_of_lookup hd'.ascending ?_,
        fun he => mem_of_lookup hd.ascending ?_⟩
      · rw [← hsame]
        exact lookup_of_mem hd.ascending he
      · rw [hsame]
        exact lookup_of_mem hd'.ascending he
    have hperm : l.Perm l' := (List.perm_ext_iff_of_nodup (nodup_of_ascending hd.ascending)
      (nodup_of_ascending hd'.ascending)).mpr hmem
    refine ⟨hperm.length_eq, fun e he => ?_⟩
    exact lookup_of_mem hd'.ascending ((hmem e).mp he)

/-- Two runs lead to dictionaries that are equal exactly if each key has the same value after both,
whatever the orders of the edits, and be the dictionaries arrays or trees. The counts that
`isEqual:` compares first tell numbers of keys below 2³² apart. -/
theorem run_isEqual [DecidableEq κ] [DecidableEq ν] (cmp : κ → κ → Ordering) [TransCmp cmp]
    [LawfulEqCmp cmp] {dictionary dictionary' : List (κ × ν)}
    {edits edits' : List (Edit κ ν)}
    (small : dictionary.length + edits.length + 1 < 2 ^ 32)
    (nodup : (dictionary.map Prod.fst).Nodup)
    (small' : dictionary'.length + edits'.length + 1 < 2 ^ 32)
    (nodup' : (dictionary'.map Prod.fst).Nodup) :
    ∃ d d', (fromDictionary cmp dictionary).bind (·.editAll cmp edits) = .ok d ∧
      (fromDictionary cmp dictionary').bind (·.editAll cmp edits') = .ok d' ∧
      (d.isEqual cmp d' = true ↔
        ∀ k, valueAfter dictionary edits k = valueAfter dictionary' edits' k) := by
  obtain ⟨d₀, d, l, hd₀, hrun, hd, hlength, hvalue⟩ := holds_run cmp (by omega) nodup edits
  obtain ⟨d₀', d', l', hd₀', hrun', hd', hlength', hvalue'⟩ :=
    holds_run cmp (by omega) nodup' edits'
  refine ⟨d, d', ?_, ?_, ?_⟩
  · rw [hd₀]
    exact hrun
  · rw [hd₀']
    exact hrun'
  · rw [hd.isEqual_iff hd' (by omega) (by omega)]
    refine forall_congr' fun k => ?_
    rw [hd.get, hd'.get, hvalue, hvalue']

/-- A key that comes and goes again leaves no trace. -/
theorem run_isEqual_removed : ∃ d d' : FImmutableSortedDictionary ℕ ℕ,
    (fromDictionary compare [(3, 0)]).bind (·.editAll compare [.insert 4 1, .remove 4]) = .ok d ∧
    (fromDictionary compare []).bind (·.editAll compare [.insert 3 0]) = .ok d' ∧
    d.isEqual compare d' = true := by
  have few : [((3 : ℕ), (0 : ℕ))].length + [Edit.insert 4 1, .remove 4].length + 1 < 2 ^ 32 := by
    decide
  have few' : ([] : List (ℕ × ℕ)).length + [Edit.insert 3 0].length + 1 < 2 ^ 32 := by
    decide
  obtain ⟨d, d', hd, hd', hiff⟩ := run_isEqual (compare : ℕ → ℕ → Ordering) few (by decide) few'
    (by decide)
  refine ⟨d, d', hd, hd', hiff.mpr fun k => ?_⟩
  by_cases h4 : 4 = k <;> by_cases h3 : 3 = k <;>
    simp [valueAfter, valueIn, lastWrite, writeTo, Edit.write, h3, h4]
  omega

end Equal

end FImmutableSortedDictionary

/-! ### Runs of a tree -/

namespace FTreeSortedDictionary
variable {κ : Type u} {ν : Type v} (cmp : κ → κ → Ordering)

def edit (root : FLLRBNode κ ν) : Edit κ ν → FLLRBNode κ ν
  | .insert k x => insertKey cmp k x root
  | .remove k => removeKey cmp k root

variable {cmp} [TransCmp cmp] {root : FLLRBNode κ ν} {h : ℕ}

theorem ascending_edit (asc : Ascending cmp root.entries) (hn : Balanced root .black h)
    (a : Edit κ ν) : Ascending cmp (edit cmp root a).entries ∧
      (edit cmp root a).entries.length ≤ root.entries.length + 1 ∧
      ∃ h', Balanced (edit cmp root a) .black h' := by
  cases a with
  | insert k x =>
    have hlength := length_erase (k := k) asc
    refine ⟨?_, ?_, balanced_insertKey hn⟩
    · rw [edit, insertKey, entries_blacken, entries_insertKey asc]
      exact asc.upsert fun k' hk' => hk'
    · rw [edit, insertKey, entries_blacken, entries_insertKey asc, length_upsert]
      omega
  | remove k =>
    have hlength := length_erase (k := k) asc
    obtain ⟨hentries, hb⟩ := removeKey_spec (k := k) asc hn
    rw [edit, hentries]
    exact ⟨asc.erase, by omega, hb⟩

theorem ascending_run (asc : Ascending cmp root.entries) (hn : Balanced root .black h)
    (edits : List (Edit κ ν)) : Ascending cmp (edits.foldl (edit cmp) root).entries ∧
      (edits.foldl (edit cmp) root).entries.length ≤ root.entries.length + edits.length ∧
      ∃ h', Balanced (edits.foldl (edit cmp) root) .black h' := by
  induction edits generalizing root h with
  | nil => exact ⟨asc, Nat.le_refl _, h, hn⟩
  | cons a edits ih =>
    obtain ⟨asc', hfirst, h', hn'⟩ := ascending_edit asc hn a
    obtain ⟨asc'', hrest, hb⟩ := ih asc' hn'
    refine ⟨asc'', ?_, hb⟩
    rw [List.foldl_cons, List.length_cons]
    omega

/-- The checks of the depth go through while `count` is that of the keys. -/
theorem checkMaxDepth_of_balanced (hn : Balanced root .black h)
    (small : root.entries.length + 1 < 2 ^ 31) : root.checkMaxDepth = .ok true := by
  have hpow : (2 : ℤ) ^ h ≤ ((root.entries.length + 1 : ℕ) : ℤ) := by
    exact_mod_cast hn.two_pow_le
  have hcount : int (root.count + 1) = ((root.entries.length + 1 : ℕ) : ℤ) := by
    rw [count_eq, int_eq (by omega)]
    exact int_eq small
  rw [checkMaxDepth, hn.check, hcount]
  exact congrArg Except.ok (decide_eq_true hpow)

/-- Every tree that a run leaves passes the checks of the source: no exception of `check`, and, as
long as an `int` can count its keys, not deeper than their number allows. -/
theorem run_check {dictionary : List (κ × ν)} (small : dictionary.length + 1 < 2 ^ 32)
    (built : fromDictionary cmp dictionary = .ok root) (edits : List (Edit κ ν)) :
    ∃ depth, (edits.foldl (edit cmp) root).check = .ok depth ∧
      (dictionary.length + edits.length + 1 < 2 ^ 31 →
        (edits.foldl (edit cmp) root).checkMaxDepth = .ok true) ∧
      (edits.foldl (edit cmp) root).isRed = false ∧
      (edits.foldl (edit cmp) root).height ≤
        2 * Nat.log2 ((edits.foldl (edit cmp) root).entries.length + 1) := by
  obtain ⟨root', h, hroot, hn, asc, hperm⟩ :=
    (fromDictionary_eq cmp small).resolve_left fun ⟨e, he, _⟩ => by
      cases built.symm.trans he
  cases built.symm.trans hroot
  obtain ⟨_, hlength, depth, hb⟩ := ascending_run asc hn edits
  rw [hperm.length_eq] at hlength
  refine ⟨depth, hb.check, fun few => checkMaxDepth_of_balanced hb (by omega),
    hb.isRed_of_black, ?_⟩
  have hheight := hb.height_le
  rw [if_neg (by decide)] at hheight
  have hdepth : depth ≤ Nat.log2 ((edits.foldl (edit cmp) root).entries.length + 1) :=
    (Nat.le_log2 (Nat.succ_ne_zero _)).mpr hb.two_pow_le
  omega

theorem run_check_built : ∃ root depth,
    fromDictionary compare [(2, "b"), (3, "c"), (1, "a")] = .ok root ∧
      ([.insert 4 "d", .remove 2, .insert 5 "e", .remove 1].foldl (edit compare) root).check =
        .ok depth ∧
      ([.insert 4 "d", .remove 2, .insert 5 "e", .remove 1].foldl (edit compare)
        root).checkMaxDepth = .ok true := by
  obtain ⟨root, h, hroot, _⟩ :=
    (fromDictionary_eq (compare : ℕ → ℕ → Ordering)
      (show [(2, "b"), (3, "c"), (1, "a")].length + 1 < 2 ^ 32 by decide)).resolve_left
        fun ⟨_, _, hne⟩ => hne (by decide)
  obtain ⟨depth, hcheck, hdepth, _⟩ := run_check (by decide) hroot
    [.insert 4 "d", .remove 2, .insert 5 "e", .remove 1]
  exact ⟨root, depth, hroot, hcheck, hdepth (by decide)⟩

end FTreeSortedDictionary

end AstroAR
