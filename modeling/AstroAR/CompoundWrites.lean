import AstroAR.WriteTree

/-!
# What a compound write makes known

A compound write stands for the complete snapshots that it knows at the paths.
Adding a write to it is a write to what is known, and removing one forgets what
is known there. Applied to a snapshot, it leaves at each path what it knows
there and does not touch the paths of which it knows nothing.
-/

namespace AstroAR

open SortedEntries Std FNode PathOverlay

universe u v

namespace FImmutableTree
variable {κ : Type u} {β : Type v} [FKey κ] {k : κ} {p q r : List κ} {x : FNode κ β}
  {children : List (κ × FImmutableTree κ (FNode κ β))} {s t : FImmutableTree κ (FNode κ β)}

/-- No value has another one below it, and no branch is empty. -/
inductive Layered : FImmutableTree κ (FNode κ β) → Prop
  | value {x : FNode κ β} (proper : x.Proper) : Layered (.ofValue x)
  | inner {children : List (κ × FImmutableTree κ (FNode κ β))}
    (asc : Ascending FKey.stringComparator children)
    (full : ∀ e ∈ children, e.2.isEmpty = false) (plain : ∀ e ∈ children, e.1 ≠ FKey.priority)
    (layered : ∀ e ∈ children, Layered e.2) : Layered (.node none children)

theorem layered_empty : Layered (.empty : FImmutableTree κ (FNode κ β)) :=
  .inner List.Pairwise.nil (fun _ h => absurd h List.not_mem_nil)
    (fun _ h => absurd h List.not_mem_nil) fun _ h => absurd h List.not_mem_nil

theorem mem_of_get (asc : Ascending FKey.stringComparator children)
    {c : FImmutableTree κ (FNode κ β)} (h : get k children = some c) : (k, c) ∈ children := by
  obtain ⟨e, he, hk, rfl⟩ := (lookup_eq_some asc).mp h
  rw [← LawfulEqCmp.eq_of_compare hk]
  exact he

theorem layered_get (asc : Ascending FKey.stringComparator children)
    (layered : ∀ e ∈ children, Layered e.2) (k : κ) :
    Layered ((get k children).getD .empty) := by
  cases hget : get k children with
  | none => exact layered_empty
  | some c => exact layered _ (mem_of_get asc hget)

/-- A child that is replaced, or removed if nothing of it is left. -/
theorem get_replaced [DecidableEq κ] (asc : Ascending FKey.stringComparator children) (k k' : κ)
    (c : FImmutableTree κ (FNode κ β)) :
    get k' (if c.isEmpty then erase FKey.stringComparator k children
      else upsert FKey.stringComparator (fun _ => k) k c children) =
      if k = k' then (if c.isEmpty then none else some c) else get k' children := by
  have same : FKey.stringComparator k k' = .eq ↔ k = k' := LawfulEqCmp.compare_eq_iff_eq
  unfold get
  cases c.isEmpty with
  | true =>
    simp only [if_true]
    rw [lookup_erase asc]
    simp only [same]
  | false =>
    simp only [Bool.false_eq_true, if_false]
    rw [lookup_upsert asc fun _ _ => ReflCmp.compare_self]
    simp only [same]

theorem mem_replaced {c : FImmutableTree κ (FNode κ β)} {e : κ × FImmutableTree κ (FNode κ β)}
    (he : e ∈ if c.isEmpty then erase FKey.stringComparator k children
      else upsert FKey.stringComparator (fun _ => k) k c children) :
    (e = (k, c) ∧ c.isEmpty = false) ∨ e ∈ children := by
  split at he
  · exact .inr (mem_erase.mp he).1
  · next hfull =>
    rcases mem_upsert.mp he with rfl | he
    · refine .inl ⟨?_, by simpa using hfull⟩
      cases found FKey.stringComparator k children <;> rfl
    · exact .inr (mem_erase.mp he).1

theorem layered_replaced (asc : Ascending FKey.stringComparator children)
    (full : ∀ e ∈ children, e.2.isEmpty = false) (plain : ∀ e ∈ children, e.1 ≠ FKey.priority)
    (layered : ∀ e ∈ children, Layered e.2) (hk : k ≠ FKey.priority)
    {c : FImmutableTree κ (FNode κ β)} (hc : c.Layered) :
    Layered (.node none (if c.isEmpty then erase FKey.stringComparator k children
      else upsert FKey.stringComparator (fun _ => k) k c children)) := by
  refine .inner ?_ (fun e he => ?_) (fun e he => ?_) fun e he => ?_
  · split
    · exact asc.erase
    · exact asc.upsert fun _ _ => ReflCmp.compare_self
  · rcases mem_replaced he with ⟨rfl, hfull⟩ | he
    · exact hfull
    · exact full e he
  · rcases mem_replaced he with ⟨rfl, _⟩ | he
    · exact hk
    · exact plain e he
  · rcases mem_replaced he with ⟨rfl, _⟩ | he
    · exact hc
    · exact layered e he

/-! ### What is known -/

variable [DecidableEq κ]

/-- The complete snapshots of a tree. -/
def known (t : FImmutableTree κ (FNode κ β)) : Overlay κ (FNode κ β) :=
  FCompoundWrite.completeNodeAtPath ⟨t⟩

theorem known_value (x : FNode κ β) (children : List (κ × FImmutableTree κ (FNode κ β)))
    (p : List κ) : known (.node (some x) children) p = some (getChild p x) := by
  cases p <;> rfl

theorem known_nil (children : List (κ × FImmutableTree κ (FNode κ β))) :
    known (.node none children) [] = none := rfl

theorem known_cons (children : List (κ × FImmutableTree κ (FNode κ β))) (k : κ) (p : List κ) :
    known (.node none children) (k :: p) = (get k children).bind fun c => known c p := by
  unfold known FCompoundWrite.completeNodeAtPath
  rw [findRootMostValueAndPath]
  cases hget : get k children with
  | none => rfl
  | some c =>
    rw [Option.bind_some, Option.map_map]
    cases findRootMostValueAndPath p c <;> rfl

theorem known_cons_getD (children : List (κ × FImmutableTree κ (FNode κ β))) (k : κ) (p : List κ) :
    known (.node none children) (k :: p) = known ((get k children).getD .empty) p := by
  rw [known_cons]
  cases get k children with
  | none => cases p <;> rfl
  | some c => rfl

theorem known_empty (p : List κ) : known (.empty : FImmutableTree κ (FNode κ β)) p = none := by
  cases p <;> rfl

theorem Layered.known_of_isEmpty (h : t.Layered) (empty : t.isEmpty = true) (p : List κ) :
    known t p = none := by
  cases h with
  | value => cases empty
  | @inner children =>
    have hnil : children = [] := List.isEmpty_iff.mp empty
    rw [hnil]
    exact known_empty p

/-- A replaced child, seen from what is known. -/
theorem known_replaced (asc : Ascending FKey.stringComparator children) (k k' : κ)
    {c : FImmutableTree κ (FNode κ β)} (hc : c.Layered) (p : List κ) :
    known (.node none (if c.isEmpty then erase FKey.stringComparator k children
      else upsert FKey.stringComparator (fun _ => k) k c children)) (k' :: p) =
      if k = k' then known c p else known (.node none children) (k' :: p) := by
  rw [known_cons, get_replaced asc, known_cons]
  by_cases hk : k = k'
  · rw [if_pos hk, if_pos hk]
    split
    · next hempty => exact (hc.known_of_isEmpty hempty p).symm
    · rfl
  · rw [if_neg hk, if_neg hk]

/-! ### Putting a tree into a tree -/

omit [DecidableEq κ] in
theorem setTree_node (newTree : FImmutableTree κ (FNode κ β)) (k : κ) (q : List κ)
    (x : Option (FNode κ β)) (children : List (κ × FImmutableTree κ (FNode κ β))) :
    setTree newTree (k :: q) (.node x children) = .node x
      (if (setTree newTree q ((get k children).getD .empty)).isEmpty
        then erase FKey.stringComparator k children
        else upsert FKey.stringComparator (fun _ => k) k
          (setTree newTree q ((get k children).getD .empty)) children) := rfl

/-- Where nothing is known above the path, the new tree is well-formed. -/
theorem Layered.setTree (ht : t.Layered) (hs : s.Layered) (plain : Plain q)
    (above : ∀ p, p <+: q → p ≠ q → known t p = none) : (FImmutableTree.setTree s q t).Layered := by
  induction q generalizing t with
  | nil => exact hs
  | cons k q ih =>
    obtain ⟨hk, hq⟩ := plain_cons.mp plain
    cases ht with
    | @value x =>
      have hroot := above [] List.nil_prefix (List.cons_ne_nil _ _).symm
      rw [ofValue, known_value] at hroot
      cases hroot
    | @inner children asc full plain' layered =>
      rw [setTree_node]
      refine layered_replaced asc full plain' layered hk (ih (layered_get asc layered k) hq ?_)
      intro p hp hne
      rw [← known_cons_getD]
      exact above (k :: p) ((List.prefix_cons_inj k).mpr hp) (by simpa using hne)

theorem known_setTree (ht : t.Layered) (hs : s.Layered) (plain : Plain q)
    (above : ∀ p, p <+: q → p ≠ q → known t p = none) (p : List κ) :
    known (FImmutableTree.setTree s q t) p =
      if q <+: p then known s (p.drop q.length) else known t p := by
  induction q generalizing t p with
  | nil => rw [if_pos List.nil_prefix]; rfl
  | cons k q ih =>
    obtain ⟨hk, hq⟩ := plain_cons.mp plain
    cases ht with
    | @value x =>
      have hroot := above [] List.nil_prefix (List.cons_ne_nil _ _).symm
      rw [ofValue, known_value] at hroot
      cases hroot
    | @inner children asc full plain' layered =>
      have hchild := layered_get asc layered k
      have above' : ∀ p, p <+: q → p ≠ q → known ((get k children).getD .empty) p = none := by
        intro p hp hne
        rw [← known_cons_getD]
        exact above (k :: p) ((List.prefix_cons_inj k).mpr hp) (by simpa using hne)
      rw [setTree_node]
      cases p with
      | nil => simp [known_nil]
      | cons k' p =>
        rw [known_replaced asc k k' (hchild.setTree hs hq above'), ih hchild hq above']
        by_cases heq : k = k'
        · subst heq
          rw [if_pos rfl, known_cons_getD]
          simp
        · rw [if_neg heq, if_neg fun h => heq (List.cons_prefix_cons.mp h).1]

/-! ### The value at the shortest path -/

theorem known_eq_none_iff : known t q = none ↔ findRootMostValueAndPath q t = none := by
  unfold known FCompoundWrite.completeNodeAtPath
  exact Option.map_eq_none_iff

theorem known_above_of_none (h : known t q = none) (hp : p <+: q) : known t p = none := by
  induction q generalizing t p with
  | nil =>
    rw [List.prefix_nil.mp hp]
    exact h
  | cons k q ih =>
    obtain ⟨x, children⟩ := t
    cases x with
    | some x =>
      rw [known_value] at h
      cases h
    | none =>
      cases p with
      | nil => rfl
      | cons k' p =>
        obtain ⟨rfl, hp'⟩ := List.cons_prefix_cons.mp hp
        rw [known_cons_getD] at h ⊢
        exact ih h hp'

/-- The value at the shortest part of the path: nothing is known above it. -/
theorem root_spec (ht : t.Layered) (h : findRootMostValueAndPath q t = some (r, x)) :
    r <+: q ∧ x.Proper ∧ (∀ p, p <+: r → p ≠ r → known t p = none) ∧
      ∀ p, known t (r ++ p) = some (getChild p x) := by
  fun_induction findRootMostValueAndPath q t generalizing r with
  | case1 q x' children =>
    cases h
    cases ht with
    | value proper =>
      exact ⟨List.nil_prefix, proper, fun p hp hne => absurd (List.prefix_nil.mp hp) hne,
        known_value x []⟩
  | case2 => cases h
  | case3 k q children c hget ih =>
    obtain ⟨⟨r', x'⟩, hroot, heq⟩ := Option.map_eq_some_iff.mp h
    cases heq
    cases ht with
    | inner asc full plain layered =>
      obtain ⟨hr, proper, above, below⟩ := ih (layered _ (mem_of_get asc hget)) hroot
      refine ⟨(List.prefix_cons_inj k).mpr hr, proper, fun p hp hne => ?_, fun p => ?_⟩
      · cases p with
        | nil => rfl
        | cons k' p =>
          obtain ⟨rfl, hp'⟩ := List.cons_prefix_cons.mp hp
          rw [known_cons, hget]
          exact above p hp' fun h => hne (congrArg _ h)
      · rw [List.cons_append, known_cons, hget]
        exact below p
  | case4 => cases h

/-- The value at the shortest part of a path is replaced. -/
theorem setValue_spec (ht : t.Layered) (plain : Plain q)
    (h : findRootMostValueAndPath q t = some (r, x)) {y : FNode κ β} (hy : y.Proper) :
    (setValue y r t).Layered ∧ ∀ p, known (setValue y r t) p =
      if r <+: p then some (getChild (p.drop r.length) y) else known t p := by
  fun_induction findRootMostValueAndPath q t generalizing r with
  | case1 q x' children =>
    cases h
    cases ht with
    | value proper =>
      refine ⟨.value hy, fun p => ?_⟩
      rw [if_pos List.nil_prefix]
      exact known_value y _ p
  | case2 => cases h
  | case3 k q children c hget ih =>
    obtain ⟨⟨r', x'⟩, hroot, heq⟩ := Option.map_eq_some_iff.mp h
    cases heq
    obtain ⟨hk, hq⟩ := plain_cons.mp plain
    cases ht with
    | inner asc full plain' layered =>
      obtain ⟨hlayered, hknown⟩ := ih (layered _ (mem_of_get asc hget)) hq hroot
      have hfull : (setValue y r' c).isEmpty = false := by
        refine Bool.eq_false_iff.mpr fun hempty => ?_
        have hsome := hknown r'
        rw [hlayered.known_of_isEmpty hempty, if_pos List.prefix_rfl] at hsome
        cases hsome
      have hset : setValue y (k :: r') (.node none children) = .node none
          (if (setValue y r' c).isEmpty then erase FKey.stringComparator k children
            else upsert FKey.stringComparator (fun _ => k) k (setValue y r' c) children) := by
        rw [hfull, setValue]
        simp [FImmutableTree.children, value, hget]
      rw [hset]
      refine ⟨layered_replaced asc full plain' layered hk hlayered, fun p => ?_⟩
      cases p with
      | nil => simp [known_nil]
      | cons k' p =>
        rw [known_replaced asc k k' hlayered]
        by_cases heq : k = k'
        · subst heq
          rw [if_pos rfl, hknown, known_cons, hget]
          simp
        · rw [if_neg heq, if_neg fun h => heq (List.cons_prefix_cons.mp h).1]
  | case4 => cases h

theorem get_cons (k k' : κ) (c : FImmutableTree κ (FNode κ β))
    (rest : List (κ × FImmutableTree κ (FNode κ β))) :
    get k' ((k, c) :: rest) = if k = k' then some c else get k' rest := by
  have same : FKey.stringComparator k k' = .eq ↔ k = k' := LawfulEqCmp.compare_eq_iff_eq
  unfold get lookup found
  rw [List.find?_cons]
  by_cases hk : k = k'
  · rw [if_pos hk, same.mpr hk]
    rfl
  · have hne : (FKey.stringComparator k k' == .eq) = false := by simpa using mt same.mp hk
    rw [if_neg hk, hne]

omit [DecidableEq κ] in
theorem get_eq_none {k : κ} {c : FImmutableTree κ (FNode κ β)}
    {rest : List (κ × FImmutableTree κ (FNode κ β))}
    (asc : Ascending FKey.stringComparator ((k, c) :: rest)) : get k rest = none := by
  unfold get lookup
  rw [found_eq_none.mpr, Option.map_none]
  intro e he heq
  cases (OrientedCmp.eq_symm heq).symm.trans (List.rel_of_pairwise_cons asc he)

theorem exists_known {t : FImmutableTree κ (FNode κ β)} (ht : t.Layered)
    (full : t.isEmpty = false) : ∃ p, Plain p ∧ known t p ≠ none := by
  induction ht with
  | @value x _ =>
    refine ⟨[], List.not_mem_nil, ?_⟩
    rw [ofValue, known_value]
    exact Option.some_ne_none _
  | @inner children _ hfull plain _ ih =>
    cases children with
    | nil => cases full
    | cons c rest =>
      obtain ⟨k, c⟩ := c
      obtain ⟨p, hplain, hp⟩ := ih _ List.mem_cons_self (hfull _ List.mem_cons_self)
      refine ⟨k :: p, plain_cons.mpr ⟨plain _ List.mem_cons_self, hplain⟩, ?_⟩
      rw [known_cons, get_cons, if_pos rfl]
      exact hp

/-! ### All writes of a tree -/

omit [FKey κ] [DecidableEq κ] in
theorem mem_forEachChild {e : List κ × FNode κ β} (h : e ∈ forEachChild children) :
    ∃ c ∈ children, ∃ p, e.1 = c.1 :: p ∧ (p, e.2) ∈ forEach c.2 := by
  induction children with
  | nil => cases h
  | cons c rest ih =>
    obtain ⟨k, c⟩ := c
    rw [forEachChild] at h
    rcases List.mem_append.mp h with h | h
    · obtain ⟨e', he', rfl⟩ := List.mem_map.mp h
      exact ⟨(k, c), List.mem_cons_self, e'.1, rfl, he'⟩
    · obtain ⟨c', hc', hp⟩ := ih h
      exact ⟨c', List.mem_cons_of_mem _ hc', hp⟩

omit [DecidableEq κ] in
theorem Layered.forEach_mem (ht : t.Layered) :
    ∀ e ∈ t.forEach, Plain e.1 ∧ e.2.Proper := by
  induction ht with
  | value proper =>
    intro e he
    cases List.mem_singleton.mp he
    exact ⟨List.not_mem_nil, proper⟩
  | @inner children _ _ plain _ ih =>
    intro e he
    rw [forEach, Option.map_none, Option.toList_none, List.append_nil] at he
    obtain ⟨c, hc, p, hp, hmem⟩ := mem_forEachChild he
    rw [hp, plain_cons]
    exact ⟨⟨plain c hc, (ih c hc _ hmem).1⟩, (ih c hc _ hmem).2⟩

omit [DecidableEq κ] in
theorem forEachChild_apart (asc : Ascending FKey.stringComparator children)
    (h : ∀ c ∈ children, c.2.forEach.Pairwise fun a b => Apart a.1 b.1) :
    (forEachChild children).Pairwise fun a b => Apart a.1 b.1 := by
  induction children with
  | nil => exact List.Pairwise.nil
  | cons c rest ih =>
    obtain ⟨k, c⟩ := c
    obtain ⟨hk, ascrest⟩ := List.pairwise_cons.mp asc
    rw [forEachChild]
    refine List.pairwise_append.mpr ⟨?_, ?_, ?_⟩
    · refine List.pairwise_map.mpr ((h _ List.mem_cons_self).imp fun hab => ?_)
      simpa [Apart] using hab
    · exact ih ascrest fun c hc => h c (List.mem_cons_of_mem _ hc)
    · intro a ha b hb
      obtain ⟨a', _, rfl⟩ := List.mem_map.mp ha
      obtain ⟨c', hc', p, hp, _⟩ := mem_forEachChild hb
      have hne : k ≠ c'.1 := by
        rintro rfl
        cases (hk c' hc').symm.trans ReflCmp.compare_self
      rw [hp]
      exact apart_cons hne

omit [DecidableEq κ] in
/-- None of the writes is at the path of another one or below it. -/
theorem Layered.forEach_apart (ht : t.Layered) :
    t.forEach.Pairwise fun a b => Apart a.1 b.1 := by
  induction ht with
  | value => exact List.pairwise_singleton _ _
  | inner asc _ _ _ ih =>
    rw [forEach, Option.map_none, Option.toList_none, List.append_nil]
    exact forEachChild_apart asc ih

theorem writes_forEachChild (asc : Ascending FKey.stringComparator children) {k : κ} {p : List κ}
    (h : ∀ c ∈ children, known c.2 p = writes getChild updateChild unknown c.2.forEach p) :
    known (.node none children) (k :: p) =
      writes getChild updateChild unknown (forEachChild children) (k :: p) := by
  induction children with
  | nil => exact known_empty _
  | cons c rest ih =>
    obtain ⟨k', c⟩ := c
    obtain ⟨hc, hrest⟩ := List.forall_mem_cons.mp h
    rw [known_cons, get_cons, forEachChild, writes_append]
    by_cases heq : k' = k
    · subst heq
      -- the other children write elsewhere
      have others : ∀ e ∈ forEachChild rest, Apart e.1 (k' :: p) := by
        intro e he
        obtain ⟨c', hc', q, hq, _⟩ := mem_forEachChild he
        have hne : c'.1 ≠ k' := by
          rintro rfl
          cases (List.rel_of_pairwise_cons asc hc').symm.trans ReflCmp.compare_self
        rw [hq]
        exact apart_cons hne
      rw [if_pos rfl, writes_apart others, Option.bind_some, hc]
      have hbelow : writes getChild updateChild unknown
          (c.forEach.map fun e => ([k'] ++ e.1, e.2)) ([k'] ++ p) =
            writes getChild updateChild unknown c.forEach p := writes_below [k'] p
      exact hbelow.symm
    · have first : ∀ e ∈ (forEach c).map fun e => (k' :: e.1, e.2), Apart e.1 (k :: p) := by
        intro e he
        obtain ⟨e', _, rfl⟩ := List.mem_map.mp he
        exact apart_cons heq
      rw [if_neg heq, ← known_cons, ih asc.tail hrest]
      exact (writes_congr (writes_apart first) _).symm

/-- A tree knows what its writes make known. -/
theorem Layered.known_eq_writes (ht : t.Layered) (p : List κ) :
    known t p = writes getChild updateChild unknown t.forEach p := by
  induction ht generalizing p with
  | @value x _ => exact known_value x [] p
  | @inner children asc _ _ _ ih =>
    rw [forEach, Option.map_none, Option.toList_none, List.append_nil]
    cases p with
    | nil =>
      refine (writes_eq_none (fun e he h => ?_) rfl).symm
      obtain ⟨_, _, q, hq, _⟩ := mem_forEachChild he
      cases hq.symm.trans (List.prefix_nil.mp h)
    | cons k p => exact writes_forEachChild asc fun c hc => ih c hc p

end FImmutableTree

namespace FCompoundWrite
open FImmutableTree
variable {κ : Type u} {β : Type v} [FKey κ] [DecidableEq κ] {w m : FCompoundWrite κ β}
  {node : FNode κ β} {p q b : List κ}

/-- To add a write is to write to what is known. -/
theorem addWrite_spec (hw : w.writeTree.Layered) (hnode : node.Proper) (plain : Plain q) :
    (w.addWrite node q).writeTree.Layered ∧ ∀ p, Plain p →
      known (w.addWrite node q).writeTree p =
        write getChild updateChild (known w.writeTree) (q, node) p := by
  unfold addWrite
  split
  · next hq =>
    subst hq
    refine ⟨.value hnode, fun p _ => ?_⟩
    rw [write_at_or_below List.nil_prefix]
    exact known_value node [] p
  · cases hroot : findRootMostValueAndPath q w.writeTree with
    | none =>
      have hq := known_eq_none_iff.mpr hroot
      have above : ∀ p, p <+: q → p ≠ q → known w.writeTree p = none :=
        fun p hp _ => known_above_of_none hq hp
      refine ⟨hw.setTree (.value hnode) plain above, fun p _ => ?_⟩
      refine (known_setTree hw (.value hnode) plain above p).trans ?_
      unfold write
      split
      · exact known_value node [] _
      · split
        · next hp => rw [known_above_of_none hq hp]; rfl
        · rfl
    | some e =>
      obtain ⟨r, x⟩ := e
      obtain ⟨⟨rest, rfl⟩, hx, above, below⟩ := root_spec hw hroot
      obtain ⟨hr, hrest⟩ := plain_append.mp plain
      have hdrop : FPath.relativePathFrom r (r ++ rest) = rest := List.drop_left
      simp only [hdrop]
      obtain ⟨hlayered, hknown⟩ := setValue_spec hw plain hroot (hx.updateChild hnode hrest)
      refine ⟨hlayered, fun p hp => (hknown p).trans ?_⟩
      by_cases hrp : r <+: p
      · obtain ⟨p, rfl⟩ := hrp
        rw [if_pos (List.prefix_append _ _), List.drop_left, write]
        simp only [List.prefix_append_right_inj, below]
        obtain ⟨_, hp⟩ := plain_append.mp hp
        split
        · next h =>
          obtain ⟨p, rfl⟩ := h
          rw [getChild_updateChild_append hx hnode hrest, ← List.append_assoc, List.drop_left]
        · next h =>
          split
          · next h' =>
            obtain ⟨rest, rfl⟩ := h'
            rw [Option.map_some, getChild_updateChild_prefix hx hnode hrest, ← List.append_assoc,
              List.drop_left]
          · next h' => rw [getChild_updateChild_apart hx hnode hrest hp h h']
      · rw [if_neg hrp]
        have hqp : ¬ r ++ rest <+: p := fun h => hrp ((List.prefix_append _ _).trans h)
        by_cases hpq : p <+: r ++ rest
        · have hpr : p <+: r := (List.prefix_or_prefix_of_prefix hpq
            (List.prefix_append _ _)).resolve_right hrp
          have hnone := above p hpr fun heq => hrp (heq ▸ List.prefix_rfl)
          rw [write_eq_none hqp hnone, hnone]
        · exact (write_apart ⟨hqp, hpq⟩).symm

/-- The writes of a compound write at a path. -/
def writesAt (m : FCompoundWrite κ β) (b : List κ) : List (List κ × FNode κ β) :=
  m.writeTree.forEach.map fun e => (b ++ e.1, e.2)

theorem addWrites_spec (hw : w.writeTree.Layered) {l : List (List κ × FNode κ β)}
    (hl : ∀ e ∈ l, Plain e.1 ∧ e.2.Proper) :
    (l.foldl (fun w e => w.addWrite e.2 e.1) w).writeTree.Layered ∧ ∀ p, Plain p →
      known (l.foldl (fun w e => w.addWrite e.2 e.1) w).writeTree p =
        writes getChild updateChild (known w.writeTree) l p := by
  induction l generalizing w with
  | nil => exact ⟨hw, fun _ _ => rfl⟩
  | cons e l ih =>
    obtain ⟨⟨plain, proper⟩, hl⟩ := List.forall_mem_cons.mp hl
    obtain ⟨hlayered, hknown⟩ := addWrite_spec hw proper plain
    obtain ⟨hlayered', hknown'⟩ := ih hlayered hl
    exact ⟨hlayered', fun p hp => (hknown' p hp).trans (writes_congr (hknown p hp) l)⟩

theorem addCompoundWrite_eq (w m : FCompoundWrite κ β) (b : List κ) :
    w.addCompoundWrite m b = (m.writesAt b).foldl (fun w e => w.addWrite e.2 e.1) w := by
  unfold addCompoundWrite writesAt
  rw [List.foldl_map]

omit [DecidableEq κ] in
theorem writesAt_mem (hm : m.writeTree.Layered) (plain : Plain b) :
    ∀ e ∈ m.writesAt b, Plain e.1 ∧ e.2.Proper := by
  intro e he
  obtain ⟨e', he', rfl⟩ := List.mem_map.mp he
  exact ⟨plain_append.mpr ⟨plain, (hm.forEach_mem e' he').1⟩, (hm.forEach_mem e' he').2⟩

/-- To remove a write is to forget what is known at its path and below. -/
theorem removeWriteAtPath_spec (hw : w.writeTree.Layered) (plain : Plain q)
    (above : ∀ p, p <+: q → p ≠ q → known w.writeTree p = none) :
    (w.removeWriteAtPath q).writeTree.Layered ∧ ∀ p,
      known (w.removeWriteAtPath q).writeTree p =
        if q <+: p then none else known w.writeTree p := by
  unfold removeWriteAtPath
  split
  · next hq =>
    subst hq
    refine ⟨layered_empty, fun p => ?_⟩
    rw [if_pos List.nil_prefix]
    exact known_empty p
  · refine ⟨hw.setTree layered_empty plain above, fun p => ?_⟩
    rw [← known_empty (p.drop q.length)]
    exact known_setTree hw layered_empty plain above p

/-! ### The part below a path -/

/-- Below what is known, its parts are known. -/
theorem known_append {t : FImmutableTree κ (FNode κ β)} (ht : t.Layered) (plain : Plain q)
    {x : FNode κ β} (h : known t q = some x) :
    x.Proper ∧ ∀ p, known t (q ++ p) = some (getChild p x) := by
  obtain ⟨⟨r, y⟩, hroot, _⟩ := Option.map_eq_some_iff.mp h
  obtain ⟨⟨rest, rfl⟩, hy, _, below⟩ := root_spec ht hroot
  obtain ⟨_, hrest⟩ := plain_append.mp plain
  cases (below rest).symm.trans h
  refine ⟨hy.getChild hrest, fun p => ?_⟩
  rw [List.append_assoc, below, getChild_append hrest]

/-- A snapshot after writes below `r` were applied to it. -/
structure Applied (r : List κ) (overlay : Overlay κ (FNode κ β)) (n n' : FNode κ β) : Prop where
  proper : n'.Proper
  apart : ∀ p, Plain p → ¬ r <+: p → ¬ p <+: r → getChild p n' = getChild p n
  written : ∀ p x, Plain p → overlay p = some x → getChild (r ++ p) n' = x
  untouched : ∀ p, Plain p → (∀ q, Plain q → overlay (p ++ q) = none) →
    getChild (r ++ p) n' = getChild (r ++ p) n

/-- The children after the first one know nothing of its key. -/
theorem known_rest {k : κ} {c : FImmutableTree κ (FNode κ β)}
    {rest : List (κ × FImmutableTree κ (FNode κ β))}
    (asc : Ascending FKey.stringComparator ((k, c) :: rest)) (p : List κ) :
    known (.node none rest) (k :: p) = none := by
  rw [known_cons, get_eq_none asc]
  rfl

/-- The first child, and then the others. -/
theorem Applied.cons {r : List κ} {k : κ} {c : FImmutableTree κ (FNode κ β)}
    {rest : List (κ × FImmutableTree κ (FNode κ β))} {n n' n'' : FNode κ β}
    (asc : Ascending FKey.stringComparator ((k, c) :: rest)) (hc : c.Layered)
    (full : c.isEmpty = false) (hk : k ≠ FKey.priority) (plain : Plain r)
    (first : Applied (r ++ [k]) (known c) n n')
    (others : Applied r (known (.node none rest)) n' n'') :
    Applied r (known (.node none ((k, c) :: rest))) n n'' where
  proper := others.proper
  apart := by
    intro p hp hrp hpr
    rw [others.apart p hp hrp hpr]
    refine first.apart p hp (fun h => hrp ((List.prefix_append _ _).trans h)) fun h => ?_
    rcases List.prefix_concat_iff.mp h with rfl | h
    · exact hrp (List.prefix_append _ _)
    · exact hpr h
  written := by
    intro p x hp hx
    cases p with
    | nil => cases hx
    | cons k' p =>
      rw [known_cons, get_cons] at hx
      by_cases heq : k = k'
      · subst heq
        rw [if_pos rfl] at hx
        rw [others.untouched _ hp fun q _ => known_rest asc (p ++ q)]
        have hfirst := first.written p x (plain_cons.mp hp).2 hx
        rwa [List.append_assoc] at hfirst
      · rw [if_neg heq, ← known_cons] at hx
        exact others.written _ x hp hx
  untouched := by
    intro p hp hnone
    cases p with
    | nil =>
      obtain ⟨q, hplain, hq⟩ := exists_known hc full
      refine absurd ?_ hq
      have hkq := hnone (k :: q) (plain_cons.mpr ⟨hk, hplain⟩)
      rw [List.nil_append, known_cons, get_cons, if_pos rfl] at hkq
      exact hkq
    | cons k' p =>
      by_cases heq : k = k'
      · subst heq
        have hfirst := first.untouched p (plain_cons.mp hp).2 fun q hq => by
          have hkq := hnone q hq
          rw [List.cons_append, known_cons, get_cons, if_pos rfl] at hkq
          exact hkq
        rw [List.append_assoc] at hfirst
        rw [others.untouched _ hp fun q _ => known_rest asc (p ++ q)]
        exact hfirst
      · have hrest : ∀ q, Plain q → known (.node none rest) (k' :: p ++ q) = none := by
          intro q hq
          have hkq := hnone q hq
          rw [List.cons_append, known_cons, get_cons, if_neg heq] at hkq
          rw [List.cons_append, known_cons]
          exact hkq
        rw [others.untouched _ hp hrest]
        refine first.apart _ (plain_append.mpr ⟨plain, hp⟩) (fun h => heq ?_) fun h => heq ?_
        · exact (List.cons_prefix_cons.mp ((List.prefix_append_right_inj r).mp h)).1
        · exact (List.cons_prefix_cons.mp ((List.prefix_append_right_inj r).mp h)).1.symm

theorem Applied.refl {r : List κ} {n : FNode κ β} (hn : n.Proper) :
    Applied r (known (.node none [])) n n where
  proper := hn
  apart := fun _ _ _ _ => rfl
  written := fun p x _ h => by cases (known_empty p).symm.trans h
  untouched := fun _ _ _ => rfl

end FCompoundWrite

end AstroAR
