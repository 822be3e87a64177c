import Mathlib.Data.Finmap

/-!
# Tables filled by a log of writes

Each entry of a log writes one key or nothing. A table that receives the log in
order keeps for every key the value of the last entry that writes it, so a log
that was received before, even in part, makes no difference.
-/

universe u v w

namespace LastWrite

variable {α : Type u} {κ : Type v} {ν : Type w} [DecidableEq κ]

/-- Receive one entry of the log. -/
def put (write : α → Option (κ × ν)) (table : Finmap fun _ : κ => ν) (a : α) :
    Finmap fun _ : κ => ν :=
  match write a with
  | some (k, x) => table.insert k x
  | none => table

def putAll (write : α → Option (κ × ν)) (table : Finmap fun _ : κ => ν) (log : List α) :
    Finmap fun _ : κ => ν :=
  log.foldl (put write) table

/-- What an entry writes to the key `k`. -/
def writeTo (write : α → Option (κ × ν)) (k : κ) (a : α) : Option ν :=
  (write a).bind fun kx => if kx.1 = k then some kx.2 else none

def lastWrite (write : α → Option (κ × ν)) (k : κ) (log : List α) : Option ν :=
  log.reverse.findSome? (writeTo write k)

variable {write : α → Option (κ × ν)} {table : Finmap fun _ : κ => ν} {log log' : List α} {k : κ}
  {x : ν} {a : α}

theorem writeTo_eq_some : writeTo write k a = some x ↔ write a = some (k, x) := by
  unfold writeTo
  rw [Option.bind_eq_some_iff]
  constructor
  · rintro ⟨⟨k', x'⟩, hw, hx⟩
    split_ifs at hx with hk
    cases hx
    exact hk ▸ hw
  · exact fun hw => ⟨(k, x), hw, if_pos rfl⟩

theorem lookup_put :
    (put write table a).lookup k = (writeTo write k a).or (table.lookup k) := by
  unfold put writeTo
  cases write a with
  | none => rfl
  | some kx =>
    by_cases hk : kx.1 = k
    · subst hk
      simp
    · simp [hk, Finmap.lookup_insert_of_ne _ (Ne.symm hk)]

theorem lastWrite_concat :
    lastWrite write k (log ++ [a]) = (writeTo write k a).or (lastWrite write k log) := by
  unfold lastWrite
  rw [List.reverse_append, List.reverse_singleton, List.singleton_append, List.findSome?_cons]
  cases writeTo write k a <;> rfl

/-- A table that has received a log answers with its last write, or else as before. -/
theorem lookup_putAll :
    (putAll write table log).lookup k = (lastWrite write k log).or (table.lookup k) := by
  induction log using List.reverseRecOn with
  | nil => rfl
  | append_singleton log a ih =>
    have hput : putAll write table (log ++ [a]) = put write (putAll write table log) a := by
      simp [putAll]
    rw [hput, lookup_put, ih, lastWrite_concat, Option.or_assoc]

theorem lastWrite_eq_none :
    lastWrite write k log = none ↔ ∀ a ∈ log, ∀ x, write a ≠ some (k, x) := by
  unfold lastWrite
  rw [List.findSome?_eq_none_iff]
  constructor
  · intro h a ha x hw
    have hnone := h a (List.mem_reverse.mpr ha)
    rw [writeTo_eq_some.mpr hw] at hnone
    cases hnone
  · intro h a ha
    refine Option.eq_none_iff_forall_ne_some.mpr fun x hx => ?_
    exact h a (List.mem_reverse.mp ha) x (writeTo_eq_some.mp hx)

/-- The last write is that of an entry which writes the key and which no later entry follows
that does. -/
theorem lastWrite_eq_some : lastWrite write k log = some x ↔
    ∃ before a after, log = before ++ a :: after ∧ write a = some (k, x) ∧
      ∀ b ∈ after, ∀ y, write b ≠ some (k, y) := by
  unfold lastWrite
  rw [List.findSome?_eq_some_iff]
  constructor
  · rintro ⟨after, a, before, hlog, hw, hnone⟩
    refine ⟨before.reverse, a, after.reverse, ?_, writeTo_eq_some.mp hw, fun b hb y hy => ?_⟩
    · rw [← List.reverse_reverse log, hlog]
      simp
    · have hb := hnone b (List.mem_reverse.mp hb)
      rw [writeTo_eq_some.mpr hy] at hb
      cases hb
  · rintro ⟨before, a, after, rfl, hw, hnone⟩
    refine ⟨after.reverse, a, before.reverse, by simp, writeTo_eq_some.mpr hw, fun b hb => ?_⟩
    refine Option.eq_none_iff_forall_ne_some.mpr fun y hy => ?_
    exact hnone b (List.mem_reverse.mp hb) y (writeTo_eq_some.mp hy)

theorem lastWrite_mem (h : lastWrite write k log = some x) :
    ∃ a ∈ log, write a = some (k, x) := by
  obtain ⟨before, a, after, rfl, hw, _⟩ := lastWrite_eq_some.mp h
  exact ⟨a, by simp, hw⟩

/-- Having received part of a log before does not show once the log itself is received. -/
theorem putAll_putAll_of_subset (sub : log ⊆ log') :
    putAll write (putAll write table log) log' = putAll write table log' := by
  refine Finmap.ext_lookup fun k => ?_
  rw [lookup_putAll, lookup_putAll, lookup_putAll]
  cases hlast : lastWrite write k log' with
  | some x => rfl
  | none =>
    have hold : lastWrite write k log = none :=
      lastWrite_eq_none.mpr fun a ha => lastWrite_eq_none.mp hlast a (sub ha)
    rw [hold]
    rfl

end LastWrite
