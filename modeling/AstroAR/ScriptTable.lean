import AstroAR.LastWrite

/-!
# The script table of the app

`ScriptVC` reads the published scripts from the database into a dictionary from
tokens to texts, which it never clears, and shows one row for each token. The
three data-source methods each ask the dictionary for its keys again; the
dictionary may give them in any order, but in the same one as long as it does
not change.
-/

namespace AstroAR

open LastWrite

universe u

/-- A value in the database, as far as the app tells them apart. -/
inductive DatabaseValue where
  | string (s : String)
  | dictionary (entries : List (String × DatabaseValue))
  | other

namespace DatabaseValue

def asString : DatabaseValue → Option String
  | .string s => some s
  | _ => none

/-- The cast `as? Dictionary<String, String>`. -/
def asStringDictionary : DatabaseValue → Option (List (String × String))
  | .dictionary entries => entries.mapM fun entry => entry.2.asString.map fun s => (entry.1, s)
  | _ => none

theorem asString_eq_some {value : DatabaseValue} {s : String} :
    value.asString = some s ↔ value = .string s := by
  cases value <;> simp [asString]

/-- The cast succeeds on the dictionaries that map keys to strings. -/
theorem asStringDictionary_eq_some {value : DatabaseValue} {data : List (String × String)} :
    value.asStringDictionary = some data ↔
      value = .dictionary (data.map fun entry => (entry.1, .string entry.2)) := by
  cases value with
  | dictionary entries =>
    rw [dictionary.injEq]
    simp only [asStringDictionary]
    induction entries generalizing data with
    | nil => cases data <;> simp
    | cons entry entries ih =>
      cases data with
      | nil => simp [List.mapM_cons, Option.bind_eq_some_iff]
      | cons first rest =>
        simp [List.mapM_cons, Option.bind_eq_some_iff, ih, asString_eq_some, Prod.ext_iff,
          and_assoc, and_left_comm]
  | _ => simp [asStringDictionary]

/-- The record of a published script. -/
def record (token value : String) : DatabaseValue :=
  .dictionary [("token", .string token), ("value", .string value)]

end DatabaseValue

/-- One child of a snapshot. The database lists them in the order of their keys. -/
structure DataSnapshot (κ : Type u) where
  key : κ
  value : DatabaseValue

/-- A `String` stands for the strings that are canonically equivalent to it, which Swift takes
for the same key. -/
@[ext] structure ScriptVC where
  scripts : Finmap fun _ : String => String

/-- An order in which the dictionary can give its keys. -/
structure KeyOrder (scripts : Finmap fun _ : String => String) where
  keys : List String
  nodup : keys.Nodup
  mem_keys : ∀ token, token ∈ keys ↔ token ∈ scripts

namespace ScriptVC
variable {κ : Type u}

def init : ScriptVC := ⟨∅⟩

def requestScriptsFromDatabase (vc : ScriptVC) (children : List (DataSnapshot κ)) : ScriptVC :=
  { vc with
    scripts := children.foldl (fun scripts child =>
      match child.value.asStringDictionary with
      | some data =>
        match data.lookup "token", data.lookup "value" with
        | some token, some value => scripts.insert token value
        | _, _ => scripts
      | none => scripts) vc.scripts }

def numberOfRowsInSection (vc : ScriptVC) : ℕ := vc.scripts.keys.card

/-- The text of the cell in a row. `none` is the trap of an index out of range. -/
def cellForRowAt {vc : ScriptVC} (order : KeyOrder vc.scripts) (row : ℕ) : Option String :=
  order.keys[row]?

/-- What selecting a row gives to `MainVC.scriptToExecute`. -/
def didSelectRowAt {vc : ScriptVC} (order : KeyOrder vc.scripts) (row : ℕ) :
    Option (Option String) :=
  order.keys[row]?.map fun key => vc.scripts.lookup key

/-- The token and the text of a well-formed record. -/
def scriptOf (child : DataSnapshot κ) : Option (String × String) :=
  match child.value.asStringDictionary with
  | some data =>
    match data.lookup "token", data.lookup "value" with
    | some token, some value => some (token, value)
    | _, _ => none
  | none => none

/-- A well-formed record is a dictionary of strings with a token and a text among its entries. -/
theorem scriptOf_eq_some {child : DataSnapshot κ} {token value : String} :
    scriptOf child = some (token, value) ↔ ∃ data : List (String × String),
      child.value = .dictionary (data.map fun entry => (entry.1, .string entry.2)) ∧
      data.lookup "token" = some token ∧ data.lookup "value" = some value := by
  simp only [← DatabaseValue.asStringDictionary_eq_some, scriptOf]
  cases child.value.asStringDictionary with
  | none => simp
  | some data =>
    simp only [Option.some.injEq, exists_eq_left']
    cases data.lookup "token" <;> cases data.lookup "value" <;> simp

theorem request_scripts (vc : ScriptVC) (children : List (DataSnapshot κ)) :
    (vc.requestScriptsFromDatabase children).scripts = putAll scriptOf vc.scripts children := by
  simp only [requestScriptsFromDatabase, putAll]
  congr 1
  funext scripts child
  unfold put scriptOf
  split
  · split <;> rfl
  · rfl

/-- The token in some row is that of exactly one row, every row shows the token of a script, and
selecting a row hands over the script of the token in it. -/
def RowsAgree (vc : ScriptVC) (order : KeyOrder vc.scripts) : Prop :=
  (∀ row < vc.numberOfRowsInSection, ∃ token value, cellForRowAt order row = some token ∧
    vc.scripts.lookup token = some value ∧ didSelectRowAt order row = some (some value)) ∧
  ∀ token ∈ vc.scripts, ∃! row, row < vc.numberOfRowsInSection ∧
    cellForRowAt order row = some token

theorem length_keys {vc : ScriptVC} (order : KeyOrder vc.scripts) :
    order.keys.length = vc.numberOfRowsInSection := by
  have heq : order.keys.toFinset = vc.scripts.keys := by
    ext token
    rw [List.mem_toFinset, order.mem_keys, Finmap.mem_keys]
  rw [numberOfRowsInSection, ← heq, List.toFinset_card_of_nodup order.nodup]

theorem lt_of_cellForRowAt {vc : ScriptVC} {order : KeyOrder vc.scripts} {row : ℕ}
    {token : String} (h : cellForRowAt order row = some token) :
    row < vc.numberOfRowsInSection := by
  rw [← length_keys order]
  exact (List.getElem?_eq_some_iff.mp h).1

theorem didSelectRowAt_of_cell {vc : ScriptVC} {order : KeyOrder vc.scripts} {row : ℕ}
    {token : String} (h : cellForRowAt order row = some token) :
    didSelectRowAt order row = some (vc.scripts.lookup token) := by
  rw [cellForRowAt] at h
  rw [didSelectRowAt, h, Option.map_some]

theorem rowsAgree (vc : ScriptVC) (order : KeyOrder vc.scripts) : vc.RowsAgree order := by
  constructor
  · intro row hrow
    rw [← length_keys order] at hrow
    have hmem := (order.mem_keys _).mp (List.getElem_mem hrow)
    obtain ⟨value, hvalue⟩ := Finmap.mem_iff.mp hmem
    have hcell : cellForRowAt order row = some order.keys[row] := List.getElem?_eq_getElem hrow
    exact ⟨_, value, hcell, hvalue, by rw [didSelectRowAt_of_cell hcell, hvalue]⟩
  · intro token htoken
    obtain ⟨row, hrow, hget⟩ := List.getElem_of_mem ((order.mem_keys token).mpr htoken)
    refine ⟨row, ⟨by rwa [← length_keys order], ?_⟩, ?_⟩
    · rw [cellForRowAt, List.getElem?_eq_getElem hrow, hget]
    · rintro row' ⟨_, hrow'⟩
      obtain ⟨hlt, hget'⟩ := List.getElem?_eq_some_iff.mp hrow'
      exact (List.Nodup.getElem_inj_iff order.nodup).mp (hget'.trans hget.symm)

/-- A table that has received records that are all in the snapshot equals, once it has received
the snapshot, the one built from the snapshot alone. -/
theorem refresh_of_subset {earlier latest : List (DataSnapshot κ)} {vc : ScriptVC}
    (hvc : vc.scripts = putAll scriptOf ∅ earlier) (sub : earlier ⊆ latest) :
    vc.requestScriptsFromDatabase latest = init.requestScriptsFromDatabase latest := by
  apply ScriptVC.ext
  rw [request_scripts, request_scripts, hvc, putAll_putAll_of_subset sub]
  rfl

/-- The view controller after a sequence of refreshes. -/
def receive (snapshots : List (List (DataSnapshot κ))) : ScriptVC :=
  snapshots.foldl requestScriptsFromDatabase init

/-- After any sequence of snapshots that only grow, the table holds records of the last one. -/
theorem receive_append {snapshots : List (List (DataSnapshot κ))}
    {latest : List (DataSnapshot κ)} (grows : (snapshots ++ [latest]).IsChain List.Sublist) :
    receive (snapshots ++ [latest]) = init.requestScriptsFromDatabase latest := by
  induction snapshots using List.reverseRecOn generalizing latest with
  | nil => rfl
  | append_singleton snapshots earlier ih =>
    rw [List.isChain_append] at grows
    obtain ⟨before, _, last⟩ := grows
    have sub : earlier.Sublist latest := last earlier (by simp) latest (by simp)
    have hearlier : (receive (snapshots ++ [earlier])).scripts = putAll scriptOf ∅ earlier := by
      rw [ih before, request_scripts]
      rfl
    rw [receive, List.foldl_append]
    exact refresh_of_subset hearlier sub.subset

/-- After each of a sequence of snapshots that only grow, the table is the one built from that
snapshot alone, which maps a token to the value of its last well-formed record; and in whatever
order the dictionary gives its keys, the rows agree with it. -/
theorem refresh_rebuilds (snapshots : List (List (DataSnapshot κ)))
    (latest : List (DataSnapshot κ)) (grows : (snapshots ++ [latest]).IsChain List.Sublist) :
    receive (snapshots ++ [latest]) = init.requestScriptsFromDatabase latest ∧
    (∀ token value, (receive (snapshots ++ [latest])).scripts.lookup token = some value ↔
      ∃ before child after, latest = before ++ child :: after ∧
        scriptOf child = some (token, value) ∧
        ∀ later ∈ after, ∀ value', scriptOf later ≠ some (token, value')) ∧
    ∀ order : KeyOrder (receive (snapshots ++ [latest])).scripts,
      (receive (snapshots ++ [latest])).RowsAgree order := by
  have hvc := receive_append grows
  refine ⟨hvc, fun token value => ?_, fun order => rowsAgree _ order⟩
  rw [hvc, request_scripts, lookup_putAll, ← lastWrite_eq_some]
  simp [init]

/-- A record for a token that is in the table already comes in before the one that wins,
together with malformed ones. -/
theorem refresh_rebuilds_duplicate : ∃ vc : ScriptVC,
    vc = receive [[⟨1, .record "00ff" "a"⟩, ⟨5, .record "00ff" "b"⟩],
      [⟨1, .record "00ff" "a"⟩, ⟨2, .string "x"⟩, ⟨3, .record "00ff" "c"⟩,
        ⟨4, .dictionary [("token", .string "1234")]⟩, ⟨5, .record "00ff" "b"⟩]] ∧
    vc = init.requestScriptsFromDatabase
      [⟨1, .record "00ff" "a"⟩, ⟨2, .string "x"⟩, ⟨3, .record "00ff" "c"⟩,
        ⟨4, .dictionary [("token", .string "1234")]⟩, ⟨5, .record "00ff" "b"⟩] ∧
    vc.scripts.lookup "00ff" = some "b" ∧ vc.scripts.lookup "1234" = none := by
  obtain ⟨rebuilt, holds, _⟩ := refresh_rebuilds
    [[⟨1, .record "00ff" "a"⟩, ⟨5, .record "00ff" "b"⟩]]
    [⟨1, .record "00ff" "a"⟩, ⟨2, .string "x"⟩, ⟨3, .record "00ff" "c"⟩,
      ⟨4, .dictionary [("token", .string "1234")]⟩, ⟨5, .record "00ff" "b"⟩] (by
    simp only [List.singleton_append, List.isChain_cons_cons, List.isChain_singleton, and_true]
    exact (((List.Sublist.refl _).cons _).cons _).cons _ |>.cons_cons _)
  refine ⟨_, rfl, rebuilt, (holds "00ff" "b").mpr ⟨[_, _, _, _], _, [], rfl, rfl, by simp⟩, ?_⟩
  refine Option.eq_none_iff_forall_ne_some.mpr fun value hvalue => ?_
  -- the one record that names this token has no text
  obtain ⟨before, child, after, hlatest, hchild, _⟩ := (holds "1234" value).mp hvalue
  have named : ∀ c ∈ before ++ child :: after, (scriptOf c).map Prod.fst ≠ some "1234" := by
    rw [← hlatest]
    decide
  exact named child (by simp) (by rw [hchild]; rfl)

end ScriptVC

end AstroAR
