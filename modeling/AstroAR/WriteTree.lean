import AstroAR.PathOverlay
import AstroAR.SnapshotNodes
import Mathlib.Data.Int.Notation

/-!
# The pending writes of the database client

A client shows its own writes before the server has acknowledged them.
`FWriteTree` keeps all pending writes and, in `visibleWrites`, one tree into
which they have been put: a value at a path is a complete snapshot there. A write
that has been acknowledged is taken out of the tree again or, where that would
not do, the tree is made anew from the others.
-/

namespace AstroAR

open SortedEntries Std FNode

universe u v w

/-! ### Trees of values -/

/-- The children are the entries of a sorted dictionary. -/
inductive FImmutableTree (κ : Type u) (ν : Type v) where
  | node (value : Option ν) (children : List (κ × FImmutableTree κ ν))

namespace FImmutableTree
variable {κ : Type u} {ν : Type v}

def empty : FImmutableTree κ ν := node none []

def ofValue (value : ν) : FImmutableTree κ ν := node (some value) []

def value : FImmutableTree κ ν → Option ν
  | node value _ => value

def children : FImmutableTree κ ν → List (κ × FImmutableTree κ ν)
  | node _ children => children

def isEmpty (t : FImmutableTree κ ν) : Bool := t.value.isNone && t.children.isEmpty

mutual
/-- What `forEach:` gives to its block, in that order. -/
def forEach : FImmutableTree κ ν → List (List κ × ν)
  | node value children => forEachChild children ++ (value.map fun x => ([], x)).toList
def forEachChild : List (κ × FImmutableTree κ ν) → List (List κ × ν)
  | [] => []
  | (childKey, childTree) :: rest =>
    (forEach childTree).map (fun e => (childKey :: e.1, e.2)) ++ forEachChild rest
end

variable [FKey κ]

def get (front : κ) (children : List (κ × FImmutableTree κ ν)) : Option (FImmutableTree κ ν) :=
  lookup FKey.stringComparator front children

/-- The shortest part of the path at which there is a value, and the value. -/
def findRootMostValueAndPath : List κ → FImmutableTree κ ν → Option (List κ × ν)
  | _, node (some x) _ => some ([], x)
  | [], node none _ => none
  | front :: rest, node none children =>
    match get front children with
    | some child => (findRootMostValueAndPath rest child).map fun e => (front :: e.1, e.2)
    | none => none

def setValue (newValue : ν) : List κ → FImmutableTree κ ν → FImmutableTree κ ν
  | [], t => node (some newValue) t.children
  | front :: rest, t =>
    let newChild := setValue newValue rest ((get front t.children).getD empty)
    node t.value (upsert FKey.stringComparator (fun _ => front) front newChild t.children)

def setTree (newTree : FImmutableTree κ ν) : List κ → FImmutableTree κ ν → FImmutableTree κ ν
  | [], _ => newTree
  | front :: rest, t =>
    let newChild := setTree newTree rest ((get front t.children).getD empty)
    node t.value
      (if newChild.isEmpty then erase FKey.stringComparator front t.children
      else upsert FKey.stringComparator (fun _ => front) front newChild t.children)

end FImmutableTree

/-- The part of `inner` after `outer`, where `outer` contains `inner`. -/
def FPath.relativePathFrom {κ : Type u} (outer inner : List κ) : List κ := inner.drop outer.length

/-! ### Compound writes -/

/-- The tree of a compound write has a snapshot at each path that is written. -/
structure FCompoundWrite (κ : Type u) (β : Type v) where
  writeTree : FImmutableTree κ (FNode κ β)

namespace FCompoundWrite
variable {κ : Type u} {β : Type v}

def emptyWrite : FCompoundWrite κ β := ⟨.empty⟩

def isEmpty (w : FCompoundWrite κ β) : Bool := w.writeTree.isEmpty

variable [FKey κ] [DecidableEq κ]

def addWrite (w : FCompoundWrite κ β) (node : FNode κ β) (path : List κ) : FCompoundWrite κ β :=
  if path = [] then ⟨.ofValue node⟩
  else match w.writeTree.findRootMostValueAndPath path with
    | some (rootMost, value) =>
      let relativePath := FPath.relativePathFrom rootMost path
      ⟨w.writeTree.setValue (updateChild relativePath node value) rootMost⟩
    | none => ⟨FImmutableTree.setTree (.ofValue node) path w.writeTree⟩

def addCompoundWrite (w compoundWrite : FCompoundWrite κ β) (path : List κ) : FCompoundWrite κ β :=
  compoundWrite.writeTree.forEach.foldl (fun newWrite e => newWrite.addWrite e.2 (path ++ e.1)) w

def removeWriteAtPath (w : FCompoundWrite κ β) (path : List κ) : FCompoundWrite κ β :=
  if path = [] then emptyWrite else ⟨FImmutableTree.setTree .empty path w.writeTree⟩

def completeNodeAtPath (w : FCompoundWrite κ β) (path : List κ) : Option (FNode κ β) :=
  (w.writeTree.findRootMostValueAndPath path).map fun e =>
    getChild (FPath.relativePathFrom e.1 path) e.2

mutual
/-- Priorities are applied at the end, and only to what is not empty then. -/
def applySubtreeWrite (relativePath : List κ) :
    FImmutableTree κ (FNode κ β) → FNode κ β → FNode κ β
  | .node (some value) _, n => updateChild relativePath value n
  | .node none children, n =>
    let (n, priorityWrite) := applyChildren relativePath children (n, none)
    match priorityWrite with
    | some priority =>
      if (getChild relativePath n).isEmpty then n
      else updateChild (relativePath ++ [FKey.priority]) priority n
    | none => n
def applyChildren (relativePath : List κ) :
    List (κ × FImmutableTree κ (FNode κ β)) → FNode κ β × Option (FNode κ β) →
      FNode κ β × Option (FNode κ β)
  | [], s => s
  | (childKey, childTree) :: rest, (n, priorityWrite) =>
    if childKey = FKey.priority then applyChildren relativePath rest (n, childTree.value)
    else applyChildren relativePath rest
      (applySubtreeWrite (relativePath ++ [childKey]) childTree n, priorityWrite)
end

end FCompoundWrite

/-! ### The write tree -/

inductive FWrite (κ : Type u) (β : Type v) where
  | overwrite (node : FNode κ β)
  | merge (changedChildren : FCompoundWrite κ β)

structure FWriteRecord (κ : Type u) (β : Type v) where
  path : List κ
  write : FWrite κ β
  writeId : ℤ
  visible : Bool

/-- `allWrites` has the oldest write first. -/
structure FWriteTree (κ : Type u) (β : Type v) where
  visibleWrites : FCompoundWrite κ β
  allWrites : List (FWriteRecord κ β)
  lastWriteId : ℤ

namespace FWriteTree
variable {κ : Type u} {β : Type v}

def init : FWriteTree κ β := ⟨.emptyWrite, [], -1⟩

variable [FKey κ] [DecidableEq κ]

/-- The assertion of the source fails where there is no result. -/
def addOverwriteAtPath (s : FWriteTree κ β) (path : List κ) (newData : FNode κ β) (writeId : ℤ)
    (visible : Bool) : Option (FWriteTree κ β) :=
  if s.lastWriteId < writeId then
    some ⟨if visible then s.visibleWrites.addWrite newData path else s.visibleWrites,
      s.allWrites ++ [⟨path, .overwrite newData, writeId, visible⟩], writeId⟩
  else none

def addMergeAtPath (s : FWriteTree κ β) (path : List κ) (changedChildren : FCompoundWrite κ β)
    (writeId : ℤ) : Option (FWriteTree κ β) :=
  if s.lastWriteId < writeId then
    some ⟨s.visibleWrites.addCompoundWrite changedChildren path,
      s.allWrites ++ [⟨path, .merge changedChildren, writeId, true⟩], writeId⟩
  else none

/-- `record:containsPath:` -/
def recordContainsPath (record : FWriteRecord κ β) (path : List κ) : Bool :=
  match record.write with
  | .overwrite _ => record.path <+: path
  | .merge changedChildren =>
    changedChildren.writeTree.forEach.any fun e => record.path ++ e.1 <+: path

/-- The block of `layerTreeFromWrites:filter:treeRoot:` for a record that the filter takes. -/
def layerWrite (treeRoot : List κ) (compoundWrite : FCompoundWrite κ β)
    (record : FWriteRecord κ β) : FCompoundWrite κ β :=
  match record.write with
  | .overwrite node =>
    if treeRoot <+: record.path then
      compoundWrite.addWrite node (FPath.relativePathFrom treeRoot record.path)
    else if record.path <+: treeRoot then
      compoundWrite.addWrite (getChild (FPath.relativePathFrom record.path treeRoot) node) []
    else compoundWrite
  | .merge changedChildren =>
    if treeRoot <+: record.path then
      compoundWrite.addCompoundWrite changedChildren (FPath.relativePathFrom treeRoot record.path)
    else if record.path <+: treeRoot then
      let relativePath := FPath.relativePathFrom record.path treeRoot
      -- the path is not empty here; what is found at it is read at its rest once more
      match changedChildren.completeNodeAtPath relativePath with
      | some child => compoundWrite.addWrite (getChild relativePath.tail child) []
      | none => compoundWrite
    else compoundWrite

/-- `layerTreeFromWrites:filter:treeRoot:` -/
def layerTree (writes : List (FWriteRecord κ β)) (filter : FWriteRecord κ β → Bool)
    (treeRoot : List κ) : FCompoundWrite κ β :=
  writes.foldl (fun compoundWrite record =>
    if filter record then layerWrite treeRoot compoundWrite record else compoundWrite) .emptyWrite

/-- The default filter takes all writes, also those that are not visible. -/
def resetTree (s : FWriteTree κ β) : FWriteTree κ β where
  visibleWrites := layerTree s.allWrites (fun _ => true) []
  allWrites := s.allWrites
  lastWriteId := (s.allWrites.getLast?.map FWriteRecord.writeId).getD (-1)

/-- The loop of `removeWriteId:` over the other writes, the last one first. The result says whether
the removed write was visible and whether it overlaps with others. -/
def overlaps (writeToRemove : FWriteRecord κ β) (index : ℕ) (others : List (FWriteRecord κ β)) :
    ℕ → Bool × Bool → Bool × Bool
  | 0, s => s
  | i + 1, (wasVisible, overlapping) =>
    if wasVisible then
      match others[i]? with
      | some currentWrite =>
        if currentWrite.visible then
          if index ≤ i ∧ recordContainsPath currentWrite writeToRemove.path then
            overlaps writeToRemove index others i (false, overlapping)
          else if writeToRemove.path <+: currentWrite.path then
            overlaps writeToRemove index others i (wasVisible, true)
          else overlaps writeToRemove index others i (wasVisible, overlapping)
        else overlaps writeToRemove index others i (wasVisible, overlapping)
      | none => (wasVisible, overlapping)
    else (wasVisible, overlapping)

/-- The tree without one write that does not overlap with others. -/
def withoutWrite (visibleWrites : FCompoundWrite κ β) (writeToRemove : FWriteRecord κ β) :
    FCompoundWrite κ β :=
  match writeToRemove.write with
  | .overwrite _ => visibleWrites.removeWriteAtPath writeToRemove.path
  | .merge changedChildren =>
    changedChildren.writeTree.forEach.foldl
      (fun visibleWrites e => visibleWrites.removeWriteAtPath (writeToRemove.path ++ e.1))
      visibleWrites

/-- `removeWriteId:` of the write at an index. The result says whether views have to be evaluated
again. -/
def removeWriteAt (s : FWriteTree κ β) (index : ℕ) (writeToRemove : FWriteRecord κ β) :
    Bool × FWriteTree κ β :=
  let others := s.allWrites.eraseIdx index
  let s := { s with allWrites := others }
  match overlaps writeToRemove index others others.length (writeToRemove.visible, false) with
  | (false, _) => (false, s)
  | (true, true) => (true, s.resetTree)
  | (true, false) =>
    (true, { s with visibleWrites := withoutWrite s.visibleWrites writeToRemove })

def removeWriteId (s : FWriteTree κ β) (writeId : ℤ) : Option (Bool × FWriteTree κ β) :=
  match s.allWrites.findIdx? fun record => record.writeId = writeId with
  | some index => s.allWrites[index]?.map (s.removeWriteAt index)
  | none => none

def removeAllWrites (s : FWriteTree κ β) : FWriteTree κ β :=
  { s with visibleWrites := .emptyWrite, allWrites := [] }

end FWriteTree

end AstroAR
