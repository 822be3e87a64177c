import AstroAR.Pivot

/-!
# Log messages in the scene

`addLog` makes a label for a message and moves every label to a height that it
computes from its predecessor: the upper end of the bounding box, which is half
the height of the label.
-/

namespace AstroAR

open Runs

universe u
variable {R : Type u} [Field R]

namespace ARLogger

/-- One turn of the loop in `layout`; `none` is an index out of range. -/
def layoutAt (logs : List (VirtualLabel R)) (index : ℕ) : Option (List (VirtualLabel R)) :=
  match logs[index - 1]?, logs[index]? with
  | some previous, some l =>
    let height := previous.rootNode.boundingBox.2.y
    let position := { l.rootNode.position with y := previous.rootNode.position.y + height }
    some (logs.set index { l with rootNode := { l.rootNode with position := position } })
  | _, _ => none

/-- The loop over `1 ..< logs.count`, a range that cannot be formed for an empty list. -/
def layout (logs : List (VirtualLabel R)) : Option (List (VirtualLabel R)) :=
  if logs.length = 0 then none
  else (List.range' 1 (logs.length - 1)).foldlM layoutAt logs

def addLog (size : String → FontAttrs R → CGSize R) (logs : List (VirtualLabel R))
    (message : String) : Option (List (VirtualLabel R)) :=
  layout (logs ++ [VirtualLabel.init size "wintermute" message])

/-- How high the text of a message is. -/
def textHeight (size : String → FontAttrs R → CGSize R) (message : String) : R :=
  ((VirtualLabel.themed "wintermute" message).stringSize size).height

/-- The lower end of a label, seen from the logger. -/
def lower (l : VirtualLabel R) : R :=
  l.rootNode.position.y + l.rootNode.scale * (l.rootNode.boundingBox.1.y - l.rootNode.pivot.y)

/-- The upper end of a label. -/
def upper (l : VirtualLabel R) : R :=
  l.rootNode.position.y + l.rootNode.scale * (l.rootNode.boundingBox.2.y - l.rootNode.pivot.y)

/-- Every label lies wholly above all labels that came before it. -/
def Stacked [LE R] (logs : List (VirtualLabel R)) : Prop :=
  ∀ (i j : ℕ) (a b : VirtualLabel R), i < j → logs[i]? = some a → logs[j]? = some b →
    upper a ≤ lower b

/-- Every label is where the loop puts it. -/
def Chained (logs : List (VirtualLabel R)) : Prop :=
  ∀ (i : ℕ) (a b : VirtualLabel R), logs[i]? = some a → logs[i + 1]? = some b →
    b.rootNode.position.y = a.rootNode.position.y + a.rootNode.boundingBox.2.y

/-- A label on top of the label `a`. -/
def above (a l : VirtualLabel R) : VirtualLabel R :=
  { l with rootNode := { l.rootNode with position := { l.rootNode.position with
      y := a.rootNode.position.y + a.rootNode.boundingBox.2.y } } }

variable {logs : List (VirtualLabel R)} {a b l : VirtualLabel R} {i : ℕ}

theorem layoutAt_eq (ha : logs[i]? = some a) (hb : logs[i + 1]? = some b) :
    layoutAt logs (i + 1) = some (logs.set (i + 1) (above a b)) := by
  simp only [layoutAt, Nat.add_sub_cancel, ha, hb, above]

/-- A label that is where it should be stays there. -/
theorem layoutAt_fixed (ha : logs[i]? = some a) (hb : logs[i + 1]? = some b)
    (hy : b.rootNode.position.y = a.rootNode.position.y + a.rootNode.boundingBox.2.y) :
    layoutAt logs (i + 1) = some logs := by
  have same : above a b = b := by
    rw [above, ← hy]
  obtain ⟨hi, rfl⟩ := List.getElem?_eq_some_iff.mp hb
  rw [layoutAt_eq ha hb, same, List.set_getElem_self]

/-- The layout after a message leaves the earlier labels alone and puts the new one on top of the
last. -/
theorem layout_append (h : Chained logs) (l : VirtualLabel R) :
    layout (logs ++ [l]) = some (logs ++ [logs.getLast?.elim l fun a => above a l]) := by
  have hpos : (logs ++ [l]).length ≠ 0 := by simp
  rw [layout, if_neg hpos, List.length_append, List.length_singleton, Nat.add_sub_cancel]
  rcases List.eq_nil_or_concat logs with rfl | ⟨init, a, rfl⟩
  · rfl
  · rw [List.concat_eq_append] at h ⊢
    have hlength : (init ++ [a]).length = init.length + 1 := by simp
    have earlier : (List.range' 1 init.length).foldlM layoutAt (init ++ [a] ++ [l]) =
        some (init ++ [a] ++ [l]) := by
      refine foldlM_fixed fun i hi => ?_
      obtain ⟨hle, hlt⟩ := List.mem_range'_1.mp hi
      obtain ⟨i, rfl⟩ := Nat.exists_eq_add_of_le' hle
      have hi : i + 1 < (init ++ [a]).length := by omega
      have hb := List.getElem?_eq_getElem hi
      have ha := List.getElem?_eq_getElem (l := init ++ [a]) (i := i) (by omega)
      refine layoutAt_fixed ?_ ?_ (h i _ _ ha hb)
      · rw [List.getElem?_append_left (by omega), ha]
      · rw [List.getElem?_append_left hi, hb]
    have ha : (init ++ [a] ++ [l])[init.length]? = some a := by simp
    have hb : (init ++ [a] ++ [l])[init.length + 1]? = some l := by
      rw [List.getElem?_append_right hlength.le, hlength, Nat.sub_self]
      rfl
    have hset : (init ++ [a] ++ [l]).set (init.length + 1) (above a l) =
        init ++ [a] ++ [above a l] := by
      rw [List.set_append_right _ _ hlength.le, hlength, Nat.sub_self]
      rfl
    rw [hlength, List.range'_1_concat, List.foldlM_append, earlier, Nat.add_comm 1]
    change [init.length + 1].foldlM layoutAt (init ++ [a] ++ [l]) = _
    rw [List.foldlM_cons, layoutAt_eq ha hb, hset]
    simp

/-- The logger after a message. -/
theorem addLog_eq {size : String → FontAttrs R → CGSize R} (h : Chained logs) (message : String) :
    addLog size logs message = some (logs ++ [logs.getLast?.elim
      (VirtualLabel.init size "wintermute" message)
      fun a => above a (VirtualLabel.init size "wintermute" message)]) :=
  layout_append h _

theorem Chained.append (h : Chained logs) (l : VirtualLabel R) :
    Chained (logs ++ [logs.getLast?.elim l fun a => above a l]) := by
  intro i a b ha hb
  have hi := (List.getElem?_eq_some_iff.mp hb).1
  simp only [List.length_append, List.length_singleton] at hi
  rw [List.getElem?_append_left (by omega)] at ha
  by_cases hlast : i + 1 < logs.length
  · rw [List.getElem?_append_left hlast] at hb
    exact h i a b ha hb
  · have hlength : i + 1 = logs.length := by omega
    have hgetLast : logs.getLast? = some a := by
      rw [List.getLast?_eq_getElem?, ← hlength, Nat.add_sub_cancel, ha]
    rw [hlength, List.getElem?_append_right le_rfl, Nat.sub_self, hgetLast] at hb
    cases hb
    rfl

section Order
variable [LinearOrder R] [IsStrictOrderedRing R] {size : String → FontAttrs R → CGSize R}

/-- A label as the logger makes it: its pivot is at the origin, its box is centred on it and has a
height. -/
structure LogLabel (l : VirtualLabel R) : Prop where
  scale : l.rootNode.scale = 1
  pivot : l.rootNode.pivot.y = 0
  box : l.rootNode.boundingBox.1.y = -l.rootNode.boundingBox.2.y
  height : 0 < l.rootNode.boundingBox.2.y

theorem logLabel_init {message : String} (h : 0 < textHeight size message) :
    LogLabel (VirtualLabel.init size "wintermute" message) where
  scale := rfl
  pivot := by
    rw [VirtualLabel.init, VirtualLabel.setPivotLocation_pivot]
    exact neg_zero
  box := neg_div _ _
  height := by
    have hbox : (VirtualLabel.init size "wintermute" message).rootNode.boundingBox.2.y =
        (textHeight size message + 50 + 50 + 0 + 0) * (1 / 1000) / 2 := rfl
    rw [hbox]
    positivity

omit [IsStrictOrderedRing R] in
theorem LogLabel.above (h : LogLabel l) (a : VirtualLabel R) : LogLabel (above a l) :=
  ⟨h.scale, h.pivot, h.box, h.height⟩

/-- Every second label reaches down into the first by half its own height. -/
theorem lower_lt_upper (ha : LogLabel a) (hb : LogLabel b)
    (hy : b.rootNode.position.y = a.rootNode.position.y + a.rootNode.boundingBox.2.y) :
    lower b < upper a := by
  have height := hb.height
  simp only [lower, upper, ha.scale, hb.scale, ha.pivot, hb.pivot, hb.box, hy]
  linarith

/-- Over every run of messages with a text height, the loop stays within the labels and adding a
message moves none of them; but any two labels that follow each other overlap, so the labels are
stacked exactly as long as there is at most one message. -/
theorem log_stack_iff (run : Run (addLog size) (fun _ message => 0 < textHeight size message)
      [] logs) :
    (∀ message, ∃ l, addLog size logs message = some (logs ++ [l])) ∧
      (Stacked logs ↔ logs.length ≤ 1) := by
  have inv : Chained logs ∧ ∀ l ∈ logs, LogLabel l := by
    refine run.invariant (I := fun logs => Chained logs ∧ ∀ l ∈ logs, LogLabel l)
      ⟨by simp [Chained], by simp⟩ fun logs message logs' h hpos hstep => ?_
    rw [addLog_eq h.1] at hstep
    cases hstep
    refine ⟨h.1.append _, fun l hl => ?_⟩
    rcases List.mem_append.mp hl with hl | hl
    · exact h.2 l hl
    · cases List.mem_singleton.mp hl
      cases logs.getLast? with
      | none => exact logLabel_init hpos
      | some a => exact (logLabel_init hpos).above a
  refine ⟨fun message => ⟨_, addLog_eq inv.1 message⟩, ?_⟩
  constructor
  · intro stacked
    by_contra hlength
    have ha := List.getElem?_eq_getElem (l := logs) (i := 0) (by omega)
    have hb := List.getElem?_eq_getElem (l := logs) (i := 0 + 1) (by omega)
    have hlt := lower_lt_upper (inv.2 _ (List.mem_of_getElem? ha))
      (inv.2 _ (List.mem_of_getElem? hb)) (inv.1 0 _ _ ha hb)
    exact absurd (stacked 0 (0 + 1) _ _ Nat.one_pos ha hb) (not_le.mpr hlt)
  · intro hlength i j a b hij ha hb
    have hi := (List.getElem?_eq_some_iff.mp ha).1
    have hj := (List.getElem?_eq_some_iff.mp hb).1
    omega

/-- A single message. -/
theorem log_stack_iff_ready : ∃ logs : List (VirtualLabel ℚ), logs.length = 1 ∧ Stacked logs := by
  let size : String → FontAttrs ℚ → CGSize ℚ := fun _ _ => ⟨120, 70⟩
  have hsize : 0 < textHeight size "ready" := by
    norm_num [textHeight, VirtualLabel.stringSize, size]
  have run : Run (addLog size) (fun _ message => 0 < textHeight size message) [] _ :=
    .snoc .refl hsize (addLog_eq (by simp [Chained]) "ready")
  exact ⟨_, rfl, (log_stack_iff run).2.mpr le_rfl⟩

/-- The second of two messages reaches into the first. -/
theorem messages_overlap : ¬ ∀ (size : String → FontAttrs ℚ → CGSize ℚ)
    (logs : List (VirtualLabel ℚ)),
    Run (addLog size) (fun _ message => 0 < textHeight size message) [] logs → Stacked logs := by
  intro claim
  let size : String → FontAttrs ℚ → CGSize ℚ := fun _ _ => ⟨120, 70⟩
  have hsize : ∀ message, 0 < textHeight size message := by
    intro message
    norm_num [textHeight, VirtualLabel.stringSize, size]
  have run : Run (addLog size) (fun _ message => 0 < textHeight size message) [] _ :=
    .snoc (.snoc .refl (hsize "ready") (addLog_eq (by simp [Chained]) "ready")) (hsize "tapped")
      (addLog_eq (Chained.append (by simp [Chained]) _) "tapped")
  have ready := logLabel_init (hsize "ready")
  have hlt := lower_lt_upper ready ((logLabel_init (hsize "tapped")).above
    (VirtualLabel.init size "wintermute" "ready")) rfl
  exact absurd (claim size _ run 0 1 _ _ Nat.one_pos rfl rfl) (not_le.mpr hlt)

end Order

end ARLogger

end AstroAR
