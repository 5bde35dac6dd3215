import Microx.Godefroid.PolicyAccess
import Microx.Lib.AreaShape

/-!
# Microx.Godefroid.Inputs

What `get_inputs` and `get_outputs` report.

Both merge the areas they recorded, and the areas reported are exactly those
recorded (`reports_exact`).  An input area also has a type.  `get_inputs` works
it out anew each time an area grows, but from the address of the input that
made it grow: an area is reported as what its start points to exactly when both
addresses are pointers to the same place, or neither is one
(`pointers_reported_iff`).
-/

namespace Microx

namespace InputMemoryPolicy

/-- `class InputType`. -/
inductive InputType where
  | data
  | pointer
  | computed
  deriving DecidableEq, Repr

/-- What is reported of an input area: size, type, and where it points. -/
structure InputArea where
  size : Nat
  type : InputType
  target : Nat
  deriving DecidableEq, Repr

variable (p : InputMemoryPolicy)

/-- `get_pointer`. -/
def getPointer (addr : Nat) : Option Nat := p.pointerMap.get? addr

/-- `_make_itype`. -/
def makeItype (addr size : Nat) : InputArea :=
  match p.getPointer addr with
  | some ptr => ⟨size, .pointer, ptr⟩
  | none => if size ≠ 0 then ⟨size, .data, 0⟩ else ⟨size, .computed, 0⟩

/-- `get_inputs`: the recorded inputs, merged. -/
def getInputs : PyDict Nat InputArea := Areas.merge p.makeItype p.knownInputs

@[simp] theorem size_makeItype (addr size : Nat) : (p.makeItype addr size).size = size := by
  unfold makeItype
  cases p.getPointer addr with
  | some ptr => rfl
  | none => split_ifs <;> rfl

/-- The type depends on the address only. -/
theorem makeItype_pointer (addr size target : Nat) :
    (p.makeItype addr size).type = .pointer ∧ (p.makeItype addr size).target = target ↔
      p.getPointer addr = some target := by
  unfold makeItype
  cases p.getPointer addr with
  | some ptr => simp
  | none => split_ifs <;> simp

/-! ## the areas -/

/-- The areas reported are those of the record. -/
structure ReportsExactly {α : Type} (width : α → Nat) (areas : PyDict Nat α)
    (record : PyDict Nat Nat) : Prop where
  increasing : areas.keys.Pairwise (· < ·)
  /-- Each area ends no later than the next begins. -/
  spaced : areas.entries.Pairwise fun x y => x.1 + width x.2 ≤ y.1
  start_mem : ∀ k ∈ areas.keys, k ∈ record.keys
  covers : ∀ a, Areas.Covers width areas a ↔ Areas.Covers id record a

theorem reportsExactly_merge {α : Type} {width : α → Nat} {mk : Nat → Nat → α}
    (hw : ∀ k n, width (mk k n) = n) (record : PyDict Nat Nat) :
    ReportsExactly width (Areas.merge mk record) record where
  increasing := Areas.keys_merge_sorted mk record
  spaced := Areas.entries_merge_spaced mk record hw
  start_mem := by
    intro k hk
    obtain ⟨v, hv⟩ := Option.isSome_iff_exists.mp ((PyDict.mem_keys_iff _ k).mp hk)
    exact Areas.mem_recorded_of_merge mk record hv
  covers := Areas.merge_covers hw record

/-- **Interval merging is exact**, for the outputs and for the inputs. -/
theorem reports_exact :
    ReportsExactly id p.getOutputs p.knownOutputs ∧
      ReportsExactly InputArea.size p.getInputs p.knownInputs :=
  ⟨reportsExactly_merge (fun _ _ => rfl) p.knownOutputs,
    reportsExactly_merge p.size_makeItype p.knownInputs⟩

/-! ## the types -/

/-- Every input area is reported as a pointer to where its start points. -/
def PointersReported : Prop :=
  ∀ k area, p.getInputs.get? k = some area → ∀ target,
    area.type = .pointer ∧ area.target = target ↔ p.getPointer k = some target

/-- Each recorded input that starts an area points to the same place as the input that extended the
area last. -/
def ExtendersAgree : Prop :=
  ∀ k a, Areas.Starts (Areas.recorded p.knownInputs) (Areas.sizeAt p.knownInputs) k →
    Areas.Extends (Areas.recorded p.knownInputs) (Areas.sizeAt p.knownInputs) k a →
      p.getPointer a = p.getPointer k

/-- **Pointer inputs** are reported as what they point to if and only if the input that extends an
area last points where its start does. -/
theorem pointers_reported_iff : p.PointersReported ↔ p.ExtendersAgree := by
  constructor
  · intro h k a hk ha
    have harea := (Areas.get?_merge p.makeItype p.knownInputs).mpr ⟨hk, a, ha, rfl⟩
    refine Option.ext fun target => ?_
    rw [← h k _ harea target, makeItype_pointer]
  · intro h k area harea target
    obtain ⟨hk, a, ha, rfl⟩ := (Areas.get?_merge p.makeItype p.knownInputs).mp harea
    rw [makeItype_pointer, h k a hk ha]

/-- A pointer at 0x1000, and a word of data that overlaps its end. -/
def overlappingInputs : InputMemoryPolicy :=
  { samplePolicy with
    knownInputs := (PyDict.empty.set 0x1000 4).set 0x1002 4
    pointerMap := PyDict.empty.set 0x1000 0x8000 }

/-- **A pointer can be lost** when a later input extends its area. -/
theorem pointer_lost : ¬overlappingInputs.PointersReported := by
  intro h
  have harea : overlappingInputs.getInputs.get? 0x1000 = some ⟨6, .data, 0⟩ := by decide
  have hpointer := (h _ _ harea 0x8000).mpr rfl
  cases hpointer.1

end InputMemoryPolicy

end Microx
