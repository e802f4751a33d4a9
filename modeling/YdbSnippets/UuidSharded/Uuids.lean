import YdbSnippets.UuidSharded.Layout
import Mathlib.Data.List.Nodup

/-!
# UUID values

A UUID as Python has it, and its form `bytes_le`, in which the fields of the first
half have their bytes reversed.  The database compares keys in that form.
-/

namespace YdbSnippets
namespace UuidSharded

section Uuids

/-- `uuid.UUID`, by its attribute `bytes`. -/
@[ext]
structure Uuid where
  bytes : KeyBytes

/-- Where a byte of one form stands in the other. -/
def fieldIndex (i : Fin 16) : Fin 16 :=
  [3, 2, 1, 0, 5, 4, 7, 6, 8, 9, 10, 11, 12, 13, 14, 15].get i

@[simp] theorem fieldIndex_fieldIndex :
    ∀ i, fieldIndex (fieldIndex i) = i := by
  decide

/-- The bytes in the order of the other form. -/
def reorder (data : KeyBytes) : KeyBytes :=
  Vector.ofFn fun i => data[fieldIndex i]

@[simp] theorem reorder_reorder (data : KeyBytes) :
    reorder (reorder data) = data := by
  refine Vector.ext ?_
  intro i hi
  unfold reorder
  rw [Vector.getElem_ofFn]
  simp

/-- `bytes_le` -/
def Uuid.bytesLe (u : Uuid) : KeyBytes :=
  reorder u.bytes

theorem Uuid.bytesLe_injective : Function.Injective Uuid.bytesLe := by
  intro u v h
  have hbytes := congrArg reorder h
  unfold Uuid.bytesLe at hbytes
  rw [reorder_reorder, reorder_reorder] at hbytes
  exact Uuid.ext hbytes

/-- `UUID(bytes_le=...)`, or `none` for the `ValueError`. -/
def Uuid.ofBytesLe (data : List (BitVec 8)) : Option Uuid :=
  if h : data.length = 16 then some ⟨reorder ⟨data.toArray, by simpa using h⟩⟩ else none

@[simp] theorem Uuid.ofBytesLe_bytesLe (u : Uuid) :
    Uuid.ofBytesLe u.bytesLe.toList = some u := by
  unfold Uuid.ofBytesLe
  rw [dif_pos (by simp)]
  refine congrArg some (Uuid.ext ?_)
  have hback : (⟨u.bytesLe.toList.toArray, by simp⟩ : KeyBytes) = u.bytesLe :=
    Vector.ext fun i hi => by simp
  rw [hback, Uuid.bytesLe, reorder_reorder]

/-- The form in which the database compares keys. -/
def Uuid.key (u : Uuid) : List Nat :=
  u.bytesLe.toList.map BitVec.toNat

theorem Uuid.key_injective : Function.Injective Uuid.key := by
  intro u v h
  refine Uuid.bytesLe_injective ?_
  have hbytes : u.bytesLe.toList = v.bytesLe.toList :=
    List.map_injective_iff.mpr (fun _ _ => BitVec.eq_of_toNat_eq) h
  exact Vector.toList_inj.mp hbytes

end Uuids

end UuidSharded
end YdbSnippets
