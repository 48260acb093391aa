/-
  Virtio/Rings.lean --- what is read back from the rings.

  Each piece of the frame has one lemma that says what a write leaves in it, and
  every other piece is read as before because it lies elsewhere in the frame.
-/
import TheRack.Virtio.Queue

set_option autoImplicit false

namespace TheRack.Virtio

open Lib

/-- A descriptor, as the device reads it. -/
structure Descriptor where
  pa : Nat
  len : Nat
  flags : Nat
  next : Nat
  deriving DecidableEq

namespace Queue

/-- Descriptor `i` of the table. -/
def descriptor (q : Queue) (m : Mem) (i : Nat) : Descriptor where
  pa := m.readLE (q.ringPtr (descBase i)) 8
  len := m.readLE (q.ringPtr (descBase i + 8)) 4
  flags := q.descriptorFlags m i
  next := q.descriptorNext m i

/-- Entry `k` of the available ring. -/
def availableEntry (q : Queue) (m : Mem) (k : Nat) : Nat :=
  m.readLE (q.ringPtr (availOffset + 4 + k * 2)) 2

/-- Entry `k` of the used ring: a head, and how many bytes were written. -/
def usedEntry (q : Queue) (m : Mem) (k : Nat) : Nat × Nat :=
  (m.readLE (q.ringPtr (usedOffset + 4 + k * 8)) 4,
    m.readLE (q.ringPtr (usedOffset + 4 + k * 8 + 4)) 4)

variable {q : Queue} {m m' : Mem} {i j k o n : Nat}

theorem descriptor_next (q : Queue) (m : Mem) (i : Nat) :
    (q.descriptor m i).next = q.descriptorNext m i := rfl

theorem descriptor_flags (q : Queue) (m : Mem) (i : Nat) :
    (q.descriptor m i).flags = q.descriptorFlags m i := rfl

/-! ## What lies elsewhere -/

theorem descriptor_congr (h : Mem.SameBut (q.ringPtr o) n m m')
    (hdisj : descBase i + 16 ≤ o ∨ o + n ≤ descBase i) : q.descriptor m' i = q.descriptor m i := by
  unfold descriptor descriptorFlags descriptorNext
  unfold ringPtr at *
  rw [h.readLE_eq (by omega), h.readLE_eq (by omega), h.readLE_eq (by omega), h.readLE_eq (by omega)]

theorem availableIndex_congr (h : Mem.SameBut (q.ringPtr o) n m m')
    (hdisj : availOffset + 4 ≤ o ∨ o + n ≤ availOffset + 2) :
    q.availableIndex m' = q.availableIndex m := by
  unfold availableIndex
  unfold ringPtr at *
  exact h.readLE_eq (by omega)

theorem availableEntry_congr (h : Mem.SameBut (q.ringPtr o) n m m')
    (hdisj : availOffset + 4 + k * 2 + 2 ≤ o ∨ o + n ≤ availOffset + 4 + k * 2) :
    q.availableEntry m' k = q.availableEntry m k := by
  unfold availableEntry
  unfold ringPtr at *
  exact h.readLE_eq (by omega)

theorem usedIndex_congr (h : Mem.SameBut (q.ringPtr o) n m m')
    (hdisj : usedOffset + 4 ≤ o ∨ o + n ≤ usedOffset + 2) : q.usedIndex m' = q.usedIndex m := by
  unfold usedIndex
  unfold ringPtr at *
  exact h.readLE_eq (by omega)

theorem usedEntry_congr (h : Mem.SameBut (q.ringPtr o) n m m')
    (hdisj : usedOffset + 4 + k * 8 + 8 ≤ o ∨ o + n ≤ usedOffset + 4 + k * 8) :
    q.usedEntry m' k = q.usedEntry m k := by
  unfold usedEntry
  unfold ringPtr at *
  rw [h.readLE_eq (by omega), h.readLE_eq (by omega)]

/-! ## Descriptors -/

theorem writeDescriptor_but (q : Queue) (m : Mem) (i : Nat) (buffer : Buffer) (next : Nat)
    (chained : Bool) :
    Mem.SameBut (q.ringPtr (descBase i)) 16 m (q.writeDescriptor m i buffer next chained) := by
  unfold writeDescriptor ringPtr
  exact ((((Mem.SameBut.refl _ 16 m).write (by omega) (by omega)).write (by omega) (by omega)).write
    (by omega) (by omega)).write (by omega) (by omega)

theorem writeDescriptor_self (q : Queue) (m : Mem) (i : Nat) (buffer : Buffer) {next : Nat}
    (chained : Bool) (hnext : next < u16Size) :
    q.descriptor (q.writeDescriptor m i buffer next chained) i =
      ⟨buffer.pa, buffer.len, flagsOf buffer chained, next⟩ := by
  have hpa := buffer.pa_lt
  have hlen := buffer.len_lt
  have hflags : flagsOf buffer chained < 256 ^ 2 := by
    unfold flagsOf descNext descWrite
    split <;> split <;> decide
  unfold descriptor descriptorFlags descriptorNext writeDescriptor ringPtr
  simp only [Descriptor.mk.injEq]
  refine ⟨?_, ?_, ?_, ?_⟩
  · rw [Mem.readLE_writeLE_of_disjoint _ (by omega), Mem.readLE_writeLE_of_disjoint _ (by omega),
      Mem.readLE_writeLE_of_disjoint _ (by omega), Mem.readLE_writeLE]
    exact Nat.mod_eq_of_lt hpa
  · rw [Mem.readLE_writeLE_of_disjoint _ (by omega), Mem.readLE_writeLE_of_disjoint _ (by omega),
      Mem.readLE_writeLE]
    exact Nat.mod_eq_of_lt hlen
  · rw [Mem.readLE_writeLE_of_disjoint _ (by omega), Mem.readLE_writeLE]
    exact Nat.mod_eq_of_lt hflags
  · rw [Mem.readLE_writeLE]
    exact Nat.mod_eq_of_lt hnext

theorem descriptorNext_lt (q : Queue) (m : Mem) (i : Nat) : q.descriptorNext m i < u16Size :=
  m.readLE_lt _ 2

theorem descBase_disjoint (h : i ≠ j) : descBase i + 16 ≤ descBase j ∨ descBase j + 16 ≤ descBase i := by
  unfold descBase descOffset descriptorBytes
  omega

theorem descBase_le (h : i < queueSize) : descBase i + 16 ≤ availOffset := by
  unfold descBase descOffset descriptorBytes availOffset
  unfold queueSize at h
  omega

theorem writeDescriptorNext_but (q : Queue) (m : Mem) (i next : Nat) :
    Mem.SameBut (q.ringPtr (descBase i)) 16 m (q.writeDescriptorNext m i next) := by
  unfold writeDescriptorNext ringPtr
  exact (Mem.SameBut.writeLE _ _ _ _).mono (by omega) (by omega)

theorem writeDescriptorNext_self (q : Queue) (m : Mem) (i : Nat) {next : Nat}
    (hnext : next < u16Size) :
    q.descriptor (q.writeDescriptorNext m i next) i = { q.descriptor m i with next := next } := by
  unfold descriptor descriptorFlags descriptorNext writeDescriptorNext ringPtr
  simp only [Descriptor.mk.injEq]
  refine ⟨?_, ?_, ?_, ?_⟩
  · exact Mem.readLE_writeLE_of_disjoint _ (by omega)
  · exact Mem.readLE_writeLE_of_disjoint _ (by omega)
  · exact Mem.readLE_writeLE_of_disjoint _ (by omega)
  · rw [Mem.readLE_writeLE]
    exact Nat.mod_eq_of_lt hnext

/-! ## The available ring -/

theorem publish_but (hsize : q.size = queueSize) (head : Nat) :
    Mem.SameBut (q.ringPtr (availOffset + 2)) 34 m (q.publish m head) := by
  have hpos : q.availableIndex m % q.size < 16 := by
    rw [hsize]
    exact Nat.mod_lt _ (by decide)
  unfold publish ringPtr
  exact ((Mem.SameBut.refl _ 34 m).write (by omega) (by omega)).write (by omega) (by omega)

theorem publish_index (head : Nat) :
    q.availableIndex (q.publish m head) = (q.availableIndex m + 1) % u16Size := by
  have hentry := Mem.SameBut.writeLE (q.ringPtr (availOffset + 4 + q.availableIndex m % q.size * 2)) 2
    head m
  have hsame := availableIndex_congr hentry (.inl (Nat.le_add_right _ _))
  unfold publish wrappingAdd16
  simp only
  rw [hsame]
  unfold availableIndex
  rw [Mem.readLE_writeLE]
  exact Nat.mod_eq_of_lt (Nat.mod_lt _ (by decide))

/-- The entry at the index is `head`, and no other entry changes. -/
theorem publish_entry (hsize : q.size = queueSize) {head : Nat} (hhead : head < u16Size) (k : Nat) :
    q.availableEntry (q.publish m head) k =
      if k = q.availableIndex m % queueSize then head else q.availableEntry m k := by
  unfold publish
  simp only
  rw [hsize]
  refine (availableEntry_congr (Mem.SameBut.writeLE _ _ _ _) (.inr (by omega))).trans ?_
  split
  · rename_i hk
    subst hk
    unfold availableEntry
    rw [Mem.readLE_writeLE]
    exact Nat.mod_eq_of_lt hhead
  · rename_i hk
    exact availableEntry_congr (Mem.SameBut.writeLE _ _ _ _) (by omega)

/-! ## The used ring -/

/-- What the device writes to report a finished chain. -/
def report (q : Queue) (m : Mem) (head written : Nat) : Mem :=
  let entry := usedOffset + 4 + q.usedIndex m % q.size * 8
  let m := m.writeLE (q.ringPtr entry) 4 head
  let m := m.writeLE (q.ringPtr (entry + 4)) 4 written
  m.writeLE (q.ringPtr (usedOffset + 2)) 2 (wrappingAdd16 (q.usedIndex m) 1)

theorem report_but (hsize : q.size = queueSize) (head written : Nat) :
    Mem.SameBut (q.ringPtr (usedOffset + 2)) 130 m (q.report m head written) := by
  have hpos : q.usedIndex m % q.size < 16 := by
    rw [hsize]
    exact Nat.mod_lt _ (by decide)
  unfold report ringPtr
  exact (((Mem.SameBut.refl _ 130 m).write (by omega) (by omega)).write (by omega) (by omega)).write
    (by omega) (by omega)

/-- The two words of the entry leave the index as it is. -/
theorem report_entry_but (q : Queue) (m : Mem) (k head written : Nat) :
    Mem.SameBut (q.ringPtr (usedOffset + 4 + k * 8)) 8 m
      ((m.writeLE (q.ringPtr (usedOffset + 4 + k * 8)) 4 head).writeLE
        (q.ringPtr (usedOffset + 4 + k * 8 + 4)) 4 written) := by
  unfold ringPtr
  exact ((Mem.SameBut.refl _ 8 m).write (by omega) (by omega)).write (by omega) (by omega)

theorem report_index (head written : Nat) :
    q.usedIndex (q.report m head written) = (q.usedIndex m + 1) % u16Size := by
  have hsame := usedIndex_congr (report_entry_but q m (q.usedIndex m % q.size) head written)
    (.inl (Nat.le_add_right _ _))
  unfold report wrappingAdd16
  simp only
  rw [hsame]
  unfold usedIndex
  rw [Mem.readLE_writeLE]
  exact Nat.mod_eq_of_lt (Nat.mod_lt _ (by decide))

/-- The entry at the index is the report, and no other entry changes. -/
theorem report_entry (hsize : q.size = queueSize) {head written : Nat} (hhead : head < 2 ^ 32)
    (hwritten : written < 2 ^ 32) (k : Nat) :
    q.usedEntry (q.report m head written) k =
      if k = q.usedIndex m % queueSize then (head, written) else q.usedEntry m k := by
  unfold report
  simp only
  rw [hsize]
  refine (usedEntry_congr (Mem.SameBut.writeLE _ _ _ _) (.inr (by omega))).trans ?_
  split
  · rename_i hk
    subst hk
    unfold usedEntry ringPtr
    rw [Mem.readLE_writeLE_of_disjoint _ (by omega), Mem.readLE_writeLE, Mem.readLE_writeLE]
    exact Prod.ext (Nat.mod_eq_of_lt hhead) (Nat.mod_eq_of_lt hwritten)
  · rename_i hk
    exact usedEntry_congr (report_entry_but q m _ head written) (by omega)

end Queue

end TheRack.Virtio
