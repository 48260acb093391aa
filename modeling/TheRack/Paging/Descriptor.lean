/-
  Paging/Descriptor.lean --- translation table descriptors.

  Descriptors are 64-bit words; the constants and the ways they are put together
  are those of paging.rs.  What the rest of the model needs of the bits is
  collected here: an address field written into a descriptor is read back, and
  the two type bits and the access permissions come from where they were put.
-/
import TheRack.Crash
import TheRack.Lib.Bits
import TheRack.Frames.Allocator

set_option autoImplicit false

namespace TheRack.Paging

open Frames

/-- `KERNEL_BASE`: base of the kernel's half of the address space. -/
def kernelBase : Nat := 0xffff000000000000

/-- `PAGE_SIZE`. -/
def pageSize : Nat := frameSize

/-- `BLOCK_2MIB`. -/
def block2MiB : Nat := 2 * 1024 * 1024

/-- `ENTRIES`: entries in a translation table at any level. -/
@[irreducible] def entries : Nat := 512

/-- `ADDR_MASK`: output address field of a descriptor, bits [47:12]. -/
def addrMask : Nat := 0x0000fffffffff000

/-- `VALID`. -/
def valid : Nat := 1 <<< 0

/-- `TABLE_OR_PAGE`. -/
def tableOrPage : Nat := 1 <<< 1

def attrIndexShift : Nat := 2
def apShift : Nat := 6
def shShift : Nat := 8

/-- `AF`: access flag. -/
def af : Nat := 1 <<< 10

/-- `PXN`: EL1 may not fetch instructions from here. -/
def pxn : Nat := 1 <<< 53

/-- `UXN`: EL0 may not fetch instructions from here. -/
def uxn : Nat := 1 <<< 54

def apRwEl1 : Nat := 0b00
def apRwAll : Nat := 0b01
def apRoEl1 : Nat := 0b10
def apRoAll : Nat := 0b11

def shNonShareable : Nat := 0b00
def shInnerShareable : Nat := 0b11

def mairDeviceIndex : Nat := 0
def mairNormalIndex : Nat := 1

/-- `struct Attributes`: memory type and permissions for a mapping.  No
constructor of the source sets a bit of the address field, or a type bit. -/
structure Attributes where
  bits : Nat
  no_addr : bits &&& addrMask = 0
  no_type : bits &&& (valid ||| tableOrPage) = 0
  bits_lt : bits < 2 ^ 64

namespace Attributes

/-- `kernel_text`. -/
def kernelText : Attributes where
  bits := (mairNormalIndex <<< attrIndexShift) ||| (apRoEl1 <<< apShift) |||
    (shInnerShareable <<< shShift) ||| af ||| uxn
  no_addr := by decide
  no_type := by decide
  bits_lt := by decide

/-- `kernel_rodata`. -/
def kernelRodata : Attributes where
  bits := (mairNormalIndex <<< attrIndexShift) ||| (apRoEl1 <<< apShift) |||
    (shInnerShareable <<< shShift) ||| af ||| uxn ||| pxn
  no_addr := by decide
  no_type := by decide
  bits_lt := by decide

/-- `kernel_data`. -/
def kernelData : Attributes where
  bits := (mairNormalIndex <<< attrIndexShift) ||| (apRwEl1 <<< apShift) |||
    (shInnerShareable <<< shShift) ||| af ||| uxn ||| pxn
  no_addr := by decide
  no_type := by decide
  bits_lt := by decide

/-- `device`. -/
def device : Attributes where
  bits := (mairDeviceIndex <<< attrIndexShift) ||| (apRwEl1 <<< apShift) |||
    (shNonShareable <<< shShift) ||| af ||| uxn ||| pxn
  no_addr := by decide
  no_type := by decide
  bits_lt := by decide

/-- `user_data`. -/
def userData : Attributes where
  bits := (mairNormalIndex <<< attrIndexShift) ||| (apRwAll <<< apShift) |||
    (shInnerShareable <<< shShift) ||| af ||| uxn ||| pxn
  no_addr := by decide
  no_type := by decide
  bits_lt := by decide

/-- `user_text`. -/
def userText : Attributes where
  bits := (mairNormalIndex <<< attrIndexShift) ||| (apRoAll <<< apShift) |||
    (shInnerShareable <<< shShift) ||| af ||| pxn
  no_addr := by decide
  no_type := by decide
  bits_lt := by decide

end Attributes

/-- `table_index`: index into the table at `level` for virtual address `va`. -/
def tableIndex (va level : Nat) : Nat := (va >>> (39 - 9 * level)) &&& 0x1ff

theorem pageSize_eq : pageSize = 4096 := rfl
theorem entries_eq : entries = 512 := by unfold entries; rfl

theorem tableIndex_eq (va level : Nat) :
    tableIndex va level = va / 2 ^ (39 - 9 * level) % 512 := by
  unfold tableIndex
  rw [show 0x1ff = 2 ^ 9 - 1 from rfl, Nat.and_two_pow_sub_one_eq_mod,
    Nat.shiftRight_eq_div_pow]

theorem tableIndex_lt (va level : Nat) : tableIndex va level < entries := by
  rw [tableIndex_eq, entries_eq]
  exact Nat.mod_lt _ (by decide)

/-! ## Reading a descriptor -/

theorem and_addrMask (e : Nat) : e &&& addrMask = e / 4096 % 2 ^ 36 * 4096 :=
  Lib.and_shifted_mask e 12 36

/-- The address field names a frame. -/
theorem dvd_and_addrMask (e : Nat) : frameSize ∣ e &&& addrMask := by
  rw [and_addrMask]
  exact Nat.dvd_mul_left _ _

/-- An address below 2^48 that is a frame survives the address field. -/
theorem and_addrMask_of_frame {f : Nat} (hdvd : frameSize ∣ f) (hlt : f < 2 ^ 48) :
    f &&& addrMask = f := by
  obtain ⟨k, rfl⟩ := hdvd
  rw [frameSize_eq] at *
  rw [and_addrMask, Nat.mul_div_cancel_left _ (by decide), Nat.mod_eq_of_lt (by omega)]
  omega

/-- Bits below the address field are clear in a frame's address. -/
theorem and_low_of_frame {f m : Nat} (hdvd : frameSize ∣ f) (hm : m < 4096) : f &&& m = 0 := by
  obtain ⟨k, rfl⟩ := hdvd
  apply Nat.eq_of_testBit_eq
  intro i
  rw [Nat.testBit_and, Nat.zero_testBit, show frameSize = 2 ^ 12 from rfl,
    Nat.testBit_two_pow_mul]
  rcases Nat.lt_or_ge i 12 with h | h
  · simp [Nat.not_le.mpr h]
  · have hpow : 2 ^ 12 ≤ 2 ^ i := Nat.pow_le_pow_right (Nat.succ_pos 1) h
    have hlow : m.testBit i = false := Nat.testBit_lt_two_pow (Nat.lt_of_lt_of_le hm hpow)
    simp [hlow]

/-- A table descriptor, as `next_table` writes it. -/
theorem table_descriptor {f : Nat} (hdvd : frameSize ∣ f) (hlt : f < 2 ^ 48) :
    (f ||| valid ||| tableOrPage) &&& valid ≠ 0 ∧
      (f ||| valid ||| tableOrPage) &&& tableOrPage ≠ 0 ∧
      (f ||| valid ||| tableOrPage) &&& addrMask = f := by
  rw [Nat.and_or_distrib_right, Nat.and_or_distrib_right, Nat.and_or_distrib_right,
    Nat.and_or_distrib_right, Nat.and_or_distrib_right, Nat.and_or_distrib_right,
    and_low_of_frame hdvd (by decide), and_low_of_frame hdvd (by decide),
    and_addrMask_of_frame hdvd hlt]
  exact ⟨by decide, by decide, by simp [valid, tableOrPage, addrMask]⟩

theorem table_descriptor_lt {f : Nat} (hlt : f < 2 ^ 48) :
    f ||| valid ||| tableOrPage < 2 ^ 64 :=
  Nat.or_lt_two_pow (Nat.or_lt_two_pow (by omega) (by decide)) (by decide)

theorem page_descriptor_lt {f : Nat} (attrs : Attributes) (hlt : f < 2 ^ 48) :
    f ||| attrs.bits ||| valid ||| tableOrPage < 2 ^ 64 :=
  Nat.or_lt_two_pow (Nat.or_lt_two_pow (Nat.or_lt_two_pow (by omega) attrs.bits_lt) (by decide))
    (by decide)

/-- A page descriptor, as `map_page` writes it. -/
theorem page_descriptor {f : Nat} (attrs : Attributes) (hdvd : frameSize ∣ f)
    (hlt : f < 2 ^ 48) :
    (f ||| attrs.bits ||| valid ||| tableOrPage) &&& valid ≠ 0 ∧
      (f ||| attrs.bits ||| valid ||| tableOrPage) &&& tableOrPage ≠ 0 ∧
      (f ||| attrs.bits ||| valid ||| tableOrPage) &&& addrMask = f := by
  have hor : ∀ m, (f ||| attrs.bits ||| valid ||| tableOrPage) &&& m =
      (f &&& m) ||| (attrs.bits &&& m) ||| (valid &&& m) ||| (tableOrPage &&& m) := by
    intro m
    rw [Nat.and_or_distrib_right, Nat.and_or_distrib_right, Nat.and_or_distrib_right]
  have htype := attrs.no_type
  rw [Nat.and_or_distrib_left, Nat.or_eq_zero_iff] at htype
  rw [hor, hor, hor, and_low_of_frame hdvd (by decide), and_low_of_frame hdvd (by decide),
    and_addrMask_of_frame hdvd hlt, attrs.no_addr, htype.1, htype.2]
  exact ⟨by decide, by decide, by simp [valid, tableOrPage, addrMask]⟩

end TheRack.Paging
