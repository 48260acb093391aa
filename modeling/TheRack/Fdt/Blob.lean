/-
  Fdt/Blob.lean --- the device tree blob, from fdt.rs.

  A `u32` is a number below `u32Size`, a `&str` the bytes it is made of.  The
  blob is read through whatever the kernel can load from, so a load beyond what
  is mapped is a crash.  A slice is what it covers; to make one, everything it
  covers has to be there.
-/
import TheRack.Crash
import TheRack.Lib.Seek

set_option autoImplicit false

namespace TheRack.Fdt

open Lib

/-! ## Numbers -/

/-- One past `u32::MAX`. -/
def u32Size : Nat := 2 ^ 32

/-- Plain `+` on `u32`. -/
def add32 (a b : Nat) : Except Crash Nat :=
  if a + b < u32Size then .ok (a + b) else .error .overflow

/-- Plain `*` on `u32`. -/
def mul32 (a b : Nat) : Except Crash Nat :=
  if a * b < u32Size then .ok (a * b) else .error .overflow

/-- `checked_add` on `u32`. -/
def checkedAdd32 (a b : Nat) : Option Nat := if a + b < u32Size then some (a + b) else none

/-- `saturating_add` on `u32`. -/
def saturatingAdd32 (a b : Nat) : Nat := min (a + b) (u32Size - 1)

/-- `as u32`. -/
def asU32 (n : Nat) : Nat := n % u32Size

/-- `!x` on `u32`. -/
def not32 (x : Nat) : Nat := x ^^^ (u32Size - 1)

/-- `align4`. -/
def align4 (offset : Nat) : Nat := saturatingAdd32 offset 3 &&& not32 3

/-- The number whose big endian bytes these are. -/
def ofBigEndian : List UInt8 → Nat :=
  List.foldl (fun value byte => value * 256 + byte.toNat) 0

/-! ## Memory -/

/-- What the kernel loads from an address, where anything is mapped. -/
abbrev View : Type := Nat → Option UInt8

/-- A load of one byte. -/
def load (m : View) (va : Nat) : Except Crash UInt8 :=
  match m va with
  | some byte => .ok byte
  | none => .error (.dataAbort va)

/-- Loads of the `n` bytes from `va`. -/
def loadBytes (m : View) : Nat → Nat → Except Crash (List UInt8)
  | _, 0 => .ok []
  | va, n + 1 => do
      let byte ← load m va
      let rest ← loadBytes m (va + 1) n
      return byte :: rest

/-- `be32`. -/
def be32 (m : View) (va offset : Nat) : Except Crash Nat := do
  let ptr ← add64 va offset
  return ofBigEndian (← loadBytes m ptr 4)

/-- `slice::from_raw_parts`. -/
def fromRawParts (m : View) (ptr len : Nat) : Except Crash (List UInt8) :=
  if ptr = 0 then .error .nullSlice else loadBytes m ptr len

/-- The bytes are UTF-8. -/
def Utf8 (bytes : List UInt8) : Prop := (ByteArray.mk bytes.toArray).IsValidUTF8

instance (bytes : List UInt8) : Decidable (Utf8 bytes) :=
  inferInstanceAs (Decidable (ByteArray.IsValidUTF8 _))

/-- `str::from_utf8(..).ok()`. -/
def fromUtf8 (bytes : List UInt8) : Option (List UInt8) := if Utf8 bytes then some bytes else none

/-! ## The header -/

/-- `MAGIC`. -/
def magic : Nat := 0xd00dfeed

/-- `HEADER_SIZE`. -/
def headerSize : Nat := 40

/-- `SUPPORTED_VERSION`. -/
def supportedVersion : Nat := 17

/-- `MAX_BLOB`. -/
def maxBlob : Nat := 1024 * 1024

/-- `Error`. -/
inductive Error
  | null
  | misaligned (va : Nat)
  | badMagic (magic : Nat)
  | tooSmall (totalsize : Nat)
  | tooLarge (totalsize : Nat)
  | version (version : Nat)
  | blockOutOfRange
  | outsideRam (pa : Nat)
  deriving DecidableEq, Repr

/-- `struct Header`. -/
structure Header where
  totalsize : Nat
  offDtStruct : Nat
  offDtStrings : Nat
  offMemRsvmap : Nat
  version : Nat
  lastCompVersion : Nat
  bootCpuidPhys : Nat
  sizeDtStrings : Nat
  sizeDtStruct : Nat
  deriving DecidableEq, Repr

/-- `ends_inside` of `probe`. -/
def endsInside (totalsize offset size : Nat) : Bool :=
  match checkedAdd32 offset size with
  | some stop => stop ≤ totalsize
  | none => false

/-- `probe`. -/
def probe (m : View) (va : Nat) : Except Crash (Except Error Header) := do
  if va = 0 then return .error .null
  if va % 8 ≠ 0 then return .error (.misaligned va)
  let magic' ← be32 m va 0
  if magic' ≠ magic then return .error (.badMagic magic')
  let totalsize ← be32 m va 4
  if totalsize < headerSize then return .error (.tooSmall totalsize)
  if maxBlob < totalsize then return .error (.tooLarge totalsize)
  let header : Header :=
    { totalsize
      offDtStruct := ← be32 m va 8
      offDtStrings := ← be32 m va 12
      offMemRsvmap := ← be32 m va 16
      version := ← be32 m va 20
      lastCompVersion := ← be32 m va 24
      bootCpuidPhys := ← be32 m va 28
      sizeDtStrings := ← be32 m va 32
      sizeDtStruct := ← be32 m va 36 }
  if supportedVersion < header.lastCompVersion ∨ header.version < header.lastCompVersion then
    return .error (.version header.version)
  if endsInside totalsize header.offDtStruct header.sizeDtStruct = false ∨
      endsInside totalsize header.offDtStrings header.sizeDtStrings = false ∨
      totalsize ≤ header.offMemRsvmap then
    return .error .blockOutOfRange
  return .ok header

/-- `struct Blob`. -/
structure Blob where
  pa : Nat
  va : Nat
  header : Header

/-- A computation whose `?` leads to `None`. -/
abbrev Try (α : Type) : Type := Seek Crash α

namespace Blob

/-- `u32_at`. -/
def u32At (m : View) (b : Blob) (offset : Nat) : Try Nat := do
  let stop ← Seek.ofOption (checkedAdd32 offset 4)
  if b.header.totalsize < stop then failure
  Seek.lift (be32 m b.va offset)

/-- `u64_at`. -/
def u64At (m : View) (b : Blob) (offset : Nat) : Try Nat := do
  let high ← b.u32At m offset
  let low ← b.u32At m (← Seek.lift (add32 offset 4))
  return high <<< 32 ||| low

/-- `bytes_at`. -/
def bytesAt (m : View) (b : Blob) (offset len : Nat) : Try (List UInt8) := do
  let stop ← Seek.ofOption (checkedAdd32 offset len)
  if b.header.totalsize < stop then failure
  let ptr ← Seek.lift (add64 b.va offset)
  Seek.lift (fromRawParts m ptr len)

/-- The loop of `str_at`: where the NUL is. -/
def nulFrom (m : View) (b : Blob) (limit stop : Nat) : Try Nat :=
  if stop < limit then do
    let ptr ← Seek.lift (add64 b.va stop)
    let byte ← Seek.lift (load m ptr)
    if byte = 0 then return stop
    else do
      let _ ← Seek.lift (add32 stop 1)
      nulFrom m b limit (stop + 1)
  else failure
termination_by limit - stop

/-- `str_at`. -/
def strAt (m : View) (b : Blob) (offset limit : Nat) : Try (List UInt8) := do
  let limit := min limit b.header.totalsize
  if limit ≤ offset then failure
  let stop ← b.nulFrom m limit offset
  let bytes ← b.bytesAt m offset (stop - offset)
  Seek.ofOption (fromUtf8 bytes)

/-- `string`. -/
def string (m : View) (b : Blob) (nameOffset : Nat) : Try (List UInt8) := do
  let start ← Seek.ofOption (checkedAdd32 b.header.offDtStrings nameOffset)
  let stop ← Seek.ofOption (checkedAdd32 b.header.offDtStrings b.header.sizeDtStrings)
  if stop ≤ start then failure
  b.strAt m start stop

end Blob

end TheRack.Fdt
