/-
  Lib/Memory.lean --- flat byte memory.

  A memory is a total function from addresses to bytes.  Words are stored little
  endian and are read and written by recursion on the width, so the three facts
  every client needs are inductions of one line each: a read depends only on the
  bytes it covers, a write changes only the bytes it covers, and a read gives
  back what was written at the same place.

  Nothing here mentions frames, pages or any particular machine.
-/
import Mathlib.Data.Set.Basic
import Mathlib.Tactic.Ring

set_option autoImplicit false

namespace Lib

/-- Byte-addressed memory. -/
abbrev Mem : Type := Nat → UInt8

namespace Mem

/-- The `n`-byte little-endian number at `a`. -/
def readLE (m : Mem) : Nat → Nat → Nat
  | _, 0 => 0
  | a, n + 1 => (m a).toNat + 256 * readLE m (a + 1) n

/-- Store the low `n` bytes of `v` at `a`, little endian. -/
def writeLE (m : Mem) (a n v : Nat) : Mem := fun x =>
  if a ≤ x ∧ x < a + n then UInt8.ofNat (v / 256 ^ (x - a)) else m x

/-- Store `b` in each of the `n` bytes from `a`. -/
def fill (m : Mem) (a n : Nat) (b : UInt8) : Mem := fun x =>
  if a ≤ x ∧ x < a + n then b else m x

/-- Copy `n` bytes from `src` to `dst`; every byte is read before any is
written. -/
def copy (m : Mem) (src dst n : Nat) : Mem := fun x =>
  if dst ≤ x ∧ x < dst + n then m (src + (x - dst)) else m x

theorem readLE_lt (m : Mem) (a n : Nat) : m.readLE a n < 256 ^ n := by
  induction n generalizing a with
  | zero => simp [readLE]
  | succ n ih =>
    have hb : (m a).toNat < 256 := (m a).toNat_lt
    have hr := ih (a + 1)
    simp only [readLE]
    calc (m a).toNat + 256 * m.readLE (a + 1) n
        < 256 + 256 * m.readLE (a + 1) n := by omega
      _ = 256 * (m.readLE (a + 1) n + 1) := by ring
      _ ≤ 256 * 256 ^ n := Nat.mul_le_mul_left _ hr
      _ = 256 ^ (n + 1) := by ring

/-- A read depends only on the bytes it covers. -/
theorem readLE_congr {m m' : Mem} {a n : Nat}
    (h : ∀ x, a ≤ x → x < a + n → m' x = m x) : m'.readLE a n = m.readLE a n := by
  induction n generalizing a with
  | zero => rfl
  | succ n ih =>
    have h0 : m' a = m a := h a (by omega) (by omega)
    have hr := ih (a := a + 1) fun x h1 h2 => h x (by omega) (by omega)
    simp only [readLE, h0, hr]

theorem writeLE_of_lt {m : Mem} {a n v x : Nat} (h : x < a) : m.writeLE a n v x = m x := by
  simp only [writeLE]; rw [if_neg (by omega)]

theorem writeLE_of_ge {m : Mem} {a n v x : Nat} (h : a + n ≤ x) :
    m.writeLE a n v x = m x := by
  simp only [writeLE]; rw [if_neg (by omega)]

/-- Reading back a whole word gives its value, truncated to the width. -/
theorem readLE_writeLE (m : Mem) (a n v : Nat) :
    (m.writeLE a n v).readLE a n = v % 256 ^ n := by
  induction n generalizing m a v with
  | zero => simp [readLE, Nat.mod_one]
  | succ n ih =>
    have hhead : (m.writeLE a (n + 1) v) a = UInt8.ofNat v := by
      simp [writeLE]
    have htail : (m.writeLE a (n + 1) v).readLE (a + 1) n =
        (m.writeLE (a + 1) n (v / 256)).readLE (a + 1) n := by
      apply readLE_congr
      intro x h1 h2
      simp only [writeLE]
      rw [if_pos (by omega), if_pos (by omega)]
      have hx : x - a = (x - (a + 1)) + 1 := by omega
      rw [hx, Nat.pow_succ, Nat.mul_comm, Nat.div_div_eq_div_mul]
    have hmod : v % 256 ^ (n + 1) = v % 256 + 256 * (v / 256 % 256 ^ n) := by
      rw [Nat.pow_succ, Nat.mul_comm, Nat.mod_mul]
    simp only [readLE, hhead, htail, ih]
    rw [hmod]
    simp [UInt8.toNat_ofNat']

/-- A word written elsewhere is not seen. -/
theorem readLE_writeLE_of_disjoint (m : Mem) {a b k n v : Nat}
    (h : b + k ≤ a ∨ a + n ≤ b) : (m.writeLE a n v).readLE b k = m.readLE b k := by
  apply readLE_congr
  intro x h1 h2
  rcases h with h | h
  · exact writeLE_of_lt (by omega)
  · exact writeLE_of_ge (by omega)

/-- The two memories agree but for the `n` bytes from `a`. -/
def SameBut (a n : Nat) (m m' : Mem) : Prop := ∀ x, x < a ∨ a + n ≤ x → m' x = m x

namespace SameBut

variable {a b k n v : Nat} {m m' m'' : Mem}

theorem refl (a n : Nat) (m : Mem) : SameBut a n m m := fun _ _ => rfl

theorem trans (h : SameBut a n m m') (h' : SameBut a n m' m'') : SameBut a n m m'' :=
  fun x hx => (h' x hx).trans (h x hx)

theorem mono (h : SameBut b k m m') (h1 : a ≤ b) (h2 : b + k ≤ a + n) : SameBut a n m m' :=
  fun x hx => h x (by omega)

theorem writeLE (a n v : Nat) (m : Mem) : SameBut a n m (m.writeLE a n v) := fun _ hx =>
  hx.elim writeLE_of_lt writeLE_of_ge

/-- One more word inside the same bytes. -/
theorem write (h : SameBut a n m m') (h1 : a ≤ b) (h2 : b + k ≤ a + n) :
    SameBut a n m (m'.writeLE b k v) :=
  h.trans ((writeLE b k v m').mono h1 h2)

theorem readLE_eq (h : SameBut a n m m') (hdisj : b + k ≤ a ∨ a + n ≤ b) :
    m'.readLE b k = m.readLE b k :=
  readLE_congr fun x h1 h2 => h x (by omega)

end SameBut

/-- Reading inside a region filled with zeroes gives zero. -/
theorem readLE_eq_zero {m : Mem} {a n : Nat} (h : ∀ x, a ≤ x → x < a + n → m x = 0) :
    m.readLE a n = 0 := by
  induction n generalizing a with
  | zero => rfl
  | succ n ih =>
    have h0 : m a = 0 := h a (by omega) (by omega)
    have hr := ih (a := a + 1) fun x h1 h2 => h x (by omega) (by omega)
    simp [readLE, h0, hr]

theorem fill_apply_of_mem {m : Mem} {a n x : Nat} {b : UInt8} (h : a ≤ x ∧ x < a + n) :
    m.fill a n b x = b := by
  simp only [fill]; rw [if_pos h]

theorem fill_apply_of_not_mem {m : Mem} {a n x : Nat} {b : UInt8}
    (h : ¬ (a ≤ x ∧ x < a + n)) : m.fill a n b x = m x := by
  simp only [fill]; rw [if_neg h]

theorem copy_apply_of_mem {m : Mem} {src dst n x : Nat} (h : dst ≤ x ∧ x < dst + n) :
    m.copy src dst n x = m (src + (x - dst)) := by
  simp only [copy]; rw [if_pos h]

theorem copy_apply_of_not_mem {m : Mem} {src dst n x : Nat}
    (h : ¬ (dst ≤ x ∧ x < dst + n)) : m.copy src dst n x = m x := by
  simp only [copy]; rw [if_neg h]

end Mem

/-! ## Paged memory

`page P a` is the base of the size-`P` page that holds `a`.  A footprint is a
set of page bases; two memories that agree off a footprint agree on every word
that lies in a page outside it. -/

/-- Base address of the page of size `P` holding `a`. -/
def page (P a : Nat) : Nat := a - a % P

theorem page_le (P a : Nat) : page P a ≤ a := Nat.sub_le _ _

theorem lt_page_add {P : Nat} (hP : 0 < P) (a : Nat) : a < page P a + P := by
  have := Nat.mod_lt a hP
  simp only [page]; omega

theorem page_eq_of_mem {P f a : Nat} (hf : P ∣ f) (h1 : f ≤ a) (h2 : a < f + P) :
    page P a = f := by
  obtain ⟨k, rfl⟩ := hf
  have hmod : a % P = a - P * k := by
    have ha : a = (a - P * k) + P * k := by omega
    conv_lhs => rw [ha]
    rw [Nat.add_mul_mod_self_left]
    exact Nat.mod_eq_of_lt (by omega)
  simp only [page, hmod]; omega

theorem dvd_page (P a : Nat) : P ∣ page P a := Nat.dvd_sub_mod a

/-- `m` and `m'` agree on every page whose base is not in `F`. -/
def Mem.SameOff (P : Nat) (F : Set Nat) (m m' : Mem) : Prop :=
  ∀ a, page P a ∉ F → m' a = m a

/-- The bytes of the page of size `P` at `f` are those of `g`. -/
def Mem.Shows (P f : Nat) (g : Nat → UInt8) (m : Mem) : Prop := ∀ i < P, m (f + i) = g i

namespace Mem.SameOff

variable {P : Nat} {F G : Set Nat} {m m' m'' : Mem}

theorem refl (P : Nat) (F : Set Nat) (m : Mem) : SameOff P F m m := fun _ _ => rfl

theorem trans (h : SameOff P F m m') (h' : SameOff P F m' m'') : SameOff P F m m'' :=
  fun a ha => (h' a ha).trans (h a ha)

theorem mono (h : SameOff P F m m') (hFG : F ⊆ G) : SameOff P G m m' :=
  fun a ha => h a fun hF => ha (hFG hF)

/-- A word inside a page off the footprint reads the same. -/
theorem readLE_eq (h : SameOff P F m m') {f a n : Nat} (hf : P ∣ f) (hF : f ∉ F)
    (h1 : f ≤ a) (h2 : a + n ≤ f + P) : m'.readLE a n = m.readLE a n := by
  apply readLE_congr
  intro x hx1 hx2
  apply h
  rwa [page_eq_of_mem hf (by omega) (by omega)]

/-- A page off the footprint shows the same. -/
theorem shows {f : Nat} {g : Nat → UInt8} (h : SameOff P F m m') (hf : P ∣ f) (hF : f ∉ F)
    (hg : m.Shows P f g) : m'.Shows P f g := by
  intro i hi
  rw [h _ (by rwa [page_eq_of_mem hf (by omega) (by omega)])]
  exact hg i hi

theorem writeLE {f a n v : Nat} (hf : P ∣ f) (h1 : f ≤ a) (h2 : a + n ≤ f + P)
    (m : Mem) : SameOff P {f} m (m.writeLE a n v) := by
  intro x hx
  by_cases hin : a ≤ x ∧ x < a + n
  · exact absurd (page_eq_of_mem hf (by omega) (by omega)) hx
  · simp only [Mem.writeLE]; rw [if_neg hin]

theorem fill_page {f : Nat} {b : UInt8} (hf : P ∣ f) (m : Mem) :
    SameOff P {f} m (m.fill f P b) := by
  intro x hx
  by_cases hin : f ≤ x ∧ x < f + P
  · exact absurd (page_eq_of_mem hf hin.1 hin.2) hx
  · exact fill_apply_of_not_mem hin

theorem copy_page {f src dst n : Nat} (hf : P ∣ f) (h1 : f ≤ dst) (h2 : dst + n ≤ f + P)
    (m : Mem) : SameOff P {f} m (m.copy src dst n) := by
  intro x hx
  by_cases hin : dst ≤ x ∧ x < dst + n
  · exact absurd (page_eq_of_mem hf (by omega) (by omega)) hx
  · exact copy_apply_of_not_mem hin

end Mem.SameOff

end Lib
