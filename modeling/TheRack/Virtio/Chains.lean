/-
  Virtio/Chains.lean --- lists of descriptors, and what the driver does to them.

  A list is threaded through the `next` fields; a chain describes buffers.  `add`
  cuts a chain off the front of the free list without changing a `next`, and
  `recycle` puts one back by changing one, that of its last descriptor.
-/
import TheRack.Virtio.Rings
import Mathlib.Data.List.Basic

set_option autoImplicit false

namespace TheRack.Virtio

open Lib

namespace Queue

/-- The descriptors visited by `n` steps along `next`, from `i`. -/
def walk (q : Queue) (m : Mem) : Nat → Nat → List Nat
  | 0, _ => []
  | n + 1, i => i :: walk q m n (q.descriptorNext m i)

/-- Following `next` from `head` visits the descriptors of the list. -/
def Linked (q : Queue) (m : Mem) : Nat → List Nat → Prop
  | _, [] => True
  | head, i :: rest => head = i ∧ q.Linked m (q.descriptorNext m i) rest

/-- The descriptors describe the buffers, each but the last chained to another. -/
def Describes (q : Queue) (m : Mem) : List Nat → List Buffer → Prop
  | [], [] => True
  | i :: rest, buffer :: buffers =>
      (q.descriptor m i).pa = buffer.pa ∧ (q.descriptor m i).len = buffer.len ∧
        (q.descriptor m i).flags = flagsOf buffer (!buffers.isEmpty) ∧ q.Describes m rest buffers
  | _, _ => False

/-- What the device finds from `head` on are the buffers, in the descriptors of the
chain. -/
structure Carries (q : Queue) (m : Mem) (head : Nat) (chain : List Nat) (buffers : List Buffer) :
    Prop where
  linked : q.Linked m head chain
  describes : q.Describes m chain buffers
  ne_nil : chain ≠ []

variable {q q' : Queue} {m m' : Mem} {head : Nat} {chain l l' : List Nat} {buffers : List Buffer}

theorem Linked.walk_eq (h : q.Linked m head l) : q.walk m l.length head = l := by
  induction l generalizing head with
  | nil => rfl
  | cons i rest ih =>
    obtain ⟨rfl, hrest⟩ := h
    show head :: _ = _
    rw [ih hrest]

theorem Linked.congr (h : q.Linked m head l)
    (hsame : ∀ i ∈ l, q'.descriptorNext m' i = q.descriptorNext m i) : q'.Linked m' head l := by
  induction l generalizing head with
  | nil => trivial
  | cons i rest ih =>
    refine ⟨h.1, ?_⟩
    rw [hsame i List.mem_cons_self]
    exact ih h.2 fun j hj => hsame j (List.mem_cons_of_mem i hj)

/-- The front of a list. -/
theorem Linked.left (h : q.Linked m head (l ++ l')) : q.Linked m head l := by
  induction l generalizing head with
  | nil => trivial
  | cons i rest ih => exact ⟨h.1, ih h.2⟩

theorem Describes.congr (h : q.Describes m chain buffers)
    (hsame : ∀ i ∈ chain, q'.descriptor m' i = q.descriptor m i) :
    q'.Describes m' chain buffers := by
  induction chain generalizing buffers with
  | nil => cases buffers with
    | nil => trivial
    | cons _ _ => exact h
  | cons i rest ih =>
    cases buffers with
    | nil => exact h
    | cons buffer buffers =>
      obtain ⟨h1, h2, h3, h4⟩ := h
      unfold Describes
      rw [hsame i List.mem_cons_self]
      exact ⟨h1, h2, h3, ih h4 fun j hj => hsame j (List.mem_cons_of_mem i hj)⟩

theorem Describes.length_eq (h : q.Describes m chain buffers) : chain.length = buffers.length := by
  induction chain generalizing buffers with
  | nil => cases buffers with
    | nil => rfl
    | cons _ _ => exact h.elim
  | cons i rest ih =>
    cases buffers with
    | nil => exact h.elim
    | cons buffer buffers => rw [List.length_cons, List.length_cons, ih h.2.2.2]

theorem Carries.congr (h : q.Carries m head chain buffers)
    (hsame : ∀ i ∈ chain, q'.descriptor m' i = q.descriptor m i) :
    q'.Carries m' head chain buffers :=
  ⟨h.linked.congr fun i hi => congrArg Descriptor.next (hsame i hi), h.describes.congr hsame,
    h.ne_nil⟩

theorem Carries.head_mem (h : q.Carries m head chain buffers) : head ∈ chain := by
  obtain ⟨hlinked, -, hne⟩ := h
  cases chain with
  | nil => exact absurd rfl hne
  | cons i rest => exact hlinked.1 ▸ List.mem_cons_self

/-! ## The free list threaded -/

/-- Threading makes each descriptor point to the next one. -/
theorem thread_next (n : Nat) : ∀ (index : Nat) (m : Mem), index + n < u16Size → ∀ i,
    q.descriptorNext (q.thread n index m) i =
      if index ≤ i ∧ i < index + n then i + 1 else q.descriptorNext m i := by
  induction n with
  | zero =>
    intro index m _ i
    rw [if_neg (by omega)]
    rfl
  | succ n ih =>
    intro index m hlt i
    unfold thread
    rw [ih (index + 1) _ (by omega) i]
    by_cases hi : i = index
    · subst hi
      rw [if_neg (by omega), if_pos (by omega)]
      exact congrArg Descriptor.next (writeDescriptorNext_self q m i (by omega))
    · have hother : q.descriptorNext (q.writeDescriptorNext m index (index + 1)) i =
          q.descriptorNext m i :=
        congrArg Descriptor.next
          (descriptor_congr (writeDescriptorNext_but q m index _) (descBase_disjoint hi))
      rw [hother]
      by_cases hin : index + 1 ≤ i ∧ i < index + 1 + n
      · rw [if_pos hin, if_pos (by omega)]
      · rw [if_neg hin, if_neg (by omega)]

/-- It writes to nothing but descriptors. -/
theorem thread_but (n : Nat) : ∀ (index : Nat) (m : Mem), index + n ≤ queueSize →
    Mem.SameBut (q.ringPtr descOffset) availOffset m (q.thread n index m) := by
  induction n with
  | zero => exact fun _ _ _ => .refl _ _ _
  | succ n ih =>
    intro index m hle
    have hbase := descBase_le (i := index) (by omega)
    refine Mem.SameBut.trans ((writeDescriptorNext_but q m index (index + 1)).mono ?_ ?_)
      (ih (index + 1) _ (by omega))
    all_goals
      unfold ringPtr
      unfold descOffset
      omega

/-! ## `add` -/

/-- The loop of `add` cuts the first descriptors off the free list and makes them
describe the buffers. -/
theorem addFrom_spec (buffers : List Buffer) : ∀ (l l' : List Nat) (index : Nat) (m : Mem)
    (freeHead : Nat), buffers ≠ [] → l.length = buffers.length → l.Nodup →
    (∀ i ∈ l, i < queueSize) → q.Linked m index (l ++ l') →
    ∀ m' freeHead', q.addFrom buffers index m freeHead = (m', freeHead') →
      (∀ i, q.descriptorNext m' i = q.descriptorNext m i) ∧
      (∀ i, i ∉ l → q.descriptor m' i = q.descriptor m i) ∧
      q.Describes m' l buffers ∧ q.Linked m freeHead' l' ∧ freeHead' < u16Size ∧
      Mem.SameBut (q.ringPtr descOffset) availOffset m m' := by
  induction buffers with
  | nil => exact fun _ _ _ _ _ h => absurd rfl h
  | cons buffer rest ih =>
    intro l l' index m freeHead _ hlen hnodup hlt hlinked m' freeHead' hadd
    cases l with
    | nil => exact absurd hlen (by simp)
    | cons i tail =>
      obtain ⟨rfl, hlinked⟩ := hlinked
      obtain ⟨hfresh, hnodup⟩ := List.nodup_cons.mp hnodup
      have hi := hlt index List.mem_cons_self
      -- the descriptor is rewritten with the `next` it had
      have hself := writeDescriptor_self q m index buffer (!rest.isEmpty) (descriptorNext_lt q m index)
      have hbut := writeDescriptor_but q m index buffer (q.descriptorNext m index) (!rest.isEmpty)
      have hother : ∀ j, j ≠ index → q.descriptor
          (q.writeDescriptor m index buffer (q.descriptorNext m index) (!rest.isEmpty)) j =
          q.descriptor m j := fun j hj => descriptor_congr hbut (descBase_disjoint hj)
      have hnext : ∀ j, q.descriptorNext
          (q.writeDescriptor m index buffer (q.descriptorNext m index) (!rest.isEmpty)) j =
          q.descriptorNext m j := by
        intro j
        by_cases hj : j = index
        · rw [hj, ← descriptor_next, hself]
        · exact congrArg Descriptor.next (hother j hj)
      have hbase := descBase_le hi
      have hbut' := hbut.mono (a := q.ringPtr descOffset) (n := availOffset)
        (by unfold ringPtr descOffset; omega) (by unfold ringPtr descOffset; omega)
      unfold addFrom at hadd
      simp only at hadd
      cases rest with
      | nil =>
        obtain ⟨hm, hhead⟩ : q.writeDescriptor m index buffer (q.descriptorNext m index)
            (!List.isEmpty ([] : List Buffer)) = m' ∧ q.descriptorNext m index = freeHead' :=
          Prod.ext_iff.mp hadd
        subst hm hhead
        obtain rfl : tail = [] := List.length_eq_zero_iff.mp (by simpa using hlen)
        refine ⟨hnext, fun j hj => hother j (by simpa using hj), ?_, hlinked,
          descriptorNext_lt q m index, hbut'⟩
        unfold Describes
        rw [hself]
        exact ⟨rfl, rfl, rfl, trivial⟩
      | cons buffer' rest' =>
        have hlinked' : q.Linked (q.writeDescriptor m index buffer (q.descriptorNext m index)
            (!(buffer' :: rest').isEmpty)) _ (tail ++ l') := hlinked.congr fun j _ => hnext j
        obtain ⟨h1, h2, h3, h4, h5, h6⟩ := ih tail l' _ _ freeHead (by simp) (by simpa using hlen) hnodup
          (fun j hj => hlt j (List.mem_cons_of_mem index hj)) hlinked' m' freeHead' hadd
        refine ⟨fun j => (h1 j).trans (hnext j), fun j hj => ?_, ?_, h4.congr fun j _ => (hnext j).symm,
          h5, hbut'.trans h6⟩
        · obtain ⟨hne, hnot⟩ := not_or.mp (mt List.mem_cons.mpr hj)
          exact (h2 j hnot).trans (hother j hne)
        · unfold Describes
          rw [h2 index hfresh, hself]
          exact ⟨rfl, rfl, rfl, h3⟩

/-! ## `recycle` -/

theorem chained_iff (buffer : Buffer) (chained : Bool) :
    flagsOf buffer chained &&& descNext ≠ 0 ↔ chained = true := by
  unfold flagsOf
  cases chained <;> cases buffer.deviceWrites <;> decide

/-- The walk finds the last descriptor of the chain. -/
theorem chainEnd_spec (chain : List Nat) : ∀ (n head length : Nat) (buffers : List Buffer),
    q.Linked m head chain → q.Describes m chain buffers → (hne : chain ≠ []) → chain.length ≤ n →
    length + chain.length ≤ u16Size →
    q.chainEnd m n head length = .ok (chain.getLast hne, length + chain.length - 1) := by
  induction chain with
  | nil => exact fun _ _ _ _ _ _ h => absurd rfl h
  | cons i rest ih =>
    intro n head length buffers hlinked hdescribes hne hn hlen
    obtain ⟨rfl, hlinked⟩ := hlinked
    rw [List.length_cons] at hn hlen
    cases n with
    | zero => omega
    | succ n =>
      cases buffers with
      | nil => exact hdescribes.elim
      | cons buffer buffers =>
        obtain ⟨-, -, hflags, hdescribes⟩ := hdescribes
        have hmore := chained_iff buffer (!buffers.isEmpty)
        rw [← hflags, descriptor_flags] at hmore
        have hlength := hdescribes.length_eq
        unfold chainEnd
        cases rest with
        | nil =>
          obtain rfl : buffers = [] := List.length_eq_zero_iff.mp hlength.symm
          rw [if_neg (fun h => absurd (hmore.mp h) (by decide))]
          rfl
        | cons j rest =>
          have hchained : (!buffers.isEmpty) = true := by
            cases buffers with
            | nil => exact absurd hlength (by simp)
            | cons _ _ => rfl
          have hadd : add16 length 1 = .ok (length + 1) := by
            rw [List.length_cons] at hlen
            exact if_pos (by omega)
          rw [if_pos (hmore.mpr hchained), hadd]
          have hrest := ih n _ (length + 1) buffers hlinked hdescribes (by simp) (by omega) (by omega)
          have hcount : length + 1 + (j :: rest).length - 1 =
              length + (head :: j :: rest).length - 1 := by
            simp only [List.length_cons]
            omega
          rw [List.getLast_cons (by simp), ← hcount]
          exact hrest

/-- A chain whose last descriptor is made to point to a list goes in front of it. -/
theorem Linked.append (hne : chain ≠ []) (hnodup : chain.Nodup) (hlast : chain.getLast hne ∉ l)
    (hchain : q.Linked m head chain) {freeHead : Nat} (hl : q.Linked m freeHead l)
    (hlt : freeHead < u16Size) :
    q.Linked (q.writeDescriptorNext m (chain.getLast hne) freeHead) head (chain ++ l) := by
  have hother : ∀ j, j ≠ chain.getLast hne →
      q.descriptorNext (q.writeDescriptorNext m (chain.getLast hne) freeHead) j =
        q.descriptorNext m j := fun j hj => congrArg Descriptor.next
    (descriptor_congr (writeDescriptorNext_but q m _ freeHead) (descBase_disjoint hj))
  have hself : q.descriptorNext (q.writeDescriptorNext m (chain.getLast hne) freeHead)
      (chain.getLast hne) = freeHead :=
    congrArg Descriptor.next (writeDescriptorNext_self q m _ hlt)
  have hl' : q.Linked (q.writeDescriptorNext m (chain.getLast hne) freeHead) freeHead l :=
    hl.congr fun j hj => hother j fun heq => hlast (heq ▸ hj)
  generalize hm : q.writeDescriptorNext m (chain.getLast hne) freeHead = m' at *
  clear hm hl
  induction chain generalizing head with
  | nil => exact absurd rfl hne
  | cons i rest ih =>
    obtain ⟨rfl, hchain⟩ := hchain
    obtain ⟨hfresh, hnodup⟩ := List.nodup_cons.mp hnodup
    refine ⟨rfl, ?_⟩
    cases rest with
    | nil =>
      have hnext : q.descriptorNext m' head = freeHead := hself
      rw [hnext]
      exact hl'
    | cons j rest =>
      have hcons : (head :: j :: rest).getLast hne = (j :: rest).getLast (by simp) :=
        List.getLast_cons (by simp)
      have hnotLast : head ≠ (head :: j :: rest).getLast hne := by
        rw [hcons]
        exact fun heq => hfresh (heq ▸ List.getLast_mem _)
      rw [hother head hnotLast]
      rw [hcons] at hlast hother hself
      exact ih (by simp) hnodup hlast hchain hother hself

end Queue

end TheRack.Virtio
