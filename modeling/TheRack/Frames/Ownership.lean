/-
  Frames/Ownership.lean --- one owner for every frame, over whole runs.

  After `init`, clients call the six operations in any order; what they hold and
  what has been reserved is kept beside the allocator as ghost state.  The one
  rule they follow is that only frames obtained and not yet returned are freed.
  A call that panics ends the run, so it is not a step.

  The ledger invariant of Ledger.lean carries every property: the baseline is
  the kernel image and the reserved frames, and what is held is held once.
-/
import TheRack.Frames.Specs
import TheRack.Lib.Run

set_option autoImplicit false

namespace TheRack.Frames

open Lib

/-- What `init` is called with.  The kernel passes `DEFAULT_RAM_BASE`; all that
is used of it is that RAM starts on a frame and ends inside the address space. -/
structure Board where
  kernelEnd : Nat
  base : Nat
  size : Nat
  base_dvd : frameSize ∣ base
  base_lt : base + maxRam < u64Size

/-- `__kernel_end`, rounded up to a frame. -/
def Board.firstFree (c : Board) : Nat := (c.kernelEnd + (frameSize - 1)) / frameSize * frameSize

/-- The frames of the kernel image. -/
def Board.image (c : Board) : Set Nat :=
  {f | ∃ i, f = c.base + i * frameSize ∧ f < c.firstFree}

/-- A call to the allocator. -/
inductive Call
  | alloc
  | allocContiguous (count : Nat)
  | free (frame : Nat)
  | freeContiguous (frame count : Nat)
  | reserveRange (base len : Nat)
  | adopt (base size : Nat)

/-- How a call came back: with `count` frames, with `None` or `Err`, or done. -/
inductive Answer
  | given (frame count : Nat)
  | refused
  | done

/-- The call, made. -/
def Call.perform : Call → Code Phys Answer
  | .alloc => do
      match ← Frames.alloc with
      | some f => return .given f 1
      | none => return .refused
  | .allocContiguous count => do
      match ← Frames.allocContiguous count with
      | some f => return .given f count
      | none => return .refused
  | .free frame => do
      Frames.free frame
      return .done
  | .freeContiguous frame count => do
      Frames.freeContiguous frame count
      return .done
  | .reserveRange base len => do
      match ← Frames.reserveRange base len with
      | .ok _ => return .done
      | .error _ => return .refused
  | .adopt base size => do
      match ← Frames.adopt base size with
      | .ok _ => return .done
      | .error _ => return .refused

/-- The allocator, with what its clients hold and what was reserved. -/
structure Owned where
  phys : Phys
  held : Multiset Nat
  reserved : Set Nat

/-- Only frames obtained and not yet returned are freed. -/
def Owned.Allows (s : Owned) : Call → Prop
  | .free frame => frame ∈ s.held
  | .freeContiguous frame count => run frame count ≤ s.held
  | _ => True

/-- Who owns what after a call. -/
def Owned.after (s : Owned) (phys : Phys) : Call → Answer → Owned
  | .free frame, .done => ⟨phys, s.held.erase frame, s.reserved⟩
  | .freeContiguous frame count, .done => ⟨phys, s.held - run frame count, s.reserved⟩
  | .reserveRange base len, .done =>
      ⟨phys, s.held, s.reserved ∪ s.phys.frames.overlapping base len⟩
  | _, .given frame count => ⟨phys, run frame count + s.held, s.reserved⟩
  | _, _ => ⟨phys, s.held, s.reserved⟩

/-- One call that returns. -/
def Owned.Step (s : Owned) (c : Call) (s' : Owned) : Prop :=
  s.Allows c ∧ ∃ answer phys, c.perform s.phys = .ok (answer, phys) ∧
    s' = s.after phys c answer

/-- The state `init` leaves behind: nothing held, nothing reserved. -/
def Board.Started (c : Board) (s : Owned) : Prop :=
  ∃ p, p.frames.bitmap = Bitmap.new ∧
    init c.kernelEnd c.base c.size p = .ok ((), s.phys) ∧ s.held = 0 ∧ s.reserved = ∅

/-! ## The invariant -/

/-- The ledger, over the image and the reserved frames. -/
structure Board.Inv (c : Board) (s : Owned) : Prop where
  holds : Holds s.phys.frames (c.image ∪ s.reserved) s.held
  base_eq : s.phys.frames.ramBase = c.base

/-- `init` marks the image, and the frames past the end of RAM. -/
theorem init_spec (c : Board) {p p' : Phys} (hnew : p.frames.bitmap = Bitmap.new)
    (h : init c.kernelEnd c.base c.size p = .ok ((), p')) :
    Holds p'.frames c.image 0 ∧ p'.frames.ramBase = c.base := by
  obtain ⟨hsize, hdvd⟩ := usable_spec c.size
  have hmaxF : usable c.size / frameSize ≤ maxFrames := Nat.div_le_div_right hsize
  obtain ⟨k, hk⟩ := c.base_dvd
  unfold init at h
  rw [Code.bind_ok (Code.get_apply p)] at h
  obtain ⟨reserved, hreserved, h⟩ := Code.of_lift_bind_ok h
  obtain ⟨hle, rfl⟩ := sub64_eq_ok hreserved
  obtain ⟨b₁, hset₁, h⟩ := Code.of_lift_bind_ok h
  obtain ⟨b₂, hset₂, h⟩ := Code.of_lift_bind_ok h
  obtain ⟨free, hfree, h⟩ := Code.of_lift_bind_ok h
  obtain ⟨hin, rfl⟩ := sub64_eq_ok hfree
  obtain rfl : _ = p' := (Prod.ext_iff.mp (Except.ok.inj h)).2
  have hputs := Bitmap.setRange_puts p.frames.bitmap (Nat.zero_le _) (Nat.le_trans hin hmaxF)
  obtain ⟨b, hb, hputs₁⟩ := hputs
  obtain rfl : b = b₁ := Except.ok.inj (hb.symm.trans hset₁)
  obtain ⟨b', hb', hputs₂⟩ := b.setRange_puts (Bitmap.start_le hmaxF) (Nat.le_refl maxFrames)
  obtain rfl : b' = b₂ := Except.ok.inj (hb'.symm.trans hset₂)
  have hclear : ∀ j, p.frames.bitmap.bit j = false := fun j => by rw [hnew]; simp [Bitmap.bit, Bitmap.new]
  have hbit : ∀ j, j < usable c.size / frameSize → (b'.bit j = true ↔
      j < ((c.kernelEnd + (frameSize - 1)) / frameSize * frameSize - c.base) / frameSize) := by
    intro j hj
    rw [hputs₂.bit_eq, if_neg (by omega), hputs₁.bit_eq, hclear]
    simp
  refine ⟨⟨⟨hsize, hdvd, c.base_dvd, c.base_lt, fun j hj hmax => ?_, ?_⟩, fun f => ?_, by simp,
    fun f hf => absurd hf (by simp)⟩, rfl⟩
  · exact (hputs₂.bit_eq j).trans (if_pos ⟨hj, hmax⟩)
  · have hset : Allocator.clearSet
        { bitmap := { b' with
            free := usable c.size / frameSize - (c.firstFree - c.base) / frameSize
            reserved := (c.firstFree - c.base) / frameSize }
          ramBase := c.base, ramLength := usable c.size, imageEnd := c.firstFree } =
        Finset.Ico ((c.firstFree - c.base) / frameSize) (usable c.size / frameSize) := by
      ext j
      rw [Allocator.mem_clearSet, Finset.mem_Ico]
      show j < usable c.size / frameSize ∧ b'.bit j = false ↔ _
      constructor
      · rintro ⟨hj, hb⟩
        refine ⟨?_, hj⟩
        by_contra hlt
        rw [(hbit j hj).mpr (by unfold Board.firstFree at hlt; omega)] at hb
        exact absurd hb (by simp)
      · rintro ⟨hge, hj⟩
        refine ⟨hj, Bool.eq_false_iff.mpr fun hb => ?_⟩
        have := (hbit j hj).mp hb
        unfold Board.firstFree at hge
        omega
    show _ = (Allocator.clearSet _).card
    exact ((congrArg Finset.card hset).trans (Nat.card_Ico _ _)).symm
  · have himage : ∀ i, i < usable c.size / frameSize → (b'.bit i = true ↔
        c.base + i * frameSize < c.firstFree) := by
      intro i hi
      rw [hbit i hi]
      unfold Board.firstFree
      rw [frameSize_eq] at *
      omega
    constructor
    · rintro ⟨i, hi, rfl, hb⟩
      exact .inl ⟨i, rfl, (himage i hi).mp hb⟩
    · rintro (⟨i, rfl, hlt⟩ | h0)
      · have hi : i < usable c.size / frameSize := by
          unfold Board.firstFree at hlt
          rw [frameSize_eq] at *
          omega
        exact ⟨i, hi, rfl, (himage i hi).mpr hlt⟩
      · exact absurd h0 (by simp)

/-- How many frames `init` leaves free. -/
theorem init_free (c : Board) {p p' : Phys}
    (h : init c.kernelEnd c.base c.size p = .ok ((), p')) :
    p'.frames.bitmap.free = usable c.size / frameSize - (c.firstFree - c.base) / frameSize := by
  unfold init at h
  rw [Code.bind_ok (Code.get_apply p)] at h
  obtain ⟨reserved, hreserved, h⟩ := Code.of_lift_bind_ok h
  obtain ⟨-, rfl⟩ := sub64_eq_ok hreserved
  obtain ⟨b₁, -, h⟩ := Code.of_lift_bind_ok h
  obtain ⟨b₂, -, h⟩ := Code.of_lift_bind_ok h
  obtain ⟨free, hfree, h⟩ := Code.of_lift_bind_ok h
  obtain ⟨-, rfl⟩ := sub64_eq_ok hfree
  obtain rfl : _ = p' := (Prod.ext_iff.mp (Except.ok.inj h)).2
  rfl

/-- The RAM `init` manages. -/
theorem init_ram (c : Board) {p p' : Phys}
    (h : init c.kernelEnd c.base c.size p = .ok ((), p')) :
    p'.frames.ramBase = c.base ∧ p'.frames.ramLength = usable c.size ∧ p'.mem = p.mem := by
  unfold init at h
  rw [Code.bind_ok (Code.get_apply p)] at h
  obtain ⟨reserved, hreserved, h⟩ := Code.of_lift_bind_ok h
  obtain ⟨b₁, -, h⟩ := Code.of_lift_bind_ok h
  obtain ⟨b₂, -, h⟩ := Code.of_lift_bind_ok h
  obtain ⟨free, hfree, h⟩ := Code.of_lift_bind_ok h
  obtain rfl : _ = p' := (Prod.ext_iff.mp (Except.ok.inj h)).2
  exact ⟨rfl, rfl, rfl⟩

/-- `init` goes through when the image lies inside RAM. -/
theorem init_ok (c : Board) (p : Phys) (hlow : c.base ≤ c.firstFree)
    (hhigh : (c.firstFree - c.base) / frameSize ≤ usable c.size / frameSize) :
    ∃ p', init c.kernelEnd c.base c.size p = .ok ((), p') := by
  have hmaxF : usable c.size / frameSize ≤ maxFrames := Nat.div_le_div_right (usable_spec _).1
  obtain ⟨b₁, hset₁, _⟩ := p.frames.bitmap.setRange_puts (Nat.zero_le _)
    (Nat.le_trans hhigh hmaxF)
  obtain ⟨b₂, hset₂, _⟩ := b₁.setRange_puts (Bitmap.start_le hmaxF) (Nat.le_refl maxFrames)
  unfold init
  rw [Code.bind_ok (Code.get_apply p)]
  exact ⟨_, (Code.bind_ok (Code.lift_ok (sub64_ok hlow) p)).trans
    ((Code.bind_ok (Code.lift_ok hset₁ p)).trans
      ((Code.bind_ok (Code.lift_ok hset₂ p)).trans
        (Code.bind_ok (Code.lift_ok (sub64_ok hhigh) p))))⟩

theorem Board.Started.inv {c : Board} {s : Owned} (h : c.Started s) : c.Inv s := by
  obtain ⟨p, hnew, hinit, hheld, hreserved⟩ := h
  obtain ⟨hholds, hbase⟩ := init_spec c hnew hinit
  refine ⟨?_, hbase⟩
  rw [hheld, hreserved, Set.union_empty]
  exact hholds

/-- What a call may answer in a state of the invariant, and that the invariant
holds after it. -/
structure Board.Keeps (c : Board) (s : Owned) (call : Call) (answer : Answer) (phys : Phys) :
    Prop where
  inv : c.Inv (s.after phys call answer)
  refused : answer = .refused → phys = s.phys
  given : ∀ f n, answer = .given f n → Allocated s.phys phys (c.image ∪ s.reserved) s.held f n

/-- A refused call changes nothing. -/
theorem Board.Inv.keeps_refused {c : Board} {s : Owned} (h : c.Inv s) (call : Call) :
    c.Keeps s call .refused s.phys := by
  refine ⟨?_, fun _ => rfl, fun _ _ => (nomatch ·)⟩
  cases call <;> exact ⟨h.holds, h.base_eq⟩

/-- The step lemma: one case per operation. -/
theorem Board.Inv.perform {c : Board} {s : Owned} (h : c.Inv s) {call : Call} {answer : Answer}
    {phys : Phys} (hallows : s.Allows call) (hcall : call.perform s.phys = .ok (answer, phys)) :
    c.Keeps s call answer phys := by
  cases call with
  | alloc =>
    rcases alloc_spec h.holds with ⟨hnone, _⟩ | ⟨f, p', hsome, ha⟩
    · rw [Call.perform, Code.bind_ok hnone] at hcall
      cases hcall
      exact h.keeps_refused _
    · rw [Call.perform, Code.bind_ok hsome] at hcall
      cases hcall
      refine ⟨⟨ha.holds, ha.ram.base.trans h.base_eq⟩, (nomatch ·), fun g n hg => ?_⟩
      cases hg
      exact ha
  | allocContiguous count =>
    rcases Nat.eq_zero_or_pos count with rfl | hcount
    · have hzero : Frames.allocContiguous 0 s.phys = .error .zeroCount :=
        Code.bind_error (Code.assert_error (Nat.lt_irrefl 0) _)
      rw [Call.perform, Code.bind_error hzero] at hcall
      cases hcall
    · rcases allocContiguous_spec h.holds hcount with hnone | ⟨f, p', hsome, ha⟩
      · rw [Call.perform, Code.bind_ok hnone] at hcall
        cases hcall
        exact h.keeps_refused _
      · rw [Call.perform, Code.bind_ok hsome] at hcall
        cases hcall
        refine ⟨⟨ha.holds, ha.ram.base.trans h.base_eq⟩, (nomatch ·), fun g n hg => ?_⟩
        cases hg
        exact ha
  | free frame =>
    have hcons : frame ::ₘ s.held.erase frame = s.held := Multiset.cons_erase hallows
    obtain ⟨p', hfree, hfreed⟩ := free_spec (hcons.symm ▸ h.holds)
    rw [Call.perform, Code.bind_ok hfree] at hcall
    cases hcall
    exact ⟨⟨hfreed.holds, hfreed.ram.base.trans h.base_eq⟩, (nomatch ·), fun _ _ => (nomatch ·)⟩
  | freeContiguous frame count =>
    have hadd : run frame count + (s.held - run frame count) = s.held :=
      add_tsub_cancel_of_le hallows
    obtain ⟨p', hfree, hfreed⟩ := freeContiguous_spec (hadd.symm ▸ h.holds)
    rw [Call.perform, Code.bind_ok hfree] at hcall
    cases hcall
    exact ⟨⟨hfreed.holds, hfreed.ram.base.trans h.base_eq⟩, (nomatch ·), fun _ _ => (nomatch ·)⟩
  | reserveRange base len =>
    rcases reserveRange_spec h.holds base len with ⟨e, herr, -⟩ | ⟨e, herr, _⟩ |
        ⟨n, p', hok, hholds, _, hram, _, _⟩
    · rw [Call.perform, Code.bind_error herr] at hcall
      cases hcall
    · rw [Call.perform, Code.bind_ok herr] at hcall
      cases hcall
      exact h.keeps_refused _
    · rw [Call.perform, Code.bind_ok hok] at hcall
      cases hcall
      refine ⟨⟨?_, hram.base.trans h.base_eq⟩, (nomatch ·), fun _ _ => (nomatch ·)⟩
      rw [Set.union_assoc] at hholds
      exact hholds
  | adopt base size =>
    rcases adopt_spec h.holds base size with ⟨e, herr⟩ | ⟨d, p', hok, hholds, _, hbase, _⟩
    · rw [Call.perform, Code.bind_ok herr] at hcall
      cases hcall
      exact h.keeps_refused _
    · rw [Call.perform, Code.bind_ok hok] at hcall
      cases hcall
      exact ⟨⟨hholds, hbase.trans h.base_eq⟩, (nomatch ·), fun _ _ => (nomatch ·)⟩

/-- The run lemma. -/
theorem Board.inv_of_run {c : Board} {s : Owned} (h : Run c.Started Owned.Step s) : c.Inv s := by
  refine h.invariant (fun s hs => hs.inv) ?_
  rintro s call s' hinv ⟨hallows, answer, phys, hcall, rfl⟩
  exact (hinv.perform hallows hcall).inv

/-! ## What clients rely on -/

/-- A frame that no one else has: inside RAM, zeroed, held by nobody, not
reserved and not part of the image. -/
structure Board.Fresh (c : Board) (s : Owned) (phys : Phys) (g : Nat) : Prop where
  in_ram : s.phys.frames.ramBase ≤ g ∧ g + frameSize ≤ s.phys.frames.ramEnd
  zeroed : ∀ x, g ≤ x → x < g + frameSize → phys.mem x = 0
  not_held : g ∉ s.held
  not_reserved : g ∉ s.reserved
  not_image : c.kernelEnd ≤ g

theorem Board.fresh_of_allocated {c : Board} {s : Owned} {phys : Phys} {f n g : Nat}
    (h : c.Inv s) (ha : Allocated s.phys phys (c.image ∪ s.reserved) s.held f n)
    (hg : g ∈ run f n) : c.Fresh s phys g := by
  obtain ⟨k, hk, rfl⟩ := mem_run.mp hg
  have hmul : k * frameSize + frameSize ≤ n * frameSize := by
    rw [← Nat.succ_mul]
    exact Nat.mul_le_mul_right _ hk
  have hlow := ha.base_le
  have hhigh := ha.le_end
  have hbase := ha.holds.not_base _ (Multiset.mem_add.mpr (.inl hg))
  refine ⟨⟨by omega, by omega⟩, fun x h1 h2 => ?_, fun hM => ?_, fun hR => hbase (.inr hR), ?_⟩
  · rw [ha.mem_eq]
    exact Mem.fill_apply_of_mem ⟨by omega, by omega⟩
  · exact Multiset.disjoint_left.mp (Multiset.nodup_add.mp ha.holds.nodup).2.2 hg hM
  · obtain ⟨i, hi⟩ := c.base_dvd
    obtain ⟨j, hj⟩ := ha.aligned
    have hbase' := h.base_eq
    have hnot : ¬ f + k * frameSize < c.firstFree := by
      intro hlt
      refine hbase (.inl ⟨j - i + k, ?_, hlt⟩)
      rw [frameSize_eq] at *
      omega
    unfold Board.firstFree at hnot
    rw [frameSize_eq] at *
    omega

/-- In every state a run reaches: the counter counts the clear bits below the
end of RAM, no bit past it is clear, every frame a call hands out is nobody
else's, and a call that is refused changes nothing. -/
theorem one_owner_per_frame {c : Board} {s : Owned} (h : Run c.Started Owned.Step s) :
    s.phys.frames.bitmap.free =
        ((Finset.range s.phys.frames.frameCount).filter
          fun i => s.phys.frames.bitmap.bit i = false).card ∧
    (∀ i, s.phys.frames.frameCount ≤ i → i < maxFrames → s.phys.frames.bitmap.bit i = true) ∧
    ∀ call answer phys, s.Allows call → call.perform s.phys = .ok (answer, phys) →
      (answer = .refused → phys = s.phys) ∧
      ∀ f n, answer = .given f n → (run f n).Nodup ∧ ∀ g ∈ run f n, c.Fresh s phys g := by
  have hinv := c.inv_of_run h
  refine ⟨hinv.holds.wf.free_eq, hinv.holds.wf.high_set, fun call answer phys hallows hcall => ?_⟩
  have hkeeps := hinv.perform hallows hcall
  refine ⟨hkeeps.refused, fun f n hg => ⟨nodup_run f n, fun g hmem => ?_⟩⟩
  exact c.fresh_of_allocated hinv (hkeeps.given f n hg) hmem

/-- QEMU's virt board at the default size, with a 2 MiB image. -/
def virtBoard : Board where
  kernelEnd := 0x40200000
  base := defaultRamBase
  size := defaultRamSize
  base_dvd := by decide
  base_lt := by decide

theorem virtBoard_one_owner_per_frame :
    ∃ s, virtBoard.Started s ∧ s.phys.frames.bitmap.free =
        ((Finset.range s.phys.frames.frameCount).filter
          fun i => s.phys.frames.bitmap.bit i = false).card ∧
      ∀ f phys, Frames.alloc s.phys = .ok (some f, phys) → virtBoard.Fresh s phys f := by
  obtain ⟨phys, hinit⟩ := init_ok virtBoard
    ⟨fun _ => 0, ⟨Bitmap.new, 0, 0, 0⟩⟩ (by decide) (by decide)
  have hstart : virtBoard.Started ⟨phys, 0, ∅⟩ := ⟨_, rfl, hinit, rfl, rfl⟩
  obtain ⟨hfree, _, hcalls⟩ := one_owner_per_frame (.start hstart)
  refine ⟨_, hstart, hfree, fun f phys' halloc => ?_⟩
  have hcall : Call.alloc.perform phys = .ok (.given f 1, phys') := by
    rw [Call.perform, Code.bind_ok halloc]
    rfl
  exact ((hcalls .alloc _ _ trivial hcall).2 f 1 rfl).2 f (by simp [run_one])

/-! ## First fit -/

/-- In every well-formed allocator `alloc_contiguous` gives a run exactly when RAM
has one; what it gives starts at the lowest, and the bits of that run, its length
in the counter and the zeroed frames are all that changes.  Without a run it
refuses and nothing changes. -/
theorem alloc_contiguous_is_first_fit {p : Phys} (hwf : p.frames.Wf) (count : Nat)
    (hcount : 0 < count) :
    ((∃ f p', Frames.allocContiguous count p = .ok (some f, p')) ↔
        (p.frames.runs count).Nonempty) ∧
      (∀ f p', Frames.allocContiguous count p = .ok (some f, p') →
        ∃ first, f = p.frames.fromIndex first ∧ IsLeast (p.frames.runs count) first ∧
          TakesRun p p' count first) ∧
      (p.frames.runs count = ∅ → Frames.allocContiguous count p = .ok (none, p)) := by
  rcases allocContiguous_lowest hwf hcount with ⟨hnone, hempty⟩ | ⟨first, q, hsome, hleast, htakes⟩
  · refine ⟨⟨?_, ?_⟩, ?_, fun _ => hnone⟩
    · rintro ⟨f, p', hok⟩
      exact nomatch hnone.symm.trans hok
    · intro hrun
      rw [hempty] at hrun
      exact absurd hrun Set.not_nonempty_empty
    · intro f p' hok
      exact nomatch hnone.symm.trans hok
  · have hrun : (p.frames.runs count).Nonempty := ⟨first, hleast.1⟩
    refine ⟨⟨fun _ => hrun, fun _ => ⟨_, q, hsome⟩⟩, ?_, ?_⟩
    · intro f p' hok
      obtain ⟨hf, hp⟩ := Prod.mk.inj (Except.ok.inj (hsome.symm.trans hok))
      obtain rfl := Option.some.inj hf
      subst hp
      exact ⟨first, rfl, hleast, htakes⟩
    · intro hempty
      rw [hempty] at hrun
      exact absurd hrun Set.not_nonempty_empty

/-- A kernel stack, taken right after `init`. -/
theorem virtBoard_alloc_contiguous_is_first_fit :
    ∃ p : Phys, p.frames.Wf ∧
      ((∃ f p', Frames.allocContiguous 4 p = .ok (some f, p')) ↔ (p.frames.runs 4).Nonempty) ∧
      (∀ f p', Frames.allocContiguous 4 p = .ok (some f, p') →
        ∃ first, f = p.frames.fromIndex first ∧ IsLeast (p.frames.runs 4) first ∧
          TakesRun p p' 4 first) ∧
      (p.frames.runs 4 = ∅ → Frames.allocContiguous 4 p = .ok (none, p)) := by
  obtain ⟨p, hinit⟩ := init_ok virtBoard
    ⟨fun _ => 0, ⟨Bitmap.new, 0, 0, 0⟩⟩ (by decide) (by decide)
  have hwf : p.frames.Wf := (init_spec virtBoard rfl hinit).1.wf
  exact ⟨p, hwf, alloc_contiguous_is_first_fit hwf 4 (by decide)⟩

end TheRack.Frames
