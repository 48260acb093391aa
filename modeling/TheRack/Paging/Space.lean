/-
  Paging/Space.lean --- `destroy` undoes `new` and `map`.

  While a space is made, the frames taken since the start are its tables, what
  its leaves map, and the frames that wait to be mapped (`Owning`).  Ranges that
  do not overlap lose no table and no leaf, so what `destroy` frees is what was
  taken.
-/
import TheRack.Paging.Exact
import TheRack.Paging.Destroy

set_option autoImplicit false

namespace TheRack.Paging

open Lib Frames

/-- What a call of `map` was given. -/
structure Mapping where
  va : Nat
  pa : Nat
  size : Nat
  attrs : Attributes

/-- The frames a call of `map` maps. -/
def Mapping.frames (r : Mapping) : Multiset Nat := run r.pa (pageUp r.size / pageSize)

/-- The ranges of two calls share no page. -/
def Mapping.Disjoint (r r' : Mapping) : Prop :=
  r.va + pageUp r.size ≤ r'.va ∨ r'.va + pageUp r'.size ≤ r.va

/-- An address space on its way: made from `p₀` with the ranges `rs` mapped, and with
the frames `K` allocated for it and not mapped yet. -/
inductive Made (p₀ : Phys) (root : Nat) : List Mapping → Multiset Nat → Phys → Prop
  | new {p : Phys} : Low p₀ → p₀.frames.Wf → AddressSpace.new p₀ = .ok (root, p) →
      Made p₀ root [] 0 p
  | alloc {rs : List Mapping} {K : Multiset Nat} {p p' : Phys} {f : Nat} : Made p₀ root rs K p →
      Frames.alloc p = .ok (some f, p') → Made p₀ root rs ({f} + K) p'
  | allocContiguous {rs : List Mapping} {K : Multiset Nat} {p p' : Phys} {f count : Nat} :
      Made p₀ root rs K p → Frames.allocContiguous count p = .ok (some f, p') →
      Made p₀ root rs (run f count + K) p'
  /-- the kernel or the task writes to what is allocated or mapped -/
  | write {rs : List Mapping} {K : Multiset Nat} {p : Phys} {m : Mem} : Made p₀ root rs K p →
      Mem.SameOff frameSize {f | f ∈ leafFrames p.mem 3 root + K} p.mem m →
      Made p₀ root rs K { p with mem := m }
  | map {rs : List Mapping} {K : Multiset Nat} {p p' : Phys} {r : Mapping} :
      Made p₀ root rs (r.frames + K) p → pageSize ∣ r.va → r.va + r.size ≤ 2 ^ 48 →
      (∀ r' ∈ rs, r.Disjoint r') →
      AddressSpace.map root r.va r.pa r.size r.attrs p = .ok ((), p') →
      Made p₀ root (r :: rs) K p'

/-- Everything taken since `p₀` is a table of the tree, mapped by it, or waits to be
mapped; and nothing but the ranges is mapped. -/
structure Owning (p₀ : Phys) (root : Nat) (rs : List Mapping) (K : Multiset Nat) (p : Phys) :
    Prop where
  start : p₀.frames.Wf
  low : Low p
  ram : p₀.frames.SameRam p.frames
  holds : Holds p.frames {f | p₀.frames.IsTaken f}
    (tableFrames p.mem 3 root + (leafFrames p.mem 3 root + K))
  shaped : Shaped p.mem 3 root
  bushy : Bushy p.mem 3 root
  mapped : leafFrames p.mem 3 root = (rs.map Mapping.frames).sum
  in_range : ∀ a, leafAt p.mem root a ≠ none → ∃ r ∈ rs, InRange r.va r.size a
  below : ∀ r ∈ rs, pageSize ∣ r.va ∧ r.va + pageUp r.size ≤ 2 ^ 48

variable {p₀ p p' : Phys} {root : Nat} {rs : List Mapping} {K : Multiset Nat}

namespace Owning

theorem root_dvd (h : Owning p₀ root rs K p) : frameSize ∣ root :=
  h.holds.aligned (Multiset.mem_add.mpr (.inl (root_mem_tableFrames _ 3 root)))

/-- Writing off the tables leaves the tree as it is. -/
theorem off {F : Set Nat} {m : Mem} (h : Owning p₀ root rs K p)
    (hoff : Mem.SameOff frameSize F p.mem m) (hF : ∀ f ∈ tableFrames p.mem 3 root, f ∉ F) :
    tableFrames m 3 root = tableFrames p.mem 3 root ∧
      leafFrames m 3 root = leafFrames p.mem 3 root ∧
      (∀ a, leafAt m root a = leafAt p.mem root a) ∧ Shaped m 3 root ∧ Bushy m 3 root := by
  obtain ⟨htables, hleafs, -⟩ := tree_congr hoff h.root_dvd (n := 3) hF
  obtain ⟨hleaf, hshaped, hbushy⟩ := leaves_congr hoff h.root_dvd (n := 3) hF
  exact ⟨htables, hleafs, hleaf, hshaped h.shaped, hbushy h.bushy⟩

theorem new (hlow : Low p₀) (hwf : p₀.frames.Wf) (hok : AddressSpace.new p₀ = .ok (root, p)) :
    Owning p₀ root [] 0 p := by
  rcases allocFrame_spec (Holds.of_wf hwf) with ⟨herr, -⟩ | ⟨f, p', hok', ha⟩
  · exact nomatch herr.symm.trans hok
  · obtain ⟨hf, hp⟩ := Prod.ext_iff.mp (Except.ok.inj (hok'.symm.trans hok))
    obtain rfl : f = root := hf
    obtain rfl : p' = p := hp
    obtain ⟨-, hblank⟩ := Tree.of_allocated hlow ha
    refine ⟨hwf, hlow.of_sameRam ha.ram, ha.ram, ?_, hblank.shaped 3, hblank.bushy 3,
      hblank.leafFrames 3, fun a ha => absurd (hblank.leafFrom a 3) ha, fun r hr => ?_⟩
    · rw [hblank.tableFrames, hblank.leafFrames, add_zero, ← run_one]
      exact ha.holds
    · exact absurd hr List.not_mem_nil

theorem allocated {f count : Nat} (h : Owning p₀ root rs K p)
    (ha : Allocated p p' {f | p₀.frames.IsTaken f}
      (tableFrames p.mem 3 root + (leafFrames p.mem 3 root + K)) f count) :
    Owning p₀ root rs (run f count + K) p' := by
  have hF : ∀ g ∈ tableFrames p.mem 3 root, g ∉ {g | g ∈ run f count} := by
    intro g hg hmem
    exact Multiset.disjoint_left.mp (Multiset.nodup_add.mp ha.holds.nodup).2.2 hmem
      (Multiset.mem_add.mpr (.inl hg))
  obtain ⟨htables, hleafs, hleaf, hshaped, hbushy⟩ := h.off ha.off_run hF
  refine ⟨h.start, h.low.of_sameRam ha.ram, h.ram.trans ha.ram, ?_, hshaped, hbushy, ?_, ?_, h.below⟩
  · rw [htables, hleafs]
    have hsum : run f count + (tableFrames p.mem 3 root + (leafFrames p.mem 3 root + K)) =
        tableFrames p.mem 3 root + (leafFrames p.mem 3 root + (run f count + K)) := by
      ac_rfl
    exact hsum ▸ ha.holds
  · rw [hleafs]
    exact h.mapped
  · simp only [hleaf]
    exact h.in_range

theorem write {m : Mem} (h : Owning p₀ root rs K p)
    (hoff : Mem.SameOff frameSize {f | f ∈ leafFrames p.mem 3 root + K} p.mem m) :
    Owning p₀ root rs K { p with mem := m } := by
  have hF : ∀ g ∈ tableFrames p.mem 3 root, g ∉ {f | f ∈ leafFrames p.mem 3 root + K} :=
    fun g hg hmem => Multiset.disjoint_left.mp (Multiset.nodup_add.mp h.holds.nodup).2.2 hg hmem
  obtain ⟨htables, hleafs, hleaf, hshaped, hbushy⟩ := h.off hoff hF
  refine ⟨h.start, h.low, h.ram, ?_, hshaped, hbushy, hleafs.trans h.mapped, ?_, h.below⟩
  · show Holds p.frames _ (tableFrames m 3 root + (leafFrames m 3 root + K))
    rw [htables, hleafs]
    exact h.holds
  · show ∀ a, leafAt m root a ≠ none → _
    simp only [hleaf]
    exact h.in_range

/-- Every frame of the ledger lies below 2^48. -/
theorem frame_spec (h : Owning p₀ root rs K p) {f : Nat} (hf : f ∈ K) :
    frameSize ∣ f ∧ f + frameSize ≤ 2 ^ 48 := by
  obtain ⟨hdvd, -, hle⟩ := (h.holds.taken (Multiset.mem_add.mpr (.inr
    (Multiset.mem_add.mpr (.inr hf))))).spec h.holds.wf
  exact ⟨hdvd, Nat.le_trans hle h.low⟩

/-- The arguments of a call that maps frames of the space. -/
theorem rangeOk {r : Mapping} (h : Owning p₀ root rs (r.frames + K) p) (hdvd : pageSize ∣ r.va)
    (hle : r.va + r.size ≤ 2 ^ 48) (hpos : 0 < r.size) : RangeOk r.va r.pa r.size := by
  have hlow : low48 r.va = r.va := Nat.mod_eq_of_lt (by omega)
  have hpages : 0 < pageUp r.size / pageSize := by
    unfold pageUp
    rw [pageSize_eq]
    omega
  have hframe := fun k (hk : k < pageUp r.size / pageSize) =>
    h.frame_spec (f := r.pa + k * frameSize) (Multiset.mem_add.mpr (.inl (mem_run.mpr ⟨k, hk, rfl⟩)))
  have hfirst := (hframe 0 hpages).1
  have hlast := (hframe (pageUp r.size / pageSize - 1) (by omega)).2
  refine ⟨hdvd, ?_, ?_, ?_, ?_⟩
  · rwa [Nat.zero_mul, Nat.add_zero] at hfirst
  · rwa [hlow]
  · rw [u64Size_eq]
    omega
  · unfold pageUp at hlast hpages
    rw [pageSize_eq] at *
    rw [frameSize_eq] at *
    omega

/-- Two ranges that share no page share no address the tables tell apart. -/
theorem not_inRange {r r' : Mapping} (hdisj : r.Disjoint r') (hr : r.va + pageUp r.size ≤ 2 ^ 48)
    (hr' : r'.va + pageUp r'.size ≤ 2 ^ 48) {a : Nat} (ha : InRange r.va r.size a) :
    ¬ InRange r'.va r'.size a := by
  rintro ⟨h1', h2'⟩
  obtain ⟨h1, h2⟩ := ha
  have hlow : low48 r.va = r.va := Nat.mod_eq_of_lt (by omega)
  have hlow' : low48 r'.va = r'.va := Nat.mod_eq_of_lt (by omega)
  rw [hlow] at h1 h2
  rw [hlow'] at h1' h2'
  rcases hdisj with h | h <;> omega

/-- A call of `map` over an empty range. -/
theorem map_empty {r : Mapping} (h : Owning p₀ root rs (r.frames + K) p) (hdvd : pageSize ∣ r.va)
    (hle : r.va + r.size ≤ 2 ^ 48) (h0 : r.size = 0) : Owning p₀ root (r :: rs) K p := by
  have hup : pageUp r.size = 0 := by
    rw [h0]
    rfl
  have hframes : r.frames = 0 := by
    unfold Mapping.frames
    rw [hup]
    rfl
  rw [hframes, zero_add] at h
  refine ⟨h.start, h.low, h.ram, h.holds, h.shaped, h.bushy, ?_, fun a ha => ?_, fun r' hr' => ?_⟩
  · rw [List.map_cons, List.sum_cons, hframes, zero_add]
    exact h.mapped
  · obtain ⟨r', hr', hin⟩ := h.in_range a ha
    exact ⟨r', List.mem_cons_of_mem r hr', hin⟩
  · rcases List.mem_cons.mp hr' with rfl | hr'
    · exact ⟨hdvd, by omega⟩
    · exact h.below r' hr'

/-- What the leaves of a new range are for has no leaf yet. -/
theorem vacant {r : Mapping} (h : Owning p₀ root rs K p) (hdisj : ∀ r' ∈ rs, r.Disjoint r')
    (hle : r.va + pageUp r.size ≤ 2 ^ 48) {a : Nat} (ha : InRange r.va r.size a) :
    leafAt p.mem root a = none := by
  by_contra hne
  obtain ⟨r', hr', hin⟩ := h.in_range a hne
  exact not_inRange (hdisj r' hr') hle (h.below r' hr').2 ha hin

/-- A call of `map`. -/
theorem map {r : Mapping} (h : Owning p₀ root rs (r.frames + K) p) (hdvd : pageSize ∣ r.va)
    (hle : r.va + r.size ≤ 2 ^ 48) (hdisj : ∀ r' ∈ rs, r.Disjoint r')
    (hok : AddressSpace.map root r.va r.pa r.size r.attrs p = .ok ((), p')) :
    Owning p₀ root (r :: rs) K p' := by
  obtain ⟨-, hok⟩ := Code.of_assert_bind_ok hok
  rcases Nat.eq_zero_or_pos r.size with h0 | hpos
  · have hsame : p = p' := by
      unfold mapRange mapRangeFrom at hok
      rw [h0, if_neg (by decide)] at hok
      exact (Prod.ext_iff.mp (Except.ok.inj hok)).2
    exact hsame ▸ h.map_empty hdvd hle h0
  have hargs := h.rangeOk hdvd hle hpos
  have hup : r.va + pageUp r.size ≤ 2 ^ 48 := by
    have hup := hargs.pageUp_le.1
    rwa [show low48 r.va = r.va from Nat.mod_eq_of_lt (by omega)] at hup
  rcases mapRange_spec r.attrs hargs h.shaped h.low h.root_dvd h.holds with
    ⟨herr, -⟩ | ⟨herr, -⟩ | ⟨p'', N, D, hok', hlaid⟩
  · exact nomatch herr.symm.trans hok
  · exact nomatch herr.symm.trans hok
  obtain rfl : p'' = p' := (Prod.ext_iff.mp (Except.ok.inj (hok'.symm.trans hok))).2
  obtain ⟨rfl, hbushy, hleafs⟩ := hlaid.fresh h.bushy (rangePatches_ne hargs)
    fun r' hr' a ha => h.vacant hdisj hup (inRange_of_covers hargs hr' ha)
  have hframes :
      ((rangePatches r.va r.pa r.size r.attrs 0).map fun q => leafRun q.below q.desc).sum = _ :=
    rangePatches_frames hargs (Nat.dvd_zero pageSize)
  rw [Nat.add_zero, Nat.zero_div, Nat.sub_zero] at hframes
  have hleafs : leafFrames p''.mem 3 root = r.frames + leafFrames p.mem 3 root := by
    rw [hleafs, hframes]
    rfl
  refine ⟨h.start, h.low.of_sameRam hlaid.ram, h.ram.trans hlaid.ram, ?_, hlaid.shaped h.shaped, hbushy, ?_,
    fun a ha => ?_, fun r' hr' => ?_⟩
  · have hsum : tableFrames p''.mem 3 root + (0 + (leafFrames p.mem 3 root + (r.frames + K))) =
        tableFrames p''.mem 3 root + (leafFrames p''.mem 3 root + K) := by
      rw [hleafs, zero_add]
      ac_rfl
    exact hsum ▸ hlaid.holds_tables
  · rw [hleafs, h.mapped]
    rfl
  · rw [hlaid.leaf_eq, laid_range r.attrs hargs] at ha
    by_cases hin : InRange r.va r.size a
    · exact ⟨r, List.mem_cons_self, hin⟩
    · rw [if_neg hin] at ha
      obtain ⟨r', hr', hin⟩ := h.in_range a ha
      exact ⟨r', List.mem_cons_of_mem r hr', hin⟩
  · rcases List.mem_cons.mp hr' with rfl | hr'
    · exact ⟨hdvd, hup⟩
    · exact h.below r' hr'

end Owning

theorem Made.owning (h : Made p₀ root rs K p) : Owning p₀ root rs K p := by
  induction h with
  | new hlow hwf hok => exact .new hlow hwf hok
  | alloc _ hok ih =>
    rcases alloc_spec ih.holds with ⟨hnone, -⟩ | ⟨f, p', hsome, ha⟩
    · exact nomatch hnone.symm.trans hok
    · obtain ⟨hf, rfl⟩ := Prod.ext_iff.mp (Except.ok.inj (hsome.symm.trans hok))
      obtain rfl := Option.some.inj hf
      rw [← run_one]
      exact ih.allocated ha
  | allocContiguous _ hok ih =>
    obtain ⟨hpos, -⟩ := Code.of_assert_bind_ok hok
    rcases Frames.allocContiguous_spec ih.holds hpos with hnone | ⟨f, p', hsome, ha⟩
    · exact nomatch hnone.symm.trans hok
    · obtain ⟨hf, rfl⟩ := Prod.ext_iff.mp (Except.ok.inj (hsome.symm.trans hok))
      obtain rfl := Option.some.inj hf
      exact ih.allocated ha
  | write _ hoff ih => exact ih.write hoff
  | map _ hdvd hle hdisj hok ih => exact ih.map hdvd hle hdisj hok

/-- `destroy` frees the tables of a space and the frames mapped in it, each once, and
takes nothing else out of the allocator: with nothing left to map, the allocator is
what it was before the space was made. -/
theorem destroy_undoes_map (h : Made p₀ root rs K p) :
    ∃ freed : List Nat, ∃ p', AddressSpace.destroy root p = freed.forM free p ∧
      (freed : Multiset Nat) = tableFrames p.mem 3 root + (rs.map Mapping.frames).sum ∧
      freed.Nodup ∧ (∀ f ∈ freed, p.frames.IsTaken f ∧ ¬ p₀.frames.IsTaken f) ∧
      AddressSpace.destroy root p = .ok ((), p') ∧ p'.mem = p.mem ∧
      (∀ f, p'.frames.IsTaken f ↔ p₀.frames.IsTaken f ∨ f ∈ K) ∧
      (K = 0 → p₀.frames.SameRam p'.frames ∧
        p'.frames.bitmap.free = p₀.frames.bitmap.free ∧
        ∀ i < maxFrames, p'.frames.bitmap.bit i = p₀.frames.bitmap.bit i) := by
  have hown := h.owning
  have hcoe := freeOrder_coe p.mem 3 root
  have hholds : Holds p.frames {f | p₀.frames.IsTaken f} (↑(freeOrder p.mem 3 root) + K) := by
    rw [hcoe, add_assoc]
    exact hown.holds
  have hdestroy : AddressSpace.destroy root p = (freeOrder p.mem 3 root).forM free p :=
    freeTable_eq 3 root p hown.shaped.noRootLeaf
  obtain ⟨p', hfree, hfreed⟩ := freeAll_spec _ p hholds
  have hmem : ∀ f ∈ freeOrder p.mem 3 root, f ∈ (↑(freeOrder p.mem 3 root) + K : Multiset Nat) :=
    fun f hf => Multiset.mem_add.mpr (.inl (Multiset.mem_coe.mpr hf))
  refine ⟨freeOrder p.mem 3 root, p', hdestroy, ?_, ?_, fun f hf => ?_, hdestroy.trans hfree,
    hfreed.mem_eq, hfreed.holds.taken_iff, fun hK => ?_⟩
  · rw [hcoe, hown.mapped]
  · exact Multiset.coe_nodup.mp (Multiset.nodup_add.mp hholds.nodup).1
  · exact ⟨hholds.taken (hmem f hf), hholds.not_base f (hmem f hf)⟩
  · subst hK
    have hram := hown.ram.trans hfreed.ram
    refine ⟨hram, hown.start.same_of_taken hfreed.holds.wf hram fun f => ?_⟩
    exact (hfreed.holds.taken_iff f).trans (or_iff_left (Multiset.notMem_zero f))

/-- Next to the image and one more frame there is room for a run. -/
theorem exists_run {a : Allocator} {root : Nat} (hbase : a.ramBase = 0x40000000)
    (hlength : a.ramLength = 0x10000000)
    (htaken : ∀ f, a.IsTaken f → f ∈ virtBoard.image ∨ f = root) : (a.runs 1023).Nonempty := by
  have hcount : a.frameCount = 65536 := by
    unfold Allocator.frameCount
    rw [hlength]
    decide
  have hfree : ∀ first, 512 ≤ first → first + 1023 ≤ 65536 →
      root < 0x40000000 + first * 4096 ∨ 0x40000000 + (first + 1023) * 4096 ≤ root →
      first ∈ a.runs 1023 := by
    refine fun first hlow hhigh hroot => ⟨hcount.symm ▸ hhigh, fun i h1 h2 => ?_⟩
    by_contra hbit
    have hset : a.bitmap.bit i = true := eq_true_of_ne_false hbit
    rcases htaken (a.fromIndex i) ⟨i, by omega, rfl, hset⟩ with ⟨-, -, himage⟩ | hroot'
    · have hfirst : virtBoard.firstFree = 0x40200000 := by decide
      unfold Allocator.fromIndex at himage
      rw [hbase, hfirst, frameSize_eq] at himage
      omega
    · unfold Allocator.fromIndex at hroot'
      rw [hbase, frameSize_eq] at hroot'
      omega
  by_cases hroot : root < 0x40800000
  · exact ⟨2048, hfree 2048 (by decide) (by decide) (.inl (by omega))⟩
  · exact ⟨1024, hfree 1024 (by decide) (by decide) (.inr (by omega))⟩

/-- The frames of a run at `f`, where they are: some of them make a block. -/
def identity (f : Nat) : Mapping := ⟨f, f, 1023 * 4096, .userData⟩

theorem identity_asBlock {f : Nat} (hdvd : frameSize ∣ f) (hlt : f + 1023 * 4096 ≤ 2 ^ 48) :
    ∃ a, InRange f (1023 * 4096) a ∧ AsBlock f f (1023 * 4096) a := by
  obtain ⟨k, rfl⟩ := hdvd
  rw [frameSize_eq] at *
  have hlow : low48 (4096 * k) = 4096 * k := Nat.mod_eq_of_lt (by omega)
  have hlow' : low48 ((4096 * k + 2097151) / 2097152 * 2097152) =
      (4096 * k + 2097151) / 2097152 * 2097152 := Nat.mod_eq_of_lt (by omega)
  refine ⟨(4096 * k + 2097151) / 2097152 * 2097152, ⟨?_, ?_⟩, ?_, ?_, ?_⟩
  all_goals
    simp only [blockStart, pageUp, hlow, hlow', block2MiB, pageSize_eq]
    omega

/-- A space of pages and a block on the virt board, and its end. -/
theorem virt_space : ∃ p₀ root f p p', Made p₀ root [identity f] 0 p ∧
    (∃ a l, leafAt p.mem root a = some l ∧ l.below = 1) ∧
    AddressSpace.destroy root p = .ok ((), p') ∧
    p'.frames.bitmap.free = p₀.frames.bitmap.free := by
  obtain ⟨p₀, hinit⟩ := init_ok virtBoard ⟨fun _ => 0, ⟨Bitmap.new, 0, 0, 0⟩⟩ (by decide) (by decide)
  obtain ⟨hholds, hbase⟩ := init_spec virtBoard rfl hinit
  obtain ⟨-, hlength, -⟩ := init_ram virtBoard hinit
  have hfree := init_free virtBoard hinit
  have hlow : Low p₀ := .of_base hholds.wf (by rw [hbase]; decide)
  rcases allocFrame_spec hholds with ⟨-, h0⟩ | ⟨root, p₁, hnew, ha⟩
  · exact absurd (hfree.symm.trans h0) (by decide)
  have hmade₁ : Made p₀ root [] 0 p₁ := .new hlow hholds.wf hnew
  have htaken : ∀ f, p₁.frames.IsTaken f → f ∈ virtBoard.image ∨ f = root := by
    intro f hf
    rw [ha.holds.taken_iff, run_one] at hf
    simpa using hf
  have hrun := exists_run (ha.ram.base.trans hbase) (ha.ram.length.trans hlength) htaken
  have hpos : 0 < 1023 := by decide
  rcases allocContiguous_spec hmade₁.owning.holds hpos with hnone | ⟨f, p₂, halloc, ha₂⟩
  · rcases allocContiguous_lowest hmade₁.owning.holds.wf hpos with ⟨-, hempty⟩ | ⟨_, _, hsome, -⟩
    · exact absurd hempty hrun.ne_empty
    · exact nomatch (Prod.ext_iff.mp (Except.ok.inj (hnone.symm.trans hsome))).1
  have hpages : pageUp (1023 * 4096) / pageSize = 1023 := by decide
  have hmade₂ : Made p₀ root [] ((identity f).frames + 0) p₂ := by
    unfold Mapping.frames
    rw [show pageUp (identity f).size / pageSize = 1023 from hpages]
    exact hmade₁.allocContiguous halloc
  have hown := hmade₂.owning
  have hsize : f + 1023 * 4096 ≤ 2 ^ 48 := by
    have hend := ha₂.le_end
    unfold Allocator.ramEnd at hend
    rw [ha.ram.base, ha.ram.length, hbase, hlength, frameSize_eq] at hend
    exact Nat.le_trans hend (by decide)
  have hargs : RangeOk f f (1023 * 4096) :=
    hown.rangeOk ha₂.aligned hsize (show 0 < 1023 * 4096 by decide)
  rcases mapRange_spec .userData hargs hown.shaped hown.low hown.root_dvd hown.holds with
    ⟨-, hfew⟩ | ⟨-, a, l, -, hl, -⟩ | ⟨p₃, N, D, hmap, hlaid⟩
  · have hfew : p₂.frames.bitmap.free < 3 * (pageUp (1023 * 4096) / pageSize) := hfew
    have hfree₁ := ha.free_eq
    have hfree₂ := ha₂.free_eq
    rw [hpages] at hfew
    rw [show p₀.frames.bitmap.free = 65024 from hfree] at hfree₁
    omega
  · obtain ⟨r, hr, -⟩ := hown.in_range a (by rw [hl]; exact nofun)
    exact absurd hr List.not_mem_nil
  have hmade₃ : Made p₀ root [identity f] 0 p₃ :=
    hmade₂.map ha₂.aligned hsize (fun r hr => absurd hr List.not_mem_nil)
      ((Code.bind_ok (Code.assert_ok (show f < kernelBase by unfold kernelBase; omega) p₂)).trans hmap)
  obtain ⟨a, hin, hblock⟩ := identity_asBlock ha₂.aligned hsize
  have hleaf : leafAt p₃.mem root a = some (leafFor f f (1023 * 4096) .userData a) := by
    rw [hlaid.leaf_eq, laid_range _ hargs, if_pos hin]
    rfl
  obtain ⟨-, p₄, -, -, -, -, hdestroy, -, -, hsame⟩ := destroy_undoes_map hmade₃
  refine ⟨p₀, root, f, p₃, p₄, hmade₃, ⟨a, _, hleaf, ?_⟩, hdestroy, (hsame rfl).2.1⟩
  unfold leafFor
  rw [if_pos hblock]

end TheRack.Paging
