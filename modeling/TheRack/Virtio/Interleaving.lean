/-
  Virtio/Interleaving.lean --- what holds between the driver and the device.

  Whatever the two do and in whatever order, the books are kept; what they say of
  the rings, the descriptors and the calls is put together here.
-/
import TheRack.Virtio.Books
import TheRack.Frames.Ownership

set_option autoImplicit false

namespace TheRack.Virtio

open Lib Frames

/-- What `Queue::new` builds. -/
theorem Queue.new_spec {t t' : Port} {index : Nat} {q : Queue}
    (h : Queue.new index t = .ok (.ok q, t')) : ∃ f p, alloc t.phys = .ok (some f, p) ∧
      q = ⟨f, queueSize, 0, queueSize, 0⟩ ∧ t'.phys.mem = q.thread queueSize 0 p.mem := by
  unfold Queue.new at h
  rw [Code.bind_ok (Code.modify_apply _ t)] at h
  obtain ⟨t₁, t₂, hget, h⟩ := Code.of_bind_ok h
  obtain ⟨rfl, rfl⟩ := Prod.ext_iff.mp (Except.ok.inj hget)
  simp only at h
  split at h
  · exact nomatch (Prod.ext_iff.mp (Except.ok.inj h)).1
  · obtain ⟨frame, t₃, halloc, h⟩ := Code.of_bind_ok h
    cases hphys : alloc t.phys with
    | error c =>
      rw [show (t.write queueSel index).phys = t.phys from rfl, hphys] at halloc
      exact nomatch halloc
    | ok r =>
      obtain ⟨given, p⟩ := r
      rw [show (t.write queueSel index).phys = t.phys from rfl, hphys] at halloc
      obtain ⟨rfl, rfl⟩ := Prod.ext_iff.mp (Except.ok.inj halloc)
      cases given with
      | none => exact nomatch (Prod.ext_iff.mp (Except.ok.inj h)).1
      | some f =>
        simp only at h
        repeat rw [Code.bind_ok (Code.modify_apply _ _)] at h
        obtain ⟨hq, rfl⟩ := Prod.ext_iff.mp (Except.ok.inj h)
        obtain rfl := Except.ok.inj hq
        exact ⟨f, p, rfl, rfl, rfl⟩

/-- A new queue has everything free and nothing on its way. -/
theorem Fresh.books {s : Line} (h : Fresh s) : Books s [] (List.range queueSize) [] [] [] := by
  obtain ⟨t, t', index, hwf, hnew, hmem, hseen, hheld⟩ := h
  obtain ⟨f, p, halloc, hq, hthread⟩ := Queue.new_spec hnew
  rcases alloc_spec (Holds.of_wf hwf) with ⟨hnone, -⟩ | ⟨f', p', hsome, halloced⟩
  · exact nomatch hnone.symm.trans halloc
  obtain ⟨hf, rfl⟩ := Prod.ext_iff.mp (Except.ok.inj (hsome.symm.trans halloc))
  obtain rfl : f' = f := Option.some.inj hf
  have hbut := Queue.thread_but (q := s.queue) queueSize 0 p'.mem (Nat.le_of_eq (Nat.zero_add _))
  have hzero : ∀ o n, o + n ≤ frameSize → p'.mem.readLE (s.queue.ringPtr o) n = 0 := by
    intro o n hle
    refine Mem.readLE_eq_zero fun x h1 h2 => ?_
    rw [hq] at h1 h2
    unfold Queue.ringPtr at h1 h2
    simp only at h1 h2
    rw [halloced.mem_eq]
    exact Mem.fill_apply_of_mem (by omega)
  have hnext := Queue.thread_next (q := s.queue) queueSize 0 p'.mem (by decide)
  rw [← hthread, ← hmem] at hnext hbut
  have hrange : ∀ n head : Nat, head + n ≤ queueSize →
      s.queue.Linked s.mem head (List.range' head n) := by
    intro n
    induction n with
    | zero => exact fun _ _ => trivial
    | succ n ih =>
      intro head hle
      refine ⟨rfl, ?_⟩
      rw [hnext, if_pos (by omega)]
      exact ih (head + 1) (by omega)
  refine
    { size_eq := by rw [hq]
      linked := ?_
      head_lt := by rw [hq]; show 0 < u16Size; decide
      count_eq := by rw [hq]; rfl
      nodup := by simp [chained, List.nodup_range]
      lt := by simp [chained]
      total := by simp [chained]
      carries := by simp
      outstanding_eq := rfl
      heads := by rw [hheld]; rfl
      added := rfl
      reported := rfl
      seen_eq := by rw [hseen]; rfl
      available_eq := ?_
      lastUsed_eq := by rw [hq]; rfl
      used_eq := ?_
      entries := fun k hk => absurd hk (by simp)
      reports := fun k hk => absurd hk (by simp) }
  · rw [show s.queue.freeHead = 0 by rw [hq], List.range_eq_range']
    exact hrange queueSize 0 (Nat.le_of_eq (Nat.zero_add _))
  · refine (Queue.availableIndex_congr hbut (.inr (by decide))).trans ?_
    exact hzero _ _ (by decide)
  · refine (Queue.usedIndex_congr hbut (.inr (by decide))).trans ?_
    exact hzero _ _ (by decide)

/-- Every step keeps the books. -/
theorem Books.step {s s' : Line} {es : List Event} {e : Event} {free : List Nat}
    {live : List Request} {unseen : List Nat} {finished : List (Nat × Nat)}
    (h : Books s es free live unseen finished) (hstep : Step s e s') :
    ∃ free' live' unseen' finished', Books s' (es ++ [e]) free' live' unseen' finished' := by
  cases hstep with
  | @add d buffers head hadd =>
    rcases h.add_cases buffers with
      ⟨e, hrefused⟩ | ⟨l, l', m, freeHead, rfl, hlen, hne, hfrom, hok⟩
    · exact nomatch (Prod.ext_iff.mp (Except.ok.inj (hrefused.symm.trans hadd))).1
    · obtain ⟨hhead, rfl⟩ := Prod.ext_iff.mp (Except.ok.inj (hok.symm.trans hadd))
      obtain rfl : s.queue.freeHead = head := Except.ok.inj hhead
      exact ⟨_, _, _, _, h.add hlen hne hfrom⟩
  | @refuse d buffers error hadd =>
    rcases h.add_cases buffers with
      ⟨e, hrefused⟩ | ⟨l, l', m, freeHead, rfl, hlen, hne, hfrom, hok⟩
    · obtain ⟨-, rfl⟩ := Prod.ext_iff.mp (Except.ok.inj (hrefused.symm.trans hadd))
      exact ⟨_, _, _, _, h.other⟩
    · exact nomatch (Prod.ext_iff.mp (Except.ok.inj (hok.symm.trans hadd))).1
  | consume hseen =>
    cases unseen with
    | nil => exact absurd (h.seen_iff.mpr rfl) hseen
    | cons head rest =>
      rw [h.offered (by simp)]
      exact ⟨_, _, _, _, h.consume⟩
  | complete hheld hwritten => exact ⟨_, _, _, _, h.complete hheld hwritten⟩
  | @take d head written htake =>
    cases finished with
    | nil => exact nomatch (Prod.ext_iff.mp (Except.ok.inj (h.takeUsed_none.symm.trans htake))).1
    | cons report rest =>
      obtain ⟨head', written'⟩ := report
      obtain ⟨r, hr, hhead⟩ := h.exists_request (show head' ∈ _ by simp)
      obtain ⟨r', pre, post, hfirst, hhead', hlive, -⟩ :=
        List.exists_of_eraseP (p := fun r : Request => r.head = head') hr (by simpa using hhead)
      have hr' : r' ∈ live := hlive ▸ List.mem_append.mpr (.inr List.mem_cons_self)
      have hhead' : r'.head = head' := by simpa using hhead'
      have hok := h.takeUsed_some hr' hhead'
      obtain ⟨hsame, rfl⟩ := Prod.ext_iff.mp (Except.ok.inj (hok.symm.trans htake))
      obtain ⟨rfl, rfl⟩ := Prod.ext_iff.mp (Option.some.inj hsame)
      exact ⟨_, _, _, _, h.take hlive (fun q hq => by simpa using hfirst q hq) hhead' _⟩
  | idle htake =>
    cases finished with
    | nil =>
      obtain ⟨-, rfl⟩ := Prod.ext_iff.mp (Except.ok.inj (h.takeUsed_none.symm.trans htake))
      exact ⟨_, _, _, _, h.other⟩
    | cons report rest =>
      obtain ⟨r, hr, hhead⟩ := h.exists_request (show report.1 ∈ _ by simp)
      have hok := h.takeUsed_some hr hhead
      exact nomatch (Prod.ext_iff.mp (Except.ok.inj (hok.symm.trans htake))).1
  | elsewhere hsame => exact ⟨_, _, _, _, (h.elsewhere hsame).other⟩

/-- Every run keeps the books. -/
theorem Runs.books {s : Line} {es : List Event} (h : Runs s es) :
    ∃ free live unseen finished, Books s es free live unseen finished := by
  induction h with
  | start hfresh => exact ⟨_, _, _, _, hfresh.books⟩
  | step _ hstep ih =>
    obtain ⟨free, live, unseen, finished, hbooks⟩ := ih
    exact hbooks.step hstep

/-! ## What the books say -/

/-- The descriptors the free list says are free. -/
def Line.free (s : Line) : List Nat := s.queue.walk s.mem s.queue.freeCount s.queue.freeHead

/-- After what happened, every descriptor is accounted for, and every call goes
through. -/
structure Sound (s : Line) (es : List Event) : Prop where
  /-- The free list and the outstanding chains share no descriptor, and each chain still
  describes its buffers. -/
  chains : ∃ chains : List (List Nat),
    List.Forall₂ (fun chain r => s.queue.Carries s.mem r.1 chain r.2) chains (outstanding es) ∧
      (s.free ++ chains.flatten).Nodup ∧ ∀ i ∈ s.free ++ chains.flatten, i < queueSize
  total : s.queue.freeCount + ((outstanding es).map fun r => r.2.length).sum = queueSize
  /-- An entry of the available ring stays until the device has consumed it. -/
  entries : ∃ unseen, (additions es).map Prod.fst = consumptions es ++ unseen ∧
    ∀ k (h : k < unseen.length),
      s.queue.availableEntry s.mem (((consumptions es).length + k) % queueSize) = unseen[k]
  /-- `take_used` returns the reports, in their order. -/
  reports : ∃ finished, completions es = takings es ++ finished ∧
    ∃ d, takeUsed s.driver = .ok (finished.head?, d)
  recycles : ∀ r ∈ outstanding es, ∃ d, recycle r.1 s.driver = .ok ((), d)
  adds : ∀ buffers, ∃ answer d, Virtio.add buffers s.driver = .ok (answer, d)

/-- The lengths of the chains are those of the lists of buffers. -/
theorem Books.sum_lengths {s : Line} {es : List Event} {free : List Nat} {live : List Request}
    {unseen : List Nat} {finished : List (Nat × Nat)} (h : Books s es free live unseen finished) :
    ((outstanding es).map fun r => r.2.length).sum = (chained live).length := by
  rw [h.outstanding_eq, List.map_map]
  unfold chained
  rw [List.length_flatMap]
  refine congrArg List.sum (List.map_congr_left fun r hr => ?_)
  exact ((h.carries r hr).describes.length_eq).symm

theorem Books.sound {s : Line} {es : List Event} {free : List Nat} {live : List Request}
    {unseen : List Nat} {finished : List (Nat × Nat)} (h : Books s es free live unseen finished) :
    Sound s es := by
  have hfree : s.free = free := by
    unfold Line.free
    rw [h.count_eq]
    exact h.linked.walk_eq
  refine ⟨⟨live.map Request.chain, ?_, ?_, ?_⟩, ?_, ⟨unseen, h.added, h.entries⟩,
    ⟨finished, h.reported, ?_⟩, ?_, ?_⟩
  · rw [h.outstanding_eq, List.forall₂_map_left_iff, List.forall₂_map_right_iff, List.forall₂_same]
    exact h.carries
  · rw [hfree, ← List.flatMap_def]
    exact h.nodup
  · rw [hfree, ← List.flatMap_def]
    exact h.lt
  · rw [h.sum_lengths, h.count_eq, ← List.length_append]
    exact h.total
  · cases finished with
    | nil => exact ⟨_, h.takeUsed_none⟩
    | cons report rest =>
      obtain ⟨r, hr, hhead⟩ := h.exists_request (show report.1 ∈ _ by simp)
      exact ⟨_, h.takeUsed_some hr hhead⟩
  · intro r hr
    rw [h.outstanding_eq] at hr
    obtain ⟨r', hr', rfl⟩ := List.mem_map.mp hr
    exact ⟨_, h.recycle hr' rfl⟩
  · intro buffers
    rcases h.add_cases buffers with ⟨e, hrefused⟩ | ⟨l, l', m, freeHead, -, -, -, -, hok⟩
    · exact ⟨_, _, hrefused⟩
    · exact ⟨_, _, hok⟩

/-- Whatever the driver and the device do, and in whatever order. -/
theorem every_run_is_sound {s : Line} {es : List Event} (h : Runs s es) : Sound s es := by
  obtain ⟨free, live, unseen, finished, hbooks⟩ := h.books
  exact hbooks.sound

/-- A chain goes all the way round on a line that has just been set up. -/
theorem Fresh.runs_round {s : Line} {d : Driver} {buffers : List Buffer} {head written : Nat}
    (h : Fresh s) (hadd : add buffers s.driver = .ok (.ok head, d)) (hwritten : written < 2 ^ 32) :
    ∃ s', Runs s' [.added head buffers, .consumed head, .completed head written,
      .taken head written] := by
  have hbooks := h.books
  rcases hbooks.add_cases buffers with
    ⟨e, hrefused⟩ | ⟨l, l', m, freeHead, hfree, hlen, hne, hfrom, hok⟩
  · exact nomatch (Prod.ext_iff.mp (Except.ok.inj (hrefused.symm.trans hadd))).1
  obtain ⟨hhead, -⟩ := Prod.ext_iff.mp (Except.ok.inj (hok.symm.trans hadd))
  obtain rfl : s.queue.freeHead = head := Except.ok.inj hhead
  rw [hfree] at hbooks
  have hadded := hbooks.add hlen hne hfrom
  have hunseen : [] ++ [s.queue.freeHead] ≠ [] := List.cons_ne_nil _ _
  have hconsume := Step.consume (mt hadded.seen_iff.mp hunseen)
  rw [hadded.offered hunseen] at hconsume
  have hconsumed := hadded.consume
  have hheld : s.queue.freeHead ∈ s.held ++ [s.queue.freeHead] :=
    List.mem_append.mpr (.inr List.mem_cons_self)
  have hcompleted := hconsumed.complete hheld hwritten
  have htaken := hcompleted.takeUsed_some List.mem_cons_self rfl
  exact ⟨_, .step (.step (.step (.step (.start h) (.add hok)) hconsume)
    (.complete hheld hwritten)) (.take htaken)⟩

/-- The queue of a board that has just started, and its first chain on the way round. -/
theorem first_chain_is_sound : ∃ s s', Fresh s ∧
    Runs s' [.added 0 [⟨0x48000000, 512, true, by decide, by decide⟩], .consumed 0,
      .completed 0 512, .taken 0 512] ∧
    Sound s' [.added 0 [⟨0x48000000, 512, true, by decide, by decide⟩], .consumed 0,
      .completed 0 512, .taken 0 512] := by
  obtain ⟨phys, hinit⟩ := init_ok virtBoard ⟨fun _ => 0, ⟨Bitmap.new, 0, 0, 0⟩⟩ (by decide) (by decide)
  obtain ⟨hholds, -⟩ := init_spec virtBoard rfl hinit
  have hfree := init_free virtBoard hinit
  rcases alloc_spec hholds with ⟨-, hnone⟩ | ⟨f, p, halloc, -⟩
  · exact absurd (hfree.symm.trans hnone) (by decide)
  have hnew : ∃ t', Queue.new 0 ⟨phys, fun _ => 256⟩ = .ok (.ok ⟨f, queueSize, 0, queueSize, 0⟩, t') := by
    unfold Queue.new
    rw [Code.bind_ok (Code.modify_apply _ _), Code.bind_ok (Code.get_apply _)]
    simp only
    have hroom : ¬ (Port.write ⟨phys, fun _ => 256⟩ queueSel 0).registers queueNumMax < queueSize := by
      show ¬ 256 < queueSize
      decide
    rw [if_neg hroom, Code.bind_ok (by show Except.map _ (alloc phys) = _; rw [halloc]; rfl)]
    exact ⟨_, rfl⟩
  obtain ⟨t', hnew⟩ := hnew
  have hfresh : Fresh ⟨t'.phys.mem, ⟨f, queueSize, 0, queueSize, 0⟩, 0, []⟩ :=
    ⟨_, t', 0, hholds.wf, hnew, rfl, rfl, rfl⟩
  obtain ⟨s', hruns⟩ : ∃ s', Runs s' [.added 0 [⟨0x48000000, 512, true, by decide, by decide⟩],
      .consumed 0, .completed 0 512, .taken 0 512] :=
    hfresh.runs_round rfl (show 512 < 2 ^ 32 by decide)
  exact ⟨_, s', hfresh, hruns, every_run_is_sound hruns⟩

end TheRack.Virtio
