/-
  Virtio/Books.lean --- the bookkeeping, kept by every step.

  `Books` says where every descriptor is: in the free list, or in exactly one
  outstanding chain.  A ring entry is on its way for as long as its chain is
  outstanding, so there are never more of them than the ring has places, and the
  two counters of a ring never drift a whole turn of the ring apart.
-/
import TheRack.Virtio.Runs

set_option autoImplicit false

namespace TheRack.Virtio

open Lib Frames

/-- An outstanding chain. -/
structure Request where
  head : Nat
  chain : List Nat
  buffers : List Buffer

/-- The descriptors of outstanding chains. -/
def chained (live : List Request) : List Nat := live.flatMap Request.chain

theorem chained_append (live live' : List Request) :
    chained (live ++ live') = chained live ++ chained live' := List.flatMap_append

theorem chained_singleton (r : Request) : chained [r] = r.chain := List.flatMap_singleton ..

theorem chain_subset {live : List Request} {r : Request} (hr : r ∈ live) {i : Nat} (hi : i ∈ r.chain) :
    i ∈ chained live := List.mem_flatMap.mpr ⟨r, hr, hi⟩

/-- The descriptors of a new chain come from the free list. -/
theorem perm_added (l l' : List Nat) (live : List Request) (r : Request) (hr : r.chain = l) :
    (l' ++ chained (live ++ [r])).Perm (l ++ l' ++ chained live) := by
  rw [chained_append, chained_singleton, hr, ← List.append_assoc, List.append_assoc l]
  exact List.perm_append_comm

/-- The descriptors of a chain that is given back go to the free list. -/
theorem perm_taken (free : List Nat) (pre post : List Request) (r : Request) :
    (r.chain ++ free ++ chained (pre ++ post)).Perm (free ++ chained (pre ++ r :: post)) := by
  rw [show r :: post = [r] ++ post from rfl, chained_append, chained_append, chained_append,
    chained_singleton]
  refine ((List.perm_append_right_iff _).mpr List.perm_append_comm).trans ?_
  rw [List.append_assoc]
  refine (List.perm_append_left_iff free).mpr ?_
  rw [← List.append_assoc, ← List.append_assoc]
  exact (List.perm_append_right_iff _).mpr List.perm_append_comm

/-- One more entry at the end of what is in use of a ring. -/
theorem ring_snoc {α : Type} {f f' : Nat → α} {xs : List α} {x : α} {n : Nat}
    (h : ∀ k (hk : k < xs.length), f ((n + k) % queueSize) = xs[k]) (hroom : xs.length < queueSize)
    (hf' : ∀ i < queueSize, f' i = if i = (n + xs.length) % queueSize then x else f i)
    (k : Nat) (hk : k < (xs ++ [x]).length) : f' ((n + k) % queueSize) = (xs ++ [x])[k] := by
  rw [List.length_append, List.length_singleton] at hk
  rw [hf' _ (Nat.mod_lt _ (by decide))]
  by_cases hlast : k = xs.length
  · subst hlast
    rw [if_pos rfl, List.getElem_append_right (Nat.le_refl _)]
    simp
  · have hlt : k < xs.length := by omega
    rw [if_neg (by unfold queueSize at *; omega), List.getElem_append_left hlt]
    exact h k hlt

/-- The books of a queue: the free list, the outstanding chains, the heads the device
has not seen, and its reports that nobody has taken. -/
structure Books (s : Line) (es : List Event) (free : List Nat) (live : List Request)
    (unseen : List Nat) (finished : List (Nat × Nat)) : Prop where
  size_eq : s.queue.size = queueSize
  linked : s.queue.Linked s.mem s.queue.freeHead free
  head_lt : s.queue.freeHead < u16Size
  count_eq : s.queue.freeCount = free.length
  nodup : (free ++ chained live).Nodup
  lt : ∀ i ∈ free ++ chained live, i < queueSize
  total : (free ++ chained live).length = queueSize
  carries : ∀ r ∈ live, s.queue.Carries s.mem r.head r.chain r.buffers
  outstanding_eq : outstanding es = live.map fun r => (r.head, r.buffers)
  heads : (unseen ++ (s.held ++ finished.map Prod.fst)).Perm (live.map Request.head)
  added : (additions es).map Prod.fst = consumptions es ++ unseen
  reported : completions es = takings es ++ finished
  seen_eq : s.seen = (consumptions es).length % u16Size
  available_eq : s.queue.availableIndex s.mem = (additions es).length % u16Size
  lastUsed_eq : s.queue.lastUsed = (takings es).length % u16Size
  used_eq : s.queue.usedIndex s.mem = (completions es).length % u16Size
  entries : ∀ k (h : k < unseen.length),
    s.queue.availableEntry s.mem (((consumptions es).length + k) % queueSize) = unseen[k]
  reports : ∀ k (h : k < finished.length),
    s.queue.usedEntry s.mem (((takings es).length + k) % queueSize) = finished[k]

variable {s s' : Line} {es : List Event} {free : List Nat} {live : List Request} {unseen : List Nat}
variable {finished : List (Nat × Nat)} {d : Driver} {m : Mem}

namespace Books

/-- Every chain has a descriptor. -/
theorem length_chained (h : Books s es free live unseen finished) :
    live.length ≤ (chained live).length := by
  have hpos : ∀ r ∈ live, 1 ≤ r.chain.length := fun r hr =>
    List.length_pos_iff.mpr (h.carries r hr).ne_nil
  clear h
  induction live with
  | nil => exact Nat.le_refl 0
  | cons r rest ih =>
    have hr := hpos r List.mem_cons_self
    have hrest := ih fun r' hr' => hpos r' (List.mem_cons_of_mem r hr')
    unfold chained at *
    rw [List.flatMap_cons, List.length_append, List.length_cons]
    omega

/-- What is on its way fits the rings, with the free descriptors. -/
theorem length_le (h : Books s es free live unseen finished) :
    unseen.length + s.held.length + finished.length + free.length ≤ queueSize := by
  have hchains := h.length_chained
  have htotal := h.total
  have hheads := h.heads.length_eq
  simp only [List.length_append, List.length_map] at hheads htotal
  omega

theorem additions_length (h : Books s es free live unseen finished) :
    (additions es).length = (consumptions es).length + unseen.length := by
  have hadded := congrArg List.length h.added
  rwa [List.length_map, List.length_append] at hadded

theorem completions_length (h : Books s es free live unseen finished) :
    (completions es).length = (takings es).length + finished.length := by
  rw [h.reported, List.length_append]

/-- The two counters of the available ring agree when the device has seen it all. -/
theorem seen_iff (h : Books s es free live unseen finished) :
    s.seen = s.queue.availableIndex s.mem ↔ unseen = [] := by
  have hle := h.length_le
  rw [h.seen_eq, h.available_eq, h.additions_length, ← List.length_eq_zero_iff]
  unfold queueSize at hle
  unfold u16Size
  omega

/-- The two counters of the used ring agree when the driver has taken it all. -/
theorem lastUsed_iff (h : Books s es free live unseen finished) :
    s.queue.lastUsed = s.queue.usedIndex s.mem ↔ finished = [] := by
  have hle := h.length_le
  rw [h.lastUsed_eq, h.used_eq, h.completions_length, ← List.length_eq_zero_iff]
  unfold queueSize at hle
  unfold u16Size
  omega

/-- The head of an outstanding chain is one of its descriptors. -/
theorem head_lt_of_mem (h : Books s es free live unseen finished) {r : Request} (hr : r ∈ live) :
    r.head < queueSize :=
  h.lt _ (List.mem_append.mpr (.inr (List.mem_flatMap.mpr ⟨r, hr, (h.carries r hr).head_mem⟩)))

/-- The lists and the chains depend on the descriptors only. -/
theorem descriptors_congr (h : Books s es free live unseen finished)
    (hsame : ∀ i, i < queueSize → s.queue.descriptor m i = s.queue.descriptor s.mem i) :
    s.queue.Linked m s.queue.freeHead free ∧
      ∀ r ∈ live, s.queue.Carries m r.head r.chain r.buffers :=
  ⟨h.linked.congr fun i hi => congrArg Descriptor.next
      (hsame i (h.lt i (List.mem_append.mpr (.inl hi)))),
    fun r hr => (h.carries r hr).congr fun i hi => hsame i
      (h.lt i (List.mem_append.mpr (.inr (chain_subset hr hi))))⟩

/-- A head on its way is that of an outstanding chain. -/
theorem exists_request (h : Books s es free live unseen finished) {head : Nat}
    (hhead : head ∈ unseen ++ (s.held ++ finished.map Prod.fst)) : ∃ r ∈ live, r.head = head := by
  obtain ⟨r, hr, hrhead⟩ := List.mem_map.mp (h.heads.mem_iff.mp hhead)
  exact ⟨r, hr, hrhead⟩

end Books

/-! ## Elsewhere -/

theorem Queue.frame_congr {q : Queue} {m m' : Mem}
    (h : ∀ x, q.frame ≤ x → x < q.frame + frameSize → m' x = m x) {o n : Nat}
    (hlt : o + n ≤ frameSize) : m'.readLE (q.ringPtr o) n = m.readLE (q.ringPtr o) n := by
  unfold ringPtr
  exact Mem.readLE_congr fun x h1 h2 => h x (by omega) (by omega)

/-- What happens outside the frame is not seen. -/
theorem Books.elsewhere (h : Books s es free live unseen finished)
    (hsame : ∀ x, s.queue.frame ≤ x → x < s.queue.frame + frameSize → m x = s.mem x) :
    Books { s with mem := m } es free live unseen finished := by
  have hpos : ∀ x : Nat, x % queueSize < 16 := fun x => Nat.mod_lt x (by decide)
  have hdescriptor : ∀ i, i < queueSize → s.queue.descriptor m i = s.queue.descriptor s.mem i := by
    intro i hi
    have hbase := Queue.descBase_le hi
    have hle : availOffset ≤ frameSize := by decide
    unfold Queue.descriptor Queue.descriptorFlags Queue.descriptorNext
    rw [Queue.frame_congr hsame (by omega), Queue.frame_congr hsame (by omega),
      Queue.frame_congr hsame (by omega), Queue.frame_congr hsame (by omega)]
  obtain ⟨hlinked, hcarries⟩ := h.descriptors_congr hdescriptor
  exact
    { h with
      linked := hlinked
      carries := hcarries
      available_eq := (Queue.frame_congr hsame (by decide)).trans h.available_eq
      used_eq := (Queue.frame_congr hsame (by decide)).trans h.used_eq
      entries := fun k hk => by
        rw [← h.entries k hk]
        have hk := hpos ((consumptions es).length + k)
        have hle : availOffset + 36 ≤ frameSize := by decide
        exact Queue.frame_congr hsame (by omega)
      reports := fun k hk => by
        rw [← h.reports k hk]
        have hk := hpos ((takings es).length + k)
        have hle : usedOffset + 132 ≤ frameSize := by decide
        unfold Queue.usedEntry
        simp only
        rw [Queue.frame_congr hsame (by omega), Queue.frame_congr hsame (by omega)] }

/-- Nothing happened to any chain. -/
theorem Books.other (h : Books s es free live unseen finished) :
    Books s (es ++ [.other]) free live unseen finished := by
  obtain ⟨hadditions, hconsumptions, hcompletions, htakings⟩ := snoc_other es
  exact
    { h with
      outstanding_eq := (outstanding_other es).trans h.outstanding_eq
      added := by rw [hadditions, hconsumptions, h.added]
      reported := by rw [hcompletions, htakings, h.reported]
      seen_eq := by rw [hconsumptions, h.seen_eq]
      available_eq := by rw [hadditions, h.available_eq]
      lastUsed_eq := by rw [htakings, h.lastUsed_eq]
      used_eq := by rw [hcompletions, h.used_eq]
      entries := by rw [hconsumptions]; exact h.entries
      reports := by rw [htakings]; exact h.reports }

/-! ## The device -/

/-- What the device is offered is the oldest chain it has not seen. -/
theorem Books.offered (h : Books s es free live unseen finished) (hne : unseen ≠ []) :
    s.offered = unseen.head hne := by
  cases unseen with
  | nil => exact absurd rfl hne
  | cons head rest =>
    have hentry := h.entries 0 (by simp)
    unfold Line.offered
    rw [h.seen_eq]
    rwa [Nat.add_zero, show (consumptions es).length % queueSize =
      (consumptions es).length % u16Size % queueSize from
      (Nat.mod_mod_of_dvd _ (by decide)).symm] at hentry

/-- The device consumes an entry. -/
theorem Books.consume {head : Nat} {rest : List Nat}
    (h : Books s es free live (head :: rest) finished) :
    Books { s with seen := wrappingAdd16 s.seen 1, held := s.held ++ [head] }
      (es ++ [.consumed head]) free live rest finished := by
  obtain ⟨hadditions, hconsumptions, hcompletions, htakings⟩ := snoc_consumed es head
  refine
    { h with
      outstanding_eq := (outstanding_consumed es head).trans h.outstanding_eq
      heads := ?_
      added := ?_
      reported := by rw [hcompletions, htakings, h.reported]
      seen_eq := ?_
      available_eq := by rw [hadditions, h.available_eq]
      lastUsed_eq := by rw [htakings, h.lastUsed_eq]
      used_eq := by rw [hcompletions, h.used_eq]
      entries := fun k hk => ?_
      reports := by rw [htakings]; exact h.reports }
  · refine List.Perm.trans ?_ h.heads
    rw [List.append_assoc, List.cons_append]
    exact (List.perm_append_left_iff rest).mpr List.perm_middle |>.trans List.perm_middle
  · rw [hadditions, hconsumptions, h.added, List.append_assoc]
    rfl
  · show wrappingAdd16 s.seen 1 = _
    unfold wrappingAdd16
    rw [hconsumptions, h.seen_eq, List.length_append, List.length_singleton, Nat.mod_add_mod]
  · have hentry := h.entries (k + 1) (by simpa using hk)
    rw [hconsumptions, List.length_append, List.length_singleton, Nat.add_assoc, Nat.add_comm 1 k]
    rw [hentry]
    rfl

/-- The device reports a chain it holds. -/
theorem Books.complete {head written : Nat} (h : Books s es free live unseen finished)
    (hheld : head ∈ s.held) (hwritten : written < 2 ^ 32) :
    Books { s with mem := s.queue.report s.mem head written, held := s.held.erase head }
      (es ++ [.completed head written]) free live unseen (finished ++ [(head, written)]) := by
  obtain ⟨hadditions, hconsumptions, hcompletions, htakings⟩ := snoc_completed es head written
  obtain ⟨r, hr, rfl⟩ := h.exists_request
    (List.mem_append.mpr (.inr (List.mem_append.mpr (.inl hheld))))
  have hhead := h.head_lt_of_mem hr
  have hbut := Queue.report_but (m := s.mem) h.size_eq r.head written
  have hdescriptor : ∀ i, i < queueSize →
      s.queue.descriptor (s.queue.report s.mem r.head written) i = s.queue.descriptor s.mem i :=
    fun i hi => Queue.descriptor_congr hbut (by
      have hbase := Queue.descBase_le hi
      unfold availOffset at hbase
      unfold usedOffset
      omega)
  have hroom : finished.length < queueSize := by
    have hle := h.length_le
    have hpos := List.length_pos_of_mem hheld
    omega
  obtain ⟨hlinked, hcarries⟩ := h.descriptors_congr hdescriptor
  refine
    { h with
      linked := hlinked
      carries := hcarries
      outstanding_eq := (outstanding_completed es r.head written).trans h.outstanding_eq
      heads := ?_
      added := by rw [hadditions, hconsumptions, h.added]
      reported := by rw [hcompletions, htakings, h.reported, List.append_assoc]
      seen_eq := by rw [hconsumptions, h.seen_eq]
      available_eq := ?_
      lastUsed_eq := by rw [htakings, h.lastUsed_eq]
      used_eq := ?_
      entries := fun k hk => ?_
      reports := fun k hk => ?_ }
  · refine List.Perm.trans ?_ h.heads
    refine (List.perm_append_left_iff unseen).mpr ?_
    rw [List.map_append, ← List.append_assoc]
    refine List.perm_append_singleton .. |>.trans ?_
    rw [← List.cons_append]
    exact (List.perm_append_right_iff _).mpr (List.perm_cons_erase hheld).symm
  · rw [hadditions, ← h.available_eq]
    exact Queue.availableIndex_congr hbut (.inl (by decide))
  · rw [hcompletions, List.length_append, List.length_singleton]
    refine (Queue.report_index _ _).trans ?_
    rw [h.used_eq, Nat.mod_add_mod]
  · rw [hconsumptions, ← h.entries k hk]
    refine Queue.availableEntry_congr hbut (.inl ?_)
    have hpos : ((consumptions es).length + k) % queueSize < 16 := Nat.mod_lt _ (by decide)
    unfold availOffset usedOffset
    omega
  · have hindex : s.queue.usedIndex s.mem % queueSize =
        ((takings es).length + finished.length) % queueSize := by
      rw [h.used_eq, h.completions_length]
      exact Nat.mod_mod_of_dvd _ (by decide)
    rw [htakings]
    refine ring_snoc h.reports hroom (fun i hi => ?_) k hk
    rw [← hindex]
    exact Queue.report_entry h.size_eq (by unfold queueSize at hhead; omega) hwritten _

/-! ## The driver -/

/-- `add` refuses and changes nothing, or cuts a chain off the free list. -/
theorem Books.add_cases (h : Books s es free live unseen finished) (buffers : List Buffer) :
    (∃ e, add buffers s.driver = .ok (.error e, s.driver)) ∨
      ∃ l l' m freeHead, free = l ++ l' ∧ l.length = buffers.length ∧ buffers ≠ [] ∧
        s.queue.addFrom buffers s.queue.freeHead s.mem s.queue.freeHead = (m, freeHead) ∧
        add buffers s.driver = .ok (.ok s.queue.freeHead,
          ⟨s.queue.publish m s.queue.freeHead,
            { s.queue with freeHead := freeHead, freeCount := l'.length }⟩) := by
  unfold add
  cases hempty : buffers.isEmpty with
  | true => exact .inl ⟨.empty, rfl⟩
  | false =>
    have hne : buffers ≠ [] := by
      intro hnil
      rw [hnil] at hempty
      exact absurd hempty (by decide)
    rw [if_neg (by decide), Code.bind_ok (Code.get_apply s.driver)]
    by_cases hfull : s.queue.freeCount < buffers.length
    · exact .inl ⟨.full, by unfold Line.driver; rw [if_pos hfull]; rfl⟩
    · have hcount := h.count_eq
      have hle : buffers.length ≤ queueSize := by
        have hlength := h.length_le
        omega
      rcases hadd : s.queue.addFrom buffers s.queue.freeHead s.mem s.queue.freeHead with ⟨m, freeHead⟩
      have hsub : sub16 s.queue.freeCount (buffers.length % u16Size) =
          .ok (s.queue.freeCount - buffers.length) := by
        have hmod : buffers.length % u16Size = buffers.length := by
          unfold queueSize at hle
          unfold u16Size
          omega
        rw [hmod]
        exact if_pos (by omega)
      refine .inr ⟨free.take buffers.length, free.drop buffers.length, m, freeHead,
        (List.take_append_drop _ _).symm, ?_, hne, rfl, ?_⟩
      · rw [List.length_take]
        omega
      · unfold Line.driver
        rw [if_neg hfull]
        simp only [hadd]
        rw [Code.bind_ok (Code.lift_ok hsub _), List.length_drop, hcount]
        rfl

/-- `add` cuts the descriptors `l` off the free list and writes the buffers into them,
which leaves `m`; the chain is published after that. -/
structure Adding (s : Line) (es : List Event) (l l' : List Nat) (live : List Request)
    (unseen : List Nat) (finished : List (Nat × Nat)) (buffers : List Buffer) (m : Mem)
    (freeHead : Nat) : Prop where
  books : Books s es (l ++ l') live unseen finished
  length_eq : l.length = buffers.length
  ne_nil : buffers ≠ []
  wrote : s.queue.addFrom buffers s.queue.freeHead s.mem s.queue.freeHead = (m, freeHead)

namespace Adding

variable {l l' : List Nat} {buffers : List Buffer} {freeHead : Nat}

theorem lt (h : Adding s es l l' live unseen finished buffers m freeHead) :
    ∀ i ∈ l' ++ chained (live ++ [⟨s.queue.freeHead, l, buffers⟩]), i < queueSize :=
  fun i hi => h.books.lt i ((perm_added l l' live _ rfl).mem_iff.mp hi)

theorem l_lt (h : Adding s es l l' live unseen finished buffers m freeHead) :
    ∀ i ∈ l, i < queueSize :=
  fun i hi => h.books.lt i (List.mem_append.mpr (.inl (List.mem_append.mpr (.inl hi))))

theorem l_ne_nil (h : Adding s es l l' live unseen finished buffers m freeHead) : l ≠ [] :=
  fun hnil => h.ne_nil (List.length_eq_zero_iff.mp (by rw [← h.length_eq, hnil]; rfl))

/-- What the buffers are written to. -/
theorem spec (h : Adding s es l l' live unseen finished buffers m freeHead) :
    (∀ i, s.queue.descriptorNext m i = s.queue.descriptorNext s.mem i) ∧
      (∀ i, i ∉ l → s.queue.descriptor m i = s.queue.descriptor s.mem i) ∧
      s.queue.Describes m l buffers ∧ s.queue.Linked s.mem freeHead l' ∧ freeHead < u16Size ∧
      Mem.SameBut (s.queue.ringPtr descOffset) availOffset s.mem m := by
  obtain ⟨hfree, -, -⟩ := List.nodup_append'.mp h.books.nodup
  obtain ⟨hnodup, -, -⟩ := List.nodup_append'.mp hfree
  exact Queue.addFrom_spec buffers l l' _ _ _ h.ne_nil h.length_eq hnodup h.l_lt h.books.linked m
    freeHead h.wrote

/-- The new chain carries the buffers. -/
theorem carries_new (h : Adding s es l l' live unseen finished buffers m freeHead) :
    s.queue.Carries m s.queue.freeHead l buffers := by
  obtain ⟨hnext, -, hdescribes, -⟩ := h.spec
  exact ⟨h.books.linked.left.congr fun i _ => hnext i, hdescribes, h.l_ne_nil⟩

/-- Publishing it touches no descriptor. -/
theorem descriptor_publish (h : Adding s es l l' live unseen finished buffers m freeHead) {i : Nat}
    (hi : i < queueSize) :
    s.queue.descriptor (s.queue.publish m s.queue.freeHead) i = s.queue.descriptor m i := by
  refine Queue.descriptor_congr (Queue.publish_but h.books.size_eq _) ?_
  have hbase := Queue.descBase_le hi
  omega

/-- The rest of the free list is linked as before. -/
theorem linked (h : Adding s es l l' live unseen finished buffers m freeHead) :
    s.queue.Linked (s.queue.publish m s.queue.freeHead) freeHead l' := by
  obtain ⟨hnext, -, -, hlinked, -, -⟩ := h.spec
  exact hlinked.congr fun i hi => (congrArg Descriptor.next
    (h.descriptor_publish (h.lt i (List.mem_append.mpr (.inl hi))))).trans (hnext i)

/-- The chains that were there are in none of the descriptors that were written. -/
theorem carries (h : Adding s es l l' live unseen finished buffers m freeHead) {r : Request}
    (hr : r ∈ live ++ [⟨s.queue.freeHead, l, buffers⟩]) :
    s.queue.Carries (s.queue.publish m s.queue.freeHead) r.head r.chain r.buffers := by
  obtain ⟨-, -, hapart⟩ := List.nodup_append'.mp h.books.nodup
  obtain ⟨-, hother, -⟩ := h.spec
  have hthere : s.queue.Carries m r.head r.chain r.buffers := by
    rcases List.mem_append.mp hr with hr | hr
    · exact (h.books.carries r hr).congr fun i hi => hother i fun hil =>
        hapart (List.mem_append.mpr (.inl hil)) (chain_subset hr hi)
    · obtain rfl := List.mem_singleton.mp hr
      exact h.carries_new
  exact hthere.congr fun i hi =>
    h.descriptor_publish (h.lt i (List.mem_append.mpr (.inr (chain_subset hr hi))))

theorem heads (h : Adding s es l l' live unseen finished buffers m freeHead) :
    (unseen ++ [s.queue.freeHead] ++ (s.held ++ finished.map Prod.fst)).Perm
      ((live ++ [(⟨s.queue.freeHead, l, buffers⟩ : Request)]).map Request.head) := by
  rw [List.map_append, List.append_assoc]
  refine List.Perm.trans ?_ ((List.perm_append_right_iff _).mpr h.books.heads)
  rw [List.append_assoc]
  exact (List.perm_append_left_iff _).mpr List.perm_append_comm

/-- Writing descriptors moves no index. -/
theorem availableIndex_eq (h : Adding s es l l' live unseen finished buffers m freeHead) :
    s.queue.availableIndex m = (additions es).length % u16Size := by
  obtain ⟨-, -, -, -, -, hbut⟩ := h.spec
  exact (Queue.availableIndex_congr hbut (.inr (by decide))).trans h.books.available_eq

theorem usedIndex_eq (h : Adding s es l l' live unseen finished buffers m freeHead) :
    s.queue.usedIndex (s.queue.publish m s.queue.freeHead) = (completions es).length % u16Size := by
  obtain ⟨-, -, -, -, -, hbut⟩ := h.spec
  refine (Queue.usedIndex_congr (Queue.publish_but h.books.size_eq _) (.inr (by decide))).trans ?_
  exact (Queue.usedIndex_congr hbut (.inr (by decide))).trans h.books.used_eq

/-- The new head is behind what the device has not seen. -/
theorem entries (h : Adding s es l l' live unseen finished buffers m freeHead) (k : Nat)
    (hk : k < (unseen ++ [s.queue.freeHead]).length) :
    s.queue.availableEntry (s.queue.publish m s.queue.freeHead)
      (((consumptions es).length + k) % queueSize) = (unseen ++ [s.queue.freeHead])[k] := by
  obtain ⟨-, -, -, -, -, hbut⟩ := h.spec
  have hroom : unseen.length < queueSize := by
    have hle := h.books.length_le
    have hpos := List.length_pos_iff.mpr h.l_ne_nil
    rw [List.length_append] at hle
    omega
  have hhead : s.queue.freeHead < queueSize := h.l_lt _ h.carries_new.head_mem
  have hposition : s.queue.availableIndex m % queueSize =
      ((consumptions es).length + unseen.length) % queueSize := by
    rw [h.availableIndex_eq, h.books.additions_length]
    exact Nat.mod_mod_of_dvd _ (by decide)
  refine ring_snoc h.books.entries hroom (fun i hi => ?_) k hk
  rw [Queue.publish_entry h.books.size_eq (Nat.lt_trans hhead (by decide)), hposition]
  split
  · rfl
  · refine Queue.availableEntry_congr hbut (.inr ?_)
    unfold availOffset descOffset
    omega

/-- The reports stay where they are. -/
theorem reports (h : Adding s es l l' live unseen finished buffers m freeHead) (k : Nat)
    (hk : k < finished.length) :
    s.queue.usedEntry (s.queue.publish m s.queue.freeHead)
      (((takings es).length + k) % queueSize) = finished[k] := by
  obtain ⟨-, -, -, -, -, hbut⟩ := h.spec
  rw [← h.books.reports k hk]
  refine (Queue.usedEntry_congr (Queue.publish_but h.books.size_eq _) (.inr ?_)).trans
    (Queue.usedEntry_congr hbut (.inr ?_))
  · unfold usedOffset availOffset
    omega
  · unfold usedOffset availOffset descOffset
    omega

end Adding

/-- The driver adds a chain. -/
theorem Books.add {l l' : List Nat} {buffers : List Buffer} {freeHead : Nat}
    (h : Books s es (l ++ l') live unseen finished) (hlen : l.length = buffers.length)
    (hne : buffers ≠ [])
    (hadd : s.queue.addFrom buffers s.queue.freeHead s.mem s.queue.freeHead = (m, freeHead)) :
    Books (s.drove ⟨s.queue.publish m s.queue.freeHead,
        { s.queue with freeHead := freeHead, freeCount := l'.length }⟩)
      (es ++ [.added s.queue.freeHead buffers]) l'
      (live ++ [⟨s.queue.freeHead, l, buffers⟩]) (unseen ++ [s.queue.freeHead]) finished := by
  have hadding : Adding s es l l' live unseen finished buffers m freeHead := ⟨h, hlen, hne, hadd⟩
  obtain ⟨hadditions, hconsumptions, hcompletions, htakings⟩ := snoc_added es s.queue.freeHead buffers
  obtain ⟨-, -, -, -, hhead, -⟩ := hadding.spec
  have hperm := perm_added l l' live ⟨s.queue.freeHead, l, buffers⟩ rfl
  exact
    { size_eq := h.size_eq
      linked := hadding.linked.congr fun _ _ => rfl
      head_lt := hhead
      count_eq := rfl
      nodup := hperm.nodup_iff.mpr h.nodup
      lt := hadding.lt
      total := hperm.length_eq.trans h.total
      carries := fun r hr => (hadding.carries hr).congr fun _ _ => rfl
      outstanding_eq := by
        rw [outstanding_added, h.outstanding_eq, List.map_append]
        rfl
      heads := hadding.heads
      added := by
        rw [hadditions, hconsumptions, List.map_append, h.added, List.append_assoc]
        rfl
      reported := by rw [hcompletions, htakings, h.reported]
      seen_eq := by rw [hconsumptions]; exact h.seen_eq
      available_eq := by
        rw [hadditions, List.length_append, List.length_singleton]
        show s.queue.availableIndex (s.queue.publish m s.queue.freeHead) = _
        rw [Queue.publish_index, hadding.availableIndex_eq, Nat.mod_add_mod]
      lastUsed_eq := by rw [htakings]; exact h.lastUsed_eq
      used_eq := by rw [hcompletions]; exact hadding.usedIndex_eq
      entries := by rw [hconsumptions]; exact hadding.entries
      reports := by rw [htakings]; exact hadding.reports }

/-- The oldest report, where the driver looks. -/
theorem Books.report_eq {head written : Nat} {rest : List (Nat × Nat)}
    (h : Books s es free live unseen ((head, written) :: rest)) :
    s.queue.usedEntry s.mem (s.queue.lastUsed % s.queue.size) = (head, written) := by
  have hentry := h.reports 0 (by simp)
  rw [Nat.add_zero] at hentry
  rw [h.size_eq, h.lastUsed_eq, Nat.mod_mod_of_dvd _ (by decide)]
  exact hentry

/-- `recycle` of an outstanding chain. -/
theorem Books.recycle {r : Request} (h : Books s es free live unseen finished) (hr : r ∈ live)
    {q : Queue} (hq : q = { s.queue with lastUsed := q.lastUsed }) :
    recycle r.head ⟨s.mem, q⟩ = .ok ((), ⟨s.queue.writeDescriptorNext s.mem
        (r.chain.getLast (h.carries r hr).ne_nil) s.queue.freeHead,
      { q with freeHead := r.head, freeCount := r.chain.length + free.length }⟩) := by
  obtain ⟨hlinked, hdescribes, hne⟩ := h.carries r hr
  have hlen : r.chain.length + free.length ≤ queueSize := by
    have htotal := h.total
    have hle : r.chain.length ≤ (chained live).length :=
      (List.sublist_flatten_of_mem (List.mem_map_of_mem hr)).length_le
    rw [List.length_append] at htotal
    omega
  have hsize : queueSize ≤ u16Size := by decide
  have hcount : q.freeCount = free.length := by
    rw [hq]
    exact h.count_eq
  have hend : q.chainEnd s.mem u16Size r.head 1 = .ok (r.chain.getLast hne, r.chain.length) := by
    have hspec := Queue.chainEnd_spec (q := q) r.chain u16Size r.head 1 r.buffers
      (hlinked.congr fun i _ => by rw [hq]; rfl) (hdescribes.congr fun i _ => by rw [hq]; rfl) hne
      (by omega) (by unfold u16Size queueSize at *; omega)
    rwa [Nat.add_sub_cancel_left] at hspec
  have hadd : add16 q.freeCount r.chain.length = .ok (r.chain.length + free.length) := by
    rw [hcount, Nat.add_comm]
    exact if_pos (by unfold u16Size queueSize at *; omega)
  unfold Virtio.recycle
  rw [Code.bind_ok (Code.get_apply _)]
  simp only
  rw [Code.bind_ok (Code.lift_ok hend _), Code.bind_ok (Code.lift_ok hadd _), hq]
  rfl

/-- Without a report `take_used` returns nothing. -/
theorem Books.takeUsed_none (h : Books s es free live unseen []) :
    takeUsed s.driver = .ok (none, s.driver) := by
  have hall : s.driver.queue.lastUsed = s.driver.queue.usedIndex s.driver.mem :=
    h.lastUsed_iff.mpr rfl
  unfold takeUsed
  rw [Code.bind_ok (Code.get_apply s.driver)]
  simp only
  rw [if_pos hall]
  rfl

/-- Otherwise it returns the oldest one, and its chain goes in front of the free
list. -/
theorem Books.takeUsed_some {head written : Nat} {rest : List (Nat × Nat)}
    (h : Books s es free live unseen ((head, written) :: rest)) {r : Request} (hr : r ∈ live)
    (hhead : r.head = head) :
    takeUsed s.driver = .ok (some (head, written),
      ⟨s.queue.writeDescriptorNext s.mem (r.chain.getLast (h.carries r hr).ne_nil) s.queue.freeHead,
        { s.queue with
          freeHead := head
          freeCount := r.chain.length + free.length
          lastUsed := wrappingAdd16 s.queue.lastUsed 1 }⟩) := by
  subst hhead
  have hreport := h.report_eq
  have hlt := h.head_lt_of_mem hr
  have hone : s.mem.readLE (s.queue.ringPtr
      (usedOffset + 4 + s.queue.lastUsed % s.queue.size * 8)) 4 % u16Size = r.head := by
    rw [show s.mem.readLE _ 4 = r.head from congrArg Prod.fst hreport]
    exact Nat.mod_eq_of_lt (Nat.lt_trans hlt (by decide))
  have htwo : s.mem.readLE (s.queue.ringPtr
      (usedOffset + 4 + s.queue.lastUsed % s.queue.size * 8 + 4)) 4 = written :=
    congrArg Prod.snd hreport
  have hmore : s.queue.lastUsed ≠ s.queue.usedIndex s.mem := fun heq =>
    absurd (h.lastUsed_iff.mp heq) (by simp)
  unfold takeUsed
  rw [Code.bind_ok (Code.get_apply s.driver)]
  unfold Line.driver
  simp only
  rw [if_neg hmore, hone, htwo, Code.bind_ok (Code.set_apply _ _),
    Code.bind_ok (h.recycle hr (q := { s.queue with lastUsed := wrappingAdd16 s.queue.lastUsed 1 }) rfl)]
  rfl

section Take

variable {pre post : List Request} {r : Request} {written : Nat} {rest : List (Nat × Nat)}

/-- The chain, the rest of the free list and the other chains share no descriptor. -/
theorem Books.nodup_taken (h : Books s es free (pre ++ r :: post) unseen finished) :
    (r.chain ++ free ++ chained (pre ++ post)).Nodup := (perm_taken free pre post r).nodup_iff.mpr h.nodup

/-- Linking the last descriptor of a chain writes to the table only. -/
theorem Books.linking_but (h : Books s es free (pre ++ r :: post) unseen finished) (hne : r.chain ≠ [])
    (next : Nat) : Mem.SameBut (s.queue.ringPtr descOffset) availOffset s.mem
      (s.queue.writeDescriptorNext s.mem (r.chain.getLast hne) next) := by
  have hlast : r.chain.getLast hne ∈ free ++ chained (pre ++ r :: post) := List.mem_append.mpr
    (.inr (chain_subset (List.mem_append.mpr (.inr List.mem_cons_self)) (List.getLast_mem hne)))
  have hbase := Queue.descBase_le (h.lt _ hlast)
  refine (Queue.writeDescriptorNext_but _ _ _ _).mono ?_ ?_
  all_goals
    unfold Queue.ringPtr
    unfold descOffset
    omega

/-- The chain is in front of the free list. -/
theorem Books.linked_taken (h : Books s es free (pre ++ r :: post) unseen finished) (hne : r.chain ≠ []) :
    s.queue.Linked (s.queue.writeDescriptorNext s.mem (r.chain.getLast hne) s.queue.freeHead) r.head
      (r.chain ++ free) := by
  obtain ⟨hfront, -, -⟩ := List.nodup_append'.mp h.nodup_taken
  obtain ⟨hchain, -, hfree⟩ := List.nodup_append'.mp hfront
  have hr : r ∈ pre ++ r :: post := List.mem_append.mpr (.inr List.mem_cons_self)
  exact Queue.Linked.append hne hchain (fun hmem => hfree (List.getLast_mem hne) hmem)
    (h.carries r hr).linked h.linked h.head_lt

/-- The one descriptor written to is in no chain that stays. -/
theorem Books.carries_taken (h : Books s es free (pre ++ r :: post) unseen finished) (hne : r.chain ≠ [])
    {r' : Request} (hr' : r' ∈ pre ++ post) :
    s.queue.Carries (s.queue.writeDescriptorNext s.mem (r.chain.getLast hne) s.queue.freeHead) r'.head
      r'.chain r'.buffers := by
  obtain ⟨-, -, hapart⟩ := List.nodup_append'.mp h.nodup_taken
  have hstays : r' ∈ pre ++ r :: post := by
    rcases List.mem_append.mp hr' with hpre | hpost
    · exact List.mem_append.mpr (.inl hpre)
    · exact List.mem_append.mpr (.inr (List.mem_cons_of_mem r hpost))
  refine (h.carries r' hstays).congr fun i hi => ?_
  have hother : i ≠ r.chain.getLast hne := fun heq =>
    hapart (List.mem_append.mpr (.inl (List.getLast_mem hne))) (heq ▸ chain_subset hr' hi)
  exact Queue.descriptor_congr (Queue.writeDescriptorNext_but _ _ _ _) (Queue.descBase_disjoint hother)

/-- The first outstanding chain of that head is gone. -/
theorem Books.outstanding_taken (h : Books s es free (pre ++ r :: post) unseen finished)
    (hfirst : ∀ r' ∈ pre, r'.head ≠ r.head) (written : Nat) :
    outstanding (es ++ [.taken r.head written]) = (pre ++ post).map fun r => (r.head, r.buffers) := by
  rw [Virtio.outstanding_taken, h.outstanding_eq, List.eraseP_map]
  congr 1
  rw [List.eraseP_append_right _ (by simpa using hfirst), List.eraseP_cons_of_pos (by simp)]

/-- So is its head. -/
theorem Books.heads_taken (h : Books s es free (pre ++ r :: post) unseen ((r.head, written) :: rest)) :
    (unseen ++ (s.held ++ rest.map Prod.fst)).Perm ((pre ++ post).map Request.head) := by
  have hheads := h.heads
  rw [List.map_append, List.map_cons, List.map_cons] at hheads
  rw [List.map_append]
  refine List.Perm.cons_inv (a := r.head) ?_
  refine List.Perm.trans ?_ (hheads.trans List.perm_middle)
  rw [← List.append_assoc, ← List.append_assoc]
  exact List.perm_middle.symm

/-- The driver takes a report. -/
theorem Books.take {head : Nat} (h : Books s es free live unseen ((head, written) :: rest))
    (hlive : live = pre ++ r :: post) (hfirst : ∀ r' ∈ pre, r'.head ≠ head) (hhead : r.head = head)
    (hne : r.chain ≠ []) :
    Books (s.drove ⟨s.queue.writeDescriptorNext s.mem (r.chain.getLast hne) s.queue.freeHead,
        { s.queue with
          freeHead := head
          freeCount := r.chain.length + free.length
          lastUsed := wrappingAdd16 s.queue.lastUsed 1 }⟩)
      (es ++ [.taken head written]) (r.chain ++ free) (pre ++ post) unseen rest := by
  subst hhead hlive
  obtain ⟨hadditions, hconsumptions, hcompletions, htakings⟩ := snoc_taken es r.head written
  have hr : r ∈ pre ++ r :: post := List.mem_append.mpr (.inr List.mem_cons_self)
  have hperm := perm_taken free pre post r
  have hbut := h.linking_but hne s.queue.freeHead
  refine
    { size_eq := h.size_eq
      linked := (h.linked_taken hne).congr fun _ _ => rfl
      head_lt := Nat.lt_trans (h.head_lt_of_mem hr) (by decide)
      count_eq := (List.length_append).symm
      nodup := h.nodup_taken
      lt := fun i hi => h.lt i (hperm.mem_iff.mp hi)
      total := hperm.length_eq.trans h.total
      carries := fun r' hr' => (h.carries_taken hne hr').congr fun _ _ => rfl
      outstanding_eq := h.outstanding_taken hfirst written
      heads := h.heads_taken
      added := by rw [hadditions, hconsumptions, h.added]
      reported := by rw [hcompletions, htakings, h.reported, List.append_assoc]; rfl
      seen_eq := by rw [hconsumptions]; exact h.seen_eq
      available_eq := ?_
      lastUsed_eq := ?_
      used_eq := ?_
      entries := fun k hk => ?_
      reports := fun k hk => ?_ }
  · rw [hadditions, ← h.available_eq]
    exact Queue.availableIndex_congr hbut (.inr (by decide))
  · show wrappingAdd16 s.queue.lastUsed 1 = _
    unfold wrappingAdd16
    rw [htakings, h.lastUsed_eq, List.length_append, List.length_singleton, Nat.mod_add_mod]
  · rw [hcompletions, ← h.used_eq]
    exact Queue.usedIndex_congr hbut (.inr (by decide))
  · rw [hconsumptions, ← h.entries k hk]
    refine Queue.availableEntry_congr hbut (.inr ?_)
    unfold availOffset descOffset
    omega
  · have hentry := h.reports (k + 1) (by simpa using hk)
    rw [htakings, List.length_append, List.length_singleton, Nat.add_assoc, Nat.add_comm 1 k]
    refine Eq.trans (Queue.usedEntry_congr hbut (.inr ?_)) hentry
    unfold usedOffset availOffset descOffset
    omega

end Take

end TheRack.Virtio
