import LebStudy.EventBuilder.Invariant

/-!
# What the event buffer always looks like

Between two passes of the loop a record in `m_events` has a fragment and lacks one, the
event numbers differ, the records stand in the order of their creation, and there are no
more of them than `m_max_event_depth`. The reads through a stale index do not matter: a
flush removes records, whichever it takes, and adds none.
-/

namespace LebStudy

namespace DTeb

/-- The representation invariant of `m_events`. -/
structure Representation (s : DTeb) : Prop where
  numbers : (s.mEvents.map (·.eventNumber)).Nodup
  blocks : ∀ ev ∈ s.mEvents, ev.node.length = ev.data.length
  fragments : ∀ ev ∈ s.mEvents, 1 ≤ ev.node.length ∧ ev.node.length < s.mNodes.length
  order : (s.mEvents.map (·.serial)).Pairwise (· < ·)
  depth : s.mEvents.length ≤ s.mMaxEventDepth

/-! ### How many records there are -/

theorem newRecord_length_le (s : DTeb) (m : Message) :
    (s.newRecord m s.mEvents).events.length ≤ s.mEvents.length + 1 := by
  have hlen := congrArg List.length (newRecord_records s m s.mEvents)
  simp only [List.length_append, List.length_singleton] at hlen
  omega

/-- One record too many is one that the eviction takes. -/
theorem evict_length_le {s : DTeb} {o : LoopOut} (h : o.events.length ≤ s.mMaxEventDepth + 1) :
    (s.evict o).events.length ≤ s.mMaxEventDepth := by
  by_cases hfull : s.mMaxEventDepth < o.events.length
  · cases hevents : o.events with
    | nil => simp [hevents] at hfull
    | cons front rest =>
      rw [hevents, List.length_cons] at h
      have hrest : (s.evict o).events = rest := by
        unfold evict
        rw [hevents]
        simp only
        rw [if_pos (by simpa [hevents] using hfull)]
      rw [hrest]
      omega
  · rw [evict_eq_self (by omega)]
    omega

theorem flush_length_le (s : DTeb) (stale : ℕ → ℕ) (passed : List EbEvent) (ev : EbEvent)
    (rest : List EbEvent) :
    (s.flush stale passed ev rest).events.length ≤ passed.length + rest.length := by
  obtain ⟨-, -, -, kept, hevents, hsub, -⟩ := flush_spec s stale passed ev rest
  have hkept := hsub.length_le
  rw [List.length_map] at hkept
  rw [hevents, List.length_append]
  omega

theorem depth_step {s : DTeb} (hbuf : BufferInv s) (h : s.mEvents.length ≤ s.mMaxEventDepth)
    (a : Arrival) : (s.step a).mEvents.length ≤ s.mMaxEventDepth := by
  show (s.stRunningBody a).events.length ≤ s.mMaxEventDepth
  rcases stRunningBody_cases s a hbuf.numbers with
    ⟨-, hbody⟩ | ⟨passed, ev, rest, hsplit, -, ⟨-, hbody⟩ | ⟨-, hbody⟩⟩
  · rw [hbody]
    apply evict_length_le
    have := newRecord_length_le s a.message
    omega
  · rw [hsplit, List.length_append, List.length_cons] at h
    rw [hbody, appended, List.length_append, List.length_cons]
    exact h
  · rw [hsplit, List.length_append, List.length_cons] at h
    rw [hbody]
    have := flush_length_le s a.stale passed { ev.push a.message with isFullev := true } rest
    omega

/-! ### The records -/

/-- Each record in the buffer has a fragment and lacks one. -/
def Incomplete (s : DTeb) : Prop :=
  ∀ ev ∈ s.mEvents, ev.node.length = ev.data.length ∧
    1 ≤ ev.node.length ∧ ev.node.length < s.mNodes.length

theorem Incomplete.step {s : DTeb} (h : Incomplete s) (hbuf : BufferInv s)
    (hlen : 1 ≤ s.mNodes.length) (a : Arrival) : Incomplete (s.step a) := by
  intro x hx
  show x.node.length = x.data.length ∧ 1 ≤ x.node.length ∧ x.node.length < s.mNodes.length
  rcases mem_events_cases hbuf hx with
    ⟨ev, hev, -, isFullev, rfl⟩ | ⟨ev, hev, -, hshort, rfl⟩ | ⟨-, hone, rfl⟩
  · exact h ev hev
  · -- it was taken in because a fragment is still missing behind it
    have hblocks := (h ev hev).1
    simp only [EbEvent.push, List.length_append, List.length_singleton]
    omega
  · show 1 = 1 ∧ 1 ≤ 1 ∧ 1 < s.mNodes.length
    omega

/-! ### Over a run -/

theorem representation_of_parts {s : DTeb} (hbuf : BufferInv s) (hopen : Incomplete s)
    (hdepth : s.mEvents.length ≤ s.mMaxEventDepth) : Representation s where
  numbers := hbuf.numbers
  blocks ev hev := (hopen ev hev).1
  fragments ev hev := (hopen ev hev).2
  order := hbuf.serials
  depth := hdepth

/-- With one node there is no record: it would have a fragment, and fewer than one. -/
theorem Representation.events_eq_nil {s : DTeb} (h : Representation s)
    (hone : s.mNodes.length = 1) : s.mEvents = [] := by
  apply List.eq_nil_iff_forall_not_mem.mpr
  intro ev hev
  have := h.fragments ev hev
  omega

theorem incomplete_of_stRunning {mId mMaxEventDepth : ℕ} {mNodes : List ℕ}
    (hlen : 1 ≤ mNodes.length) {as : List Arrival} {t : DTeb}
    (hrun : stRunning (start mId mMaxEventDepth mNodes) as = some t) :
    Incomplete t ∧ t.mNodes = mNodes := by
  have hinv : BufferInv t ∧ Incomplete t ∧ t.mNodes = mNodes := by
    refine Transition.run_invariant
      (I := fun t => BufferInv t ∧ Incomplete t ∧ t.mNodes = mNodes) ?_ ?_ hrun
    · refine ⟨bufferInv_start mId mMaxEventDepth mNodes, ?_, rfl⟩
      intro ev hev
      cases hev
    · rintro s a _ ⟨hbuf, hopen, hnodes⟩ ⟨⟩
      exact ⟨hbuf.step a, hopen.step hbuf (hnodes ▸ hlen) a, hnodes⟩
  exact hinv.2

/-- For any number of nodes, any depth and any fragments: the invariant holds after every
pass of the loop. -/
theorem representation_of_stRunning (mId mMaxEventDepth : ℕ) (mNodes : List ℕ)
    (hlen : 1 ≤ mNodes.length) (as : List Arrival) (t : DTeb)
    (hrun : stRunning (start mId mMaxEventDepth mNodes) as = some t) :
    Representation t ∧ t.mNodes = mNodes ∧ t.mMaxEventDepth = mMaxEventDepth ∧
      (mNodes.length = 1 → t.mEvents = []) := by
  have hinv : BufferInv t ∧ Incomplete t ∧ t.mEvents.length ≤ t.mMaxEventDepth ∧
      t.mNodes = mNodes ∧ t.mMaxEventDepth = mMaxEventDepth := by
    refine Transition.run_invariant (I := fun t => BufferInv t ∧ Incomplete t ∧
      t.mEvents.length ≤ t.mMaxEventDepth ∧ t.mNodes = mNodes ∧
        t.mMaxEventDepth = mMaxEventDepth) ?_ ?_ hrun
    · refine ⟨bufferInv_start mId mMaxEventDepth mNodes, ?_, ?_, rfl, rfl⟩
      · intro ev hev
        cases hev
      · exact Nat.zero_le _
    · rintro s a _ ⟨hbuf, hopen, hdepth, hnodes, hmax⟩ ⟨⟩
      refine ⟨hbuf.step a, hopen.step hbuf ?_ a, depth_step hbuf hdepth a, hnodes, hmax⟩
      rw [hnodes]
      exact hlen
  obtain ⟨hbuf, hopen, hdepth, hnodes, hmax⟩ := hinv
  have hrep := representation_of_parts hbuf hopen hdepth
  refine ⟨hrep, hnodes, hmax, ?_⟩
  intro hone
  exact hrep.events_eq_nil (hnodes ▸ hone)

/-- A record that is sent has a fragment, and no more of them than there are nodes. -/
theorem fragments_sent {mId mMaxEventDepth : ℕ} {mNodes : List ℕ} (hlen : 1 ≤ mNodes.length)
    {as : List Arrival} {t : DTeb}
    (hrun : stRunning (start mId mMaxEventDepth mNodes) as = some t) :
    ∀ ev ∈ t.sendLog, 1 ≤ ev.node.length ∧ ev.node.length ≤ mNodes.length := by
  have htrue : Transition.Meets next (fun _ _ => True) (start mId mMaxEventDepth mNodes) as :=
    Transition.meets_of_forall fun _ _ _ => trivial
  refine Transition.run_induction (P := fun _ t => ∀ ev ∈ t.sendLog,
    1 ≤ ev.node.length ∧ ev.node.length ≤ mNodes.length) ?_ ?_ hrun htrue
  · intro ev hev
    cases hev
  · rintro pre s a _ hpre ih - ⟨⟩ x hx
    obtain ⟨hopen, rfl⟩ := incomplete_of_stRunning hlen hpre
    cases List.mem_append.mp hx with
    | inl hx => exact ih x hx
    | inr hx =>
      rcases mem_sent_cases (bufferInv_of_stRunning hpre) hx with
        ⟨ev, hev, -, rfl⟩ | ⟨ev, hev, -, -, rfl⟩ | ⟨-, rfl⟩
      · have := hopen x hev
        omega
      · have := hopen ev hev
        simp only [EbEvent.push, List.length_append, List.length_singleton]
        omega
      · exact ⟨le_rfl, hlen⟩

/-- Three fragments of node 1, with room for two records: the third evicts the first. -/
theorem representation_of_three_fragments :
    ∃ t, stRunning (start 999 2 [1, 2])
        ([RecbeRecord.empty 1 5, RecbeRecord.empty 1 6, RecbeRecord.empty 1 7].map fun r =>
          ⟨r.message, fun _ => 0⟩) = some t ∧
      t.mEvents.length = 2 ∧ Representation t := by
  refine ⟨_, stRunning_eq _ _, by decide, ?_⟩
  exact (representation_of_stRunning 999 2 [1, 2] (by decide) _ _ (stRunning_eq _ _)).1

end DTeb

end LebStudy
