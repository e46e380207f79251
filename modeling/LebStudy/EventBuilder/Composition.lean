import LebStudy.EventBuilder.BuildInvariant
import LebStudy.EventBuilder.Representation

/-!
# What a record is made of, whatever happens

Evictions send records that lack a fragment, and the erase loop may leave records behind
that have been sent. In any run all the same the fragments of a record are fragments of its
own trigger, in the order in which they have come in. Where no node repeats a trigger, a record
with as many fragments as there are nodes has one of each; and from ordered streams no trigger
is handed on with all its fragments twice, or behind a later one.
-/

namespace LebStudy

open Interleaving

namespace DTeb

/-- A property of records that may depend on the messages so far: it holds of all records in
the buffer and of all records sent, if it holds of a new record and is kept by the records
that a message joins and by those that it does not. -/
theorem forall_records_along {P : List Message → EbEvent → Prop}
    (blind : ∀ ms ev isFullev, P ms ev → P ms { ev with isFullev := isFullev })
    (later : ∀ ms m ev, P ms ev → P (ms ++ [m]) ev)
    (fresh : ∀ ms m serial, P (ms ++ [m]) (EbEvent.ofMessage m serial))
    (join : ∀ ms m ev, P ms ev → ev.eventNumber = m.trig → P (ms ++ [m]) (ev.push m))
    {mId mMaxEventDepth : ℕ} {mNodes : List ℕ} {as : List Arrival} {t : DTeb}
    (hrun : stRunning (start mId mMaxEventDepth mNodes) as = some t) :
    ∀ ev ∈ t.mEvents ++ t.sendLog, P (as.map (·.message)) ev := by
  induction as using List.reverseRecOn generalizing t with
  | nil =>
    cases hrun
    simp [start]
  | append_singleton pre a ih =>
    obtain ⟨s, hs, hstep⟩ := Transition.run_concat_eq_some.mp hrun
    cases hstep
    have hbuf := bufferInv_of_stRunning hs
    have hpre := ih hs
    rw [List.forall_mem_append] at hpre
    rw [List.map_append, List.map_singleton, List.forall_mem_append]
    refine ⟨fun x hx => ?_, fun x hx => ?_⟩
    · rcases mem_events_cases hbuf hx with
        ⟨ev, hev, -, isFullev, rfl⟩ | ⟨ev, hev, hnum, -, rfl⟩ | ⟨-, -, rfl⟩
      · exact blind _ ev isFullev (later _ _ ev (hpre.1 ev hev))
      · exact join _ _ ev (hpre.1 ev hev) hnum
      · exact fresh _ _ s.created
    · rcases List.mem_append.mp hx with hx | hx
      · exact later _ _ x (hpre.2 x hx)
      · rcases mem_sent_cases hbuf hx with ⟨ev, hev, -, rfl⟩ | ⟨ev, hev, hnum, -, rfl⟩ | ⟨-, rfl⟩
        · exact later _ _ x (hpre.1 x hev)
        · exact blind _ _ true (join _ _ ev (hpre.1 ev hev) hnum)
        · exact fresh _ _ s.created

end DTeb

/-! ### The fragments -/

/-- The fragments of the record are some of those received of its trigger, in their order. -/
structure Composed (ms : List Message) (ev : EbEvent) : Prop where
  blocks : ev.node.length = ev.data.length
  fragments : ev.fragments.Sublist (fragmentsOf ms ev.eventNumber)

theorem fragmentsOf_concat (ms : List Message) (m : Message) (k : ℕ) :
    (fragmentsOf ms k).Sublist (fragmentsOf (ms ++ [m]) k) := by
  rw [fragmentsOf, fragmentsOf, List.filter_append, List.map_append]
  exact List.sublist_append_left _ _

theorem composed_of_stRunning {mId mMaxEventDepth : ℕ} {mNodes : List ℕ} {as : List Arrival}
    {t : DTeb} (hrun : DTeb.stRunning (DTeb.start mId mMaxEventDepth mNodes) as = some t) :
    ∀ ev ∈ t.mEvents ++ t.sendLog, Composed (as.map (·.message)) ev := by
  refine DTeb.forall_records_along (P := Composed) ?_ ?_ ?_ ?_ hrun
  · exact fun _ _ _ h => ⟨h.blocks, h.fragments⟩
  · exact fun ms m ev h => ⟨h.blocks, h.fragments.trans (fragmentsOf_concat ms m _)⟩
  · refine fun ms m serial => ⟨rfl, ?_⟩
    show [(m.id, m.cbody)].Sublist (fragmentsOf (ms ++ [m]) m.trig)
    rw [fragmentsOf_concat_self]
    exact List.sublist_append_right _ _
  · rintro ms m ev ⟨hblocks, hfragments⟩ hnum
    refine ⟨by simp [EbEvent.push, hblocks], ?_⟩
    have hpush : (ev.push m).fragments = ev.fragments ++ [(m.id, m.cbody)] := by
      rw [EbEvent.fragments, EbEvent.push, List.zip_append hblocks]
      rfl
    show (ev.push m).fragments.Sublist (fragmentsOf (ms ++ [m]) ev.eventNumber)
    rw [hpush, hnum, fragmentsOf_concat_self]
    exact (hnum ▸ hfragments).append (List.Sublist.refl _)

section Complete

variable {mNodes : List ℕ} {ms : List Message} {ev : EbEvent}

theorem Composed.node_sublist (h : Composed ms ev) :
    ev.node.Sublist ((fragmentsOf ms ev.eventNumber).map (·.1)) := by
  have hnode : ev.fragments.map (·.1) = ev.node := List.map_fst_zip h.blocks.le
  rw [← hnode]
  exact h.fragments.map _

/-- A node has at most one fragment in a record. -/
theorem Composed.nodup (h : Composed ms ev) (honce : TrigsOnce ms) : ev.node.Nodup :=
  (honce.nodup_ids ev.eventNumber).sublist h.node_sublist

/-- A record with as many fragments as there are nodes is one of a full trigger. -/
theorem Composed.full (h : Composed ms ev) (honce : TrigsOnce ms) (hnd : mNodes.Nodup)
    (hid : ∀ m ∈ ms, m.id ∈ mNodes) (hlen : mNodes.length ≤ ev.node.length) :
    Full mNodes ms ev.eventNumber := by
  apply (honce.full_iff hnd hid).mpr
  have hle := h.node_sublist.length_le
  rw [List.length_map] at hle
  exact hlen.trans hle

end Complete

/-! ### The complete records -/

/-- The record has as many fragments as there are nodes. -/
def EbEvent.Complete (mNodes : List ℕ) (ev : EbEvent) : Prop := mNodes.length ≤ ev.node.length

instance (mNodes : List ℕ) (ev : EbEvent) : Decidable (ev.Complete mNodes) :=
  inferInstanceAs (Decidable (_ ≤ _))

namespace DTeb

/-- The numbers of the complete records sent. -/
def completeNumbers (s : DTeb) : List ℕ :=
  (s.sendLog.filter (·.Complete s.mNodes)).map (·.eventNumber)

/-- A pass sends at most one complete record, that of the message it has received. -/
theorem sent_complete_cases {s : DTeb} (hbuf : BufferInv s) (hopen : Incomplete s)
    (hlen : 2 ≤ s.mNodes.length) (a : Arrival) :
    ((s.stRunningBody a).sent.filter (·.Complete s.mNodes)).map (·.eventNumber) = [] ∨
      ((s.stRunningBody a).sent.filter (·.Complete s.mNodes)).map (·.eventNumber) =
        [a.message.trig] := by
  have hold {ev : EbEvent} (hev : ev ∈ s.mEvents) : ¬ ev.Complete s.mNodes := by
    have hshort := (hopen ev hev).2.2
    rw [EbEvent.Complete]
    omega
  rcases stRunningBody_cases s a hbuf.numbers with
    ⟨-, hbody⟩ | ⟨passed, ev, rest, hsplit, hev, ⟨-, hbody⟩ | ⟨hfull, hbody⟩⟩
  · -- an eviction sends a record that was waiting, or the new one
    obtain ⟨out, hevents, hsent, -⟩ := evict_spec s (s.newRecord a.message s.mEvents)
    rw [newRecord_of_ne_one (by omega)] at hevents hsent
    refine .inl ?_
    rw [hbody, newRecord_of_ne_one (by omega), hsent, List.nil_append, List.map_eq_nil_iff,
      List.filter_eq_nil_iff]
    intro x hx hcomplete
    have hmem : x ∈ s.mEvents ++ [EbEvent.ofMessage a.message s.created] := by
      simp only at hevents
      rw [hevents]
      exact List.mem_append_left _ hx
    have hcomplete := of_decide_eq_true hcomplete
    rcases List.mem_append.mp hmem with hmem | hmem
    · exact hold hmem hcomplete
    · rw [List.mem_singleton.mp hmem, EbEvent.Complete] at hcomplete
      simp only [EbEvent.ofMessage, List.length_singleton] at hcomplete
      omega
  · refine .inl ?_
    rw [hbody]
    rfl
  · obtain ⟨-, -, hsent, -⟩ :=
      flush_spec s a.stale passed { ev.push a.message with isFullev := true } rest
    refine .inr ?_
    have hpassed : (passed.filter fun x => x.eventNumber ≤ ev.eventNumber).filter
        (·.Complete s.mNodes) = [] := by
      rw [List.filter_eq_nil_iff]
      intro x hx hcomplete
      have hmem : x ∈ s.mEvents := by
        rw [hsplit]
        exact List.mem_append_left _ (List.mem_of_mem_filter hx)
      exact hold hmem (of_decide_eq_true hcomplete)
    have hnow : EbEvent.Complete s.mNodes { ev.push a.message with isFullev := true } := by
      simp only [EbEvent.Complete, EbEvent.push, List.length_append, List.length_singleton]
      exact hfull
    rw [hbody, hsent, List.filter_append]
    show (List.filter _ (passed.filter fun x => x.eventNumber ≤ ev.eventNumber) ++ _).map _ = _
    rw [hpassed, List.nil_append, List.filter_cons_of_pos (by simpa using hnow)]
    simp [EbEvent.push, hev]

theorem mNodes_of_stRunning {mId mMaxEventDepth : ℕ} {mNodes : List ℕ} {as : List Arrival}
    {t : DTeb} (hrun : stRunning (start mId mMaxEventDepth mNodes) as = some t) :
    t.mNodes = mNodes := by
  refine Transition.run_invariant (I := fun t => t.mNodes = mNodes) rfl ?_ hrun
  rintro s a _ hs ⟨⟩
  exact hs

/-- The trigger of a complete record has come in from all nodes. -/
theorem full_of_mem_completeNumbers {mId mMaxEventDepth : ℕ} {mNodes : List ℕ}
    (hnd : mNodes.Nodup) {as : List Arrival} {t : DTeb}
    (hids : ∀ a ∈ as, a.message.id ∈ mNodes) (honce : TrigsOnce (as.map (·.message)))
    (hrun : stRunning (start mId mMaxEventDepth mNodes) as = some t) {k : ℕ}
    (hk : k ∈ t.completeNumbers) : Full mNodes (as.map (·.message)) k := by
  obtain ⟨ev, hev, rfl⟩ := List.mem_map.mp hk
  obtain ⟨hsent, hcomplete⟩ := List.mem_filter.mp hev
  rw [decide_eq_true_eq, EbEvent.Complete, mNodes_of_stRunning hrun] at hcomplete
  have hcomposed := composed_of_stRunning hrun ev (List.mem_append_right _ hsent)
  exact hcomposed.full honce hnd (List.forall_mem_map.mpr hids) hcomplete

/-- In any run of ordered streams the complete records leave in increasing order of their
triggers, each trigger at most once. -/
theorem completeNumbers_of_stRunning {mId mMaxEventDepth : ℕ} {mNodes : List ℕ}
    (hnd : mNodes.Nodup) (hlen : 2 ≤ mNodes.length) {as : List Arrival} {t : DTeb}
    (hids : ∀ a ∈ as, a.message.id ∈ mNodes) (hord : TrigOrdered (as.map (·.message)))
    (hrun : stRunning (start mId mMaxEventDepth mNodes) as = some t) :
    t.completeNumbers.Pairwise (· < ·) := by
  induction as using List.reverseRecOn generalizing t with
  | nil =>
    cases hrun
    exact List.Pairwise.nil
  | append_singleton pre a ih =>
    obtain ⟨s, hs, hstep⟩ := Transition.run_concat_eq_some.mp hrun
    cases hstep
    have hidspre : ∀ b ∈ pre, b.message.id ∈ mNodes := fun b hb =>
      hids b (List.mem_append_left _ hb)
    rw [List.map_append, List.map_singleton] at hord
    have hpre := ih hidspre hord.of_append hs
    obtain ⟨hopen, hnodes'⟩ := incomplete_of_stRunning (by omega) hs
    have hlen' : 2 ≤ s.mNodes.length := by rw [hnodes']; exact hlen
    have hlog : (s.step a).completeNumbers = s.completeNumbers ++
        ((s.stRunningBody a).sent.filter (·.Complete s.mNodes)).map (·.eventNumber) := by
      rw [completeNumbers, completeNumbers, ← List.map_append, ← List.filter_append]
      rfl
    rw [hlog]
    rcases sent_complete_cases (bufferInv_of_stRunning hs) hopen hlen' a with hnone | hone
    · rw [hnone, List.append_nil]
      exact hpre
    · rw [hone, List.pairwise_append]
      refine ⟨hpre, List.pairwise_singleton _ _, fun k hk k' hk' => ?_⟩
      obtain rfl := List.mem_singleton.mp hk'
      -- otherwise this node would have delivered `k` before a smaller trigger
      by_contra hge
      have hfull := full_of_mem_completeNumbers hnd hidspre (TrigOrdered.once hord.of_append) hs hk
      have hdel := hfull _ (hids a (by simp))
      exact hord.not_delivered (Nat.le_of_not_lt hge) hdel

end DTeb

end LebStudy
