import LebStudy.EventBuilder.Invariant
import Mathlib.Data.List.Perm.Subperm

/-!
# When an event counted full is full

`DTeb::st_running` calls an event full when its record holds as many fragments as
there are nodes, whoever sent them. A record is sent as soon as it reaches that
number, so at this moment it holds exactly that many, and it covers the nodes
exactly if no node has sent two of them and no fragment has come from elsewhere.
-/

namespace LebStudy

namespace DTeb

/-- Where the branch of a full event is taken, every node has a fragment in the record. -/
def FullCovers (s : DTeb) (a : Arrival) : Prop :=
  ∀ ev, (s.stRunningBody a).full = some ev → ev.Covers s.mNodes

instance (s : DTeb) (a : Arrival) : Decidable (s.FullCovers a) :=
  inferInstanceAs (Decidable (∀ ev ∈ (s.stRunningBody a).full, ev.Covers s.mNodes))

/-- The ids are those of different nodes of the list. -/
def DistinctNodes (mNodes ids : List ℕ) : Prop := ids.Nodup ∧ ∀ n ∈ ids, n ∈ mNodes

instance (mNodes ids : List ℕ) : Decidable (DistinctNodes mNodes ids) :=
  inferInstanceAs (Decidable (_ ∧ _))

/-- If the record of the fragment's trigger lacks one fragment only, those it has and the
one received come from different nodes of the list. -/
def LastFromLastNode (s : DTeb) (a : Arrival) : Prop :=
  ∀ ev ∈ s.mEvents, ev.eventNumber = a.message.trig → ev.node.length + 1 = s.mNodes.length →
    DistinctNodes s.mNodes (ev.node ++ [a.message.id])

instance (s : DTeb) (a : Arrival) : Decidable (s.LastFromLastNode a) :=
  inferInstanceAs (Decidable (∀ ev ∈ s.mEvents, _))

/-! ### Counting and covering -/

private theorem nodup_append_singleton {ids : List ℕ} {n : ℕ} (hnd : ids.Nodup) (hn : n ∉ ids) :
    (ids ++ [n]).Nodup := by
  rw [← List.concat_eq_append]
  exact hnd.concat hn

/-- As many ids as nodes: they name every node exactly if they name different nodes. -/
theorem subset_iff_distinctNodes {mNodes ids : List ℕ} (hnd : mNodes.Nodup)
    (hlen : ids.length = mNodes.length) : mNodes ⊆ ids ↔ DistinctNodes mNodes ids := by
  constructor
  · intro hsub
    have hperm : mNodes.Perm ids := (hnd.subperm hsub).perm_of_length_le hlen.le
    exact ⟨hperm.nodup_iff.mp hnd, fun n hn => hperm.mem_iff.mpr hn⟩
  · rintro ⟨hids, hsub⟩
    have hperm : ids.Perm mNodes := (hids.subperm hsub).perm_of_length_le hlen.ge
    exact hperm.symm.subset

theorem covers_iff_subset {mNodes : List ℕ} {ev : EbEvent}
    (hlen : ev.node.length = ev.data.length) : ev.Covers mNodes ↔ mNodes ⊆ ev.node := by
  have hids : ev.fragments.map Prod.fst = ev.node := List.map_fst_zip hlen.le
  have hmem (n : ℕ) : (∃ fr ∈ ev.fragments, fr.1 = n) ↔ n ∈ ev.node := by
    rw [← hids, List.mem_map]
  exact forall₂_congr fun n _ => hmem n

/-! ### The records in the buffer -/

/-- Each record in the buffer still lacks a fragment. -/
def AllOpen (s : DTeb) : Prop :=
  ∀ ev ∈ s.mEvents, ev.node.length < s.mNodes.length ∧ ev.node.length = ev.data.length

theorem allOpen_start (mId mMaxEventDepth : ℕ) (mNodes : List ℕ) :
    AllOpen (start mId mMaxEventDepth mNodes) := by
  intro ev hev
  cases hev

theorem AllOpen.step {s : DTeb} (h : AllOpen s) (hbuf : BufferInv s)
    (hlen : 2 ≤ s.mNodes.length) (a : Arrival) : AllOpen (s.step a) := by
  intro x hx
  show x.node.length < s.mNodes.length ∧ x.node.length = x.data.length
  rcases mem_events_cases hbuf hx with
    ⟨ev, hev, -, isFullev, rfl⟩ | ⟨ev, hev, -, hshort, rfl⟩ | ⟨-, -, rfl⟩
  · exact h ev hev
  · have := (h ev hev).2
    simp only [EbEvent.push, List.length_append, List.length_singleton]
    omega
  · show 1 < s.mNodes.length ∧ 1 = 1
    omega

/-- In a run the full branch is taken for a record that lacked one fragment, and only for
such a record. -/
theorem full_eq_some_iff {s : DTeb} (h : AllOpen s) (hbuf : BufferInv s) (a : Arrival)
    (full : EbEvent) :
    (s.stRunningBody a).full = some full ↔
      ∃ ev ∈ s.mEvents, ev.eventNumber = a.message.trig ∧
        ev.node.length + 1 = s.mNodes.length ∧
          full = { ev.push a.message with isFullev := true } := by
  rcases stRunningBody_cases s a hbuf.numbers with
    ⟨hnew, hbody⟩ | ⟨passed, ev, rest, hsplit, hev, hcase⟩
  · obtain ⟨-, -, -, -, -, hfull⟩ := evict_spec s (s.newRecord a.message s.mEvents)
    have hnone : (s.newRecord a.message s.mEvents).full = none := by
      rw [newRecord]
      split <;> rfl
    rw [hbody, hfull, hnone]
    refine iff_of_false (by simp) ?_
    rintro ⟨ev, hmem, hev, -⟩
    exact hnew ev hmem hev
  · have hmem : ev ∈ s.mEvents := by simp [hsplit]
    have hother := ne_of_split (hsplit ▸ hbuf.numbers) hev
    -- no other record of the buffer has this number
    have hunique : ∀ x ∈ s.mEvents, x.eventNumber = a.message.trig → x = ev := by
      intro x hx hnum
      rw [hsplit, List.mem_append, List.mem_cons] at hx
      by_contra hne
      refine hother x ?_ hnum
      rw [List.mem_append]
      tauto
    cases hcase with
    | inl hcase =>
      obtain ⟨hshort, hbody⟩ := hcase
      rw [hbody, appended]
      refine iff_of_false (by simp) ?_
      rintro ⟨x, hx, hnum, hlen, -⟩
      rw [hunique x hx hnum] at hlen
      omega
    | inr hcase =>
      obtain ⟨hlong, hbody⟩ := hcase
      obtain ⟨-, hfull, -⟩ :=
        flush_spec s a.stale passed { ev.push a.message with isFullev := true } rest
      rw [hbody, hfull, Option.some_inj]
      constructor
      · rintro rfl
        have := (h ev hmem).1
        exact ⟨ev, hmem, hev, by omega, rfl⟩
      · rintro ⟨x, hx, hnum, -, rfl⟩
        rw [hunique x hx hnum]

/-- One pass: the full branch is taken rightly exactly if the last fragment comes from the
last node missing. -/
theorem fullCovers_iff {s : DTeb} (h : AllOpen s) (hbuf : BufferInv s) (hnd : s.mNodes.Nodup)
    (a : Arrival) : s.FullCovers a ↔ s.LastFromLastNode a := by
  have hcovers : ∀ ev ∈ s.mEvents, ev.node.length + 1 = s.mNodes.length →
      (({ ev.push a.message with isFullev := true } : EbEvent).Covers s.mNodes ↔
        DistinctNodes s.mNodes (ev.node ++ [a.message.id])) := by
    intro ev hev hlen
    have hdata := (h ev hev).2
    rw [covers_iff_subset (by simp [EbEvent.push, hdata])]
    exact subset_iff_distinctNodes hnd (by simpa [EbEvent.push] using hlen)
  constructor
  · intro hfull ev hev hnum hlen
    exact (hcovers ev hev hlen).mp
      (hfull _ ((full_eq_some_iff h hbuf a _).mpr ⟨ev, hev, hnum, hlen, rfl⟩))
  · intro hlast full hfull
    obtain ⟨ev, hev, hnum, hlen, rfl⟩ := (full_eq_some_iff h hbuf a full).mp hfull
    exact (hcovers ev hev hlen).mpr (hlast ev hev hnum hlen)

/-! ### Fragments that do not repeat -/

/-- The fragment's place: its node and its trigger. -/
def place (a : Arrival) : ℕ × ℕ := (a.message.id, a.message.trig)

/-- The ids in each record are different, and each stands for a fragment received. -/
def IdsReceived (as : List Arrival) (s : DTeb) : Prop :=
  ∀ ev ∈ s.mEvents, ev.node.Nodup ∧ ∀ n ∈ ev.node, (n, ev.eventNumber) ∈ as.map place

theorem IdsReceived.step {as : List Arrival} {s : DTeb} {a : Arrival} (h : IdsReceived as s)
    (hbuf : BufferInv s) (hnew : place a ∉ as.map place) :
    IdsReceived (as ++ [a]) (s.step a) := by
  intro x hx
  rw [List.map_append, List.map_singleton]
  rcases mem_events_cases hbuf hx with
    ⟨ev, hev, -, isFullev, rfl⟩ | ⟨ev, hev, hnum, -, rfl⟩ | ⟨-, -, rfl⟩
  · obtain ⟨hids, hreceived⟩ := h ev hev
    exact ⟨hids, fun n hn => List.mem_append_left _ (hreceived n hn)⟩
  · obtain ⟨hids, hreceived⟩ := h ev hev
    -- an id in the record stands for this very place, which is new
    have hid : a.message.id ∉ ev.node := by
      intro hmem
      have hplace := hreceived _ hmem
      rw [hnum] at hplace
      exact hnew hplace
    show (ev.node ++ [a.message.id]).Nodup ∧
      ∀ n ∈ ev.node ++ [a.message.id], (n, ev.eventNumber) ∈ as.map place ++ [place a]
    refine ⟨nodup_append_singleton hids hid, ?_⟩
    intro n hn
    rw [List.mem_append, List.mem_singleton] at hn
    cases hn with
    | inl hn => exact List.mem_append_left _ (hreceived n hn)
    | inr hn => simp [hn, hnum, place]
  · refine ⟨List.nodup_singleton _, ?_⟩
    intro n hn
    rw [List.mem_singleton.mp hn]
    exact List.mem_append_right _ (List.mem_singleton_self _)

theorem idsReceived_of_stRunning {mId mMaxEventDepth : ℕ} {mNodes : List ℕ} {as : List Arrival}
    {t : DTeb} (hrun : stRunning (start mId mMaxEventDepth mNodes) as = some t)
    (hnd : (as.map place).Nodup) : IdsReceived as t := by
  have htrue : Transition.Meets next (fun _ _ => True) (start mId mMaxEventDepth mNodes) as :=
    Transition.meets_of_forall fun _ _ _ => trivial
  refine Transition.run_induction
    (P := fun as t => (as.map place).Nodup → IdsReceived as t) ?_ ?_ hrun htrue hnd
  · intro _ ev hev
    cases hev
  · rintro pre s a _ hpre ih - ⟨⟩ hnd
    rw [List.map_append, List.map_singleton, List.nodup_append] at hnd
    obtain ⟨hpre_nd, -, hdisjoint⟩ := hnd
    refine (ih hpre_nd).step (bufferInv_of_stRunning hpre) ?_
    intro hmem
    exact hdisjoint _ hmem _ (List.mem_singleton_self _) rfl

/-! ### The branch of a full event over a run -/

/-- Over any run the full branch is taken rightly exactly if each last fragment comes from
the last node missing; and so it does where only nodes of the list send and no fragment is
repeated. -/
theorem full_covers_iff (mId mMaxEventDepth : ℕ) (mNodes : List ℕ) (hlen : 2 ≤ mNodes.length)
    (hnd : mNodes.Nodup) (as : List Arrival) :
    (Transition.Meets next FullCovers (start mId mMaxEventDepth mNodes) as ↔
      Transition.Meets next LastFromLastNode (start mId mMaxEventDepth mNodes) as) ∧
    ((∀ a ∈ as, a.message.id ∈ mNodes) → (as.map place).Nodup →
      Transition.Meets next LastFromLastNode (start mId mMaxEventDepth mNodes) as) := by
  have hnodes : ∀ pre t, stRunning (start mId mMaxEventDepth mNodes) pre = some t →
      t.mNodes = mNodes ∧ AllOpen t := by
    intro pre t ht
    refine @Transition.run_induction _ _ next (fun _ _ => True)
      (fun _ t => t.mNodes = mNodes ∧ AllOpen t) _
      ⟨rfl, allOpen_start mId mMaxEventDepth mNodes⟩ ?_ pre t ht
      (Transition.meets_of_forall fun _ _ _ => trivial)
    rintro pre s a _ hpre ⟨hmNodes, hopen⟩ - ⟨⟩
    exact ⟨hmNodes, hopen.step (bufferInv_of_stRunning hpre) (hmNodes ▸ hlen) a⟩
  constructor
  · refine Transition.meets_congr fun pre t a ht => ?_
    obtain ⟨hmNodes, hopen⟩ := hnodes pre t ht
    exact fullCovers_iff hopen (bufferInv_of_stRunning ht) (hmNodes ▸ hnd) a
  · intro hids hplaces
    refine Transition.meets_iff_forall_split.mpr ?_
    rintro pre a post rfl t ht ev hev hnum -
    obtain ⟨hmNodes, -⟩ := hnodes pre t ht
    rw [List.map_append, List.map_cons, List.nodup_append] at hplaces
    obtain ⟨hpre, -, hdisjoint⟩ := hplaces
    obtain ⟨hev_nd, hreceived⟩ := idsReceived_of_stRunning ht hpre ev hev
    rw [hmNodes]
    constructor
    · refine nodup_append_singleton hev_nd fun hmem => ?_
      have hplace := hreceived _ hmem
      rw [hnum] at hplace
      exact hdisjoint _ hplace _ List.mem_cons_self rfl
    · intro n hn
      rw [List.mem_append, List.mem_singleton] at hn
      cases hn with
      | inl hn =>
        obtain ⟨b, hb, hplace⟩ := List.mem_map.mp (hreceived n hn)
        have hid : b.message.id = n := congrArg Prod.fst hplace
        exact hid ▸ hids b (by simp [hb])
      | inr hn => exact hn ▸ hids a (by simp)

/-- Node 1 sends its fragment of trigger 5 twice, node 2 sends nothing. -/
def repeatedFragment : List Arrival :=
  [RecbeRecord.empty 1 5, RecbeRecord.empty 1 5].map fun r => ⟨r.message, fun _ => 0⟩

theorem full_without_every_node :
    ¬ ∀ (mId mMaxEventDepth : ℕ) (mNodes : List ℕ), 2 ≤ mNodes.length → mNodes.Nodup →
      ∀ as : List Arrival, Transition.Meets next FullCovers (start mId mMaxEventDepth mNodes) as := by
  intro h
  have hmeets := h 999 1024 [1, 2] (by decide) (by decide) repeatedFragment
  revert hmeets
  decide

/-- Two nodes, a fragment of each. -/
theorem full_covers_two_nodes :
    Transition.Meets next FullCovers (start 999 1024 [1, 2])
      ([RecbeRecord.empty 1 5, RecbeRecord.empty 2 5].map fun r => ⟨r.message, fun _ => 0⟩) := by
  have h := full_covers_iff 999 1024 [1, 2] (by decide) (by decide)
    ([RecbeRecord.empty 1 5, RecbeRecord.empty 2 5].map fun r => ⟨r.message, fun _ => 0⟩)
  exact h.1.mpr (h.2 (by decide) (by decide))

end DTeb

end LebStudy
