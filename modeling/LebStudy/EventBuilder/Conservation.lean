import LebStudy.EventBuilder.Invariant
import Mathlib.Data.List.Perm.Basic

/-!
# What leaves the event buffer

The exact condition under which the records erased in a pass of the loop are the
records handed to `send_data` in it, and what follows for a whole run.
-/

namespace LebStudy

open scoped List

namespace DTeb

def serials (evs : List EbEvent) : List ℕ := evs.map (·.serial)

/-- The records erased in this pass are the records handed to `send_data` in it. -/
def Conserves (s : DTeb) (a : Arrival) : Prop :=
  (serials (s.stRunningBody a).erased).Perm (serials (s.stRunningBody a).sent)

/-- For each record `ev` before the completed one, with `after` between the two: the record
behind the completed one by as many places as records of `after` were sent (or what is read
past the end) compares with `ev` as the completed one does. -/
def FlushAgrees (stale : ℕ → ℕ) (number : ℕ) (passed rest : List EbEvent) : Prop :=
  ∀ before ev after, passed = before ++ ev :: after →
    (ev.eventNumber ≤
        numberAt (stale before.length) rest (after.countP (·.eventNumber ≤ number)) ↔
      ev.eventNumber ≤ number)

/-- If the fragment completes a record, the flush it starts agrees. -/
def FlushesAgree (s : DTeb) (a : Arrival) : Prop :=
  ∀ passed ev rest, s.mEvents = passed ++ ev :: rest → ev.eventNumber = a.message.trig →
    s.mNodes.length ≤ ev.node.length + 1 → FlushAgrees a.stale ev.eventNumber passed rest

private theorem forall_split_iff {α : Type*} {P : List α → α → List α → Prop} {l : List α} :
    (∀ i, ∀ h : i < l.length, P (l.take i) l[i] (l.drop (i + 1))) ↔
      ∀ before x after, l = before ++ x :: after → P before x after := by
  constructor
  · rintro h before x after rfl
    simpa using h before.length (by simp)
  · intro h i hi
    exact h _ _ _ (by rw [List.getElem_cons_drop, List.take_append_drop])

instance (stale : ℕ → ℕ) (number : ℕ) (passed rest : List EbEvent) :
    Decidable (FlushAgrees stale number passed rest) :=
  decidable_of_iff _ forall_split_iff

instance (s : DTeb) (a : Arrival) : Decidable (FlushesAgree s a) :=
  decidable_of_iff _ forall_split_iff

theorem numberAt_append (stale : ℕ) (a b : List EbEvent) (k : ℕ) :
    numberAt stale (a ++ b) (a.length + k) = numberAt stale b k := by
  simp [numberAt, List.getElem?_append_right]

private theorem forall_split_concat {α : Type*} {P : List α → α → List α → Prop} {l : List α}
    {x : α} :
    (∀ before y after, l ++ [x] = before ++ y :: after → P before y after) ↔
      (∀ before y after, l = before ++ y :: after → P before y (after ++ [x])) ∧ P l x [] := by
  constructor
  · intro h
    refine ⟨?_, h l x [] rfl⟩
    rintro before y after rfl
    exact h before y (after ++ [x]) (by simp)
  · rintro ⟨h, hx⟩ before y after heq
    induction after using List.reverseRecOn with
    | nil =>
      obtain ⟨rfl, rfl⟩ : l = before ∧ x = y := by simpa using List.append_inj' heq rfl
      exact hx
    | append_singleton after z _ =>
      rw [← List.cons_append, ← List.append_assoc] at heq
      obtain ⟨rfl, hz⟩ := List.append_inj' heq rfl
      cases hz
      exact h before y after rfl

/-- The erase loop over `a`, with the records `pre` kept so far and `n` erased behind `a`:
it erases the records up to `number` exactly if every comparison on the way agrees. -/
theorem eraseLoop_perm_iff {stale : ℕ → ℕ} {i number : ℕ} {a pre rest : List EbEvent} {n : ℕ}
    (hi : i = a.length + pre.length + n) (hnd : (serials a).Nodup) :
    (serials (eraseLoop stale i a.length (a ++ (pre ++ rest))).2).Perm
        (serials (a.filter (·.eventNumber ≤ number))) ↔
      ∀ before ev after, a = before ++ ev :: after →
        (ev.eventNumber ≤
            numberAt (stale before.length) rest (n + after.countP (·.eventNumber ≤ number)) ↔
          ev.eventNumber ≤ number) := by
  induction a using List.reverseRecOn generalizing pre n with
  | nil => simp [eraseLoop, serials]
  | append_singleton a x ih =>
    have hserials (l : List EbEvent) : serials (l ++ [x]) = serials l ++ [x.serial] := by
      simp [serials]
    rw [List.length_append, List.length_singleton] at hi
    rw [hserials, List.nodup_append] at hnd
    obtain ⟨hnd, -, hx⟩ := hnd
    have hx : x.serial ∉ serials a := fun hmem => hx _ hmem _ (List.mem_singleton_self _) rfl
    -- in this turn `m_events[i]` is the record `n` places into `rest`
    have href : numberAt (stale a.length) (a ++ x :: (pre ++ rest)) i =
        numberAt (stale a.length) rest n := by
      have hi' : i = (a ++ x :: pre).length + n := by
        simp only [List.length_append, List.length_cons]
        omega
      rw [hi', ← List.cons_append, ← List.append_assoc, numberAt_append]
    rw [forall_split_concat, List.append_assoc, List.singleton_append, List.length_append,
      List.length_singleton, eraseLoop_concat, href, List.countP_nil, Nat.add_zero,
      List.filter_append]
    by_cases href_le : x.eventNumber ≤ numberAt (stale a.length) rest n <;>
      by_cases hle : x.eventNumber ≤ number
    · -- sent and erased
      have ih := @ih pre (n + 1) (by omega) hnd
      have hfilter : [x].filter (·.eventNumber ≤ number) = [x] := by simp [hle]
      rw [if_pos href_le, hfilter, hserials,
        (List.perm_append_singleton x.serial _).congr_right, serials, List.map_cons,
        List.perm_cons]
      simpa [serials, List.countP_append, hle, href_le, Nat.add_assoc, Nat.add_comm 1] using ih
    · -- erased unsent
      refine iff_of_false (fun hperm => ?_) (fun hagree => hle (hagree.2.mp href_le))
      rw [if_pos href_le] at hperm
      have hmem := hperm.subset (List.mem_map_of_mem (List.mem_cons_self))
      have hfilter : [x].filter (·.eventNumber ≤ number) = [] := by simp [hle]
      rw [hfilter, List.append_nil] at hmem
      exact hx (((List.filter_sublist).map _).subset hmem)
    · -- sent and kept
      refine iff_of_false (fun hperm => ?_) (fun hagree => href_le (hagree.2.mpr hle))
      rw [if_neg href_le] at hperm
      obtain ⟨kept, -, -, hkept⟩ := eraseLoop_spec stale i a (x :: (pre ++ rest))
      have hmem : x.serial ∈ serials (eraseLoop stale i a.length (a ++ x :: (pre ++ rest))).2 :=
        hperm.symm.subset (by simp [serials, hle])
      have hsub := (hkept.map (·.serial)).subset
      rw [List.map_append] at hsub
      exact hx (hsub (List.mem_append_right _ hmem))
    · -- neither sent nor erased
      have ih := @ih (x :: pre) n (by simp only [List.length_cons]; omega) hnd
      have hfilter : [x].filter (·.eventNumber ≤ number) = [] := by simp [hle]
      rw [if_neg href_le, hfilter, List.append_nil]
      simpa [List.countP_append, hle, href_le] using ih

theorem flushAgrees_map {stale : ℕ → ℕ} {number : ℕ} {passed rest : List EbEvent}
    {f : EbEvent → EbEvent} (hf : ∀ ev, (f ev).eventNumber = ev.eventNumber) :
    FlushAgrees stale number (passed.map f) rest ↔ FlushAgrees stale number passed rest := by
  constructor
  · rintro h before ev after rfl
    simpa [List.countP_map, Function.comp_def, hf] using
      h (before.map f) (f ev) (after.map f) (by simp)
  · intro h before ev after heq
    obtain ⟨before', tail, rfl, rfl, htail⟩ := List.map_eq_append_iff.mp heq
    obtain ⟨ev', after', rfl, rfl, rfl⟩ := List.map_eq_cons_iff.mp htail
    simpa [List.countP_map, Function.comp_def, hf] using h before' ev' after' rfl

/-- A flush erases what it sends exactly if its comparisons agree. -/
theorem flush_conserves_iff {s : DTeb} {stale : ℕ → ℕ} {passed rest : List EbEvent}
    {ev : EbEvent} (hnd : (serials passed).Nodup) :
    (serials (s.flush stale passed ev rest).erased).Perm
        (serials (s.flush stale passed ev rest).sent) ↔
      FlushAgrees stale ev.eventNumber passed rest := by
  obtain ⟨-, -, hsent, kept, -, -, erased, herased, herased_eq, -⟩ :=
    flush_spec s stale passed ev rest
  have hmarked (l : List EbEvent) : serials (l.map (s.mark ev.eventNumber)) = serials l := by
    simp [serials, Function.comp_def]
  have hfilter : serials ((passed.map (s.mark ev.eventNumber)).filter
      (·.eventNumber ≤ ev.eventNumber)) =
        serials (passed.filter (·.eventNumber ≤ ev.eventNumber)) := by
    rw [List.filter_map, hmarked]
    simp [Function.comp_def]
  have hiff := @eraseLoop_perm_iff stale passed.length ev.eventNumber
    (passed.map (s.mark ev.eventNumber)) [] rest 0 (by simp) (by rwa [hmarked])
  rw [List.length_map, List.nil_append, ← herased_eq, hfilter] at hiff
  simp only [Nat.zero_add] at hiff
  rw [herased, hsent, ← flushAgrees_map (mark_eventNumber s ev.eventNumber), FlushAgrees, ← hiff]
  simp only [serials, List.map_cons, List.map_append, List.map_nil, mark_serial]
  rw [(List.perm_append_singleton _ _).congr_right, List.perm_cons]

/-- A flush agrees where no record stands before the completed one. -/
theorem flushesAgree_of_length_le_one {s : DTeb} (h : s.mEvents.length ≤ 1) (a : Arrival) :
    FlushesAgree s a := by
  intro passed ev rest hsplit _ _ before x after hpassed
  rw [hsplit, hpassed] at h
  simp only [List.length_append, List.length_cons] at h
  omega

/-- One pass: with two nodes or more, what is erased is what is sent exactly if the flush,
where there is one, agrees. -/
theorem conserves_iff {s : DTeb} (h : BufferInv s) (hnodes : s.mNodes.length ≠ 1)
    (a : Arrival) : Conserves s a ↔ FlushesAgree s a := by
  rcases stRunningBody_cases s a h.numbers with
    ⟨hnew, hbody⟩ | ⟨passed, ev, rest, hsplit, hev, ⟨hlen, hbody⟩ | ⟨hlen, hbody⟩⟩
  · -- nothing but the eviction touches old records
    obtain ⟨out, -, hsent, herased, -, -⟩ := evict_spec s (s.newRecord a.message s.mEvents)
    rw [newRecord_of_ne_one hnodes] at hsent herased hbody
    refine iff_of_true ?_ ?_
    · rw [Conserves, hbody, hsent, herased]
    · intro passed ev rest hsplit hev
      exact absurd hev (hnew ev (by simp [hsplit]))
  · refine iff_of_true ?_ ?_
    · rw [Conserves, hbody]
      exact .refl _
    · intro passed' ev' rest' hsplit' hev' hlen'
      obtain ⟨-, rfl, -⟩ := split_unique (hsplit ▸ h.numbers) (hsplit ▸ hsplit')
        (hev.trans hev'.symm)
      omega
  · have hnd : (serials passed).Nodup := by
      have hserials := h.nodup_serials
      rw [hsplit, List.map_append] at hserials
      exact hserials.of_append_left
    rw [Conserves, hbody, flush_conserves_iff hnd]
    constructor
    · intro hagree passed' ev' rest' hsplit' hev' _
      obtain ⟨rfl, rfl, rfl⟩ := split_unique (hsplit ▸ h.numbers) (hsplit ▸ hsplit')
        (hev.trans hev'.symm)
      exact hagree
    · intro hagree
      exact hagree passed ev rest hsplit hev hlen

/-! ### The ledger -/

/-- Whatever is sent, the records in the buffer before a pass, and the one it makes, are
those in the buffer after it and those it erased. -/
theorem stRunningBody_balance {s : DTeb} (h : BufferInv s) (hnodes : s.mNodes.length ≠ 1)
    (a : Arrival) :
    (serials (s.stRunningBody a).erased ++ serials (s.stRunningBody a).events).Perm
      (serials s.mEvents ++ if (s.stRunningBody a).isNew then [s.created] else []) := by
  rcases stRunningBody_cases s a h.numbers with
    ⟨-, hbody⟩ | ⟨passed, ev, rest, hsplit, -, ⟨-, hbody⟩ | ⟨-, hbody⟩⟩
  · obtain ⟨out, hevents, -, herased, hisNew, -⟩ := evict_spec s (s.newRecord a.message s.mEvents)
    rw [hbody, herased, hisNew, newRecord_isNew, newRecord_of_ne_one hnodes]
    rw [newRecord_of_ne_one hnodes] at hevents
    have hserials := congrArg serials hevents
    simp only [serials, List.map_append, List.map_singleton, EbEvent.ofMessage, List.nil_append,
      if_true] at hserials ⊢
    rw [hserials]
  · rw [hbody, hsplit]
    simp [appended, serials, EbEvent.push]
  · obtain ⟨hisNew, -, -, kept, hevents, -, erased, herased, -, hperm⟩ :=
      flush_spec s a.stale passed { ev.push a.message with isFullev := true } rest
    have hserials := hperm.map (·.serial)
    simp only [List.map_append, List.map_map, Function.comp_def, mark_serial] at hserials
    rw [hbody, hisNew, hevents, herased, hsplit]
    simp only [serials, List.map_append, List.map_cons, mark_serial, Bool.false_eq_true,
      if_false, List.append_nil, List.cons_append]
    -- erased ++ (kept ++ rest) against passed ++ rest, around the completed record
    refine List.Perm.trans (List.Perm.cons _ ?_) List.perm_middle.symm
    rw [← List.append_assoc]
    exact (List.perm_append_comm.trans hserials).append_right _

/-- Each record ever created is in the buffer and unsent, or was sent once and is gone. -/
def Ledger (s : DTeb) : Prop :=
  (serials s.sendLog ++ serials s.mEvents).Perm (List.range s.created)

theorem Ledger.step {s : DTeb} (hl : Ledger s) (h : BufferInv s) (hnodes : s.mNodes.length ≠ 1)
    {a : Arrival} (hc : Conserves s a) : Ledger (s.step a) := by
  have hbalance := stRunningBody_balance h hnodes a
  have hcreated : List.range (s.step a).created =
      List.range s.created ++ if (s.stRunningBody a).isNew then [s.created] else [] := by
    unfold DTeb.step
    cases hnew : (s.stRunningBody a).isNew
    · simp [hnew]
    · simp [hnew, List.range_succ]
  rw [Ledger, hcreated]
  calc serials (s.step a).sendLog ++ serials (s.step a).mEvents
      = serials s.sendLog ++ (serials (s.stRunningBody a).sent ++
          serials (s.stRunningBody a).events) := by simp [DTeb.step, serials]
    _ ~ serials s.sendLog ++ (serials (s.stRunningBody a).erased ++
          serials (s.stRunningBody a).events) := (hc.symm.append_right _).append_left _
    _ ~ serials s.sendLog ++ (serials s.mEvents ++
          if (s.stRunningBody a).isNew then [s.created] else []) := hbalance.append_left _
    _ ~ List.range s.created ++ if (s.stRunningBody a).isNew then [s.created] else [] := by
        rw [← List.append_assoc]
        exact hl.append_right _

/-- Over any run, each pass erases what it sends exactly if each flush agrees; and after
such a run every record is accounted for. -/
theorem conservation_iff_flushes_agree (mId mMaxEventDepth : ℕ) (mNodes : List ℕ)
    (hnodes : 2 ≤ mNodes.length) (as : List Arrival) :
    (Transition.Meets next Conserves (start mId mMaxEventDepth mNodes) as ↔
      Transition.Meets next FlushesAgree (start mId mMaxEventDepth mNodes) as) ∧
    (Transition.Meets next FlushesAgree (start mId mMaxEventDepth mNodes) as →
      ∀ t, stRunning (start mId mMaxEventDepth mNodes) as = some t → Ledger t) := by
  have hlen : (start mId mMaxEventDepth mNodes).mNodes.length ≠ 1 := by
    simp only [start]
    omega
  have hreach : ∀ pre t, stRunning (start mId mMaxEventDepth mNodes) pre = some t →
      BufferInv t ∧ t.mNodes.length ≠ 1 := by
    intro pre t ht
    refine ⟨bufferInv_of_stRunning ht, ?_⟩
    refine Transition.run_invariant (I := fun t => t.mNodes.length ≠ 1) hlen ?_ ht
    rintro s a _ hs ⟨⟩
    exact hs
  have hiff : Transition.Meets next Conserves (start mId mMaxEventDepth mNodes) as ↔
      Transition.Meets next FlushesAgree (start mId mMaxEventDepth mNodes) as :=
    Transition.meets_congr fun pre t a ht => conserves_iff (hreach pre t ht).1 (hreach pre t ht).2 a
  refine ⟨hiff, fun hagree t ht => ?_⟩
  refine Transition.run_induction (P := fun _ t => Ledger t) ?_ ?_ ht (hiff.mpr hagree)
  · simp [Ledger, start, serials]
  · rintro pre s a _ hpre hledger hc ⟨⟩
    exact hledger.step (hreach pre s hpre).1 (hreach pre s hpre).2 hc

/-- Triggers 5, 3 and 7 are open at one node when the other one completes 3: the erase loop
then takes 7 for the completed record and drops 5 unsent. -/
theorem record_erased_unsent :
    ¬ ∀ (mId mMaxEventDepth : ℕ) (mNodes : List ℕ), 2 ≤ mNodes.length → ∀ as : List Arrival,
      Transition.Meets next Conserves (start mId mMaxEventDepth mNodes) as := by
  intro h
  let fragment (id : UInt8) (trig : UInt32) : Arrival :=
    ⟨(RecbeRecord.empty id trig).message, fun _ => 0⟩
  have hmeets := h 999 1024 [1, 2] (by decide)
    [fragment 1 5, fragment 1 3, fragment 1 7, fragment 2 3]
  have hlast := Transition.meets_iff_forall_split.mp hmeets
    [fragment 1 5, fragment 1 3, fragment 1 7] (fragment 2 3) [] rfl _ rfl
  revert hlast
  unfold Conserves
  decide

/-- Triggers 5, 3 and 4 are open at one node when the other one completes 3: the erase loop then
reads 4, and 5 stays. -/
def laterKept : List Arrival :=
  let fragment (id : UInt8) (trig : UInt32) : Arrival :=
    ⟨(RecbeRecord.empty id trig).message, fun _ => 0⟩
  [fragment 1 5, fragment 1 3, fragment 1 4, fragment 2 3]

theorem conservation_first_record :
    Transition.Meets next Conserves (start 999 1024 [1, 2]) laterKept ∧
      ∃ t, stRunning (start 999 1024 [1, 2]) laterKept = some t ∧
        t.sendLog.map (·.eventNumber) = [3] ∧ t.mEvents.map (·.eventNumber) = [5, 4] ∧
        Ledger t := by
  have h := conservation_iff_flushes_agree 999 1024 [1, 2] (by decide) laterKept
  have hagrees : Transition.Meets next FlushesAgree (start 999 1024 [1, 2]) laterKept := by
    decide +kernel
  exact ⟨h.1.mpr hagrees, _, rfl, rfl, rfl, h.2 hagrees _ rfl⟩

end DTeb

end LebStudy
