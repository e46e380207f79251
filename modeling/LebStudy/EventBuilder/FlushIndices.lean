import LebStudy.EventBuilder.Invariant
import Mathlib.Data.List.Forall2

/-!
# The indices of the flush loops

Both loops read `m_events[j]` and `m_events[i]`, where `i` is the place of the record
that was completed. The send loop leaves the vector as long as it is. The erase loop
takes the completed record out in its first turn, and with each record that it erases
the vector gets shorter while `i` stays: the reads through `i` go to the records behind
the completed one, one after the other, and then past the end.
-/

namespace LebStudy

/-- A read `m_events[index]`, and `m_events.size()` at that moment. -/
structure Access where
  index : ℕ
  size : ℕ
  deriving DecidableEq, Repr

/-- The index is one of a record. -/
def Access.Live (access : Access) : Prop := access.index < access.size

namespace DTeb

/-- `for (j = 0 ; j <= i ; j++)`: the two records compared, and the one given to `send_data`. -/
def sendAccesses (number i : ℕ) (evs : List EbEvent) : List Access :=
  (List.range (i + 1)).flatMap fun j =>
    [⟨j, evs.length⟩, ⟨i, evs.length⟩] ++
      if numberAt 0 evs j ≤ number then [⟨j, evs.length⟩] else []

/-- `for (int j = i ; j >= 0 ; j--)`, the turns below `j`. -/
def eraseAccesses (stale : ℕ → ℕ) (i : ℕ) : ℕ → List EbEvent → List Access
  | 0, _ => []
  | j + 1, evs =>
    ⟨j, evs.length⟩ :: ⟨i, evs.length⟩ ::
      if numberAt (stale j) evs j ≤ numberAt (stale j) evs i then
        eraseAccesses stale i j (evs.eraseIdx j)
      else eraseAccesses stale i j evs

/-- The branch of a full event, for the record `ev` between `passed` and `rest`. -/
def flushAccesses (s : DTeb) (stale : ℕ → ℕ) (passed : List EbEvent) (ev : EbEvent)
    (rest : List EbEvent) : List Access :=
  let i := passed.length
  let (buf, _) := s.sendLoop ev.eventNumber (passed ++ [ev])
  sendAccesses ev.eventNumber i (passed ++ ev :: rest) ++
    eraseAccesses stale i (i + 1) (buf ++ rest)

/-- The flush loops of the pass, in the loop over the records that have been there. -/
def matchAccesses (s : DTeb) (a : Arrival) (passed : List EbEvent) : List EbEvent → List Access
  | [] => []
  | ev :: rest =>
    if a.message.trig = ev.eventNumber then
      let ev := ev.push a.message
      if s.mNodes.length ≤ ev.node.length then
        s.flushAccesses a.stale passed { ev with isFullev := true } rest
      else matchAccesses s a (passed ++ [ev]) rest
    else matchAccesses s a (passed ++ [ev]) rest

/-- All that the flush loops of this pass read is there. -/
def FlushesLive (s : DTeb) (a : Arrival) : Prop :=
  ∀ access ∈ s.matchAccesses a [] s.mEvents, access.Live

def numbers (evs : List EbEvent) : List ℕ := evs.map (·.eventNumber)

/-- There is no record before the completed one, or the records behind it do not all find, in
order, a partner with a number up to their own among the records before it from the nearest
back to the second. -/
def IndexStays (passed rest : List EbEvent) : Prop :=
  passed = [] ∨ ¬ List.SublistForall₂ (fun behind before => before ≤ behind) (numbers rest)
    (numbers passed.tail).reverse

/-- If the fragment completes a record, the index of that record stays one of a record. -/
def IndicesStay (s : DTeb) (a : Arrival) : Prop :=
  ∀ passed ev rest, s.mEvents = passed ++ ev :: rest → ev.eventNumber = a.message.trig →
    s.mNodes.length ≤ ev.node.length + 1 → IndexStays passed rest

/-! ### The loops -/

theorem sendAccesses_live {number i : ℕ} {evs : List EbEvent} (hi : i < evs.length) :
    ∀ access ∈ sendAccesses number i evs, access.Live := by
  intro access hmem
  obtain ⟨j, hj, hmem⟩ := List.mem_flatMap.mp hmem
  have hlt : j < evs.length := by
    rw [List.mem_range] at hj
    omega
  rw [List.mem_append] at hmem
  rcases hmem with hmem | hmem
  · simp only [List.mem_cons, List.not_mem_nil, or_false] at hmem
    rcases hmem with rfl | rfl
    · exact hlt
    · exact hi
  · split at hmem
    · rw [List.mem_singleton.mp hmem]
      exact hlt
    · cases hmem

/-- Greedy pairing: the nearest partner is as good as any. -/
theorem sublistForall₂_cons_cons {α β : Type*} {R : α → β → Prop} {a : α} {b : β} {as : List α}
    {bs : List β} :
    List.SublistForall₂ R (a :: as) (b :: bs) ↔
      R a b ∧ List.SublistForall₂ R as bs ∨ ¬ R a b ∧ List.SublistForall₂ R (a :: as) bs := by
  have hshorten : List.SublistForall₂ R (a :: as) bs → List.SublistForall₂ R as bs := by
    intro h
    obtain ⟨l, hl, hsub⟩ := List.sublistForall₂_iff.mp h
    cases hl with
    | cons _ hl => exact List.sublistForall₂_iff.mpr ⟨_, hl, List.sublist_of_cons_sublist hsub⟩
  constructor
  · intro h
    cases h with
    | cons hab h => exact .inl ⟨hab, h⟩
    | cons_right h =>
      by_cases hab : R a b
      · exact .inl ⟨hab, hshorten h⟩
      · exact .inr ⟨hab, h⟩
  · rintro (⟨hab, h⟩ | ⟨-, h⟩)
    · exact .cons hab h
    · exact .cons_right h

theorem not_indexStays_nil (a : List EbEvent) (x : EbEvent) : ¬ IndexStays (a ++ [x]) [] := by
  rintro (hnil | hpairs)
  · exact absurd hnil (by simp)
  · exact hpairs .nil

/-- The record next to the completed one takes the first record behind for its partner, if it
can. -/
theorem indexStays_concat (a : List EbEvent) (x y : EbEvent) (ys : List EbEvent) :
    IndexStays (a ++ [x]) (y :: ys) ↔
      if x.eventNumber ≤ y.eventNumber then IndexStays a ys else IndexStays a (y :: ys) := by
  cases a with
  | nil =>
    have hshort : IndexStays ([] ++ [x]) (y :: ys) := by
      refine .inr fun hpairs => ?_
      cases hpairs
    refine iff_of_true hshort ?_
    split <;> exact .inl rfl
  | cons z t =>
    have hbefore : (numbers (z :: t ++ [x]).tail).reverse =
        x.eventNumber :: (numbers t).reverse := by
      simp [numbers]
    have hstays (l : List EbEvent) : IndexStays (z :: t) l ↔
        ¬ List.SublistForall₂ (fun behind before => before ≤ behind) (numbers l)
          (numbers t).reverse :=
      or_iff_right (List.cons_ne_nil _ _)
    have hstays' : IndexStays (z :: t ++ [x]) (y :: ys) ↔
        ¬ List.SublistForall₂ (fun behind before => before ≤ behind) (numbers (y :: ys))
          (x.eventNumber :: (numbers t).reverse) := by
      rw [← hbefore]
      exact or_iff_right (List.cons_ne_nil _ _)
    have hgreedy := @sublistForall₂_cons_cons ℕ ℕ (fun behind before => before ≤ behind)
      y.eventNumber x.eventNumber (numbers ys) (numbers t).reverse
    rw [hstays', hstays, hstays]
    by_cases hle : x.eventNumber ≤ y.eventNumber
    · rw [if_pos hle, not_iff_not]
      exact hgreedy.trans ⟨fun h => (h.resolve_right fun h => h.1 hle).2, fun h => .inl ⟨hle, h⟩⟩
    · rw [if_neg hle, not_iff_not]
      exact hgreedy.trans ⟨fun h => (h.resolve_left fun h => hle h.1).2, fun h => .inr ⟨hle, h⟩⟩

/-- The turns over `a`, with the records `mid` between `a` and the index `i`. -/
theorem eraseAccesses_live_iff {stale : ℕ → ℕ} {i : ℕ} {a mid behind : List EbEvent}
    (hi : i = a.length + mid.length) :
    (∀ access ∈ eraseAccesses stale i a.length (a ++ (mid ++ behind)), access.Live) ↔
      IndexStays a behind := by
  induction a using List.reverseRecOn generalizing mid behind with
  | nil => exact iff_of_true (fun _ hmem => by cases hmem) (.inl rfl)
  | append_singleton a x ih =>
    rw [List.length_append, List.length_singleton] at hi
    rw [List.append_assoc, List.singleton_append, List.length_append, List.length_singleton,
      eraseAccesses, numberAt_append_length, eraseIdx_append_cons, List.forall_mem_cons,
      List.forall_mem_cons]
    have hj : Access.Live ⟨a.length, (a ++ x :: (mid ++ behind)).length⟩ := by
      simp [Access.Live]
    cases behind with
    | nil =>
      refine iff_of_false (fun h => ?_) (not_indexStays_nil a x)
      have hlt : i < (a ++ x :: (mid ++ [])).length := h.2.1
      simp only [List.length_append, List.length_cons, List.length_nil] at hlt
      omega
    | cons y ys =>
      have hlive : Access.Live ⟨i, (a ++ x :: (mid ++ y :: ys)).length⟩ := by
        simp only [Access.Live, List.length_append, List.length_cons]
        omega
      have hread : numberAt (stale a.length) (a ++ x :: (mid ++ y :: ys)) i = y.eventNumber := by
        have hplace : i = (a ++ x :: mid).length := by
          simp only [List.length_append, List.length_cons]
          omega
        rw [hplace, ← List.cons_append, ← List.append_assoc, numberAt_append_length]
      rw [hread, indexStays_concat]
      refine (and_iff_right hj).trans ((and_iff_right hlive).trans ?_)
      split
      · -- the record is gone, and the index is one of the record behind `y`
        have hgone := @ih (mid ++ [y]) ys (by
          rw [List.length_append, List.length_singleton]
          omega)
        rwa [List.append_assoc, List.singleton_append] at hgone
      · have hkept := @ih (x :: mid) (y :: ys) (by
          rw [List.length_cons]
          omega)
        exact hkept

/-- The flush of a record between `passed` and `rest`. -/
theorem flushAccesses_live_iff (s : DTeb) (stale : ℕ → ℕ) (passed : List EbEvent) (ev : EbEvent)
    (rest : List EbEvent) :
    (∀ access ∈ s.flushAccesses stale passed ev rest, access.Live) ↔ IndexStays passed rest := by
  have hmarked : IndexStays (passed.map (s.mark ev.eventNumber)) rest ↔ IndexStays passed rest := by
    have htail : numbers (passed.map (s.mark ev.eventNumber)).tail = numbers passed.tail := by
      simp [numbers, ← List.map_tail, Function.comp_def]
    rw [IndexStays, IndexStays, htail, List.map_eq_nil_iff]
  have hloop := @eraseAccesses_live_iff stale passed.length
    (passed.map (s.mark ev.eventNumber)) [] rest (by simp)
  have hplace := numberAt_append_length (stale passed.length)
    (passed.map (s.mark ev.eventNumber)) rest (s.mark ev.eventNumber ev)
  have hgone := eraseIdx_append_cons (passed.map (s.mark ev.eventNumber)) rest
    (s.mark ev.eventNumber ev)
  rw [List.length_map] at hloop hplace hgone
  have hsend : ∀ access ∈ sendAccesses ev.eventNumber passed.length (passed ++ ev :: rest),
      access.Live := sendAccesses_live (by simp)
  rw [flushAccesses, sendLoop_eq]
  simp only [List.map_append, List.map_singleton, List.append_assoc, List.singleton_append,
    List.forall_mem_append]
  rw [eraseAccesses, hplace, if_pos (Nat.le_refl _), hgone, List.forall_mem_cons,
    List.forall_mem_cons]
  -- the first turn compares the completed record with itself and takes it out
  have hfirst : Access.Live ⟨passed.length, (passed.map (s.mark ev.eventNumber) ++
      s.mark ev.eventNumber ev :: rest).length⟩ := by
    simp [Access.Live]
  rw [List.nil_append] at hloop
  exact (and_iff_right hsend).trans ((and_iff_right hfirst).trans
    ((and_iff_right hfirst).trans (hloop.trans hmarked)))

/-! ### The pass -/

theorem matchAccesses_append {s : DTeb} {a : Arrival} {l : List EbEvent}
    (h : ∀ ev ∈ l, ev.eventNumber ≠ a.message.trig) (passed rest : List EbEvent) :
    s.matchAccesses a passed (l ++ rest) = s.matchAccesses a (passed ++ l) rest := by
  induction l generalizing passed with
  | nil => simp
  | cons ev l ih =>
    obtain ⟨hev, hl⟩ := List.forall_mem_cons.mp h
    rw [List.cons_append, matchAccesses, if_neg (Ne.symm hev), ih hl, List.append_assoc,
      List.singleton_append]

theorem matchAccesses_of_forall_ne {s : DTeb} {a : Arrival} {l : List EbEvent}
    (h : ∀ ev ∈ l, ev.eventNumber ≠ a.message.trig) (passed : List EbEvent) :
    s.matchAccesses a passed l = [] := by
  simpa [matchAccesses] using matchAccesses_append h passed []

/-- Where a record has the number of the fragment, the flush loops run for that record, if it
gets complete. -/
theorem matchAccesses_of_split {s : DTeb} {a : Arrival} {passed rest : List EbEvent}
    {ev : EbEvent} (hnd : ((passed ++ ev :: rest).map (·.eventNumber)).Nodup)
    (hev : ev.eventNumber = a.message.trig) :
    s.matchAccesses a [] (passed ++ ev :: rest) =
      if s.mNodes.length ≤ ev.node.length + 1 then
        s.flushAccesses a.stale passed { ev.push a.message with isFullev := true } rest
      else [] := by
  have hother := ne_of_split hnd hev
  have hpassed : ∀ x ∈ passed, x.eventNumber ≠ a.message.trig :=
    fun x hx => hother x (List.mem_append_left _ hx)
  have hrest : ∀ x ∈ rest, x.eventNumber ≠ a.message.trig :=
    fun x hx => hother x (List.mem_append_right _ hx)
  have hlen : (ev.push a.message).node.length = ev.node.length + 1 := by simp [EbEvent.push]
  rw [matchAccesses_append hpassed, matchAccesses, if_pos hev.symm]
  simp only [List.nil_append, hlen, matchAccesses_of_forall_ne hrest]

theorem flushesLive_iff {s : DTeb} (h : BufferInv s) (a : Arrival) :
    FlushesLive s a ↔ IndicesStay s a := by
  rw [FlushesLive]
  by_cases hall : ∀ ev ∈ s.mEvents, ev.eventNumber ≠ a.message.trig
  · rw [matchAccesses_of_forall_ne hall]
    refine iff_of_true (fun _ hmem => by cases hmem) ?_
    intro passed ev rest hsplit hev
    exact absurd hev (hall ev (by simp [hsplit]))
  · push Not at hall
    obtain ⟨ev, hmem, hev⟩ := hall
    obtain ⟨passed, rest, hsplit⟩ := List.append_of_mem hmem
    have hnd := hsplit ▸ h.numbers
    have honly : IndicesStay s a ↔
        (s.mNodes.length ≤ ev.node.length + 1 → IndexStays passed rest) := by
      constructor
      · intro hstay
        exact hstay passed ev rest hsplit hev
      · intro hstay passed' ev' rest' hsplit' hev'
        obtain ⟨rfl, rfl, rfl⟩ := split_unique hnd (hsplit ▸ hsplit') (hev.trans hev'.symm)
        exact hstay
    rw [hsplit, matchAccesses_of_split hnd hev, honly]
    by_cases hfull : s.mNodes.length ≤ ev.node.length + 1
    · rw [if_pos hfull, flushAccesses_live_iff]
      exact ⟨fun hstay _ => hstay, fun hstay => hstay hfull⟩
    · rw [if_neg hfull]
      exact iff_of_true (fun _ hmem => by cases hmem) fun hle => absurd hle hfull

/-- A read that is there gives the same whatever lies behind the vector. -/
theorem numberAt_of_live {evs : List EbEvent} {k : ℕ} (h : Access.Live ⟨k, evs.length⟩)
    (stale stale' : ℕ) : numberAt stale evs k = numberAt stale' evs k := by
  have hlt : k < evs.length := h
  simp [numberAt, hlt]

/-- As long as all reads are there, what the erase loop does is no matter of what lies behind the
vector. -/
theorem eraseLoop_congr {stale stale' : ℕ → ℕ} {i n : ℕ} {evs : List EbEvent}
    (h : ∀ access ∈ eraseAccesses stale i n evs, access.Live) :
    eraseLoop stale i n evs = eraseLoop stale' i n evs := by
  induction n generalizing evs with
  | zero => rfl
  | succ j ih =>
    rw [eraseAccesses, List.forall_mem_cons, List.forall_mem_cons] at h
    obtain ⟨hj, hi, h⟩ := h
    rw [eraseLoop, eraseLoop, numberAt_of_live hj (stale' j) (stale j),
      numberAt_of_live hi (stale' j) (stale j)]
    split at h
    · next hle => rw [if_pos hle, if_pos hle, ih h]
    · next hle => rw [if_neg hle, if_neg hle, ih h]

/-- Over any run, all reads of the flush loops are there exactly if in each pass that completes a
record the records behind it are not used up before the last turn. -/
theorem flush_indices_iff (mId mMaxEventDepth : ℕ) (mNodes : List ℕ) (as : List Arrival) :
    Transition.Meets next FlushesLive (start mId mMaxEventDepth mNodes) as ↔
      Transition.Meets next IndicesStay (start mId mMaxEventDepth mNodes) as :=
  Transition.meets_congr fun _ _ a ht => flushesLive_iff (bufferInv_of_stRunning ht) a

/-- Triggers 5 and 6 are open at one node when the other completes 6, the last record: the erase
loop then reads index 1 of a vector of one record. -/
theorem flush_reads_past_end :
    ¬ ∀ (mId mMaxEventDepth : ℕ) (mNodes : List ℕ) (as : List Arrival),
      Transition.Meets next FlushesLive (start mId mMaxEventDepth mNodes) as := by
  intro h
  let fragment (id : UInt8) (trig : UInt32) : Arrival :=
    ⟨(RecbeRecord.empty id trig).message, fun _ => 0⟩
  have hlast := Transition.meets_iff_forall_split.mp
    (h 999 1024 [1, 2] [fragment 1 5, fragment 1 6, fragment 2 6])
    [fragment 1 5, fragment 1 6] (fragment 2 6) [] rfl _ rfl
  have hread : ⟨1, 1⟩ ∈ matchAccesses
      ((start 999 1024 [1, 2]).step (fragment 1 5) |>.step (fragment 1 6)) (fragment 2 6) []
      ((start 999 1024 [1, 2]).step (fragment 1 5) |>.step (fragment 1 6)).mEvents := by decide
  exact absurd (hlast _ hread) (Nat.lt_irrefl 1)

end DTeb

end LebStudy
