import LebStudy.EventBuilder.Buffer
import Mathlib.Data.List.Nodup

/-!
# One pass of the loop, and the invariant of the event buffer

`stRunningBody_cases` says all that one pass can do to a buffer whose event
numbers are distinct. From it follows that they stay distinct, and that the
records stand in the order of their creation.
-/

namespace LebStudy

namespace DTeb

/-! ### One pass of the loop -/

/-- The effect of a fragment that joins its record without completing it. -/
def appended (passed : List EbEvent) (ev : EbEvent) (rest : List EbEvent) : LoopOut where
  isNew := false
  events := passed ++ ev :: rest
  sent := []
  erased := []
  full := none

theorem matchLoop_append {s : DTeb} {a : Arrival} {l : List EbEvent}
    (h : ∀ ev ∈ l, ev.eventNumber ≠ a.message.trig) (isNew : Bool) (passed rest : List EbEvent) :
    s.matchLoop a isNew passed (l ++ rest) = s.matchLoop a isNew (passed ++ l) rest := by
  induction l generalizing passed with
  | nil => simp
  | cons ev l ih =>
    obtain ⟨hev, hl⟩ := List.forall_mem_cons.mp h
    rw [List.cons_append, matchLoop, if_neg (Ne.symm hev), ih hl]
    simp

theorem matchLoop_of_forall_ne {s : DTeb} {a : Arrival} {l : List EbEvent}
    (h : ∀ ev ∈ l, ev.eventNumber ≠ a.message.trig) (isNew : Bool) (passed : List EbEvent) :
    s.matchLoop a isNew passed l =
      { isNew := isNew, events := passed ++ l, sent := [], erased := [], full := none } := by
  simpa [matchLoop] using matchLoop_append h isNew passed []

/-- The numbers are distinct, so no other record has the number of this one. -/
theorem ne_of_split {passed rest : List EbEvent} {ev : EbEvent} {trig : ℕ}
    (hnd : ((passed ++ ev :: rest).map (·.eventNumber)).Nodup) (hev : ev.eventNumber = trig) :
    ∀ x ∈ passed ++ rest, x.eventNumber ≠ trig := by
  rw [List.map_append, List.map_cons, List.nodup_middle, List.nodup_cons] at hnd
  intro x hx heq
  exact hnd.1 (by rw [← List.map_append, hev, ← heq]; exact List.mem_map_of_mem hx)

/-- A record is found by its number at one place only. -/
theorem split_unique {l l' r r' : List EbEvent} {x y : EbEvent}
    (hnd : ((l ++ x :: r).map (·.eventNumber)).Nodup) (h : l ++ x :: r = l' ++ y :: r')
    (hxy : x.eventNumber = y.eventNumber) : l = l' ∧ x = y ∧ r = r' := by
  induction l generalizing l' with
  | nil =>
    cases l' with
    | nil => simpa using h
    | cons z l' =>
      obtain ⟨rfl, rfl⟩ := List.cons.inj h
      simp [hxy] at hnd
  | cons z l ih =>
    cases l' with
    | nil =>
      obtain ⟨rfl, rfl⟩ := List.cons.inj h
      simp [hxy] at hnd
    | cons z' l' =>
      obtain ⟨rfl, htail⟩ := List.cons.inj h
      rw [List.cons_append, List.map_cons, List.nodup_cons] at hnd
      obtain ⟨rfl, hrest⟩ := ih hnd.2 htail
      exact ⟨rfl, hrest⟩

/-- All that one pass can do to a buffer whose event numbers are distinct: make a record,
let one grow, or complete one. -/
theorem stRunningBody_cases (s : DTeb) (a : Arrival)
    (hnd : (s.mEvents.map (·.eventNumber)).Nodup) :
    ((∀ ev ∈ s.mEvents, ev.eventNumber ≠ a.message.trig) ∧
      s.stRunningBody a = s.evict (s.newRecord a.message s.mEvents)) ∨
    ∃ passed ev rest, s.mEvents = passed ++ ev :: rest ∧ ev.eventNumber = a.message.trig ∧
      (ev.node.length + 1 < s.mNodes.length ∧
          s.stRunningBody a = appended passed (ev.push a.message) rest ∨
        s.mNodes.length ≤ ev.node.length + 1 ∧
          s.stRunningBody a =
            s.flush a.stale passed { ev.push a.message with isFullev := true } rest) := by
  -- the first record with the number is the only one, so the loop meets no other behind it
  by_cases hall : ∀ ev ∈ s.mEvents, ev.eventNumber ≠ a.message.trig
  · refine .inl ⟨hall, ?_⟩
    rw [stRunningBody, matchLoop_of_forall_ne hall]
    rfl
  · push Not at hall
    obtain ⟨ev, hmem, hev⟩ := hall
    obtain ⟨passed, rest, hsplit⟩ := List.append_of_mem hmem
    refine .inr ⟨passed, ev, rest, hsplit, hev, ?_⟩
    have hother := ne_of_split (hsplit ▸ hnd) hev
    have hpassed : ∀ x ∈ passed, x.eventNumber ≠ a.message.trig :=
      fun x hx => hother x (List.mem_append_left _ hx)
    have hrest : ∀ x ∈ rest, x.eventNumber ≠ a.message.trig :=
      fun x hx => hother x (List.mem_append_right _ hx)
    have hlen : (ev.push a.message).node.length = ev.node.length + 1 := by simp [EbEvent.push]
    rw [stRunningBody, hsplit, matchLoop_append hpassed, matchLoop, if_pos hev.symm]
    simp only [List.nil_append, hlen]
    by_cases hfull : s.mNodes.length ≤ ev.node.length + 1
    · rw [if_pos hfull]
      exact .inr ⟨hfull, rfl⟩
    · rw [if_neg hfull, matchLoop_of_forall_ne hrest]
      exact .inl ⟨by omega, by simp [appended]⟩

/-- The eviction moves at most the front of the vector, and sends what it erases. -/
theorem evict_spec (s : DTeb) (o : LoopOut) :
    ∃ out, o.events = out ++ (s.evict o).events ∧ (s.evict o).sent = o.sent ++ out ∧
      (s.evict o).erased = o.erased ++ out ∧ (s.evict o).isNew = o.isNew ∧
      (s.evict o).full = o.full := by
  unfold evict
  split
  · exact ⟨[], by simp⟩
  · next front rest hevents =>
    split
    · exact ⟨[front], by simp [hevents]⟩
    · exact ⟨[], by simp⟩

theorem evict_eq_self {s : DTeb} {o : LoopOut} (h : o.events.length ≤ s.mMaxEventDepth) :
    s.evict o = o := by
  unfold evict
  split
  · rfl
  · exact if_neg (by omega)

theorem newRecord_of_ne_one {s : DTeb} (h : s.mNodes.length ≠ 1) (m : Message)
    (events : List EbEvent) :
    s.newRecord m events =
      { isNew := true, events := events ++ [EbEvent.ofMessage m s.created]
        sent := [], erased := [], full := none } :=
  if_neg h

theorem newRecord_isNew (s : DTeb) (m : Message) (events : List EbEvent) :
    (s.newRecord m events).isNew = true := by
  unfold newRecord
  split <;> rfl

theorem newRecord_records (s : DTeb) (m : Message) (events : List EbEvent) :
    (s.newRecord m events).events ++ (s.newRecord m events).sent =
      events ++ [EbEvent.ofMessage m s.created] := by
  unfold newRecord
  split <;> simp

/-! ### The invariant of the buffer -/

/-- The event numbers in the buffer are distinct and the records stand in the order of
their creation. -/
structure BufferInv (s : DTeb) : Prop where
  numbers : (s.mEvents.map (·.eventNumber)).Nodup
  serials : (s.mEvents.map (·.serial)).Pairwise (· < ·)
  serial_lt : ∀ ev ∈ s.mEvents, ev.serial < s.created

theorem bufferInv_start (mId mMaxEventDepth : ℕ) (mNodes : List ℕ) :
    BufferInv (start mId mMaxEventDepth mNodes) := by
  constructor <;> simp [start]

theorem BufferInv.nodup_serials {s : DTeb} (h : BufferInv s) :
    (s.mEvents.map (·.serial)).Nodup :=
  h.serials.imp fun hlt => Nat.ne_of_lt hlt

/-- What the invariant reads of a record: its number and its serial. -/
private def key (ev : EbEvent) : ℕ × ℕ := (ev.eventNumber, ev.serial)

/-- The invariant passes to any buffer whose keys are among those of the old one, in
order. -/
theorem BufferInv.of_sublist {s t : DTeb} (h : BufferInv s) (hc : s.created ≤ t.created)
    (hsub : (t.mEvents.map key).Sublist (s.mEvents.map key)) : BufferInv t := by
  have hfst : t.mEvents.map (·.eventNumber) = (t.mEvents.map key).map Prod.fst := by
    simp [key, Function.comp_def]
  have hsnd : t.mEvents.map (·.serial) = (t.mEvents.map key).map Prod.snd := by
    simp [key, Function.comp_def]
  have hfst' : s.mEvents.map (·.eventNumber) = (s.mEvents.map key).map Prod.fst := by
    simp [key, Function.comp_def]
  have hsnd' : s.mEvents.map (·.serial) = (s.mEvents.map key).map Prod.snd := by
    simp [key, Function.comp_def]
  refine ⟨?_, ?_, fun ev hev => ?_⟩
  · rw [hfst]
    exact (hfst' ▸ h.numbers).sublist (hsub.map _)
  · rw [hsnd]
    exact (hsnd' ▸ h.serials).sublist (hsub.map _)
  · have hmem : ev.serial ∈ s.mEvents.map (·.serial) := by
      rw [hsnd']
      exact (hsub.map Prod.snd).subset (hsnd ▸ List.mem_map_of_mem hev)
    obtain ⟨x, hx, hxs⟩ := List.mem_map.mp hmem
    exact (hxs ▸ h.serial_lt x hx).trans_le hc

theorem mark_eq_with (s : DTeb) (number : ℕ) (ev : EbEvent) :
    ∃ isFullev, s.mark number ev = { ev with isFullev := isFullev } := by
  unfold mark
  split
  · exact ⟨_, rfl⟩
  · exact ⟨ev.isFullev, rfl⟩

theorem key_mark (s : DTeb) (number : ℕ) (ev : EbEvent) : key (s.mark number ev) = key ev := by
  simp [key]

/-- The flush keeps keys of the old buffer only, in order. -/
theorem flush_keys (s : DTeb) (stale : ℕ → ℕ) (passed : List EbEvent) (ev : EbEvent)
    (rest : List EbEvent) :
    ((s.flush stale passed ev rest).events.map key).Sublist
      ((passed ++ ev :: rest).map key) := by
  obtain ⟨-, -, -, kept, hevents, hsub, -⟩ := flush_spec s stale passed ev rest
  have hkept : (kept.map key).Sublist (passed.map key) := by
    simpa [Function.comp_def, key_mark] using hsub.map key
  rw [hevents, List.map_append, List.map_append, List.map_cons]
  exact hkept.append ((List.Sublist.refl _).cons _)

theorem BufferInv.newRecord {s : DTeb} (h : BufferInv s) {m : Message}
    (hnew : ∀ ev ∈ s.mEvents, ev.eventNumber ≠ m.trig) :
    BufferInv { s with mEvents := (s.newRecord m s.mEvents).events, created := s.created + 1 } := by
  by_cases hone : s.mNodes.length = 1
  · rw [DTeb.newRecord, if_pos hone]
    exact h.of_sublist (Nat.le_succ _) (.refl _)
  · rw [newRecord_of_ne_one hone]
    refine ⟨?_, ?_, ?_⟩
    · rw [List.map_append, List.nodup_append]
      refine ⟨h.numbers, List.nodup_singleton _, ?_⟩
      simpa [EbEvent.ofMessage] using hnew
    · simp only [List.map_append, List.map_singleton, List.pairwise_append]
      refine ⟨h.serials, List.pairwise_singleton _ _, ?_⟩
      simpa [EbEvent.ofMessage] using h.serial_lt
    · intro ev hev
      rcases List.mem_append.mp hev with hev | hev
      · exact (h.serial_lt ev hev).trans (Nat.lt_succ_self _)
      · rw [List.mem_singleton.mp hev]
        exact Nat.lt_succ_self _

theorem BufferInv.step {s : DTeb} (h : BufferInv s) (a : Arrival) : BufferInv (s.step a) := by
  rcases stRunningBody_cases s a h.numbers with
    ⟨hnew, hbody⟩ | ⟨passed, ev, rest, hsplit, -, ⟨-, hbody⟩ | ⟨-, hbody⟩⟩
  · obtain ⟨out, hevents, -, -, hisNew, -⟩ := evict_spec s (s.newRecord a.message s.mEvents)
    refine (h.newRecord hnew).of_sublist ?_ ?_
    · simp [DTeb.step, hbody, hisNew, newRecord_isNew]
    · simp only [DTeb.step, hbody]
      rw [hevents, List.map_append]
      exact List.sublist_append_right _ _
  · refine h.of_sublist (Nat.le_add_right _ _) ?_
    simp [DTeb.step, hbody, appended, hsplit, key, EbEvent.push]
  · refine h.of_sublist (Nat.le_add_right _ _) ?_
    have hkey : key { ev.push a.message with isFullev := true } = key ev := rfl
    simpa only [DTeb.step, hbody, hsplit, List.map_append, List.map_cons, hkey] using
      flush_keys s a.stale passed { ev.push a.message with isFullev := true } rest

theorem bufferInv_of_stRunning {mId mMaxEventDepth : ℕ} {mNodes : List ℕ} {as : List Arrival}
    {t : DTeb} (hrun : stRunning (start mId mMaxEventDepth mNodes) as = some t) : BufferInv t := by
  refine Transition.run_invariant (bufferInv_start mId mMaxEventDepth mNodes) ?_ hrun
  intro s a u hs hu
  cases hu
  exact hs.step a

/-! ### Where the records of a pass come from -/

section Origin

variable {s : DTeb} {a : Arrival} {x : EbEvent}

/-- A record after the pass is an old one that the fragment does not belong to, one that the
fragment has joined without completing it, or the fragment's own. Marks aside. -/
theorem mem_events_cases (hbuf : BufferInv s) (hx : x ∈ (s.stRunningBody a).events) :
    (∃ ev ∈ s.mEvents, ev.eventNumber ≠ a.message.trig ∧
        ∃ isFullev, x = { ev with isFullev := isFullev }) ∨
      (∃ ev ∈ s.mEvents, ev.eventNumber = a.message.trig ∧
        ev.node.length + 1 < s.mNodes.length ∧ x = ev.push a.message) ∨
      (∀ ev ∈ s.mEvents, ev.eventNumber ≠ a.message.trig) ∧ s.mNodes.length ≠ 1 ∧
        x = EbEvent.ofMessage a.message s.created := by
  rcases stRunningBody_cases s a hbuf.numbers with
    ⟨hnew, hbody⟩ | ⟨passed, ev, rest, hsplit, hev, ⟨hlen, hbody⟩ | ⟨-, hbody⟩⟩
  · obtain ⟨out, hevents, -⟩ := evict_spec s (s.newRecord a.message s.mEvents)
    have hmem : x ∈ (s.newRecord a.message s.mEvents).events := by
      rw [hevents]
      exact List.mem_append_right _ (hbody ▸ hx)
    by_cases hone : s.mNodes.length = 1
    · rw [newRecord, if_pos hone] at hmem
      exact .inl ⟨x, hmem, hnew x hmem, x.isFullev, rfl⟩
    · rw [newRecord_of_ne_one hone, List.mem_append, List.mem_singleton] at hmem
      cases hmem with
      | inl hmem => exact .inl ⟨x, hmem, hnew x hmem, x.isFullev, rfl⟩
      | inr hmem => exact .inr (.inr ⟨hnew, hone, hmem⟩)
  · have hother := ne_of_split (hsplit ▸ hbuf.numbers) hev
    rw [hbody, appended, List.mem_append, List.mem_cons] at hx
    rcases hx with hx | rfl | hx
    · exact .inl ⟨x, by simp [hsplit, hx], hother x (by simp [hx]), x.isFullev, rfl⟩
    · exact .inr (.inl ⟨ev, by simp [hsplit], hev, hlen, rfl⟩)
    · exact .inl ⟨x, by simp [hsplit, hx], hother x (by simp [hx]), x.isFullev, rfl⟩
  · have hother := ne_of_split (hsplit ▸ hbuf.numbers) hev
    obtain ⟨-, -, -, kept, hevents, hsub, -⟩ :=
      flush_spec s a.stale passed { ev.push a.message with isFullev := true } rest
    rw [hbody, hevents, List.mem_append] at hx
    cases hx with
    | inl hx =>
      -- one that the flush has kept: `send_data` may have left its mark on it
      obtain ⟨y, hy, rfl⟩ := List.mem_map.mp (hsub.subset hx)
      refine .inl ⟨y, by simp [hsplit, hy], hother y (by simp [hy]), ?_⟩
      exact mark_eq_with s _ y
    | inr hx => exact .inl ⟨x, by simp [hsplit, hx], hother x (by simp [hx]), x.isFullev, rfl⟩

/-- A record sent in the pass is an old one that the fragment does not belong to, the one it
has completed, or the fragment's own. Marks aside. -/
theorem mem_sent_cases (hbuf : BufferInv s) (hx : x ∈ (s.stRunningBody a).sent) :
    (∃ ev ∈ s.mEvents, ev.eventNumber ≠ a.message.trig ∧ x = ev) ∨
      (∃ ev ∈ s.mEvents, ev.eventNumber = a.message.trig ∧
        s.mNodes.length ≤ ev.node.length + 1 ∧
          x = { ev.push a.message with isFullev := true }) ∨
      (∀ ev ∈ s.mEvents, ev.eventNumber ≠ a.message.trig) ∧
        x = EbEvent.ofMessage a.message s.created := by
  rcases stRunningBody_cases s a hbuf.numbers with
    ⟨hnew, hbody⟩ | ⟨passed, ev, rest, hsplit, hev, ⟨-, hbody⟩ | ⟨hlen, hbody⟩⟩
  · obtain ⟨out, hevents, hsent, -⟩ := evict_spec s (s.newRecord a.message s.mEvents)
    have hmem : x ∈ (s.newRecord a.message s.mEvents).events ++
        (s.newRecord a.message s.mEvents).sent := by
      rw [hbody, hsent, List.mem_append] at hx
      rw [hevents]
      simp only [List.mem_append]
      tauto
    rw [newRecord_records, List.mem_append, List.mem_singleton] at hmem
    cases hmem with
    | inl hmem => exact .inl ⟨x, hmem, hnew x hmem, rfl⟩
    | inr hmem => exact .inr (.inr ⟨hnew, hmem⟩)
  · rw [hbody, appended] at hx
    exact absurd hx (by simp)
  · have hother := ne_of_split (hsplit ▸ hbuf.numbers) hev
    obtain ⟨-, -, hsent, -⟩ :=
      flush_spec s a.stale passed { ev.push a.message with isFullev := true } rest
    rw [hbody, hsent, List.mem_append, List.mem_singleton] at hx
    cases hx with
    | inl hx =>
      have hmem := List.mem_of_mem_filter hx
      exact .inl ⟨x, by simp [hsplit, hmem], hother x (by simp [hmem]), rfl⟩
    | inr hx => exact .inr (.inl ⟨ev, by simp [hsplit], hev, hlen, hx⟩)

end Origin

/-! ### The records of a run -/

/-- A record made for the message has the property, and one that the message joins keeps
it. -/
def Admits (P : EbEvent → Prop) (m : Message) : Prop :=
  (∀ serial, P (EbEvent.ofMessage m serial)) ∧
    ∀ ev, P ev → ev.eventNumber = m.trig → P (ev.push m)

section Records

variable {P : EbEvent → Prop}

theorem forall_records_step {s : DTeb} {a : Arrival} (hbuf : BufferInv s)
    (hblind : ∀ ev isFullev, P ev → P { ev with isFullev := isFullev })
    (hadmits : Admits P a.message) (hrecords : ∀ ev ∈ s.mEvents, P ev) :
    ∀ ev ∈ (s.stRunningBody a).events ++ (s.stRunningBody a).sent, P ev := by
  obtain ⟨hfresh, hjoin⟩ := hadmits
  intro x hx
  rw [List.mem_append] at hx
  cases hx with
  | inl hx =>
    rcases mem_events_cases hbuf hx with
      ⟨ev, hev, -, isFullev, rfl⟩ | ⟨ev, hev, hnum, -, rfl⟩ | ⟨-, -, rfl⟩
    · exact hblind ev isFullev (hrecords ev hev)
    · exact hjoin ev (hrecords ev hev) hnum
    · exact hfresh s.created
  | inr hx =>
    rcases mem_sent_cases hbuf hx with ⟨ev, hev, -, rfl⟩ | ⟨ev, hev, hnum, -, rfl⟩ | ⟨-, rfl⟩
    · exact hrecords x hev
    · exact hblind _ true (hjoin ev (hrecords ev hev) hnum)
    · exact hfresh s.created

/-- A property that does not read `is_fullev` and that every message admits holds of all
records in the buffer and of all records sent. -/
theorem forall_records {mId mMaxEventDepth : ℕ} {mNodes : List ℕ} {as : List Arrival} {t : DTeb}
    (hblind : ∀ ev isFullev, P ev → P { ev with isFullev := isFullev })
    (hadmits : ∀ a ∈ as, Admits P a.message)
    (hrun : stRunning (start mId mMaxEventDepth mNodes) as = some t) :
    ∀ ev ∈ t.mEvents ++ t.sendLog, P ev := by
  rw [stRunning_eq, Option.some.injEq] at hrun
  subst hrun
  induction as using List.reverseRecOn with
  | nil => simp [start]
  | append_singleton pre a ih =>
    have hpre := ih fun b hb => hadmits b (List.mem_append_left _ hb)
    have hstep := forall_records_step (bufferInv_of_stRunning (stRunning_eq _ pre)) hblind
      (hadmits a (by simp)) fun ev hev => hpre ev (List.mem_append_left _ hev)
    rw [List.forall_mem_append] at hpre hstep
    rw [List.foldl_append, List.foldl_cons, List.foldl_nil, step, ← List.append_assoc,
      List.forall_mem_append, List.forall_mem_append]
    exact ⟨⟨hstep.1, hpre.2⟩, hstep.2⟩

end Records

end DTeb

end LebStudy
