import LebStudy.EventBuilder.Conservation

/-!
# Successive activations of `DTeb::st_running`

`m_events` is a member of the task and nothing clears it, so what an activation
leaves in the buffer is there when the next one begins. Each fragment received is
noted with the activation it was received in and the record it went to. What
the notes say of a record agrees with what the record holds.
-/

namespace LebStudy

/-- A fragment received: the activation, and the serial of the record it went to. -/
structure Receipt where
  activation : ℕ
  message : Message
  serial : ℕ
  deriving DecidableEq, Repr

/-- The task over successive activations. The last two fields are history. -/
structure Runs where
  eb : DTeb
  activation : ℕ
  receipts : List Receipt

/-- An activation receives a fragment, or returns. -/
inductive RunsAction
  | receive (a : Arrival)
  | leave

/-- The record that takes the fragment in: the one of its trigger, or the one made for it. -/
def DTeb.target (s : DTeb) (m : Message) : ℕ :=
  ((s.mEvents.find? (·.eventNumber = m.trig)).map (·.serial)).getD s.created

/-- The record holds these fragments, in this order. -/
def EbEvent.Holds (ev : EbEvent) (rs : List Receipt) : Prop :=
  ev.node = rs.map (·.message.id) ∧ ev.data = rs.map (·.message.cbody)

theorem EbEvent.Holds.length_eq {ev : EbEvent} {rs : List Receipt} (h : ev.Holds rs) :
    rs.length = ev.node.length := by
  rw [h.1, List.length_map]

theorem EbEvent.Holds.push {ev : EbEvent} {rs : List Receipt} (h : ev.Holds rs) (r : Receipt) :
    (ev.push r.message).Holds (rs ++ [r]) := by
  obtain ⟨hnode, hdata⟩ := h
  refine ⟨?_, ?_⟩
  · simp [EbEvent.push, hnode]
  · simp [EbEvent.push, hdata]

namespace Runs

def start (mId mMaxEventDepth : ℕ) (mNodes : List ℕ) : Runs where
  eb := .start mId mMaxEventDepth mNodes
  activation := 0
  receipts := []

def step (s : Runs) : RunsAction → Option Runs
  | .receive a =>
    some { s with
      eb := s.eb.step a
      receipts := s.receipts ++ [⟨s.activation, a.message, s.eb.target a.message⟩] }
  | .leave => some { s with activation := s.activation + 1 }

/-- The fragments that went to the record with this serial. -/
def receiptsOf (s : Runs) (serial : ℕ) : List Receipt := s.receipts.filter (·.serial = serial)

/-- The fragments in a record: of those that went to it, as many as it holds. -/
def contents (s : Runs) (ev : EbEvent) : List Receipt :=
  (s.receiptsOf ev.serial).take ev.node.length

/-- Every fragment of the activation has been handed to `send_data`. -/
def HandedOver (s : Runs) : Prop :=
  ∀ r ∈ s.receipts, r.activation = s.activation → ∃ ev ∈ s.eb.sendLog, r ∈ s.contents ev

/-- No record handed to `send_data` holds fragments of two activations. -/
def OneActivation (s : Runs) : Prop :=
  ∀ ev ∈ s.eb.sendLog, ∀ r ∈ s.contents ev, ∀ r' ∈ s.contents ev, r.activation = r'.activation

instance (s : Runs) : Decidable s.HandedOver :=
  inferInstanceAs (Decidable (∀ r ∈ s.receipts, _ → ∃ ev ∈ s.eb.sendLog, r ∈ s.contents ev))

instance (s : Runs) : Decidable s.OneActivation :=
  inferInstanceAs (Decidable (∀ ev ∈ s.eb.sendLog, ∀ r ∈ s.contents ev, ∀ r' ∈ s.contents ev, _))

/-- When an activation returns, all its fragments have been handed over. -/
def LeavesNothing (s : Runs) : RunsAction → Prop
  | .receive _ => True
  | .leave => s.HandedOver

/-- When an activation returns, the buffer is empty. -/
def LeavesEmpty (s : Runs) : RunsAction → Prop
  | .receive _ => True
  | .leave => s.eb.mEvents = []

instance (s : Runs) : ∀ a, Decidable (s.LeavesNothing a)
  | .receive _ => isTrue trivial
  | .leave => inferInstanceAs (Decidable s.HandedOver)

instance (s : Runs) : ∀ a, Decidable (s.LeavesEmpty a)
  | .receive _ => isTrue trivial
  | .leave => inferInstanceAs (Decidable (s.eb.mEvents = []))

/-- Each flush erases what it sends. -/
def FlushesAgree (s : Runs) : RunsAction → Prop
  | .receive a => s.eb.FlushesAgree a
  | .leave => True

/-! ### The record a fragment goes to -/

section Target

variable {s : DTeb} {m : Message} {ev : EbEvent}

theorem target_of_new (hnew : ∀ ev ∈ s.mEvents, ev.eventNumber ≠ m.trig) :
    s.target m = s.created := by
  have hnone : s.mEvents.find? (·.eventNumber = m.trig) = none := by
    rw [List.find?_eq_none]
    intro ev hev
    simpa using hnew ev hev
  rw [DTeb.target, hnone]
  rfl

theorem exists_target (hev : ev ∈ s.mEvents) (hnum : ev.eventNumber = m.trig) :
    ∃ x ∈ s.mEvents, x.eventNumber = m.trig ∧ s.target m = x.serial := by
  cases hfind : s.mEvents.find? (·.eventNumber = m.trig) with
  | none =>
    rw [List.find?_eq_none] at hfind
    exact absurd hnum (by simpa using hfind ev hev)
  | some x =>
    refine ⟨x, List.mem_of_find?_eq_some hfind, by simpa using List.find?_some hfind, ?_⟩
    rw [DTeb.target, hfind]
    rfl

theorem target_of_matched (hbuf : DTeb.BufferInv s) (hev : ev ∈ s.mEvents)
    (hnum : ev.eventNumber = m.trig) : s.target m = ev.serial := by
  obtain ⟨x, hx, hxnum, htarget⟩ := exists_target hev hnum
  rw [htarget, List.inj_on_of_nodup_map hbuf.numbers hx hev (hxnum.trans hnum.symm)]

/-- The fragment starts a record, or joins the one of its trigger. -/
theorem target_cases (hbuf : DTeb.BufferInv s) (m : Message) :
    (∀ ev ∈ s.mEvents, ev.eventNumber ≠ m.trig) ∧ s.target m = s.created ∨
      ∃ ev ∈ s.mEvents, ev.eventNumber = m.trig ∧ s.target m = ev.serial := by
  by_cases hnew : ∀ ev ∈ s.mEvents, ev.eventNumber ≠ m.trig
  · exact .inl ⟨hnew, target_of_new hnew⟩
  · push Not at hnew
    obtain ⟨ev, hev, hnum⟩ := hnew
    exact .inr ⟨ev, hev, hnum, target_of_matched hbuf hev hnum⟩

theorem target_ne (hbuf : DTeb.BufferInv s) (hev : ev ∈ s.mEvents)
    (hnum : ev.eventNumber ≠ m.trig) : s.target m ≠ ev.serial := by
  rcases target_cases hbuf m with ⟨-, htarget⟩ | ⟨y, hy, hynum, htarget⟩ <;> rw [htarget]
  · exact (Nat.ne_of_lt (hbuf.serial_lt ev hev)).symm
  · -- a serial stands for one record, and this one has another number
    intro hserial
    rw [List.inj_on_of_nodup_map hbuf.nodup_serials hy hev hserial] at hynum
    exact hnum hynum

end Target

/-! ### What the notes say -/

/-- The notes agree with the records: those in the buffer hold all fragments that went to
them, those sent hold the first of them. -/
structure Accounted (s : Runs) : Prop where
  buffer : DTeb.BufferInv s.eb
  serial_lt : ∀ r ∈ s.receipts, r.serial < s.eb.created
  buffered : ∀ ev ∈ s.eb.mEvents, ev.Holds (s.receiptsOf ev.serial)
  nonempty : ∀ ev ∈ s.eb.mEvents, ev.node ≠ []
  sent_lt : ∀ ev ∈ s.eb.sendLog, ev.serial < s.eb.created
  sent : ∀ ev ∈ s.eb.sendLog, ev.Holds (s.contents ev)

theorem accounted_start (mId mMaxEventDepth : ℕ) (mNodes : List ℕ) :
    Accounted (start mId mMaxEventDepth mNodes) where
  buffer := DTeb.bufferInv_start mId mMaxEventDepth mNodes
  serial_lt r hr := by cases hr
  buffered ev hev := by cases hev
  nonempty ev hev := by cases hev
  sent_lt ev hev := by cases hev
  sent ev hev := by cases hev

section Step

variable {s t : Runs} {a : Arrival} {ev : EbEvent}

/-- The note of the fragment. -/
def receipt (s : Runs) (a : Arrival) : Receipt := ⟨s.activation, a.message, s.eb.target a.message⟩

theorem receiptsOf_receive (ht : s.step (.receive a) = some t) (serial : ℕ) :
    t.receiptsOf serial =
      s.receiptsOf serial ++ if s.eb.target a.message = serial then [s.receipt a] else [] := by
  cases ht
  show (s.receipts ++ [s.receipt a]).filter (·.serial = serial) = _
  rw [List.filter_append]
  by_cases h : s.eb.target a.message = serial <;> simp [receiptsOf, receipt, h]

theorem Accounted.receiptsOf_created (h : Accounted s) : s.receiptsOf s.eb.created = [] := by
  refine List.filter_eq_nil_iff.mpr fun r hr => ?_
  have := h.serial_lt r hr
  simp only [decide_eq_true_eq]
  omega

/-- The record in the buffer, after the pass: it holds what went to it. -/
theorem Accounted.receiptsOf_of_ne (h : Accounted s) (ht : s.step (.receive a) = some t)
    (hev : ev ∈ s.eb.mEvents) (hnum : ev.eventNumber ≠ a.message.trig) :
    t.receiptsOf ev.serial = s.receiptsOf ev.serial := by
  rw [receiptsOf_receive ht, if_neg (target_ne h.buffer hev hnum), List.append_nil]

theorem Accounted.receiptsOf_of_eq (h : Accounted s) (ht : s.step (.receive a) = some t)
    (hev : ev ∈ s.eb.mEvents) (hnum : ev.eventNumber = a.message.trig) :
    t.receiptsOf ev.serial = s.receiptsOf ev.serial ++ [s.receipt a] := by
  rw [receiptsOf_receive ht, if_pos (target_of_matched h.buffer hev hnum)]

theorem Accounted.receiptsOf_of_new (h : Accounted s) (ht : s.step (.receive a) = some t)
    (hnew : ∀ ev ∈ s.eb.mEvents, ev.eventNumber ≠ a.message.trig) :
    t.receiptsOf s.eb.created = [s.receipt a] := by
  rw [receiptsOf_receive ht, if_pos (target_of_new hnew), h.receiptsOf_created, List.nil_append]

/-- A record in the buffer after the pass holds what went to it. -/
theorem Accounted.holds_events (h : Accounted s) (ht : s.step (.receive a) = some t)
    (hev : ev ∈ (s.eb.stRunningBody a).events) : ev.Holds (t.receiptsOf ev.serial) := by
  rcases DTeb.mem_events_cases h.buffer hev with
    ⟨x, hx, hnum, isFullev, rfl⟩ | ⟨x, hx, hnum, -, rfl⟩ | ⟨hnew, -, rfl⟩
  · show x.Holds (t.receiptsOf x.serial)
    rw [h.receiptsOf_of_ne ht hx hnum]
    exact h.buffered x hx
  · show (x.push a.message).Holds (t.receiptsOf x.serial)
    rw [h.receiptsOf_of_eq ht hx hnum]
    exact (h.buffered x hx).push (s.receipt a)
  · show (EbEvent.ofMessage a.message s.eb.created).Holds (t.receiptsOf s.eb.created)
    rw [h.receiptsOf_of_new ht hnew]
    exact ⟨rfl, rfl⟩

/-- A record sent in the pass holds what went to it. -/
theorem Accounted.holds_sent (h : Accounted s) (ht : s.step (.receive a) = some t)
    (hev : ev ∈ (s.eb.stRunningBody a).sent) : ev.Holds (t.receiptsOf ev.serial) := by
  rcases DTeb.mem_sent_cases h.buffer hev with
    ⟨x, hx, hnum, rfl⟩ | ⟨x, hx, hnum, -, rfl⟩ | ⟨hnew, rfl⟩
  · rw [h.receiptsOf_of_ne ht hx hnum]
    exact h.buffered ev hx
  · show (x.push a.message).Holds (t.receiptsOf x.serial)
    rw [h.receiptsOf_of_eq ht hx hnum]
    exact (h.buffered x hx).push (s.receipt a)
  · show (EbEvent.ofMessage a.message s.eb.created).Holds (t.receiptsOf s.eb.created)
    rw [h.receiptsOf_of_new ht hnew]
    exact ⟨rfl, rfl⟩

theorem created_of_new (hbuf : DTeb.BufferInv s.eb)
    (hnew : ∀ ev ∈ s.eb.mEvents, ev.eventNumber ≠ a.message.trig) :
    (s.eb.step a).created = s.eb.created + 1 := by
  have hisNew : (s.eb.stRunningBody a).isNew = true := by
    rcases DTeb.stRunningBody_cases s.eb a hbuf.numbers with
      ⟨-, hbody⟩ | ⟨passed, ev, rest, hsplit, hev, -⟩
    · obtain ⟨-, -, -, -, hisNew, -⟩ :=
        DTeb.evict_spec s.eb (s.eb.newRecord a.message s.eb.mEvents)
      rw [hbody, hisNew, DTeb.newRecord_isNew]
    · exact absurd hev (hnew ev (by simp [hsplit]))
  show s.eb.created + (if (s.eb.stRunningBody a).isNew then 1 else 0) = _
  rw [if_pos hisNew]

theorem created_le (s : Runs) (a : Arrival) : s.eb.created ≤ (s.eb.step a).created :=
  Nat.le_add_right _ _

/-- The record the fragment goes to has been created when the pass is over. -/
theorem Accounted.target_lt (h : Accounted s) : s.eb.target a.message < (s.eb.step a).created := by
  rcases target_cases h.buffer a.message with ⟨hnew, htarget⟩ | ⟨ev, hev, -, htarget⟩ <;>
    rw [htarget]
  · rw [created_of_new h.buffer hnew]
    exact Nat.lt_succ_self _
  · exact (h.buffer.serial_lt ev hev).trans_le (created_le s a)

theorem Accounted.serial_lt_of_sent (h : Accounted s) (hev : ev ∈ (s.eb.stRunningBody a).sent) :
    ev.serial < (s.eb.step a).created := by
  rcases DTeb.mem_sent_cases h.buffer hev with
    ⟨x, hx, -, rfl⟩ | ⟨x, hx, -, -, rfl⟩ | ⟨hnew, rfl⟩
  · exact (h.buffer.serial_lt ev hx).trans_le (created_le s a)
  · exact (h.buffer.serial_lt x hx).trans_le (created_le s a)
  · rw [created_of_new h.buffer hnew]
    exact Nat.lt_succ_self _

/-- What is sent does not grow: later fragments come behind those it holds. -/
theorem contents_receive (ht : s.step (.receive a) = some t) (hev : ev.Holds (s.contents ev)) :
    t.contents ev = s.contents ev := by
  -- the record is made up already, so a later note is not among the first ones
  have hlen : ev.node.length ≤ (s.receiptsOf ev.serial).length := by
    have := hev.length_eq
    rw [contents, List.length_take] at this
    omega
  rw [contents, receiptsOf_receive ht, List.take_append_of_le_length hlen, contents]

/-- A record that holds all that went to it. -/
theorem contents_of_holds (hev : ev.Holds (s.receiptsOf ev.serial)) :
    s.contents ev = s.receiptsOf ev.serial := by
  rw [contents, List.take_of_length_le hev.length_eq.le]

theorem Accounted.receive (h : Accounted s) (ht : s.step (.receive a) = some t) :
    Accounted t := by
  have heb : t.eb = s.eb.step a := by
    cases ht
    rfl
  have hreceipts : t.receipts = s.receipts ++ [s.receipt a] := by
    cases ht
    rfl
  constructor
  case buffer => exact heb ▸ h.buffer.step a
  case serial_lt =>
    rw [heb, hreceipts]
    intro r hr
    rw [List.mem_append, List.mem_singleton] at hr
    cases hr with
    | inl hr => exact (h.serial_lt r hr).trans_le (created_le s a)
    | inr hr => exact hr ▸ h.target_lt
  case buffered =>
    rw [heb]
    exact fun ev hev => h.holds_events ht hev
  case nonempty =>
    rw [heb]
    intro ev hev
    rcases DTeb.mem_events_cases h.buffer hev with
      ⟨x, hx, -, isFullev, rfl⟩ | ⟨x, hx, -, -, rfl⟩ | ⟨-, -, rfl⟩
    · exact h.nonempty x hx
    · simp [EbEvent.push]
    · simp [EbEvent.ofMessage]
  case sent_lt =>
    rw [heb]
    intro ev hev
    cases List.mem_append.mp hev with
    | inl hev => exact (h.sent_lt ev hev).trans_le (created_le s a)
    | inr hev => exact h.serial_lt_of_sent hev
  case sent =>
    rw [heb]
    intro ev hev
    cases List.mem_append.mp hev with
    | inl hev =>
      rw [contents_receive ht (h.sent ev hev)]
      exact h.sent ev hev
    | inr hev =>
      have hholds := h.holds_sent ht hev
      rw [contents_of_holds hholds]
      exact hholds

theorem Accounted.leave (h : Accounted s) (ht : s.step .leave = some t) : Accounted t := by
  cases ht
  exact ⟨h.buffer, h.serial_lt, h.buffered, h.nonempty, h.sent_lt, h.sent⟩

end Step

/-- Over any sequence of activations, whatever is flushed, evicted or dropped, the notes agree
with the records. -/
theorem accounted_of_run {mId mMaxEventDepth : ℕ} {mNodes : List ℕ} {as : List RunsAction}
    {t : Runs} (hrun : Transition.run step (start mId mMaxEventDepth mNodes) as = some t) :
    Accounted t := by
  refine Transition.run_invariant (accounted_start mId mMaxEventDepth mNodes) ?_ hrun
  intro s a u hs hu
  cases a with
  | receive a => exact hs.receive hu
  | leave => exact hs.leave hu

/-! ### Runs whose flushes agree -/

/-- Each record created is in the buffer and unsent, or was sent once with all its fragments
and is gone; with one node nothing is ever buffered. -/
structure Settled (s : Runs) : Prop where
  ledger : DTeb.Ledger s.eb
  single : s.eb.mNodes.length = 1 → s.eb.mEvents = []
  sent : ∀ ev ∈ s.eb.sendLog, ev.Holds (s.receiptsOf ev.serial)

section Settled

variable {s t : Runs} {a : Arrival}

theorem settled_start (mId mMaxEventDepth : ℕ) (mNodes : List ℕ) :
    Settled (start mId mMaxEventDepth mNodes) where
  ledger := List.Perm.refl []
  single _ := rfl
  sent ev hev := by cases hev

/-- With one node the record of a fragment is sent at once and not kept. -/
theorem step_of_single {eb : DTeb} (hone : eb.mNodes.length = 1) (hempty : eb.mEvents = [])
    (a : Arrival) :
    (eb.step a).mEvents = [] ∧ (eb.step a).created = eb.created + 1 ∧
      (eb.step a).sendLog = eb.sendLog ++ [EbEvent.ofMessage a.message eb.created] := by
  have hbody : eb.stRunningBody a =
      { isNew := true, events := [], sent := [EbEvent.ofMessage a.message eb.created]
        erased := [], full := none } := by
    have hnew : ∀ ev ∈ eb.mEvents, ev.eventNumber ≠ a.message.trig := by simp [hempty]
    rw [DTeb.stRunningBody, DTeb.matchLoop_of_forall_ne hnew, hempty]
    simp [DTeb.newRecord, hone, DTeb.evict]
  simp [DTeb.step, hbody]

/-- A record that was sent is no longer in the buffer, and has not the next serial. -/
theorem Settled.not_target (h : Settled s) (hacc : Accounted s) {ev : EbEvent}
    (hev : ev ∈ s.eb.sendLog) (m : Message) : s.eb.target m ≠ ev.serial := by
  rcases target_cases hacc.buffer m with ⟨-, htarget⟩ | ⟨x, hx, -, htarget⟩ <;> rw [htarget]
  · exact (Nat.ne_of_lt (hacc.sent_lt ev hev)).symm
  · -- the ledger has every serial once
    intro hserial
    have hnd : (DTeb.serials s.eb.sendLog ++ DTeb.serials s.eb.mEvents).Nodup :=
      h.ledger.nodup_iff.mpr List.nodup_range
    exact (List.nodup_append.mp hnd).2.2 _ (List.mem_map_of_mem hev) _
      (List.mem_map_of_mem hx) hserial.symm

theorem Settled.receive (h : Settled s) (hacc : Accounted s)
    (hagree : s.eb.FlushesAgree a) (ht : s.step (.receive a) = some t) : Settled t := by
  have heb : t.eb = s.eb.step a := by
    cases ht
    rfl
  constructor
  case ledger =>
    rw [heb]
    by_cases hone : s.eb.mNodes.length = 1
    · -- with one node the record is sent without a flush, and the step lemma does not apply
      obtain ⟨hevents, hcreated, hlog⟩ := step_of_single hone (h.single hone) a
      have hledger := h.ledger
      rw [DTeb.Ledger, h.single hone] at hledger
      rw [DTeb.Ledger, hevents, hcreated, hlog, List.range_succ]
      simpa [DTeb.serials, EbEvent.ofMessage] using
        List.Perm.append_right [s.eb.created] hledger
    · exact h.ledger.step hacc.buffer hone ((DTeb.conserves_iff hacc.buffer hone a).mpr hagree)
  case single =>
    intro hone
    have hone : s.eb.mNodes.length = 1 := by
      rw [heb] at hone
      exact hone
    rw [heb]
    exact (step_of_single hone (h.single hone) a).1
  case sent =>
    rw [heb]
    intro ev hev
    cases List.mem_append.mp hev with
    | inl hev =>
      rw [receiptsOf_receive ht, if_neg (h.not_target hacc hev a.message), List.append_nil]
      exact h.sent ev hev
    | inr hev => exact hacc.holds_sent ht hev

theorem Settled.leave (h : Settled s) (ht : s.step .leave = some t) : Settled t := by
  cases ht
  exact ⟨h.ledger, h.single, h.sent⟩

/-- The record a fragment went to is in the buffer or has been sent. -/
theorem Settled.mem_or_mem (h : Settled s) (hacc : Accounted s) {r : Receipt}
    (hr : r ∈ s.receipts) :
    (∃ ev ∈ s.eb.sendLog, ev.serial = r.serial) ∨ ∃ ev ∈ s.eb.mEvents, ev.serial = r.serial := by
  have hmem := h.ledger.symm.subset (List.mem_range.mpr (hacc.serial_lt r hr))
  cases List.mem_append.mp hmem with
  | inl hmem => exact .inl (List.mem_map.mp hmem)
  | inr hmem => exact .inr (List.mem_map.mp hmem)

end Settled

/-- The fragments in a record are all of one activation, and those in the buffer of the
present one. -/
structure Apart (s : Runs) : Prop where
  buffered : ∀ ev ∈ s.eb.mEvents, ∀ r ∈ s.receiptsOf ev.serial, r.activation = s.activation
  same : ∀ r ∈ s.receipts, ∀ r' ∈ s.receipts, r.serial = r'.serial → r.activation = r'.activation

section Apart

variable {s t : Runs} {a : Arrival}

theorem apart_start (mId mMaxEventDepth : ℕ) (mNodes : List ℕ) :
    Apart (start mId mMaxEventDepth mNodes) where
  buffered ev hev := by cases hev
  same r hr := by cases hr

theorem mem_receiptsOf {r : Receipt} {serial : ℕ} :
    r ∈ s.receiptsOf serial ↔ r ∈ s.receipts ∧ r.serial = serial := by
  rw [receiptsOf, List.mem_filter, decide_eq_true_eq]

/-- Whatever is in the record that the fragment goes to is of the present activation. -/
theorem Apart.activation_of_target (h : Apart s) (hacc : Accounted s) {m : Message} {r : Receipt}
    (hr : r ∈ s.receipts) (htarget : r.serial = s.eb.target m) : r.activation = s.activation := by
  rcases target_cases hacc.buffer m with ⟨-, hnew⟩ | ⟨ev, hev, -, hmatched⟩
  · have := hacc.serial_lt r hr
    omega
  · exact h.buffered ev hev r (mem_receiptsOf.mpr ⟨hr, htarget.trans hmatched⟩)

theorem Apart.receive (h : Apart s) (hacc : Accounted s) (ht : s.step (.receive a) = some t) :
    Apart t := by
  have hactivation : t.activation = s.activation := by
    cases ht
    rfl
  have hreceipts : t.receipts = s.receipts ++ [s.receipt a] := by
    cases ht
    rfl
  constructor
  case buffered =>
    have heb : t.eb = s.eb.step a := by
      cases ht
      rfl
    rw [heb, hactivation]
    intro ev hev r hr
    rcases DTeb.mem_events_cases hacc.buffer hev with
      ⟨x, hx, hnum, isFullev, rfl⟩ | ⟨x, hx, hnum, -, rfl⟩ | ⟨hnew, -, rfl⟩
    · exact h.buffered x hx r (hacc.receiptsOf_of_ne ht hx hnum ▸ hr)
    · have hr' : r ∈ s.receiptsOf x.serial ++ [s.receipt a] :=
        hacc.receiptsOf_of_eq ht hx hnum ▸ hr
      rw [List.mem_append, List.mem_singleton] at hr'
      cases hr' with
      | inl hr' => exact h.buffered x hx r hr'
      | inr hr' => exact hr' ▸ rfl
    · have hr' : r ∈ [s.receipt a] := hacc.receiptsOf_of_new ht hnew ▸ hr
      rw [List.mem_singleton.mp hr']
      rfl
  case same =>
    rw [hreceipts]
    intro r hr r' hr' hserial
    rw [List.mem_append, List.mem_singleton] at hr hr'
    -- two old notes; one of them the new note; both
    rcases hr with hr | rfl <;> rcases hr' with hr' | rfl
    · exact h.same r hr r' hr' hserial
    · exact h.activation_of_target hacc hr hserial
    · exact (h.activation_of_target hacc hr' hserial.symm).symm
    · rfl

theorem Apart.leave (h : Apart s) (hempty : s.eb.mEvents = []) (ht : s.step .leave = some t) :
    Apart t := by
  cases ht
  refine ⟨?_, h.same⟩
  intro ev hev
  rw [show s.eb.mEvents = [] from hempty] at hev
  cases hev

theorem Apart.oneActivation (h : Apart s) : s.OneActivation := by
  intro ev _ r hr r' hr'
  have hr := mem_receiptsOf.mp (List.mem_of_mem_take hr)
  have hr' := mem_receiptsOf.mp (List.mem_of_mem_take hr')
  exact h.same r hr.1 r' hr'.1 (hr.2.trans hr'.2.symm)

end Apart

/-! ### What an activation leaves -/

/-- All fragments of the present activation have been handed over exactly if the buffer is
empty. -/
theorem handedOver_iff {s : Runs} (hacc : Accounted s) (hsettled : Settled s) (hapart : Apart s) :
    s.HandedOver ↔ s.eb.mEvents = [] := by
  constructor
  · intro hover
    by_contra hne
    obtain ⟨ev, hev⟩ := List.exists_mem_of_ne_nil _ hne
    -- a record in the buffer holds a fragment, and this was not sent
    have hholds := hacc.buffered ev hev
    have hnd : (DTeb.serials s.eb.sendLog ++ DTeb.serials s.eb.mEvents).Nodup :=
      hsettled.ledger.nodup_iff.mpr List.nodup_range
    by_cases hnil : s.receiptsOf ev.serial = []
    · have hlen := hacc.nonempty ev hev
      rw [hholds.1, hnil] at hlen
      exact hlen rfl
    · obtain ⟨r, hr⟩ := List.exists_mem_of_ne_nil _ hnil
      obtain ⟨hmem, hserial⟩ := mem_receiptsOf.mp hr
      obtain ⟨sent, hsent, hcontents⟩ := hover r hmem (hapart.buffered ev hev r hr)
      have hserial' := (mem_receiptsOf.mp (List.mem_of_mem_take hcontents)).2
      exact (List.nodup_append.mp hnd).2.2 _ (List.mem_map_of_mem hsent) _
        (List.mem_map_of_mem hev) (hserial'.symm.trans hserial)
  · intro hempty r hr _
    -- its record is not in the buffer, so it has been sent, and with all that went to it
    cases hsettled.mem_or_mem hacc hr with
    | inl h =>
      obtain ⟨ev, hev, hserial⟩ := h
      refine ⟨ev, hev, ?_⟩
      rw [contents_of_holds (hsettled.sent ev hev)]
      exact mem_receiptsOf.mpr ⟨hr, hserial.symm⟩
    | inr h =>
      obtain ⟨ev, hev, -⟩ := h
      rw [hempty] at hev
      cases hev

/-- What holds in a run whose flushes agree and whose activations leave the buffer empty. -/
def Clean (s : Runs) : Prop := Accounted s ∧ Settled s ∧ Apart s

theorem Clean.step {s t : Runs} {a : RunsAction} (h : Clean s)
    (hcond : s.FlushesAgree a ∧ s.LeavesEmpty a) (ht : s.step a = some t) : Clean t := by
  obtain ⟨hacc, hsettled, hapart⟩ := h
  cases a with
  | receive a =>
    exact ⟨hacc.receive ht, hsettled.receive hacc hcond.1 ht, hapart.receive hacc ht⟩
  | leave => exact ⟨hacc.leave ht, hsettled.leave ht, hapart.leave hcond.2 ht⟩

/-- As long as flushes agree: activations hand over all they receive, and no event mixes two
of them, exactly if each activation leaves the buffer empty. What counts as the fragments in
an event is, in any run, what the event holds. -/
theorem runs_do_not_leak (mId mMaxEventDepth : ℕ) (mNodes : List ℕ) (as : List RunsAction) :
    (Transition.Meets step FlushesAgree (start mId mMaxEventDepth mNodes) as →
      (Transition.Meets step LeavesNothing (start mId mMaxEventDepth mNodes) as ∧
          (∀ t, Transition.run step (start mId mMaxEventDepth mNodes) as = some t →
            t.OneActivation) ↔
        Transition.Meets step LeavesEmpty (start mId mMaxEventDepth mNodes) as)) ∧
    ∀ t, Transition.run step (start mId mMaxEventDepth mNodes) as = some t →
      ∀ ev ∈ t.eb.sendLog, ev.Holds (t.contents ev) := by
  refine ⟨fun hagree => ?_, fun t ht => (accounted_of_run ht).sent⟩
  have hstart : Clean (start mId mMaxEventDepth mNodes) :=
    ⟨accounted_start mId mMaxEventDepth mNodes, settled_start mId mMaxEventDepth mNodes,
      apart_start mId mMaxEventDepth mNodes⟩
  have hiff : Transition.Meets step (fun s a => s.FlushesAgree a ∧ s.LeavesEmpty a)
        (start mId mMaxEventDepth mNodes) as ↔
      Transition.Meets step (fun s a => s.FlushesAgree a ∧ s.LeavesNothing a)
        (start mId mMaxEventDepth mNodes) as := by
    refine Transition.meets_congr_of_invariant hstart (fun s a t => Clean.step) ?_
    rintro s a ⟨hacc, hsettled, hapart⟩
    cases a with
    | receive a => exact Iff.rfl
    | leave => exact and_congr_right fun _ => (handedOver_iff hacc hsettled hapart).symm
  rw [Transition.meets_and, Transition.meets_and] at hiff
  constructor
  · intro h
    exact (hiff.mpr ⟨hagree, h.1⟩).2
  · intro hempty
    refine ⟨(hiff.mp ⟨hagree, hempty⟩).2, fun t ht => ?_⟩
    have hclean : Clean t := Transition.run_invariant_of_meets hstart (fun s a t => Clean.step) ht
      (Transition.meets_and.mpr ⟨hagree, hempty⟩)
    exact hclean.2.2.oneActivation

/-- An empty record of a node. -/
def received (id : UInt8) (trig : UInt32) : RunsAction :=
  .receive ⟨(RecbeRecord.empty id trig).message, fun _ => 0⟩

/-- Only node 1 delivers trigger 5 before the run is stopped; in the next run node 2 does. -/
def stoppedEarly : List RunsAction := [received 1 5, .leave, received 2 5, .leave]

/-- The first activation leaves its fragment in the buffer, and the event sent in the second
one holds it. -/
theorem fragment_leaks :
    ¬ Transition.Meets step LeavesNothing (start 999 1024 [1, 2]) stoppedEarly ∧
      ∃ t, Transition.run step (start 999 1024 [1, 2]) stoppedEarly = some t ∧
        ¬ t.OneActivation :=
  ⟨by decide, _, rfl, by decide⟩

/-- Two runs with the same trigger, each of which gets both fragments. -/
def completeRuns : List RunsAction :=
  [received 1 5, received 2 5, .leave, received 2 5, received 1 5, .leave]

theorem complete_runs_do_not_leak :
    Transition.Meets step LeavesNothing (start 999 1024 [1, 2]) completeRuns ∧
      ∀ t, Transition.run step (start 999 1024 [1, 2]) completeRuns = some t →
        t.OneActivation := by
  have hshort : Transition.Meets step (fun s _ => s.eb.mEvents.length ≤ 1)
      (start 999 1024 [1, 2]) completeRuns := by decide
  refine ((runs_do_not_leak 999 1024 [1, 2] completeRuns).1 (hshort.imp ?_)).mpr (by decide)
  intro s a hs
  cases a with
  | receive a => exact DTeb.flushesAgree_of_length_le_one hs a
  | leave => trivial

end Runs

end LebStudy
