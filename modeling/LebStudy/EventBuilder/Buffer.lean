import LebStudy.Lib.Transition
import LebStudy.EventBuilder.PackedEvent

/-!
# The event buffer of `DTeb::st_running`

The loop body of `DTeb::st_running` matches a received fragment against the
records in `m_events`. A fragment that completes a record flushes this record
and the records before it, in two loops over the vector: the first sends, the
second erases. The second reads the completed record's number through its index
`i` after the erase of that very record, so from then on `m_events[i]` is a later
record, or lies past the end of the vector. What such a read past the end
yields is left open: it is part of the input of the step.
-/

namespace LebStudy

namespace EbEvent

/-- `struct ebevent ev` as the loop makes it for a trigger it has no record of. -/
def ofMessage (m : Message) (serial : ℕ) : EbEvent where
  eventNumber := m.trig
  node := [m.id]
  data := [m.cbody]
  isFullev := false
  serial := serial

/-- `node.push_back(id); data.push_back(cdata)` -/
def push (ev : EbEvent) (m : Message) : EbEvent :=
  { ev with node := ev.node ++ [m.id], data := ev.data ++ [m.cbody] }

end EbEvent

/-- The event builder task. The last two fields are history: how many records have
been created, and the records handed to `send_data`, in order. -/
structure DTeb where
  mId : ℕ
  mNodes : List ℕ
  mMaxEventDepth : ℕ
  mEvents : List EbEvent
  created : ℕ
  sendLog : List EbEvent
  deriving Repr

/-- One pass of the loop: the message, and what a read of `m_events[i]` past the end
of the vector yields in turn `j` of the erase loop. -/
structure Arrival where
  message : Message
  stale : ℕ → ℕ

/-- The effect of one pass of the loop on the buffer. `full` is the record for which
the branch of a full event was taken. -/
structure LoopOut where
  isNew : Bool
  events : List EbEvent
  sent : List EbEvent
  erased : List EbEvent
  full : Option EbEvent
  deriving DecidableEq, Repr

/-- `m_events[k].event_number` -/
def numberAt (stale : ℕ) (evs : List EbEvent) (k : ℕ) : ℕ :=
  (evs[k]?.map (·.eventNumber)).getD stale

namespace DTeb

/-- A task that has received nothing yet. -/
def start (mId mMaxEventDepth : ℕ) (mNodes : List ℕ) : DTeb where
  mId := mId
  mNodes := mNodes
  mMaxEventDepth := mMaxEventDepth
  mEvents := []
  created := 0
  sendLog := []

/-- `DTeb::init`: the ids of the nodes are pushed as `unsigned int`. -/
def init (s : DTeb) (nodes : List ℤ) : DTeb :=
  { s with mNodes := s.mNodes ++ nodes.map fun id => (id % 2 ^ 32).toNat }

theorem init_start (mId mMaxEventDepth : ℕ) {nodes : List ℕ} (h : ∀ n ∈ nodes, n < 2 ^ 32) :
    (start mId mMaxEventDepth []).init (nodes.map Int.ofNat) =
      start mId mMaxEventDepth nodes := by
  have hcast : (nodes.map Int.ofNat).map (fun id => (id % 2 ^ 32).toNat) = nodes := by
    rw [List.map_map]
    refine (List.map_congr_left fun n hn => ?_).trans nodes.map_id
    have := h n hn
    simp only [Function.comp_apply, Int.ofNat_eq_natCast, id_eq]
    omega
  rw [init, hcast]
  simp [start]

/-- `for (j = 0 ; j <= i ; j++)`: send the records up to the completed one whose number
is at most `number`. `send_data` leaves its mark on `is_fullev`. -/
def sendLoop (s : DTeb) (number : ℕ) : List EbEvent → List EbEvent × List EbEvent
  | [] => ([], [])
  | ev :: evs =>
    let (buf, sent) := sendLoop s number evs
    if ev.eventNumber ≤ number then ((packData s.mId s.mNodes ev).1 :: buf, ev :: sent)
    else (ev :: buf, sent)

/-- `for (int j = i ; j >= 0 ; j--)`: erase from the back, comparing with whatever
`m_events[i]` is at that moment. The second component are the records erased. -/
def eraseLoop (stale : ℕ → ℕ) (i : ℕ) : ℕ → List EbEvent → List EbEvent × List EbEvent
  | 0, evs => (evs, [])
  | j + 1, evs =>
    -- behind the first turn `evs` is shorter, and index `i` another record or past the end
    if numberAt (stale j) evs j ≤ numberAt (stale j) evs i then
      let (evs', erased) := eraseLoop stale i j (evs.eraseIdx j)
      (evs', evs[j]?.toList ++ erased)
    else eraseLoop stale i j evs

/-- The branch of a full event, for the record `ev` between `passed` and `rest`. -/
def flush (s : DTeb) (stale : ℕ → ℕ) (passed : List EbEvent) (ev : EbEvent)
    (rest : List EbEvent) : LoopOut :=
  let i := passed.length
  let (buf, sent) := s.sendLoop ev.eventNumber (passed ++ [ev])
  let (evs, erased) := eraseLoop stale i (i + 1) (buf ++ rest)
  { isNew := false, events := evs, sent := sent, erased := erased, full := some ev }

/-- `for (i = 0 ; i < m_events.size() ; i++)`: `passed` are the records the loop has gone
by. A full event breaks the loop. -/
def matchLoop (s : DTeb) (a : Arrival) (isNew : Bool) (passed : List EbEvent) :
    List EbEvent → LoopOut
  | [] => { isNew := isNew, events := passed, sent := [], erased := [], full := none }
  | ev :: rest =>
    if a.message.trig = ev.eventNumber then
      let ev := ev.push a.message
      -- the number of fragments, whoever sent them
      if s.mNodes.length ≤ ev.node.length then
        s.flush a.stale passed { ev with isFullev := true } rest
      else matchLoop s a false (passed ++ [ev]) rest
    else matchLoop s a isNew (passed ++ [ev]) rest

/-- `if (m_events.size() > m_max_event_depth)`: send and erase the front. -/
def evict (s : DTeb) (o : LoopOut) : LoopOut :=
  match o.events with
  | [] => o
  | front :: rest =>
    if s.mMaxEventDepth < o.events.length then
      { o with events := rest, sent := o.sent ++ [front], erased := o.erased ++ [front] }
    else o

/-- `if (is_new) { .. }` up to the eviction: with one node the record is sent at once. -/
def newRecord (s : DTeb) (m : Message) (events : List EbEvent) : LoopOut :=
  let ev := EbEvent.ofMessage m s.created
  if s.mNodes.length = 1 then
    { isNew := true, events := events, sent := [ev], erased := [], full := none }
  else { isNew := true, events := events ++ [ev], sent := [], erased := [], full := none }

/-- The body of the loop of `DTeb::st_running` for one received fragment. -/
def stRunningBody (s : DTeb) (a : Arrival) : LoopOut :=
  let o := s.matchLoop a true [] s.mEvents
  if o.isNew then s.evict (s.newRecord a.message o.events) else o

def step (s : DTeb) (a : Arrival) : DTeb :=
  let o := s.stRunningBody a
  { s with mEvents := o.events
           created := s.created + if o.isNew then 1 else 0
           sendLog := s.sendLog ++ o.sent }

/-- The pass as a step of a transition system; the loop takes every message. -/
def next (s : DTeb) (a : Arrival) : Option DTeb := some (s.step a)

/-- An activation of `DTeb::st_running` as far as the buffer goes. -/
def stRunning (s : DTeb) (as : List Arrival) : Option DTeb := Transition.run next s as

/-- The loop takes in any sequence of messages. -/
theorem stRunning_eq (s : DTeb) (as : List Arrival) : s.stRunning as = some (as.foldl step s) := by
  induction as generalizing s with
  | nil => rfl
  | cons a as ih => exact ih (s.step a)

/-- The eviction branch is taken. -/
def Evicts (s : DTeb) (a : Arrival) : Prop :=
  (s.matchLoop a true [] s.mEvents).isNew = true ∧
    s.mMaxEventDepth < (s.newRecord a.message s.mEvents).events.length

instance (s : DTeb) (a : Arrival) : Decidable (s.Evicts a) := inferInstanceAs (Decidable (_ ∧ _))

/-! ### The two loops of the flush -/

/-- What `send_data` does to a record that stays in the vector. -/
def mark (s : DTeb) (number : ℕ) (ev : EbEvent) : EbEvent :=
  if ev.eventNumber ≤ number then (packData s.mId s.mNodes ev).1 else ev

section Mark

variable (s : DTeb) (number : ℕ) (ev : EbEvent)

@[simp] theorem mark_eventNumber : (s.mark number ev).eventNumber = ev.eventNumber := by
  unfold mark; split <;> rfl

@[simp] theorem mark_node : (s.mark number ev).node = ev.node := by
  unfold mark; split <;> rfl

@[simp] theorem mark_data : (s.mark number ev).data = ev.data := by
  unfold mark; split <;> rfl

@[simp] theorem mark_serial : (s.mark number ev).serial = ev.serial := by
  unfold mark; split <;> rfl

end Mark

theorem sendLoop_eq (s : DTeb) (number : ℕ) (evs : List EbEvent) :
    s.sendLoop number evs =
      (evs.map (s.mark number), evs.filter (·.eventNumber ≤ number)) := by
  induction evs with
  | nil => rfl
  | cons ev evs ih =>
    rw [sendLoop, ih]
    by_cases h : ev.eventNumber ≤ number <;> simp [h, mark]

@[simp] theorem numberAt_append_length (stale : ℕ) (a b : List EbEvent) (ev : EbEvent) :
    numberAt stale (a ++ ev :: b) a.length = ev.eventNumber := by
  simp [numberAt]

theorem eraseIdx_append_cons (a b : List EbEvent) (ev : EbEvent) :
    (a ++ ev :: b).eraseIdx a.length = a ++ b := by
  rw [List.eraseIdx_append_of_length_le le_rfl]
  simp

/-- One turn of the erase loop, at the last record of `a`. -/
theorem eraseLoop_concat (stale : ℕ → ℕ) (i : ℕ) (a b : List EbEvent) (ev : EbEvent) :
    eraseLoop stale i (a.length + 1) (a ++ ev :: b) =
      if ev.eventNumber ≤ numberAt (stale a.length) (a ++ ev :: b) i then
        ((eraseLoop stale i a.length (a ++ b)).1,
          ev :: (eraseLoop stale i a.length (a ++ b)).2)
      else eraseLoop stale i a.length (a ++ ev :: b) := by
  rw [eraseLoop, numberAt_append_length, eraseIdx_append_cons]
  simp

/-- Whatever it reads, the erase loop keeps some of the records it goes over, in order,
erases the others, and leaves the records behind them alone. -/
theorem eraseLoop_spec (stale : ℕ → ℕ) (i : ℕ) (a b : List EbEvent) :
    ∃ kept, (eraseLoop stale i a.length (a ++ b)).1 = kept ++ b ∧ kept.Sublist a ∧
      (kept ++ (eraseLoop stale i a.length (a ++ b)).2).Perm a := by
  induction a using List.reverseRecOn generalizing b with
  | nil => exact ⟨[], rfl, .slnil, .refl _⟩
  | append_singleton a ev ih =>
    rw [List.append_assoc, List.singleton_append, List.length_append, List.length_singleton,
      eraseLoop_concat]
    split
    · obtain ⟨kept, hevs, hsub, hperm⟩ := ih b
      refine ⟨kept, hevs, hsub.trans (List.sublist_append_left _ _), ?_⟩
      exact (List.perm_middle.trans (hperm.cons ev)).trans (List.perm_append_singleton ev a).symm
    · obtain ⟨kept, hevs, hsub, hperm⟩ := ih (ev :: b)
      refine ⟨kept ++ [ev], by simpa using hevs, hsub.append (.refl _), ?_⟩
      rw [List.append_assoc, List.singleton_append]
      exact (List.perm_middle.trans (hperm.cons ev)).trans (List.perm_append_singleton ev a).symm

/-- The flush: the completed record is sent and erased. Of the records before it those
with a number up to its own are sent, but it is not said which are erased. -/
theorem flush_spec (s : DTeb) (stale : ℕ → ℕ) (passed : List EbEvent) (ev : EbEvent)
    (rest : List EbEvent) :
    let o := s.flush stale passed ev rest
    let marked := passed.map (s.mark ev.eventNumber)
    o.isNew = false ∧ o.full = some ev ∧
      o.sent = passed.filter (·.eventNumber ≤ ev.eventNumber) ++ [ev] ∧
      ∃ kept, o.events = kept ++ rest ∧ kept.Sublist marked ∧
        ∃ erased, o.erased = s.mark ev.eventNumber ev :: erased ∧
          erased = (eraseLoop stale passed.length passed.length (marked ++ rest)).2 ∧
          (kept ++ erased).Perm marked := by
  have hlen : (passed.map (s.mark ev.eventNumber)).length = passed.length := by simp
  obtain ⟨kept, hevs, hsub, hperm⟩ :=
    eraseLoop_spec stale passed.length (passed.map (s.mark ev.eventNumber)) rest
  have hfirst := eraseLoop_concat stale passed.length
    (passed.map (s.mark ev.eventNumber)) rest (s.mark ev.eventNumber ev)
  -- the first turn compares the completed record with itself
  have hself : numberAt (stale passed.length)
      (passed.map (s.mark ev.eventNumber) ++ s.mark ev.eventNumber ev :: rest) passed.length =
        (s.mark ev.eventNumber ev).eventNumber := by
    simpa only [hlen] using numberAt_append_length (stale passed.length)
      (passed.map (s.mark ev.eventNumber)) rest (s.mark ev.eventNumber ev)
  rw [hlen] at hevs hperm hfirst
  rw [if_pos (by rw [hself])] at hfirst
  simp only [flush, sendLoop_eq, List.map_append, List.map_singleton, List.append_assoc,
    List.singleton_append, hfirst, List.filter_append]
  exact ⟨trivial, trivial, by simp, kept, hevs, hsub, _, rfl, rfl, hperm⟩

end DTeb

end LebStudy
