import LebStudy.Lib.Interleaving
import LebStudy.EventBuilder.Invariant
import Mathlib.Data.List.Perm.Subperm

/-!
# The invariant of event building

Where each node delivers its fragments with strictly increasing trigger numbers,
a trigger that every node delivers is never flushed early, never split over two
records and never overtaken. `BuildInv` says what holds of the buffer and of the
records sent, and each branch of the loop body keeps it, whatever the erase loop
reads past the end of the vector.
-/

namespace LebStudy

open Interleaving

/-! ### What has arrived -/

/-- Node `n` has delivered a fragment of trigger `k`. -/
def Delivered (ms : List Message) (n k : ℕ) : Prop := ∃ m ∈ ms, m.id = n ∧ m.trig = k

/-- Every node has delivered trigger `k`. -/
def Full (mNodes : List ℕ) (ms : List Message) (k : ℕ) : Prop := ∀ n ∈ mNodes, Delivered ms n k

/-- Every node has got to trigger `k`, or beyond it. -/
def Passed (mNodes : List ℕ) (ms : List Message) (k : ℕ) : Prop :=
  ∀ n ∈ mNodes, ∃ m ∈ ms, m.id = n ∧ k ≤ m.trig

instance (ms : List Message) (n k : ℕ) : Decidable (Delivered ms n k) :=
  inferInstanceAs (Decidable (∃ m ∈ ms, _))

instance (mNodes : List ℕ) (ms : List Message) (k : ℕ) : Decidable (Full mNodes ms k) :=
  inferInstanceAs (Decidable (∀ n ∈ mNodes, _))

/-- The fragments of trigger `k`, in the order of arrival. -/
def fragmentsOf (ms : List Message) (k : ℕ) : List (ℕ × List UInt8) :=
  (ms.filter (·.trig = k)).map fun m => (m.id, m.cbody)

section Arrived

variable {mNodes : List ℕ} {ms : List Message} {m : Message} {n k : ℕ}

theorem Delivered.mono (h : Delivered ms n k) : Delivered (ms ++ [m]) n k := by
  obtain ⟨m', hm', heq⟩ := h
  exact ⟨m', List.mem_append_left _ hm', heq⟩

theorem delivered_concat_iff :
    Delivered (ms ++ [m]) n k ↔ Delivered ms n k ∨ m.id = n ∧ m.trig = k := by
  simp [Delivered, or_and_right, exists_or]

theorem delivered_concat_of_ne (h : m.trig ≠ k) :
    Delivered (ms ++ [m]) n k ↔ Delivered ms n k := by
  simp [delivered_concat_iff, h]

theorem full_concat_of_ne (h : m.trig ≠ k) : Full mNodes (ms ++ [m]) k ↔ Full mNodes ms k := by
  simp [Full, delivered_concat_of_ne h]

theorem Passed.mono (h : Passed mNodes ms k) : Passed mNodes (ms ++ [m]) k := by
  intro n hn
  obtain ⟨m', hm', heq⟩ := h n hn
  exact ⟨m', List.mem_append_left _ hm', heq⟩

theorem Full.passed {k' : ℕ} (h : Full mNodes ms k) (hk : k' ≤ k) : Passed mNodes ms k' := by
  intro n hn
  obtain ⟨m, hm, hid, rfl⟩ := h n hn
  exact ⟨m, hm, hid, hk⟩

theorem fragmentsOf_concat_of_ne (h : m.trig ≠ k) :
    fragmentsOf (ms ++ [m]) k = fragmentsOf ms k := by
  simp [fragmentsOf, List.filter_append, h]

theorem fragmentsOf_concat_self :
    fragmentsOf (ms ++ [m]) m.trig = fragmentsOf ms m.trig ++ [(m.id, m.cbody)] := by
  simp [fragmentsOf, List.filter_append]

theorem mem_ids_fragmentsOf : n ∈ (fragmentsOf ms k).map (·.1) ↔ Delivered ms n k := by
  simp only [fragmentsOf, List.map_map, List.mem_map, List.mem_filter, decide_eq_true_eq,
    Function.comp_apply, Delivered]
  exact exists_congr fun m => by tauto

end Arrived

/-- The streams are ordered: no node repeats a trigger number or goes back to one. -/
abbrev TrigOrdered (ms : List Message) : Prop :=
  Ordered Message.id (fun m m' => m.trig < m'.trig) ms

/-- No node repeats a trigger number, in whatever order its messages have come in. -/
abbrev TrigsOnce (ms : List Message) : Prop :=
  Ordered Message.id (fun m m' => m.trig ≠ m'.trig) ms

theorem TrigOrdered.once {ms : List Message} (h : TrigOrdered ms) : TrigsOnce ms :=
  List.Pairwise.imp (fun hlt hid => (hlt hid).ne) h

section Ordered

variable {mNodes : List ℕ} {ms : List Message} {m : Message} {n k : ℕ}

/-- A node that has got to trigger `k` will not deliver it any more. -/
theorem TrigOrdered.not_passed (h : TrigOrdered (ms ++ [m])) (hid : m.id ∈ mNodes) :
    ¬ Passed mNodes ms m.trig := by
  intro hp
  obtain ⟨m', hm', hid', hle⟩ := hp m.id hid
  have := h.last hm' hid'
  omega

theorem TrigOrdered.not_delivered (h : TrigOrdered (ms ++ [m])) (hk : m.trig ≤ k) :
    ¬ Delivered ms m.id k := by
  rintro ⟨m', hm', hid', rfl⟩
  have := h.last hm' hid'
  omega

/-- Each node has at most one fragment in a trigger. -/
theorem TrigsOnce.nodup_ids (h : TrigsOnce ms) (k : ℕ) :
    ((fragmentsOf ms k).map (·.1)).Nodup := by
  simp only [fragmentsOf, List.map_map, List.Nodup, List.pairwise_map]
  refine (List.Pairwise.filter _ h).imp_of_mem ?_
  intro a b ha hb hab heq
  have ha := (List.mem_filter.mp ha).2
  have hb := (List.mem_filter.mp hb).2
  simp only [decide_eq_true_eq, Function.comp_apply] at ha hb heq
  exact hab heq (ha.trans hb.symm)

theorem ids_subset (hid : ∀ m ∈ ms, m.id ∈ mNodes) (k : ℕ) :
    (fragmentsOf ms k).map (·.1) ⊆ mNodes := by
  intro n hn
  obtain ⟨m, hm, rfl, -⟩ := mem_ids_fragmentsOf.mp hn
  exact hid m hm

/-- A full trigger has one fragment of each node. -/
theorem TrigsOnce.perm_of_full (h : TrigsOnce ms) (hnd : mNodes.Nodup)
    (hid : ∀ m ∈ ms, m.id ∈ mNodes) (hfull : Full mNodes ms k) :
    ((fragmentsOf ms k).map (·.1)).Perm mNodes := by
  rw [List.perm_ext_iff_of_nodup (h.nodup_ids k) hnd]
  exact fun n => ⟨fun hn => ids_subset hid k hn, fun hn => mem_ids_fragmentsOf.mpr (hfull n hn)⟩

/-- A trigger with as many fragments as there are nodes is full, and the other way round. -/
theorem TrigsOnce.full_iff (h : TrigsOnce ms) (hnd : mNodes.Nodup)
    (hid : ∀ m ∈ ms, m.id ∈ mNodes) :
    Full mNodes ms k ↔ mNodes.length ≤ (fragmentsOf ms k).length := by
  constructor
  · intro hfull
    simpa using (h.perm_of_full hnd hid hfull).length_eq.ge
  · intro hlen n hn
    have hperm : ((fragmentsOf ms k).map (·.1)).Perm mNodes :=
      ((h.nodup_ids k).subperm (ids_subset hid k)).perm_of_length_le (by simpa using hlen)
    exact mem_ids_fragmentsOf.mp (hperm.symm.subset hn)

end Ordered

/-! ### The invariant -/

/-- The record holds all fragments of its trigger that have arrived, in their order. -/
def HoldsAll (ms : List Message) (ev : EbEvent) : Prop :=
  ev.node = (fragmentsOf ms ev.eventNumber).map (·.1) ∧
    ev.data = (fragmentsOf ms ev.eventNumber).map (·.2)

theorem HoldsAll.concat {ms : List Message} {m : Message} {ev : EbEvent} (h : HoldsAll ms ev)
    (hne : m.trig ≠ ev.eventNumber) : HoldsAll (ms ++ [m]) ev := by
  rw [HoldsAll, fragmentsOf_concat_of_ne hne]
  exact h

theorem HoldsAll.push {ms : List Message} {m : Message} {ev : EbEvent} (h : HoldsAll ms ev)
    (heq : ev.eventNumber = m.trig) (isFullev : Bool) :
    HoldsAll (ms ++ [m]) { ev.push m with isFullev := isFullev } := by
  obtain ⟨hnode, hdata⟩ := h
  rw [heq] at hnode hdata
  simp [HoldsAll, EbEvent.push, heq, fragmentsOf_concat_self, hnode, hdata]

/-- What the erase loop leaves in the vector is an old record but for `is_fullev`. -/
theorem HoldsAll.mark {ms : List Message} {s : DTeb} {number : ℕ} {ev : EbEvent}
    (h : HoldsAll ms ev) : HoldsAll ms (s.mark number ev) := by
  simpa [HoldsAll] using h

theorem HoldsAll.node_length {ms : List Message} {ev : EbEvent} (h : HoldsAll ms ev) :
    ev.node.length = (fragmentsOf ms ev.eventNumber).length := by
  rw [h.1, List.length_map]

/-- A record made before one with a smaller number was opened by a node that has since
gone past the smaller one: such a pair waits for a node. -/
def Waits (mNodes : List ℕ) (ms : List Message) (a b : ℕ) : Prop :=
  b < a → ∃ n ∈ mNodes, Delivered ms n a ∧ ¬ Delivered ms n b

theorem Waits.concat {mNodes : List ℕ} {ms : List Message} {m : Message} {a b : ℕ}
    (h : Waits mNodes ms a b) (hord : TrigOrdered (ms ++ [m])) : Waits mNodes (ms ++ [m]) a b := by
  intro hlt
  obtain ⟨n, hn, hdel, hnot⟩ := h hlt
  refine ⟨n, hn, hdel.mono, ?_⟩
  rw [delivered_concat_iff]
  rintro (hb | ⟨rfl, rfl⟩)
  · exact hnot hb
  · exact hord.not_delivered hlt.le hdel

/-- What holds of the buffer and of the records sent, after the messages `ms`. -/
structure BuildInv (mNodes : List ℕ) (ms : List Message) (s : DTeb) : Prop where
  nodes : s.mNodes = mNodes
  holds : ∀ ev ∈ s.mEvents, HoldsAll ms ev
  begun : ∀ ev ∈ s.mEvents, ∃ n ∈ mNodes, Delivered ms n ev.eventNumber
  open_ : ∀ ev ∈ s.mEvents, ¬ Full mNodes ms ev.eventNumber
  kept : ∀ m ∈ ms, m.trig ∈ s.mEvents.map (·.eventNumber) ∨ Passed mNodes ms m.trig
  order : (s.mEvents.map (·.eventNumber)).Pairwise (Waits mNodes ms)
  sent_holds : ∀ ev ∈ s.sendLog, HoldsAll ms ev
  sent_passed : ∀ ev ∈ s.sendLog, Passed mNodes ms ev.eventNumber
  sent_full : ∀ k, Full mNodes ms k → ∃ ev ∈ s.sendLog, ev.eventNumber = k
  sent_sorted : ((s.sendLog.map (·.eventNumber)).filter (Full mNodes ms ·)).Pairwise (· < ·)

theorem buildInv_start (mId mMaxEventDepth : ℕ) {mNodes : List ℕ} (h : mNodes ≠ []) :
    BuildInv mNodes [] (DTeb.start mId mMaxEventDepth mNodes) := by
  have hfull (k : ℕ) : ¬ Full mNodes [] k := by
    intro hf
    obtain ⟨n, hn⟩ := List.exists_mem_of_ne_nil mNodes h
    obtain ⟨m, hm, -⟩ := hf n hn
    exact absurd hm List.not_mem_nil
  constructor <;> simp [DTeb.start, hfull]

section Step

variable {mNodes : List ℕ} {ms : List Message} {m : Message} {s t : DTeb}

/-- A number that went out is a number the sending node has left behind. -/
theorem BuildInv.sent_ne (h : BuildInv mNodes ms s) (hord : TrigOrdered (ms ++ [m]))
    (hid : m.id ∈ mNodes) : ∀ ev ∈ s.sendLog, m.trig ≠ ev.eventNumber := by
  intro ev hev heq
  exact hord.not_passed hid (heq ▸ h.sent_passed ev hev)

/-- The records sent before this message stay what they are. -/
theorem BuildInv.sent_concat (h : BuildInv mNodes ms s) (hord : TrigOrdered (ms ++ [m]))
    (hid : m.id ∈ mNodes) :
    (∀ ev ∈ s.sendLog, HoldsAll (ms ++ [m]) ev) ∧
      (∀ ev ∈ s.sendLog, Passed mNodes (ms ++ [m]) ev.eventNumber) ∧
      (∀ k, k ≠ m.trig → Full mNodes (ms ++ [m]) k → ∃ ev ∈ s.sendLog, ev.eventNumber = k) ∧
      (s.sendLog.map (·.eventNumber)).filter (Full mNodes (ms ++ [m]) ·) =
        (s.sendLog.map (·.eventNumber)).filter (Full mNodes ms ·) := by
  have hne := h.sent_ne hord hid
  refine ⟨fun ev hev => (h.sent_holds ev hev).concat (hne ev hev),
    fun ev hev => (h.sent_passed ev hev).mono, ?_, ?_⟩
  · intro k hk hfull
    exact h.sent_full k ((full_concat_of_ne hk.symm).mp hfull)
  · refine List.filter_congr fun k hk => ?_
    obtain ⟨ev, hev, rfl⟩ := List.mem_map.mp hk
    simp [full_concat_of_ne (hne ev hev)]

/-- What holds of each record in the buffer. -/
def Buffered (mNodes : List ℕ) (ms : List Message) (ev : EbEvent) : Prop :=
  HoldsAll ms ev ∧ (∃ n ∈ mNodes, Delivered ms n ev.eventNumber) ∧ ¬ Full mNodes ms ev.eventNumber

/-- A record that the message does not belong to stays as it is. -/
theorem BuildInv.buffered (h : BuildInv mNodes ms s) {ev : EbEvent} (hev : ev ∈ s.mEvents)
    (hne : m.trig ≠ ev.eventNumber) : Buffered mNodes (ms ++ [m]) ev := by
  obtain ⟨n, hn, hdel⟩ := h.begun ev hev
  refine ⟨(h.holds ev hev).concat hne, ⟨n, hn, hdel.mono⟩, ?_⟩
  rw [full_concat_of_ne hne]
  exact h.open_ ev hev

theorem Buffered.mark {ev : EbEvent} {number : ℕ} (h : Buffered mNodes ms ev) :
    Buffered mNodes ms (s.mark number ev) := by
  obtain ⟨hholds, hbegun, hopen⟩ := h
  refine ⟨hholds.mark, ?_, ?_⟩
  · simpa using hbegun
  · simpa using hopen

/-- A fragment of a trigger without a record is the first of its trigger. -/
theorem BuildInv.first_of_new (h : BuildInv mNodes ms s) (hord : TrigOrdered (ms ++ [m]))
    (hid : m.id ∈ mNodes) (hnew : ∀ ev ∈ s.mEvents, ev.eventNumber ≠ m.trig) :
    ∀ m' ∈ ms, m'.trig ≠ m.trig := by
  intro m' hm' heq
  rcases h.kept m' hm' with hmem | hpassed
  · obtain ⟨ev, hev, hnum⟩ := List.mem_map.mp hmem
    exact hnew ev hev (hnum.trans heq)
  · exact hord.not_passed hid (heq ▸ hpassed)

/-- A fragment that completes no record: nothing is sent, and what was sent stays in order. -/
theorem BuildInv.of_unsent (h : BuildInv mNodes ms s) (hord : TrigOrdered (ms ++ [m]))
    (hid : m.id ∈ mNodes) (hopen : ¬ Full mNodes (ms ++ [m]) m.trig)
    (hnodes : t.mNodes = s.mNodes) (hsent : t.sendLog = s.sendLog)
    (hbuffered : ∀ x ∈ t.mEvents, Buffered mNodes (ms ++ [m]) x)
    (hkept : ∀ m' ∈ ms ++ [m],
      m'.trig ∈ t.mEvents.map (·.eventNumber) ∨ Passed mNodes (ms ++ [m]) m'.trig)
    (horder : (t.mEvents.map (·.eventNumber)).Pairwise (Waits mNodes (ms ++ [m]))) :
    BuildInv mNodes (ms ++ [m]) t := by
  obtain ⟨hholds, hpassed, hfull, hfilter⟩ := h.sent_concat hord hid
  constructor
  case nodes => exact hnodes.trans h.nodes
  case holds => exact fun x hx => (hbuffered x hx).1
  case begun => exact fun x hx => (hbuffered x hx).2.1
  case open_ => exact fun x hx => (hbuffered x hx).2.2
  case kept => exact hkept
  case order => exact horder
  case sent_holds => exact hsent ▸ hholds
  case sent_passed => exact hsent ▸ hpassed
  case sent_full =>
    intro k hk
    rw [hsent]
    refine hfull k ?_ hk
    rintro rfl
    exact hopen hk
  case sent_sorted =>
    rw [hsent, hfilter]
    exact h.sent_sorted

theorem BuildInv.new (h : BuildInv mNodes ms s) (hord : TrigOrdered (ms ++ [m]))
    (hid : m.id ∈ mNodes) (hnd : mNodes.Nodup) (hlen : 2 ≤ mNodes.length)
    (hnew : ∀ ev ∈ s.mEvents, ev.eventNumber ≠ m.trig) (serial : ℕ)
    (hnodes : t.mNodes = s.mNodes) (hevents : t.mEvents = s.mEvents ++ [EbEvent.ofMessage m serial])
    (hsent : t.sendLog = s.sendLog) : BuildInv mNodes (ms ++ [m]) t := by
  have hfirst := h.first_of_new hord hid hnew
  have hnone (n : ℕ) : ¬ Delivered ms n m.trig := by
    rintro ⟨m', hm', -, heq⟩
    exact hfirst m' hm' heq
  have hempty : fragmentsOf ms m.trig = [] := by
    simpa [fragmentsOf, List.filter_eq_nil_iff] using hfirst
  -- another node has yet to deliver this trigger
  have hopen : ¬ Full mNodes (ms ++ [m]) m.trig := by
    intro hfull
    have hall : ∀ n ∈ mNodes, n = m.id := by
      intro n hn
      rcases delivered_concat_iff.mp (hfull n hn) with hdel | ⟨heq, -⟩
      · exact absurd hdel (hnone n)
      · exact heq.symm
    match mNodes, hlen with
    | a :: b :: _, _ => simp_all
  have hbuffered : ∀ x ∈ t.mEvents, Buffered mNodes (ms ++ [m]) x := by
    intro x hx
    rw [hevents] at hx
    rcases List.mem_append.mp hx with hx | hx
    · exact h.buffered hx (Ne.symm (hnew x hx))
    · rw [List.mem_singleton.mp hx]
      refine ⟨?_, ⟨m.id, hid, delivered_concat_iff.mpr (.inr ⟨rfl, rfl⟩)⟩, hopen⟩
      simp [HoldsAll, EbEvent.ofMessage, fragmentsOf_concat_self, hempty]
  refine h.of_unsent hord hid hopen hnodes hsent hbuffered ?hkept ?horder
  case hkept =>
    intro m' hm'
    rw [hevents, List.map_append]
    rcases List.mem_append.mp hm' with hm' | hm'
    · exact (h.kept m' hm').imp (List.mem_append_left _) Passed.mono
    · rw [List.mem_singleton.mp hm']
      exact .inl (List.mem_append_right _ (List.mem_singleton_self _))
  case horder =>
    rw [hevents, List.map_append, List.pairwise_append]
    refine ⟨h.order.imp fun hw => hw.concat hord, List.pairwise_singleton _ _, ?_⟩
    intro k hk b hb hlt
    rw [List.map_singleton, List.mem_singleton] at hb
    subst hb
    -- the node that opened `k` is past the new trigger
    obtain ⟨ev, hev, rfl⟩ := List.mem_map.mp hk
    obtain ⟨n, hn, hdel⟩ := h.begun ev hev
    refine ⟨n, hn, hdel.mono, ?_⟩
    rw [delivered_concat_iff]
    rintro (hdel' | ⟨rfl, -⟩)
    · exact hnone n hdel'
    · exact hord.not_delivered (Nat.le_of_lt hlt) hdel

section Matched

variable {passed rest : List EbEvent} {ev : EbEvent}

/-- The other records belong to other triggers. -/
theorem others_ne (hnum : (s.mEvents.map (·.eventNumber)).Nodup)
    (hsplit : s.mEvents = passed ++ ev :: rest) (hev : ev.eventNumber = m.trig) :
    ∀ x ∈ passed ++ rest, m.trig ≠ x.eventNumber := by
  intro x hx
  exact (DTeb.ne_of_split (hsplit ▸ hnum) hev x hx).symm

theorem mem_of_others (hsplit : s.mEvents = passed ++ ev :: rest) {x : EbEvent}
    (hx : x ∈ passed ++ rest) : x ∈ s.mEvents := by
  rw [hsplit]
  simp only [List.mem_append, List.mem_cons] at hx ⊢
  tauto

/-- With this fragment the trigger is full exactly if its record has enough of them. -/
theorem BuildInv.full_iff_of_matched (h : BuildInv mNodes ms s) (hord : TrigOrdered (ms ++ [m]))
    (hids : ∀ m' ∈ ms ++ [m], m'.id ∈ mNodes) (hnd : mNodes.Nodup)
    (hsplit : s.mEvents = passed ++ ev :: rest) (hev : ev.eventNumber = m.trig) :
    Full mNodes (ms ++ [m]) m.trig ↔ mNodes.length ≤ ev.node.length + 1 := by
  have hlen := (h.holds ev (by simp [hsplit])).node_length
  rw [hord.once.full_iff hnd hids, fragmentsOf_concat_self, List.length_append, List.length_singleton,
    hlen, hev]

theorem BuildInv.append (h : BuildInv mNodes ms s) (hord : TrigOrdered (ms ++ [m]))
    (hids : ∀ m' ∈ ms ++ [m], m'.id ∈ mNodes) (hnd : mNodes.Nodup)
    (hnum : (s.mEvents.map (·.eventNumber)).Nodup)
    (hsplit : s.mEvents = passed ++ ev :: rest) (hev : ev.eventNumber = m.trig)
    (hshort : ev.node.length + 1 < mNodes.length)
    (hnodes : t.mNodes = s.mNodes) (hevents : t.mEvents = passed ++ ev.push m :: rest)
    (hsent : t.sendLog = s.sendLog) : BuildInv mNodes (ms ++ [m]) t := by
  have hid : m.id ∈ mNodes := hids m (by simp)
  have hopen : ¬ Full mNodes (ms ++ [m]) m.trig := by
    rw [h.full_iff_of_matched hord hids hnd hsplit hev]
    omega
  have hother := others_ne hnum hsplit hev
  have hnumbers : t.mEvents.map (·.eventNumber) = s.mEvents.map (·.eventNumber) := by
    simp [hevents, hsplit, EbEvent.push]
  have hbuffered : ∀ x ∈ t.mEvents, Buffered mNodes (ms ++ [m]) x := by
    intro x hx
    have hx : x ∈ passed ++ rest ∨ x = ev.push m := by
      rw [hevents] at hx
      simp only [List.mem_append, List.mem_cons] at hx ⊢
      tauto
    rcases hx with hx | rfl
    · exact h.buffered (mem_of_others hsplit hx) (hother x hx)
    · refine ⟨(h.holds ev (by simp [hsplit])).push hev ev.isFullev, ?_, hev ▸ hopen⟩
      exact ⟨m.id, hid, delivered_concat_iff.mpr (.inr ⟨rfl, hev.symm⟩)⟩
  refine h.of_unsent hord hid hopen hnodes hsent hbuffered ?hkept ?horder
  case hkept =>
    intro m' hm'
    rw [hnumbers]
    rcases List.mem_append.mp hm' with hm' | hm'
    · exact (h.kept m' hm').imp_right Passed.mono
    · rw [List.mem_singleton.mp hm', ← hev]
      exact .inl (List.mem_map_of_mem (by simp [hsplit]))
  case horder =>
    rw [hnumbers]
    exact h.order.imp fun hw => hw.concat hord

/-- When a trigger becomes full, the records made before its own are of smaller triggers. -/
theorem BuildInv.passed_lt (h : BuildInv mNodes ms s) (hord : TrigOrdered (ms ++ [m]))
    (hnum : (s.mEvents.map (·.eventNumber)).Nodup)
    (hsplit : s.mEvents = passed ++ ev :: rest) (hev : ev.eventNumber = m.trig)
    (hfull : Full mNodes (ms ++ [m]) m.trig) : ∀ x ∈ passed, x.eventNumber < m.trig := by
  intro x hx
  have hne := others_ne hnum hsplit hev x (List.mem_append_left _ hx)
  by_contra hge
  have hwaits : Waits mNodes ms x.eventNumber m.trig := by
    have horder := h.order
    rw [hsplit, List.map_append, List.pairwise_append] at horder
    exact horder.2.2 _ (List.mem_map_of_mem hx) _ (by simp [hev])
  obtain ⟨n, hn, -, hnot⟩ := hwaits.concat hord (by omega)
  exact hnot (hfull n hn)

/-- Of the records sent with the completed one, it is the only full one. -/
theorem BuildInv.full_sent_now (h : BuildInv mNodes ms s) {ev' : EbEvent}
    (hother : ∀ x ∈ passed ++ rest, m.trig ≠ x.eventNumber)
    (hsplit : s.mEvents = passed ++ ev :: rest) (hfull : Full mNodes (ms ++ [m]) m.trig)
    (hev' : ev'.eventNumber = m.trig) :
    ((passed ++ [ev']).map (·.eventNumber)).filter (Full mNodes (ms ++ [m]) ·) = [m.trig] := by
  have hnone : (passed.map (·.eventNumber)).filter (Full mNodes (ms ++ [m]) ·) = [] := by
    rw [List.filter_eq_nil_iff]
    intro k hk
    obtain ⟨x, hx, rfl⟩ := List.mem_map.mp hk
    have hx' := List.mem_append_left rest hx
    simpa [full_concat_of_ne (hother x hx')] using h.open_ x (mem_of_others hsplit hx')
  rw [List.map_append, List.filter_append, List.map_singleton, hev', hnone]
  simp [hfull]

/-- The full records go out in the order of their triggers: the sending node has delivered
none that is larger. -/
theorem BuildInv.sorted_concat (h : BuildInv mNodes ms s) (hord : TrigOrdered (ms ++ [m]))
    (hid : m.id ∈ mNodes) {now : List EbEvent}
    (hnow : (now.map (·.eventNumber)).filter (Full mNodes (ms ++ [m]) ·) = [m.trig]) :
    (((s.sendLog ++ now).map (·.eventNumber)).filter
      (Full mNodes (ms ++ [m]) ·)).Pairwise (· < ·) := by
  obtain ⟨-, -, -, hfilter⟩ := h.sent_concat hord hid
  rw [List.map_append, List.filter_append, hfilter, hnow, List.pairwise_append]
  refine ⟨h.sent_sorted, List.pairwise_singleton _ _, ?_⟩
  intro k hk k' hk'
  rw [List.mem_singleton.mp hk']
  by_contra hge
  have hfull_k := of_decide_eq_true (List.mem_filter.mp hk).2
  exact hord.not_delivered (by omega) (hfull_k m.id hid)

theorem BuildInv.full (h : BuildInv mNodes ms s) (hord : TrigOrdered (ms ++ [m]))
    (hids : ∀ m' ∈ ms ++ [m], m'.id ∈ mNodes) (hnd : mNodes.Nodup)
    (hnum : (s.mEvents.map (·.eventNumber)).Nodup)
    (hsplit : s.mEvents = passed ++ ev :: rest) (hev : ev.eventNumber = m.trig)
    (hlen : mNodes.length ≤ ev.node.length + 1) (stale : ℕ → ℕ)
    (hnodes : t.mNodes = s.mNodes)
    (hevents : t.mEvents = (s.flush stale passed { ev.push m with isFullev := true } rest).events)
    (hsent : t.sendLog =
      s.sendLog ++ (s.flush stale passed { ev.push m with isFullev := true } rest).sent) :
    BuildInv mNodes (ms ++ [m]) t := by
  have hid : m.id ∈ mNodes := hids m (by simp)
  have hfull : Full mNodes (ms ++ [m]) m.trig :=
    (h.full_iff_of_matched hord hids hnd hsplit hev).mpr hlen
  have hother := others_ne hnum hsplit hev
  have hlt := h.passed_lt hord hnum hsplit hev hfull
  obtain ⟨-, -, hout, kept, hkept, hsub, -⟩ :=
    DTeb.flush_spec s stale passed { ev.push m with isFullev := true } rest
  set ev' : EbEvent := { ev.push m with isFullev := true }
  have hev' : ev'.eventNumber = m.trig := hev
  -- all records before the completed one are sent
  have hfilter_passed : passed.filter (·.eventNumber ≤ ev'.eventNumber) = passed := by
    refine List.filter_eq_self.mpr fun x hx => decide_eq_true ?_
    have := hlt x hx
    omega
  rw [hfilter_passed] at hout
  have hbuffered : ∀ x ∈ t.mEvents, Buffered mNodes (ms ++ [m]) x := by
    intro x hx
    rw [hevents, hkept] at hx
    rcases List.mem_append.mp hx with hx | hx
    · obtain ⟨y, hy, rfl⟩ := List.mem_map.mp (hsub.subset hx)
      have hy := List.mem_append_left rest hy
      exact (h.buffered (mem_of_others hsplit hy) (hother y hy)).mark
    · have hx := List.mem_append_right passed hx
      exact h.buffered (mem_of_others hsplit hx) (hother x hx)
  have hnumbers : (t.mEvents.map (·.eventNumber)).Sublist (s.mEvents.map (·.eventNumber)) := by
    have hsub' := hsub.map (·.eventNumber)
    simp only [List.map_map, Function.comp_def, DTeb.mark_eventNumber] at hsub'
    rw [hevents, hkept, hsplit, List.map_append, List.map_append, List.map_cons]
    exact hsub'.append ((List.Sublist.refl _).cons _)
  have hlog : t.sendLog = s.sendLog ++ (passed ++ [ev']) := by rw [hsent, hout]
  obtain ⟨hholds, hpassed, hfulls, -⟩ := h.sent_concat hord hid
  constructor
  case nodes => exact hnodes.trans h.nodes
  case holds => exact fun x hx => (hbuffered x hx).1
  case begun => exact fun x hx => (hbuffered x hx).2.1
  case open_ => exact fun x hx => (hbuffered x hx).2.2
  case kept =>
    intro m' hm'
    rcases List.mem_append.mp hm' with hm' | hm'
    · rcases h.kept m' hm' with hmem | hp
      · obtain ⟨x, hx, hnum'⟩ := List.mem_map.mp hmem
        rw [hsplit] at hx
        -- its record stood before the completed one, was this one, or stays
        rcases List.mem_append.mp hx with hx | hx
        · exact .inr (hfull.passed (hnum' ▸ (hlt x hx).le))
        · rcases List.mem_cons.mp hx with rfl | hx
          · exact .inr (hfull.passed (hnum' ▸ hev.le))
          · rw [hevents, hkept, List.map_append]
            exact .inl (List.mem_append_right _ (hnum' ▸ List.mem_map_of_mem hx))
      · exact .inr hp.mono
    · rw [List.mem_singleton.mp hm']
      exact .inr (hfull.passed le_rfl)
  case order => exact (h.order.sublist hnumbers).imp fun hw => hw.concat hord
  case sent_holds =>
    intro x hx
    rw [hlog, List.mem_append, List.mem_append, List.mem_singleton] at hx
    rcases hx with hx | hx | rfl
    · exact hholds x hx
    · have hx' := List.mem_append_left rest hx
      exact (h.holds x (mem_of_others hsplit hx')).concat (hother x hx')
    · exact (h.holds ev (by simp [hsplit])).push hev true
  case sent_passed =>
    intro x hx
    rw [hlog, List.mem_append, List.mem_append, List.mem_singleton] at hx
    rcases hx with hx | hx | rfl
    · exact hpassed x hx
    · exact hfull.passed (hlt x hx).le
    · exact hfull.passed hev'.le
  case sent_full =>
    intro k hk
    rw [hlog]
    by_cases heq : k = m.trig
    · exact ⟨ev', by simp, hev'.trans heq.symm⟩
    · obtain ⟨x, hx, hnum'⟩ := hfulls k heq hk
      exact ⟨x, List.mem_append_left _ hx, hnum'⟩
  case sent_sorted =>
    rw [hlog]
    exact h.sorted_concat hord hid (h.full_sent_now hother hsplit hfull hev')

end Matched

end Step

/-- Without evictions every pass of the loop keeps the invariant, and so does a run. -/
theorem buildInv_of_stRunning {mId mMaxEventDepth : ℕ} {mNodes : List ℕ} (hnd : mNodes.Nodup)
    (hlen : 2 ≤ mNodes.length) {as : List Arrival} {t : DTeb}
    (hids : ∀ a ∈ as, a.message.id ∈ mNodes) (hord : TrigOrdered (as.map (·.message)))
    (hrun : DTeb.stRunning (DTeb.start mId mMaxEventDepth mNodes) as = some t)
    (hdepth : Transition.Meets DTeb.next (fun s a => ¬ s.Evicts a)
      (DTeb.start mId mMaxEventDepth mNodes) as) :
    BuildInv mNodes (as.map (·.message)) t := by
  have hne : mNodes ≠ [] := by
    rintro rfl
    simp at hlen
  suffices h : (∀ a ∈ as, a.message.id ∈ mNodes) → TrigOrdered (as.map (·.message)) →
      BuildInv mNodes (as.map (·.message)) t from h hids hord
  refine Transition.run_induction (P := fun as t => (∀ a ∈ as, a.message.id ∈ mNodes) →
    TrigOrdered (as.map (·.message)) → BuildInv mNodes (as.map (·.message)) t) ?_ ?_ hrun hdepth
  · intro _ _
    exact buildInv_start mId mMaxEventDepth hne
  · rintro pre s a _ hpre ih hnoevict ⟨⟩ hids hord
    rw [List.map_append, List.map_singleton] at hord ⊢
    have hinv := ih (fun b hb => hids b (List.mem_append_left _ hb)) hord.of_append
    have hbuf := DTeb.bufferInv_of_stRunning hpre
    have hid : a.message.id ∈ mNodes := hids a (by simp)
    have hids' : ∀ m' ∈ pre.map (·.message) ++ [a.message], m'.id ∈ mNodes := by
      intro m' hm'
      rw [← List.map_singleton, ← List.map_append] at hm'
      obtain ⟨b, hb, rfl⟩ := List.mem_map.mp hm'
      exact hids b hb
    rcases DTeb.stRunningBody_cases s a hbuf.numbers with
      ⟨hnew, hbody⟩ | ⟨passed, ev, rest, hsplit, hev, ⟨hshort, hbody⟩ | ⟨hfull, hbody⟩⟩
    · have hstay : ¬ s.mMaxEventDepth < (s.newRecord a.message s.mEvents).events.length := by
        intro hlt
        refine hnoevict ⟨?_, hlt⟩
        rw [DTeb.matchLoop_of_forall_ne hnew]
      have hone : s.mNodes.length ≠ 1 := by
        rw [hinv.nodes]
        omega
      rw [DTeb.evict_eq_self (by omega), DTeb.newRecord_of_ne_one hone] at hbody
      exact hinv.new hord hid hnd hlen hnew s.created rfl (by simp [DTeb.step, hbody])
        (by simp [DTeb.step, hbody])
    · rw [hinv.nodes] at hshort
      exact hinv.append hord hids' hnd hbuf.numbers hsplit hev hshort rfl
        (by simp [DTeb.step, hbody, DTeb.appended]) (by simp [DTeb.step, hbody, DTeb.appended])
    · rw [hinv.nodes] at hfull
      exact hinv.full hord hids' hnd hbuf.numbers hsplit hev hfull a.stale rfl
        (by simp only [DTeb.step, hbody]) (by simp only [DTeb.step, hbody])

end LebStudy
