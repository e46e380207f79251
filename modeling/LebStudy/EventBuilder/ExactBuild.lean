import LebStudy.EventBuilder.BuildInvariant
import Mathlib.Data.List.Sort

/-!
# Event building is exact

What the event builder should make of the streams of the nodes is stated over the
streams alone: the triggers that every node delivers, in increasing order, each
with its fragments in the order of `m_nodes`. Whatever the interleaving, this is
what `DTeb::st_running` sends for these triggers.
-/

namespace LebStudy

open BigEndian Interleaving

/-- What the nodes deliver: each its own id, the trigger numbers strictly increasing. -/
structure NodeStreams (mNodes : List ℕ) where
  stream : ℕ → List Message
  own : ∀ n, ∀ m ∈ stream n, m.id = n
  listed : ∀ n, stream n ≠ [] → n ∈ mNodes
  increasing : ∀ n, (stream n).Pairwise (·.trig < ·.trig)

namespace NodeStreams

variable {mNodes : List ℕ} (ns : NodeStreams mNodes)

/-- Any messages whose trigger numbers increase at every node come from such streams. -/
def ofMessages (ms : List Message) (hids : ∀ m ∈ ms, m.id ∈ mNodes) (hord : TrigOrdered ms) :
    NodeStreams mNodes where
  stream n := ms.filter (·.id = n)
  own _ _ hm := of_decide_eq_true (List.mem_filter.mp hm).2
  listed n hn := by
    obtain ⟨m, hm⟩ := List.exists_mem_of_ne_nil _ hn
    obtain ⟨hm, hid⟩ := List.mem_filter.mp hm
    exact of_decide_eq_true hid ▸ hids m hm
  increasing n := hord.filter n

/-- Node `n` delivers trigger `k`. -/
def Delivers (n k : ℕ) : Prop := ∃ m ∈ ns.stream n, m.trig = k

instance (n k : ℕ) : Decidable (ns.Delivers n k) :=
  inferInstanceAs (Decidable (∃ m ∈ ns.stream n, _))

/-- The triggers that every node delivers, in the order of the first node. -/
def completeTriggers : List ℕ :=
  (mNodes.head?.elim [] ns.stream).map (·.trig) |>.filter fun k => ∀ n ∈ mNodes, ns.Delivers n k

/-- The body that node `n` delivers for trigger `k`. -/
def fragment (k n : ℕ) : List UInt8 :=
  (((ns.stream n).find? (·.trig = k)).map (·.cbody)).getD []

/-- The fragments of trigger `k`, in the order of `m_nodes`. -/
def eventBody (k : ℕ) : List UInt8 := mNodes.flatMap (ns.fragment k)

/-- The packed event for trigger `k`. -/
def builtEvent (mId k : ℕ) : List UInt8 :=
  PackedEvent.bytes
    { magic := lebMagic
      length := UInt32.ofNat (ns.eventBody k).length
      id := UInt16.ofNat (mId &&& 0xffff)
      nodes := UInt16.ofNat mNodes.length
      flag := lebFlagComplete.toUInt32 } ++ ns.eventBody k

theorem mem_completeTriggers (h : mNodes ≠ []) {k : ℕ} :
    k ∈ ns.completeTriggers ↔ ∀ n ∈ mNodes, ns.Delivers n k := by
  rw [completeTriggers, List.mem_filter, decide_eq_true_eq, and_iff_right_iff_imp]
  intro hall
  obtain ⟨n, rest, rfl⟩ := List.exists_cons_of_ne_nil h
  obtain ⟨m, hm, rfl⟩ := hall n (by simp)
  exact List.mem_map_of_mem hm

theorem completeTriggers_increasing : ns.completeTriggers.Pairwise (· < ·) := by
  refine List.Pairwise.filter _ (List.pairwise_map.mpr ?_)
  cases mNodes.head? with
  | none => exact List.Pairwise.nil
  | some n => exact ns.increasing n

end NodeStreams

/-- Of strictly increasing triggers at most one is `k`. -/
private theorem filter_trig_eq {l : List Message} (h : l.Pairwise (·.trig < ·.trig)) (k : ℕ) :
    l.filter (·.trig = k) = (l.find? (·.trig = k)).toList := by
  induction l with
  | nil => rfl
  | cons m l ih =>
    obtain ⟨hm, hl⟩ := List.pairwise_cons.mp h
    by_cases hk : m.trig = k
    · have hnone : l.filter (·.trig = k) = [] := by
        refine List.filter_eq_nil_iff.mpr fun m' hm' => ?_
        have := hm m' hm'
        simp only [decide_eq_true_eq]
        omega
      simp [hk, hnone]
    · simp [hk, ih hl]

section Interleaved

variable {mNodes : List ℕ} {ns : NodeStreams mNodes} {ms : List Message}

theorem full_iff_delivers (hint : Interleaves Message.id ns.stream ms) {k : ℕ} :
    Full mNodes ms k ↔ ∀ n ∈ mNodes, ns.Delivers n k :=
  forall₂_congr fun _ _ => hint.exists_mem_iff

/-- The bytes of node `n` in the fragments of trigger `k` are its fragment in the stream. -/
theorem nodeBody_fragmentsOf (hint : Interleaves Message.id ns.stream ms) (k n : ℕ) :
    nodeBody (fragmentsOf ms k) n = ns.fragment k n := by
  have hfilter : (ms.filter (·.trig = k)).filter (·.id = n) =
      ((ns.stream n).find? (·.trig = k)).toList := by
    rw [List.filter_comm, hint n, filter_trig_eq (ns.increasing n)]
  have hbody : nodeBody (fragmentsOf ms k) n =
      (((ms.filter (·.trig = k)).filter (·.id = n)).map (·.cbody)).flatten := by
    simp [nodeBody, fragmentsOf, List.filter_map, Function.comp_def]
  rw [hbody, hfilter, NodeStreams.fragment]
  cases (ns.stream n).find? (·.trig = k) <;> simp

theorem packBody_fragmentsOf (hint : Interleaves Message.id ns.stream ms) (k : ℕ) :
    packBody mNodes (fragmentsOf ms k) = ns.eventBody k := by
  rw [packBody, NodeStreams.eventBody, funext (nodeBody_fragmentsOf hint k)]

/-- The fragments of a trigger that all nodes deliver are as many as the nodes. -/
theorem length_fragmentsOf_of_full (hord : TrigOrdered ms) (hnd : mNodes.Nodup)
    (hids : ∀ m ∈ ms, m.id ∈ mNodes) {k : ℕ} (hfull : Full mNodes ms k) :
    (fragmentsOf ms k).length = mNodes.length := by
  have hsub : (fragmentsOf ms k).map (·.1) ⊆ mNodes := by
    intro n hn
    obtain ⟨m, hm, rfl, -⟩ := mem_ids_fragmentsOf.mp hn
    exact hids m hm
  have hle : (fragmentsOf ms k).length ≤ mNodes.length := by
    simpa using ((hord.once.nodup_ids k).subperm hsub).length_le
  exact Nat.le_antisymm hle ((hord.once.full_iff hnd hids).mp hfull)

/-- A record that holds all fragments of a full trigger is packed as the streams say. -/
theorem packData_of_holdsAll (hint : Interleaves Message.id ns.stream ms) (hord : TrigOrdered ms)
    (hnd : mNodes.Nodup) (hne : mNodes ≠ []) (hids : ∀ m ∈ ms, m.id ∈ mNodes) {ev : EbEvent}
    (hev : HoldsAll ms ev) (hfull : Full mNodes ms ev.eventNumber) (mId : ℕ) :
    (packData mId mNodes ev).2 = ns.builtEvent mId ev.eventNumber := by
  have hfrs : ev.fragments = fragmentsOf ms ev.eventNumber :=
    (List.zip_of_prod hev.1.symm hev.2.symm).symm
  have hdata : ev.data.length = mNodes.length := by
    rw [hev.2, List.length_map, length_fragmentsOf_of_full hord hnd hids hfull]
  have hlast : (fragmentsOf ms ev.eventNumber).any (·.1 = mNodes.getLast hne) = true := by
    have hmem := mem_ids_fragmentsOf.mpr (hfull _ (List.getLast_mem hne))
    simpa using hmem
  rw [packData_eq, hfrs, packBody_fragmentsOf hint, hdata]
  simp [List.getLast?_eq_some_getLast hne, hlast, NodeStreams.builtEvent, lebFlagComplete]

/-- Of the numbers sent, those of the full triggers are these triggers in order. -/
theorem BuildInv.numbers_eq {s : DTeb} {ks : List ℕ} (h : BuildInv mNodes ms s)
    (hks : ks.Pairwise (· < ·)) (hmem : ∀ k, k ∈ ks ↔ Full mNodes ms k) :
    (s.sendLog.filter (·.eventNumber ∈ ks)).map (·.eventNumber) = ks := by
  have hfilter : (s.sendLog.filter (·.eventNumber ∈ ks)).map (·.eventNumber) =
      (s.sendLog.map (·.eventNumber)).filter (Full mNodes ms ·) := by
    simp [List.filter_map, Function.comp_def, hmem]
  rw [hfilter]
  -- both lists increase, so they are equal if they have the same members
  refine h.sent_sorted.eq_of_mem_iff hks fun k => ?_
  rw [List.mem_filter, decide_eq_true_eq, hmem, and_iff_right_iff_imp]
  intro hfull
  obtain ⟨ev, hev, rfl⟩ := h.sent_full k hfull
  exact List.mem_map_of_mem hev

end Interleaved

/-- For every interleaving of the streams, as long as nothing is evicted: the calls of
`send_data` for the triggers that all nodes deliver are one for each, in increasing order,
and send the packed event that the streams alone determine. -/
theorem DTeb.exact_build (mId mMaxEventDepth : ℕ) (mNodes : List ℕ) (hlen : 2 ≤ mNodes.length)
    (hnd : mNodes.Nodup) (hid : ∀ n ∈ mNodes, n < 256) (ns : NodeStreams mNodes)
    (hbody : ∀ k ∈ ns.completeTriggers, (ns.eventBody k).length < 2 ^ 31) (as : List Arrival)
    (hint : Interleaves Message.id ns.stream (as.map (·.message))) (t : DTeb)
    (hrun : stRunning ((start mId mMaxEventDepth []).init (mNodes.map Int.ofNat)) as = some t)
    (hdepth : Transition.Meets next (fun s a => ¬ s.Evicts a)
      ((start mId mMaxEventDepth []).init (mNodes.map Int.ofNat)) as) :
    ns.completeTriggers.Pairwise (· < ·) ∧
    (∀ k, k ∈ ns.completeTriggers ↔ ∀ n ∈ mNodes, ns.Delivers n k) ∧
    (t.sendLog.filter (·.eventNumber ∈ ns.completeTriggers)).map
        (fun ev => (ev.eventNumber, (packData mId mNodes ev).2)) =
      ns.completeTriggers.map (fun k => (k, ns.builtEvent mId k)) ∧
    ∀ k ∈ ns.completeTriggers,
      let header := PackedEvent.ofBytes (ns.builtEvent mId k)
      header.nodes.toNat = mNodes.length ∧ header.length.toNat = (ns.eventBody k).length ∧
        header.flag = lebFlagComplete.toUInt32 := by
  have hne : mNodes ≠ [] := by
    rintro rfl
    simp at hlen
  have hid32 : ∀ n ∈ mNodes, n < 2 ^ 32 := fun n hn => (hid n hn).trans (by decide)
  rw [init_start mId mMaxEventDepth hid32] at hrun hdepth
  have hids : ∀ m ∈ as.map (·.message), m.id ∈ mNodes := by
    intro m hm
    exact ns.listed _ (List.ne_nil_of_mem (hint.mem_iff.mp hm))
  have hord : TrigOrdered (as.map (·.message)) := hint.ordered ns.increasing
  have hinv := buildInv_of_stRunning hnd hlen
    (fun a ha => hids _ (List.mem_map_of_mem ha)) hord hrun hdepth
  have hmem (k : ℕ) : k ∈ ns.completeTriggers ↔ Full mNodes (as.map (·.message)) k :=
    (ns.mem_completeTriggers hne).trans (full_iff_delivers hint).symm
  refine ⟨ns.completeTriggers_increasing, fun k => ns.mem_completeTriggers hne, ?_, ?_⟩
  · have hnumbers := hinv.numbers_eq ns.completeTriggers_increasing hmem
    calc (t.sendLog.filter (·.eventNumber ∈ ns.completeTriggers)).map
          (fun ev => (ev.eventNumber, (packData mId mNodes ev).2))
        = (t.sendLog.filter (·.eventNumber ∈ ns.completeTriggers)).map
          (fun ev => (ev.eventNumber, ns.builtEvent mId ev.eventNumber)) := by
          refine List.map_congr_left fun ev hev => ?_
          obtain ⟨hsent, hcomplete⟩ := List.mem_filter.mp hev
          rw [packData_of_holdsAll hint hord hnd hne hids (hinv.sent_holds ev hsent)
            ((hmem _).mp (of_decide_eq_true hcomplete))]
      _ = ((t.sendLog.filter (·.eventNumber ∈ ns.completeTriggers)).map (·.eventNumber)).map
          (fun k => (k, ns.builtEvent mId k)) := by simp
      _ = ns.completeTriggers.map (fun k => (k, ns.builtEvent mId k)) := by rw [hnumbers]
  · intro k hk
    have hcount : mNodes.length ≤ 256 := by
      have hsub : mNodes ⊆ List.range 256 := fun n hn => List.mem_range.mpr (hid n hn)
      simpa using (hnd.subperm hsub).length_le
    have hlength := hbody k hk
    simp only [NodeStreams.builtEvent, PackedEvent.ofBytes_bytes_append, UInt16.toNat_ofNat',
      UInt32.toNat_ofNat']
    exact ⟨Nat.mod_eq_of_lt (by omega), Nat.mod_eq_of_lt (by omega), trivial⟩

/-- Two nodes; the second is ahead, and the triggers 3, 4 and 7 have lost a fragment. -/
def twoNodes : List Arrival :=
  [RecbeRecord.empty 1 3, RecbeRecord.empty 2 4, RecbeRecord.empty 2 5, RecbeRecord.empty 2 7,
    RecbeRecord.empty 1 5].map fun r => ⟨r.message, fun _ => 0⟩

def twoNodeStreams : NodeStreams [1, 2] :=
  .ofMessages (twoNodes.map (·.message)) (by decide) (by decide)

theorem DTeb.exact_build_two_nodes :
    ((twoNodes.foldl step (start 999 1024 [1, 2])).sendLog.filter
        (·.eventNumber ∈ twoNodeStreams.completeTriggers)).map
          (fun ev => (ev.eventNumber, (packData 999 [1, 2] ev).2)) =
      [5].map fun k => (k, twoNodeStreams.builtEvent 999 k) := by
  have hcomplete : twoNodeStreams.completeTriggers = [5] := by decide
  have hbody : ∀ k ∈ twoNodeStreams.completeTriggers,
      (twoNodeStreams.eventBody k).length < 2 ^ 31 := by decide
  have h := exact_build 999 1024 [1, 2] (by decide) (by decide) (by decide) twoNodeStreams
    hbody twoNodes (fun _ => rfl) _ (stRunning_eq _ _) (by decide)
  rw [← hcomplete]
  exact h.2.2.1

end LebStudy
