import LebStudy.EventBuilder.Representation
import Mathlib.Data.List.Count

/-!
# What a packed event says about its body

The header counts the fragments of the record, and the body has those that belong to a
node of the list, as often as the list names it. So the two agree exactly for a record
whose ids are all in the list, and there once, as long as sixteen bits hold their number.
-/

namespace LebStudy

/-! ### The fragments copied -/

/-- The indices `j` at which the inner loop of `pack_data` copies `data[j]` for node `n`. -/
def copiedFor (frs : List (ℕ × List UInt8)) (n : ℕ) : List ℕ :=
  (List.range frs.length).filter fun j => (frs[j]?.map (·.1)) = some n

/-- The same over all nodes, in the order of the copies. -/
def copiedFragments (mNodes : List ℕ) (frs : List (ℕ × List UInt8)) : List ℕ :=
  mNodes.flatMap (copiedFor frs)

/-- `data[j]` -/
def fragmentData (frs : List (ℕ × List UInt8)) (j : ℕ) : List UInt8 :=
  (frs[j]?.map (·.2)).getD []

theorem copiedFor_cons (fr : ℕ × List UInt8) (frs : List (ℕ × List UInt8)) (n : ℕ) :
    copiedFor (fr :: frs) n =
      if fr.1 = n then 0 :: (copiedFor frs n).map (· + 1) else (copiedFor frs n).map (· + 1) := by
  simp only [copiedFor, List.length_cons, List.range_succ_eq_map, List.filter_cons,
    List.getElem?_cons_zero, Option.map_some, Option.some.injEq, List.filter_map]
  by_cases h : fr.1 = n
  · simp only [h, decide_true, if_true]
    rfl
  · simp only [h, decide_false, if_false, Bool.false_eq_true]
    rfl

/-- The bytes that the inner loop appends are those of the fragments it copies. -/
theorem nodeBody_eq_copied (frs : List (ℕ × List UInt8)) (n : ℕ) :
    nodeBody frs n = (copiedFor frs n).flatMap (fragmentData frs) := by
  induction frs with
  | nil => rfl
  | cons fr frs ih =>
    have htail : ((copiedFor frs n).map (· + 1)).flatMap (fragmentData (fr :: frs)) =
        nodeBody frs n := by
      rw [ih, List.flatMap_map]
      rfl
    rw [copiedFor_cons]
    by_cases h : fr.1 = n
    · rw [if_pos h, List.flatMap_cons, htail]
      simp [nodeBody, h, fragmentData]
    · rw [if_neg h, htail]
      simp [nodeBody, h]

theorem packBody_eq_copied (mNodes : List ℕ) (frs : List (ℕ × List UInt8)) :
    packBody mNodes frs = (copiedFragments mNodes frs).flatMap (fragmentData frs) := by
  rw [packBody, copiedFragments, List.flatMap_assoc]
  exact List.flatMap_congr fun n _ => nodeBody_eq_copied frs n

/-- A fragment is copied for its own node, once. -/
theorem count_copiedFor {frs : List (ℕ × List UInt8)} {j : ℕ} (hj : j < frs.length) (n : ℕ) :
    (copiedFor frs n).count j = if frs[j].1 = n then 1 else 0 := by
  have hget : frs[j]? = some frs[j] := List.getElem?_eq_getElem hj
  by_cases h : frs[j].1 = n
  · rw [if_pos h]
    have hmem : j ∈ copiedFor frs n := by simp [copiedFor, hj, h]
    exact List.count_eq_one_of_mem (List.nodup_range.filter _) hmem
  · rw [if_neg h]
    apply List.count_eq_zero_of_not_mem
    intro hmem
    have hid := of_decide_eq_true (List.mem_filter.mp hmem).2
    rw [hget] at hid
    exact h (Option.some.inj hid)

/-- So it is copied as often as the list names its node. -/
theorem count_copiedFragments {frs : List (ℕ × List UInt8)} {j : ℕ} (hj : j < frs.length)
    (mNodes : List ℕ) : (copiedFragments mNodes frs).count j = mNodes.count frs[j].1 := by
  induction mNodes with
  | nil => rfl
  | cons n mNodes ih =>
    rw [copiedFragments, List.flatMap_cons, ← copiedFragments, List.count_append, ih,
      count_copiedFor hj, List.count_cons, Nat.add_comm]
    by_cases h : frs[j].1 = n
    · rw [if_pos h, if_pos (beq_iff_eq.mpr h.symm)]
    · rw [if_neg h, if_neg fun heq => h (beq_iff_eq.mp heq).symm]

theorem mem_copiedFragments {mNodes : List ℕ} {frs : List (ℕ × List UInt8)} {j : ℕ}
    (h : j ∈ copiedFragments mNodes frs) : j < frs.length := by
  obtain ⟨n, -, hj⟩ := List.mem_flatMap.mp h
  exact List.mem_range.mp (List.mem_of_mem_filter hj)

/-- Every fragment once is all of them, in some order. -/
theorem perm_range_of_count {mNodes : List ℕ} {frs : List (ℕ × List UInt8)}
    (h : ∀ j < frs.length, (copiedFragments mNodes frs).count j = 1) :
    (copiedFragments mNodes frs).Perm (List.range frs.length) := by
  apply List.perm_iff_count.mpr
  intro j
  by_cases hj : j < frs.length
  · rw [h j hj, List.count_eq_one_of_mem List.nodup_range (List.mem_range.mpr hj)]
  · have hcopied : j ∉ copiedFragments mNodes frs := fun hmem => hj (mem_copiedFragments hmem)
    have hrange : j ∉ List.range frs.length := fun hmem => hj (List.mem_range.mp hmem)
    rw [List.count_eq_zero_of_not_mem hcopied, List.count_eq_zero_of_not_mem hrange]

theorem fragmentData_eq (frs : List (ℕ × List UInt8)) :
    (List.range frs.length).map (fragmentData frs) = frs.map (·.2) := by
  apply List.ext_getElem
  · simp
  · intro j hj hj'
    have hlen : j < frs.length := by simpa using hj'
    simp [fragmentData, hlen]

/-! ### The header and the body -/

/-- What `cdata`, packed from the record, says of itself: its size, how many fragments its
body has, and that each fragment of the record is among them once. -/
structure DescribesBody (mNodes : List ℕ) (ev : EbEvent) (cdata : List UInt8) : Prop where
  body : cdata.drop PackedEvent.size =
    (copiedFragments mNodes ev.fragments).flatMap (fragmentData ev.fragments)
  length : cdata.length = PackedEvent.size + (PackedEvent.ofBytes cdata).length.toNat
  nodes : (PackedEvent.ofBytes cdata).nodes.toNat = (copiedFragments mNodes ev.fragments).length
  once : ∀ j < ev.data.length, (copiedFragments mNodes ev.fragments).count j = 1

/-- Each id of the record is in the list once, and the number of its fragments fits into the
header. -/
def EbEvent.ListedOnce (mNodes : List ℕ) (ev : EbEvent) : Prop :=
  ev.data.length < 2 ^ 16 ∧ ∀ n ∈ ev.node, mNodes.count n = 1

instance (mNodes : List ℕ) (ev : EbEvent) : Decidable (ev.ListedOnce mNodes) :=
  inferInstanceAs (Decidable (_ ∧ _))

section Record

variable {mId : ℕ} {mNodes : List ℕ} {ev : EbEvent}

theorem length_fragments (hblocks : ev.node.length = ev.data.length) :
    ev.fragments.length = ev.data.length := by
  simp [EbEvent.fragments, hblocks]

/-- Each fragment is copied once exactly if each id is listed once. -/
theorem copied_once_iff (hblocks : ev.node.length = ev.data.length) :
    (∀ j < ev.data.length, (copiedFragments mNodes ev.fragments).count j = 1) ↔
      ∀ n ∈ ev.node, mNodes.count n = 1 := by
  have hlen := length_fragments hblocks
  have hcount : ∀ j (hj : j < ev.node.length),
      (copiedFragments mNodes ev.fragments).count j = mNodes.count ev.node[j] := by
    intro j hj
    have hj' : j < ev.fragments.length := by omega
    rw [count_copiedFragments hj']
    simp [EbEvent.fragments]
  constructor
  · intro h n hn
    obtain ⟨j, hj, rfl⟩ := List.mem_iff_getElem.mp hn
    rw [← hcount j hj]
    exact h j (by omega)
  · intro h j hj
    have hj' : j < ev.node.length := by omega
    rw [hcount j hj']
    exact h _ (List.getElem_mem hj')

/-- Where every fragment is copied once, the body is as long as the fragments together. -/
theorem length_packBody_of_once (hblocks : ev.node.length = ev.data.length)
    (honce : ∀ j < ev.data.length, (copiedFragments mNodes ev.fragments).count j = 1) :
    (copiedFragments mNodes ev.fragments).length = ev.data.length ∧
      (packBody mNodes ev.fragments).length = ev.data.flatten.length := by
  have hlen := length_fragments hblocks
  have hperm := @perm_range_of_count mNodes ev.fragments (by rwa [hlen])
  have hdata : ev.fragments.map (·.2) = ev.data := List.map_snd_zip hblocks.ge
  constructor
  · rw [hperm.length_eq, List.length_range, hlen]
  · rw [packBody_eq_copied, (hperm.flatMap_right _).length_eq, ← hdata, ← fragmentData_eq,
      List.flatMap_def]

/-- The packed event describes its body exactly if each id of the record is listed once. -/
theorem describesBody_iff (hblocks : ev.node.length = ev.data.length)
    (htotal : ev.data.flatten.length < 2 ^ 31) :
    DescribesBody mNodes ev (packData mId mNodes ev).2 ↔ ev.ListedOnce mNodes := by
  rw [packData_eq]
  constructor
  · rintro ⟨-, -, hnodes, honce⟩
    refine ⟨?_, (copied_once_iff hblocks).mp honce⟩
    rw [PackedEvent.ofBytes_bytes_append, (length_packBody_of_once hblocks honce).1] at hnodes
    rw [← hnodes]
    exact UInt16.toNat_lt _
  · rintro ⟨hfits, hlisted⟩
    have honce := (copied_once_iff hblocks).mpr hlisted
    obtain ⟨hcopied, hbody⟩ := length_packBody_of_once hblocks honce
    refine ⟨?_, ?_, ?_, honce⟩
    · rw [← packBody_eq_copied]
      exact List.drop_left' (PackedEvent.bytes_length _)
    · have hsize : ev.data.flatten.length < UInt32.size := lt_trans htotal (by decide)
      rw [PackedEvent.ofBytes_bytes_append, List.length_append, PackedEvent.bytes_length, hbody,
        UInt32.toNat_ofNat_of_lt' hsize]
    · rw [PackedEvent.ofBytes_bytes_append, hcopied]
      exact UInt16.toNat_ofNat_of_lt' hfits

end Record

namespace DTeb

/-! ### The records that `st_running` sends -/

/-- Every record in the buffer or sent has as many ids as data blocks. -/
theorem blocks_of_stRunning {mId mMaxEventDepth : ℕ} {mNodes : List ℕ} {as : List Arrival}
    {t : DTeb} (hrun : stRunning (start mId mMaxEventDepth mNodes) as = some t) :
    ∀ ev ∈ t.mEvents ++ t.sendLog, ev.node.length = ev.data.length := by
  refine forall_records (fun _ _ h => h) (fun a _ => ⟨fun _ => rfl, ?_⟩) hrun
  intro ev hev _
  simp [EbEvent.push, hev]

/-- The ids of the records are ids that were received. -/
theorem ids_of_stRunning {mId mMaxEventDepth : ℕ} {mNodes : List ℕ} {as : List Arrival}
    {t : DTeb} (hids : ∀ a ∈ as, a.message.id ∈ mNodes)
    (hrun : stRunning (start mId mMaxEventDepth mNodes) as = some t) :
    ∀ ev ∈ t.mEvents ++ t.sendLog, ∀ n ∈ ev.node, n ∈ mNodes := by
  refine forall_records (fun _ _ h => h) (fun a ha => ⟨fun _ => ?_, ?_⟩) hrun
  · intro n hn
    rw [List.mem_singleton.mp hn]
    exact hids a ha
  · intro ev hev _ n hn
    cases List.mem_append.mp hn with
    | inl hn => exact hev n hn
    | inr hn =>
      rw [List.mem_singleton.mp hn]
      exact hids a ha

/-- For any node list, any run and any record sent in it: a packed event describes its own body
exactly if each id of its record is in `m_nodes` once and the record has fewer than `2 ^ 16`
fragments. -/
theorem packed_describes_iff (mId mMaxEventDepth : ℕ) (nodes : List ℤ) (as : List Arrival)
    (t : DTeb) (hrun : stRunning ((start mId mMaxEventDepth []).init nodes) as = some t) :
    ∀ ev ∈ t.sendLog, ev.data.flatten.length < 2 ^ 31 →
      (DescribesBody t.mNodes ev (packData t.mId t.mNodes ev).2 ↔ ev.ListedOnce t.mNodes) := by
  intro ev hev htotal
  exact describesBody_iff (blocks_of_stRunning hrun ev (List.mem_append_right _ hev)) htotal

/-- In particular if no id is listed twice and only listed ones send. -/
theorem packed_describes_of_listed {mId mMaxEventDepth : ℕ} {mNodes : List ℕ} {as : List Arrival}
    {t : DTeb} (hnd : mNodes.Nodup) (hlen : 1 ≤ mNodes.length ∧ mNodes.length < 2 ^ 16)
    (hids : ∀ a ∈ as, a.message.id ∈ mNodes)
    (hrun : stRunning (start mId mMaxEventDepth mNodes) as = some t) :
    ∀ ev ∈ t.sendLog, ev.data.flatten.length < 2 ^ 31 →
      DescribesBody mNodes ev (packData mId mNodes ev).2 := by
  intro ev hev htotal
  have hmem : ev ∈ t.mEvents ++ t.sendLog := List.mem_append_right _ hev
  have hblocks := blocks_of_stRunning hrun ev hmem
  have hfew := (fragments_sent hlen.1 hrun ev hev).2
  refine (describesBody_iff hblocks htotal).mpr ⟨by omega, ?_⟩
  intro n hn
  exact List.count_eq_one_of_mem hnd (ids_of_stRunning hids hrun ev hmem n hn)

/-- Two nodes, and a fragment of a third that the record takes for one of theirs. -/
def strangeFragment : List Arrival :=
  [RecbeRecord.empty 3 5, RecbeRecord.empty 1 5].map fun r => ⟨r.message, fun _ => 0⟩

theorem fragment_dropped :
    ¬ ∀ (mId mMaxEventDepth : ℕ) (nodes : List ℤ) (as : List Arrival) (t : DTeb),
      stRunning ((start mId mMaxEventDepth []).init nodes) as = some t →
        ∀ ev ∈ t.sendLog, ev.data.flatten.length < 2 ^ 31 →
          DescribesBody t.mNodes ev (packData t.mId t.mNodes ev).2 := by
  intro h
  have hev := h 999 1024 [1, 2] strangeFragment _ (stRunning_eq _ _)
    ⟨5, [3, 1], [(RecbeRecord.empty 3 5).bytes, (RecbeRecord.empty 1 5).bytes], true, 0⟩
    (by decide) (by decide)
  have honce := hev.once 0 (by decide)
  revert honce
  decide

/-- Two nodes, a fragment of each. -/
theorem packed_describes_two_nodes :
    DescribesBody [1, 2]
      ⟨5, [1, 2], [(RecbeRecord.empty 1 5).bytes, (RecbeRecord.empty 2 5).bytes], true, 0⟩
      (packData 999 [1, 2]
        ⟨5, [1, 2], [(RecbeRecord.empty 1 5).bytes, (RecbeRecord.empty 2 5).bytes], true, 0⟩).2 := by
  have h := packed_describes_iff 999 1024 [1, 2]
    ([RecbeRecord.empty 1 5, RecbeRecord.empty 2 5].map fun r => ⟨r.message, fun _ => 0⟩) _
    (stRunning_eq _ _)
  exact (h ⟨5, [1, 2], [(RecbeRecord.empty 1 5).bytes, (RecbeRecord.empty 2 5).bytes], true, 0⟩
    (by decide) (by decide)).mpr (by decide)

end DTeb

end LebStudy
