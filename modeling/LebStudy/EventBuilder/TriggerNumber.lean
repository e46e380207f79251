import LebStudy.EventBuilder.Invariant

/-!
# The trigger number across the two tasks

The front-end task puts the 32-bit `trig_count` under a tag of four bits, and the
event builder takes the tag off again: of the count it sees the low 28 bits. What
is put together in one record agrees in these bits, and in no others.
-/

namespace LebStudy

/-- The messages of these records, each with what its flush reads past the end. -/
def arrivalsOf (rs : List (RecbeRecord × (ℕ → ℕ))) : List Arrival :=
  rs.map fun p => ⟨p.1.message, p.2⟩

/-- Each front-end counts upward. -/
def CountsUp (rs : List (RecbeRecord × (ℕ → ℕ))) : Prop :=
  rs.Pairwise fun p q => p.1.header.id = q.1.header.id →
    p.1.header.trigCount < q.1.header.trigCount

instance (rs : List (RecbeRecord × (ℕ → ℕ))) : Decidable (CountsUp rs) :=
  inferInstanceAs (Decidable (List.Pairwise _ _))

/-- The trigger count in the header of a fragment. -/
def fragmentCount (data : List UInt8) : UInt32 := (RecbeHeader.ofBytes data).trigCount

/-- The fragments of the record are records of the front-ends, and its number is what the
event builder sees of their trigger counts. -/
def Numbered (rs : List RecbeRecord) (ev : EbEvent) : Prop :=
  ∀ d ∈ ev.data, ∃ r ∈ rs, d = r.bytes ∧ r.header.trigCount.toNat % 2 ^ 28 = ev.eventNumber

theorem fragmentCount_bytes (r : RecbeRecord) : fragmentCount r.bytes = r.header.trigCount := by
  rw [fragmentCount, RecbeRecord.bytes, RecbeHeader.ofBytes_bytes_append]

theorem message_trig (r : RecbeRecord) : r.message.trig = r.header.trigCount.toNat % 2 ^ 28 :=
  Message.ofHeader_trig r.header r.bytes

theorem admits_numbered {rs : List RecbeRecord} {r : RecbeRecord} (hr : r ∈ rs) :
    DTeb.Admits (Numbered rs) r.message := by
  constructor
  · intro serial d hd
    have hd : d = r.bytes := List.mem_singleton.mp hd
    exact ⟨r, hr, hd, (message_trig r).symm⟩
  · intro ev hev hnum d hd
    rcases List.mem_append.mp hd with hd | hd
    · exact hev d hd
    · exact ⟨r, hr, List.mem_singleton.mp hd, by rw [← message_trig]; exact hnum.symm⟩

/-- In every run: a record is made of records of the front-ends whose trigger counts agree
in 28 bits, and it mixes no two triggers if no two counts of the run share these bits. -/
theorem DTeb.fragments_agree (mId mMaxEventDepth : ℕ) (mNodes : List ℕ)
    (rs : List (RecbeRecord × (ℕ → ℕ))) (t : DTeb)
    (hrun : stRunning (start mId mMaxEventDepth mNodes) (arrivalsOf rs) = some t) :
    ∀ ev ∈ t.mEvents ++ t.sendLog,
      Numbered (rs.map (·.1)) ev ∧
      (∀ d ∈ ev.data, ∀ d' ∈ ev.data,
        (fragmentCount d).toNat % 2 ^ 28 = (fragmentCount d').toNat % 2 ^ 28) ∧
      ((∀ r ∈ rs.map (·.1), ∀ r' ∈ rs.map (·.1),
          r.header.trigCount.toNat % 2 ^ 28 = r'.header.trigCount.toNat % 2 ^ 28 →
            r.header.trigCount = r'.header.trigCount) →
        ∀ d ∈ ev.data, ∀ d' ∈ ev.data, fragmentCount d = fragmentCount d') := by
  intro ev hev
  have hnumbered : Numbered (rs.map (·.1)) ev := by
    refine forall_records (fun _ _ h => h) ?_ hrun ev hev
    intro a ha
    obtain ⟨p, hp, rfl⟩ := List.mem_map.mp ha
    exact admits_numbered (List.mem_map_of_mem hp)
  refine ⟨hnumbered, ?_, ?_⟩
  · intro d hd d' hd'
    obtain ⟨r, -, rfl, hnum⟩ := hnumbered d hd
    obtain ⟨r', -, rfl, hnum'⟩ := hnumbered d' hd'
    rw [fragmentCount_bytes, fragmentCount_bytes, hnum, hnum']
  · intro hinj d hd d' hd'
    obtain ⟨r, hr, rfl, hnum⟩ := hnumbered d hd
    obtain ⟨r', hr', rfl, hnum'⟩ := hnumbered d' hd'
    rw [fragmentCount_bytes, fragmentCount_bytes]
    exact hinj r hr r' hr' (hnum.trans hnum'.symm)

/-- Node 1 delivers trigger 5; node 2 misses it, and delivers the one `2 ^ 28` later. -/
theorem DTeb.fragments_of_two_triggers :
    ¬ ∀ (mId mMaxEventDepth : ℕ) (mNodes : List ℕ) (rs : List (RecbeRecord × (ℕ → ℕ))) (t : DTeb),
      CountsUp rs → stRunning (start mId mMaxEventDepth mNodes) (arrivalsOf rs) = some t →
        ∀ ev ∈ t.mEvents ++ t.sendLog, ∀ d ∈ ev.data, ∀ d' ∈ ev.data,
          fragmentCount d = fragmentCount d' := by
  intro h
  have := h 999 1024 [1, 2] [(RecbeRecord.empty 1 5, fun _ => 0),
    (RecbeRecord.empty 2 0x10000005, fun _ => 0)] _ (by decide) rfl
  revert this
  decide

theorem DTeb.fragments_agree_two_nodes :
    ∃ t, stRunning (start 999 1024 [1, 2])
      (arrivalsOf [(RecbeRecord.empty 1 5, id), (RecbeRecord.empty 2 5, id)]) = some t ∧
        t.sendLog.length = 1 ∧
        ∀ ev ∈ t.mEvents ++ t.sendLog, ∀ d ∈ ev.data, ∀ d' ∈ ev.data,
          fragmentCount d = fragmentCount d' := by
  refine ⟨_, stRunning_eq _ _, by decide, fun ev hev => ?_⟩
  have h := fragments_agree 999 1024 [1, 2] [(RecbeRecord.empty 1 5, id),
    (RecbeRecord.empty 2 5, id)] _ (stRunning_eq _ _)
  exact (h ev hev).2.2 (by decide)

end LebStudy
