import LebStudy.EventBuilder.BuildInvariant
import LebStudy.EventBuilder.Composition
import LebStudy.Lib.Spread
import Mathlib.Data.List.Sort

/-!
# How deep the event buffer has to be

All nodes deliver the same triggers, none left out, each at its own pace. The buffer then
holds the triggers that the fastest node has delivered and the slowest has not, so what
`m_max_event_depth` has to be is the distance between the two: nothing is evicted exactly if
it is never exceeded.
-/

namespace LebStudy

open Spread

/-- How many messages node `n` has sent. -/
def position (ms : List Message) (n : ℕ) : ℕ := (ms.filter (·.id = n)).length

/-- The nodes deliver the triggers of `K`, in their order. -/
structure Lossless (mNodes K : List ℕ) (ms : List Message) : Prop where
  ids : ∀ m ∈ ms, m.id ∈ mNodes
  stream : ∀ n ∈ mNodes, ((ms.filter (·.id = n)).map (·.trig)) <+: K

section Messages

variable {mNodes K : List ℕ} {ms : List Message} {m : Message} {n k : ℕ}

theorem position_concat : position (ms ++ [m]) =
    Function.update (position ms) m.id (position ms m.id + 1) := by
  funext n
  rw [position, List.filter_append, List.length_append, Function.update_apply]
  by_cases h : n = m.id
  · subst h
    simp [position]
  · have hne : m.id ≠ n := fun heq => h heq.symm
    simp [position, h, hne]

theorem Lossless.of_append {ms' : List Message} (h : Lossless mNodes K (ms ++ ms')) :
    Lossless mNodes K ms := by
  refine ⟨fun m hm => h.ids m (List.mem_append_left _ hm), fun n hn => ?_⟩
  have hprefix := h.stream n hn
  rw [List.filter_append, List.map_append] at hprefix
  exact (List.prefix_append _ _).trans hprefix

/-- What a node has delivered is the front of the list. -/
theorem Lossless.stream_eq (h : Lossless mNodes K ms) (hn : n ∈ mNodes) :
    (ms.filter (·.id = n)).map (·.trig) = K.take (position ms n) := by
  have htake := List.prefix_iff_eq_take.mp (h.stream n hn)
  rwa [List.length_map] at htake

theorem Lossless.delivered_iff (h : Lossless mNodes K ms) (hn : n ∈ mNodes) :
    Delivered ms n k ↔ k ∈ K.take (position ms n) := by
  rw [← h.stream_eq hn, List.mem_map]
  constructor
  · rintro ⟨m, hm, hid, htrig⟩
    exact ⟨m, List.mem_filter.mpr ⟨hm, decide_eq_true hid⟩, htrig⟩
  · rintro ⟨m, hm, htrig⟩
    obtain ⟨hm, hid⟩ := List.mem_filter.mp hm
    exact ⟨m, hm, of_decide_eq_true hid, htrig⟩

theorem Lossless.full_iff (h : Lossless mNodes K ms) {behind ahead : ℕ}
    (hb : Between mNodes (position ms) behind ahead) :
    Full mNodes ms k ↔ k ∈ K.take behind := by
  rw [← hb.forall_mem_take]
  exact forall₂_congr fun n hn => h.delivered_iff hn

theorem Lossless.trigOrdered (h : Lossless mNodes K ms) (hK : K.Pairwise (· < ·)) :
    TrigOrdered ms := by
  apply Interleaving.ordered_of_forall_filter
  intro n
  by_cases hn : n ∈ mNodes
  · have hsorted := hK.sublist (h.stream n hn).sublist
    rwa [List.pairwise_map] at hsorted
  · have hnil : ms.filter (·.id = n) = [] := by
      rw [List.filter_eq_nil_iff]
      intro m hm hid
      exact hn (of_decide_eq_true hid ▸ h.ids m hm)
    rw [hnil]
    exact List.Pairwise.nil

/-- A front of the list with a trigger in it has all smaller ones. -/
theorem mem_take_of_le (hK : K.Pairwise (· < ·)) {p b : ℕ} (hk : k ∈ K.take p) (hb : b ∈ K)
    (hle : b ≤ k) : b ∈ K.take p := by
  rw [← List.take_append_drop p K, List.mem_append] at hb
  apply hb.resolve_right
  intro hdrop
  rw [← List.take_append_drop p K, List.pairwise_append] at hK
  exact absurd (hK.2.2 k hk b hdrop) (by omega)

/-- A trigger of the list that all nodes have got to is one that all have delivered. -/
theorem Lossless.full_of_passed (h : Lossless mNodes K ms) (hK : K.Pairwise (· < ·)) (hk : k ∈ K)
    (hpassed : Passed mNodes ms k) : Full mNodes ms k := by
  intro n hn
  obtain ⟨m, hm, hid, hle⟩ := hpassed n hn
  apply (h.delivered_iff hn).mpr
  exact mem_take_of_le hK ((h.delivered_iff hn).mp ⟨m, hm, hid, rfl⟩) hk hle

end Messages

namespace DTeb

/-! ### What is in the buffer -/

section Buffer

variable {mNodes K : List ℕ} {ms : List Message} {s : DTeb} {behind ahead : ℕ}

theorem mem_numbers_iff (hinv : BuildInv mNodes ms s) (h : Lossless mNodes K ms)
    (hK : K.Pairwise (· < ·)) (hb : Between mNodes (position ms) behind ahead) {k : ℕ} :
    k ∈ s.mEvents.map (·.eventNumber) ↔ k ∈ K.take ahead ∧ k ∉ K.take behind := by
  rw [← hb.exists_mem_take, ← h.full_iff hb]
  constructor
  · intro hk
    obtain ⟨ev, hev, rfl⟩ := List.mem_map.mp hk
    obtain ⟨n, hn, hdel⟩ := hinv.begun ev hev
    exact ⟨⟨n, hn, (h.delivered_iff hn).mp hdel⟩, hinv.open_ ev hev⟩
  · rintro ⟨⟨n, hn, hk⟩, hnot⟩
    obtain ⟨m, hm, -, rfl⟩ := (h.delivered_iff hn).mpr hk
    apply (hinv.kept m hm).resolve_right
    intro hpassed
    exact hnot (h.full_of_passed hK (List.mem_of_mem_take hk) hpassed)

/-- The buffer holds what the fastest node has delivered and the slowest has not, in order. -/
theorem numbers_eq (hinv : BuildInv mNodes ms s) (hbuf : BufferInv s) (h : Lossless mNodes K ms)
    (hK : K.Pairwise (· < ·)) (hb : Between mNodes (position ms) behind ahead) :
    s.mEvents.map (·.eventNumber) = (K.take ahead).drop behind := by
  have hmem (k : ℕ) : k ∈ s.mEvents.map (·.eventNumber) ↔ k ∈ (K.take ahead).drop behind :=
    (mem_numbers_iff hinv h hK hb).trans (mem_between_iff hK.nodup hb.le_ahead).symm
  have hsorted : (s.mEvents.map (·.eventNumber)).Pairwise (· < ·) := by
    refine (hinv.order.and hbuf.numbers).imp_of_mem ?_
    rintro a b ha hb' ⟨hwaits, hne⟩
    by_contra hge
    have hlt : b < a := by omega
    -- who has delivered `a` has delivered `b`
    obtain ⟨n, hn, hdel, hnot⟩ := hwaits hlt
    apply hnot
    have hbK : b ∈ K := List.mem_of_mem_take ((mem_numbers_iff hinv h hK hb).mp hb').1
    exact (h.delivered_iff hn).mpr
      (mem_take_of_le hK ((h.delivered_iff hn).mp hdel) hbK hlt.le)
  have hright : ((K.take ahead).drop behind).Pairwise (· < ·) :=
    hK.sublist ((List.drop_sublist _ _).trans (List.take_sublist _ _))
  exact hsorted.eq_of_mem_iff hright hmem

end Buffer

/-! ### Evictions -/

theorem isNew_iff {s : DTeb} (hnd : (s.mEvents.map (·.eventNumber)).Nodup) (a : Arrival) :
    (s.matchLoop a true [] s.mEvents).isNew = true ↔
      a.message.trig ∉ s.mEvents.map (·.eventNumber) := by
  constructor
  · intro hnew hmem
    obtain ⟨ev, hev, htrig⟩ := List.mem_map.mp hmem
    obtain ⟨passed, rest, hsplit⟩ := List.append_of_mem hev
    have hother := ne_of_split (hsplit ▸ hnd) htrig
    have hpassed : ∀ x ∈ passed, x.eventNumber ≠ a.message.trig :=
      fun x hx => hother x (List.mem_append_left _ hx)
    have hrest : ∀ x ∈ rest, x.eventNumber ≠ a.message.trig :=
      fun x hx => hother x (List.mem_append_right _ hx)
    rw [hsplit, matchLoop_append hpassed, matchLoop, if_pos htrig.symm] at hnew
    simp only at hnew
    split at hnew
    · rw [(flush_spec s a.stale _ _ rest).1] at hnew
      cases hnew
    · rw [matchLoop_of_forall_ne hrest] at hnew
      cases hnew
  · intro hnot
    have hne : ∀ ev ∈ s.mEvents, ev.eventNumber ≠ a.message.trig := by
      intro ev hev heq
      exact hnot (List.mem_map.mpr ⟨ev, hev, heq⟩)
    rw [matchLoop_of_forall_ne hne]

theorem evicts_iff {s : DTeb} (hlen : 2 ≤ s.mNodes.length)
    (hnd : (s.mEvents.map (·.eventNumber)).Nodup) (a : Arrival) :
    s.Evicts a ↔ a.message.trig ∉ s.mEvents.map (·.eventNumber) ∧
      s.mMaxEventDepth < s.mEvents.length + 1 := by
  rw [Evicts, isNew_iff hnd, newRecord_of_ne_one (by omega), List.length_append,
    List.length_singleton]

theorem depth_of_stRunning {mId mMaxEventDepth : ℕ} {mNodes : List ℕ} {as : List Arrival}
    {t : DTeb} (hrun : stRunning (start mId mMaxEventDepth mNodes) as = some t) :
    t.mMaxEventDepth = mMaxEventDepth := by
  refine Transition.run_invariant (I := fun t => t.mMaxEventDepth = mMaxEventDepth) rfl ?_ hrun
  rintro s a _ hs ⟨⟩
  exact hs

/-- The next message of a node is the trigger at its place in the list. -/
theorem trig_mem_take {mNodes K : List ℕ} {ms : List Message} {m : Message}
    (h : Lossless mNodes K (ms ++ [m])) (hK : K.Pairwise (· < ·)) :
    m.trig ∈ K.take (position ms m.id + 1) ∧ m.trig ∉ K.take (position ms m.id) := by
  have hn := h.ids m (by simp)
  have hpos : position (ms ++ [m]) m.id = position ms m.id + 1 := by
    rw [position_concat, Function.update_self]
  constructor
  · rw [← hpos]
    exact (h.delivered_iff hn).mp ⟨m, by simp, rfl, rfl⟩
  · intro hbefore
    exact (h.trigOrdered hK).not_delivered (le_refl _) ((h.of_append.delivered_iff hn).mpr hbefore)

/-- A pass evicts exactly if it takes the fastest node too far from the slowest. -/
theorem not_evicts_iff {mNodes K : List ℕ} {ms : List Message} {s : DTeb} {a : Arrival}
    (hnd : mNodes.Nodup) (hlen : 2 ≤ mNodes.length) (hK : K.Pairwise (· < ·))
    (h : Lossless mNodes K (ms ++ [a.message])) (hinv : BuildInv mNodes ms s)
    (hbuf : BufferInv s) (hwithin : Within mNodes (position ms) s.mMaxEventDepth) :
    ¬ s.Evicts a ↔ Within mNodes (position (ms ++ [a.message])) s.mMaxEventDepth := by
  have hn := h.ids a.message (by simp)
  have hex : ∃ behind ahead, Between mNodes (position ms) behind ahead :=
    exists_between (List.ne_nil_of_mem hn)
  obtain ⟨behind, ahead, hb⟩ := hex
  have hnumbers := numbers_eq hinv hbuf h.of_append hK hb
  have hcount : s.mEvents.length = ahead - behind := by
    have hlength := congrArg List.length hnumbers
    obtain ⟨n, hn', hfirst⟩ := hb.first
    have hle := (h.of_append.stream n hn').length_le
    rw [List.length_map, ← position, hfirst] at hle
    rwa [List.length_map, List.length_drop, List.length_take, Nat.min_eq_left hle] at hlength
  have hle := hb.le_ahead
  obtain ⟨hnow, hnot⟩ := trig_mem_take h hK
  rw [evicts_iff (hinv.nodes ▸ hlen) hbuf.numbers, mem_numbers_iff hinv h.of_append hK hb,
    position_concat, hcount]
  have hplace := hb.le a.message.id hn
  by_cases hfirst : position ms a.message.id = ahead
  · -- nobody has delivered this trigger before
    rw [hb.within_advance_first hn hfirst hnd hlen]
    rw [hfirst] at hnot
    have hnew : ¬ (a.message.trig ∈ K.take ahead ∧ a.message.trig ∉ K.take behind) :=
      fun hmem => hnot hmem.1
    rw [not_and, not_lt]
    constructor
    · intro hsmall
      have := hsmall hnew
      omega
    · intro hbound _
      omega
  · have hlt : position ms a.message.id < ahead := by omega
    have hold : a.message.trig ∈ K.take ahead ∧ a.message.trig ∉ K.take behind :=
      ⟨List.take_subset_take_left K hlt hnow,
        fun hbehind => hnot (List.take_subset_take_left K (hb.ge _ hn) hbehind)⟩
    constructor
    · intro _
      exact hb.within_advance hlt hwithin
    · rintro - ⟨hfresh, -⟩
      exact hfresh hold

/-! ### Over a run -/

section Run

variable (mId mMaxEventDepth : ℕ) {mNodes K : List ℕ} {as : List Arrival}

/-- For nodes that deliver the same triggers, each in its own time: nothing is evicted exactly if
at no time the fastest node is more than `m_max_event_depth` in front of the slowest. -/
theorem meets_iff_within (hnd : mNodes.Nodup) (hlen : 2 ≤ mNodes.length)
    (hK : K.Pairwise (· < ·)) (h : Lossless mNodes K (as.map (·.message))) :
    Transition.Meets next (fun s a => ¬ s.Evicts a) (start mId mMaxEventDepth mNodes) as ↔
      ∀ pre, pre <+: as → Within mNodes (position (pre.map (·.message))) mMaxEventDepth := by
  induction as using List.reverseRecOn with
  | nil =>
    refine iff_of_true trivial fun pre hpre => ?_
    rw [List.prefix_nil.mp hpre]
    intro n _ n' _
    exact Nat.zero_le _
  | append_singleton as a ih =>
    rw [List.map_append, List.map_singleton] at h
    obtain ⟨s, hs⟩ : ∃ s, stRunning (start mId mMaxEventDepth mNodes) as = some s :=
      ⟨_, stRunning_eq _ as⟩
    have hids : ∀ b ∈ as, b.message.id ∈ mNodes := fun b hb =>
      h.of_append.ids _ (List.mem_map_of_mem hb)
    have hdepth := depth_of_stRunning hs
    rw [Transition.meets_concat, ih h.of_append]
    have hlast (hbefore : ∀ pre, pre <+: as →
        Within mNodes (position (pre.map (·.message))) mMaxEventDepth) :
        ¬ s.Evicts a ↔
          Within mNodes (position ((as ++ [a]).map (·.message))) mMaxEventDepth := by
      have hinv := buildInv_of_stRunning hnd hlen hids (h.of_append.trigOrdered hK) hs
        ((ih h.of_append).mpr hbefore)
      have hwithin := hbefore as (List.prefix_refl as)
      rw [← hdepth] at hwithin ⊢
      rw [List.map_append, List.map_singleton]
      exact not_evicts_iff hnd hlen hK h hinv (bufferInv_of_stRunning hs) hwithin
    constructor
    · rintro ⟨hbefore, hnot⟩ pre hpre
      rcases List.prefix_concat_iff.mp hpre with rfl | hpre
      · exact (hlast hbefore).mp (hnot s hs)
      · exact hbefore pre hpre
    · intro hall
      have hbefore : ∀ pre, pre <+: as →
          Within mNodes (position (pre.map (·.message))) mMaxEventDepth :=
        fun pre hpre => hall pre (hpre.trans (List.prefix_append _ _))
      refine ⟨hbefore, fun s' hs' => ?_⟩
      obtain rfl := Option.some.inj (hs.symm.trans hs')
      exact (hlast hbefore).mpr (hall _ (List.prefix_refl _))

/-- Node 1 gets two triggers in front of node 2. -/
def twoPaces : List Arrival :=
  [RecbeRecord.empty 1 5, RecbeRecord.empty 1 6, RecbeRecord.empty 2 5].map fun r =>
    ⟨r.message, fun _ => 0⟩

theorem lossless_twoPaces : Lossless [1, 2] [5, 6, 7] (twoPaces.map (·.message)) :=
  ⟨by decide, by decide⟩

theorem meets_within_two_paces :
    Transition.Meets next (fun s a => ¬ s.Evicts a) (start 999 2 [1, 2]) twoPaces ∧
      ∀ pre, pre <+: twoPaces → Within [1, 2] (position (pre.map (·.message))) 2 := by
  have hmeets : Transition.Meets next (fun s a => ¬ s.Evicts a) (start 999 2 [1, 2]) twoPaces := by
    decide
  refine ⟨hmeets, ?_⟩
  exact (meets_iff_within 999 2 (by decide) (by decide) (by decide) lossless_twoPaces).mp hmeets

/-- As long as that holds, each trigger goes out when the slowest node has delivered it, in order,
with all its fragments, one of each node; the buffer holds the triggers from there to the fastest
node. -/
theorem lossless_build (hnd : mNodes.Nodup) (hlen : 2 ≤ mNodes.length) (hK : K.Pairwise (· < ·))
    (h : Lossless mNodes K (as.map (·.message)))
    (hwithin : ∀ pre, pre <+: as → Within mNodes (position (pre.map (·.message))) mMaxEventDepth)
    {t : DTeb} (hrun : stRunning (start mId mMaxEventDepth mNodes) as = some t) :
    ∃ behind ahead, Between mNodes (position (as.map (·.message))) behind ahead ∧
      t.sendLog.map (·.eventNumber) = K.take behind ∧
      t.mEvents.map (·.eventNumber) = (K.take ahead).drop behind ∧
      ∀ ev ∈ t.sendLog, ev.Complete mNodes ∧ ev.node.Perm mNodes ∧
        HoldsAll (as.map (·.message)) ev := by
  have hmeets := (meets_iff_within mId mMaxEventDepth hnd hlen hK h).mpr hwithin
  have hids : ∀ b ∈ as, b.message.id ∈ mNodes := fun b hb => h.ids _ (List.mem_map_of_mem hb)
  have hord := h.trigOrdered hK
  have hinv := buildInv_of_stRunning hnd hlen hids hord hrun hmeets
  have hne : mNodes ≠ [] := by
    rintro rfl
    simp at hlen
  have hex : ∃ behind ahead, Between mNodes (position (as.map (·.message))) behind ahead :=
    exists_between hne
  obtain ⟨behind, ahead, hb⟩ := hex
  -- what is sent has a fragment, so it is a trigger of the list
  have hfull : ∀ ev ∈ t.sendLog, Full mNodes (as.map (·.message)) ev.eventNumber := by
    intro ev hev
    have hfew := (fragments_sent (by omega) hrun ev hev).1
    rw [(hinv.sent_holds ev hev).node_length] at hfew
    obtain ⟨fr, hfr⟩ := List.exists_mem_of_ne_nil _ (List.length_pos_iff.mp hfew)
    obtain ⟨m, hm, hid, htrig⟩ := mem_ids_fragmentsOf.mp (List.mem_map_of_mem hfr)
    have hn := h.ids m hm
    have hK' := List.mem_of_mem_take ((h.delivered_iff hn).mp ⟨m, hm, rfl, htrig⟩)
    exact h.full_of_passed hK hK' (hinv.sent_passed ev hev)
  refine ⟨behind, ahead, hb, ?_, numbers_eq hinv (bufferInv_of_stRunning hrun) h hK hb, ?_⟩
  · have hfilter : (t.sendLog.map (·.eventNumber)).filter (Full mNodes (as.map (·.message)) ·) =
        t.sendLog.map (·.eventNumber) := by
      rw [List.filter_eq_self]
      intro k hk
      obtain ⟨ev, hev, rfl⟩ := List.mem_map.mp hk
      exact decide_eq_true (hfull ev hev)
    have hsorted := hinv.sent_sorted
    rw [hfilter] at hsorted
    refine hsorted.eq_of_mem_iff (hK.sublist (List.take_sublist _ _)) fun k => ?_
    rw [← h.full_iff hb, List.mem_map]
    constructor
    · rintro ⟨ev, hev, rfl⟩
      exact hfull ev hev
    · exact hinv.sent_full k
  · intro ev hev
    have hholds := hinv.sent_holds ev hev
    have hperm : ev.node.Perm mNodes := by
      rw [hholds.1]
      exact hord.once.perm_of_full hnd h.ids (hfull ev hev)
    exact ⟨hperm.length_eq.ge, hperm, hholds⟩

theorem lossless_build_two_paces :
    ∃ t, stRunning (start 999 2 [1, 2]) twoPaces = some t ∧
      ∃ behind ahead, Between [1, 2] (position (twoPaces.map (·.message))) behind ahead ∧
        t.sendLog.map (·.eventNumber) = [5, 6, 7].take behind ∧
        t.mEvents.map (·.eventNumber) = ([5, 6, 7].take ahead).drop behind ∧
        ∀ ev ∈ t.sendLog, ev.Complete [1, 2] ∧ ev.node.Perm [1, 2] ∧
          HoldsAll (twoPaces.map (·.message)) ev := by
  refine ⟨_, stRunning_eq _ _, ?_⟩
  refine lossless_build 999 2 (by decide) (by decide) (by decide) lossless_twoPaces ?_
    (stRunning_eq _ _)
  intro pre hpre
  have hlen := hpre.length_le
  rw [List.prefix_iff_eq_take.mp hpre]
  generalize pre.length = k at hlen
  revert k
  decide

end Run

end DTeb

end LebStudy
