import LebStudy.FrontEnd.Drecbe
import Mathlib.Logic.Function.Basic

/-!
# One trigger for all emulators

`triggen` publishes its count, and each `drecbe --trig` waits for the next number before a
record. zmq keeps the order for each subscriber, but drops what it cannot queue, so a subscriber
gets some of the numbers. What an emulator writes are the numbers it has got, in order; two
emulators that have got all of them differ by how far they have come.
-/

namespace LebStudy

/-- `*(reinterpret_cast<int *>(msg.data()))` -/
def asInt (m : UInt32) : ℤ := m.toBitVec.toInt

theorem asInt_of_lt {m : UInt32} (h : m.toNat < 2 ^ 31) : asInt m = m.toNat := by
  rw [asInt, BitVec.toInt_eq_toNat_of_lt]
  · rfl
  · show 2 * m.toNat < 2 ^ 32
    omega

/-- `triggen`, the queues of its subscribers, and the emulators behind these. The last two
fields are history: all numbers published, and those queued for each subscriber. -/
structure TrigGen (n : ℕ) where
  trigNum : UInt32
  queues : Fin n → List UInt32
  drecbes : Fin n → Drecbe
  published : List UInt32
  queued : Fin n → List UInt32

/-- What happens next; the external number of a turn is what the emulator's queue holds. -/
inductive TrigGenAction (n : ℕ)
  /-- A number is published, which these subscribers get. -/
  | publish (gets : Fin n → Bool)
  | drecbe (i : Fin n) (a : Drecbe.Action)

namespace TrigGen

variable {n : ℕ}

def start (id : Fin n → ℤ) (gLoseTrig : Fin n → Bool) : TrigGen n where
  trigNum := 0
  queues _ := []
  drecbes i := .start (id i) (gLoseTrig i) true
  published := []
  queued _ := []

/-- The loop of `trig_gen`, once. -/
def publish (s : TrigGen n) (gets : Fin n → Bool) : TrigGen n :=
  let put (i : Fin n) (queue : List UInt32) : List UInt32 :=
    if gets i then queue ++ [s.trigNum] else queue
  { s with
    trigNum := s.trigNum + 1
    queues := fun i => put i (s.queues i)
    published := s.published ++ [s.trigNum]
    queued := fun i => put i (s.queued i) }

/-- A turn that calls `get_trig` waits for a number and takes it out of the queue. -/
def receive (s : TrigGen n) (i : Fin n) : Drecbe.Action → Option (Drecbe.Action × List UInt32)
  | .turn turn =>
    if (s.drecbes i).asks then
      match s.queues i with
      | [] => none
      | m :: queue => some (.turn { turn with external := asInt m }, queue)
    else some (.turn turn, s.queues i)
  | .accept outcome => some (.accept outcome, s.queues i)
  | .acceptFails => some (.acceptFails, s.queues i)

def step (s : TrigGen n) : TrigGenAction n → Option (TrigGen n)
  | .publish gets => some (s.publish gets)
  | .drecbe i a =>
    (s.receive i a).bind fun (a, queue) =>
      ((s.drecbes i).step a).map fun drecbe =>
        { s with
          queues := Function.update s.queues i queue
          drecbes := Function.update s.drecbes i drecbe }

/-- A step of an emulator with its trigger. -/
theorem step_drecbe {s t : TrigGen n} {i : Fin n} {a : Drecbe.Action}
    (h : s.step (.drecbe i a) = some t) :
    ∃ a' queue drecbe, s.receive i a = some (a', queue) ∧ (s.drecbes i).step a' = some drecbe ∧
      t = { s with
        queues := Function.update s.queues i queue
        drecbes := Function.update s.drecbes i drecbe } := by
  obtain ⟨⟨a', queue⟩, hreceive, hstep⟩ := Option.bind_eq_some_iff.mp h
  obtain ⟨drecbe, hdrecbe, rfl⟩ := Option.map_eq_some_iff.mp hstep
  exact ⟨a', queue, drecbe, hreceive, hdrecbe, rfl⟩

/-- What the emulator has taken and what waits for it is what has been queued for it. -/
def Passed (taken : List ℤ) (queue queued : List UInt32) : Prop :=
  taken ++ queue.map asInt = queued.map asInt

structure Relayed (gLoseTrig : Fin n → Bool) (s : TrigGen n) : Prop where
  trigNum : s.trigNum = UInt32.ofNat s.published.length
  published : s.published = (List.range s.published.length).map UInt32.ofNat
  queued : ∀ i, (s.queued i).Sublist s.published
  passed : ∀ i, Passed (s.drecbes i).taken (s.queues i) (s.queued i)
  counted : ∀ i, (s.drecbes i).Counted (gLoseTrig i) true

theorem Relayed.publish {gLoseTrig : Fin n → Bool} {s : TrigGen n} (hs : s.Relayed gLoseTrig)
    (gets : Fin n → Bool) : (s.publish gets).Relayed gLoseTrig where
  trigNum := by
    show s.trigNum + 1 = UInt32.ofNat (s.published ++ [s.trigNum]).length
    rw [hs.trigNum, List.length_append, List.length_singleton, UInt32.ofNat_add]
    rfl
  published := by
    show s.published ++ [s.trigNum] = (List.range (s.published ++ [s.trigNum]).length).map _
    rw [List.length_append, List.length_singleton, List.range_succ, List.map_append,
      ← hs.published, hs.trigNum]
    rfl
  queued i := by
    show (if gets i then s.queued i ++ [s.trigNum] else s.queued i).Sublist
      (s.published ++ [s.trigNum])
    split
    · exact (hs.queued i).append (List.Sublist.refl _)
    · exact (hs.queued i).trans (List.sublist_append_left _ _)
  passed i := by
    show Passed (s.drecbes i).taken (if gets i then s.queues i ++ [s.trigNum] else s.queues i)
      (if gets i then s.queued i ++ [s.trigNum] else s.queued i)
    have hpassed := hs.passed i
    rw [Passed] at hpassed ⊢
    split
    · rw [List.map_append, List.map_append, ← List.append_assoc, hpassed]
    · exact hpassed
  counted := hs.counted

/-- A step of an emulator takes the number at the front of its queue, or none. -/
theorem Passed.step {gLoseTrig : Bool} {s : TrigGen n} {i : Fin n} {a a' : Drecbe.Action}
    {queue : List UInt32} {drecbe : Drecbe} {queued : List UInt32}
    (h : Passed (s.drecbes i).taken (s.queues i) queued)
    (hcounted : (s.drecbes i).Counted gLoseTrig true)
    (hreceive : s.receive i a = some (a', queue)) (hstep : (s.drecbes i).step a' = some drecbe) :
    Passed drecbe.taken queue queued := by
  obtain ⟨-, -, hkind⟩ := Drecbe.step_trigger hstep
  rw [Passed] at h ⊢
  rw [← h]
  cases a with
  | accept outcome | acceptFails =>
    cases hreceive
    cases hkind with
    | idle _ hidle taken trigNum lost triggers => rw [taken]
  | turn turn =>
    rw [receive] at hreceive
    split at hreceive
    · next hasks =>
      split at hreceive
      · cases hreceive
      · next m rest hqueue =>
        cases hreceive
        cases hkind with
        | idle _ hidle taken trigNum lost triggers =>
          exact absurd (hidle _ rfl) (by simp [hasks])
        | take _ k _ taken external own used =>
          rw [hqueue, taken, external hcounted.ext_eq, List.append_assoc]
          rfl
    · next hasks =>
      cases hreceive
      cases hkind with
      | idle _ hidle taken trigNum lost triggers => rw [taken]
      | take _ k hasks' taken external own used => exact absurd hasks' hasks

theorem Relayed.step {gLoseTrig : Fin n → Bool} {s t : TrigGen n} {a : TrigGenAction n}
    (hs : s.Relayed gLoseTrig) (h : s.step a = some t) : t.Relayed gLoseTrig := by
  cases a with
  | publish gets =>
    cases h
    exact hs.publish gets
  | drecbe i a =>
    obtain ⟨a', queue, drecbe, hreceive, hstep, rfl⟩ := step_drecbe h
    refine ⟨hs.trigNum, hs.published, hs.queued, fun j => ?_, fun j => ?_⟩
    · show Passed (Function.update s.drecbes i drecbe j).taken (Function.update s.queues i queue j)
        (s.queued j)
      by_cases hj : j = i
      · subst hj
        rw [Function.update_self, Function.update_self]
        exact (hs.passed j).step (hs.counted j) hreceive hstep
      · rw [Function.update_of_ne hj, Function.update_of_ne hj]
        exact hs.passed j
    · show (Function.update s.drecbes i drecbe j).Counted (gLoseTrig j) true
      by_cases hj : j = i
      · subst hj
        rw [Function.update_self]
        exact (hs.counted j).step hstep
      · rw [Function.update_of_ne hj]
        exact hs.counted j

theorem relayed_of_run {id : Fin n → ℤ} {gLoseTrig : Fin n → Bool}
    {actions : List (TrigGenAction n)} {s : TrigGen n}
    (hrun : Transition.run step (start id gLoseTrig) actions = some s) : s.Relayed gLoseTrig := by
  refine Transition.run_invariant ?_ (fun _ _ _ hs h => hs.step h) hrun
  refine ⟨rfl, rfl, fun i => List.Sublist.refl _, fun i => rfl, fun i => ?_⟩
  exact Drecbe.counted_start (id i) (gLoseTrig i) true

/-- As long as the counts stay non-negative for an `int`, the numbers published are read as they
are. -/
theorem Relayed.asInt_published {gLoseTrig : Fin n → Bool} {s : TrigGen n}
    (hs : s.Relayed gLoseTrig) (hlt : s.published.length ≤ 2 ^ 31) :
    s.published.map asInt = (List.range s.published.length).map Int.ofNat := by
  conv_lhs => rw [hs.published, List.map_map]
  apply List.map_congr_left
  intro k hk
  have hk := List.mem_range.mp hk
  have hnat : (UInt32.ofNat k).toNat = k := UInt32.toNat_ofNat_of_lt (by rw [UInt32.size]; omega)
  rw [Function.comp_apply, asInt_of_lt (by omega), hnat]
  rfl

/-- The numbers taken are different. -/
theorem Relayed.numbers {gLoseTrig : Fin n → Bool} {s : TrigGen n} (hs : s.Relayed gLoseTrig)
    (hlt : s.published.length ≤ 2 ^ 31) (i : Fin n) : Drecbe.Numbers (s.drecbes i).taken := by
  have hsub : (s.drecbes i).taken.Sublist ((List.range s.published.length).map Int.ofNat) := by
    rw [← hs.asInt_published hlt]
    refine List.Sublist.trans ?_ ((hs.queued i).map asInt)
    rw [← hs.passed i]
    exact List.sublist_append_left _ _
  refine ⟨hsub.nodup (List.Nodup.map (fun a b hab => Int.ofNat.inj hab) List.nodup_range),
    fun k hk => ?_⟩
  obtain ⟨j, hj, rfl⟩ := List.mem_map.mp (hsub.subset hk)
  have hj := List.mem_range.mp hj
  simp only [Int.ofNat_eq_natCast]
  omega

/-- The front of a count from zero is a count from zero. -/
theorem eq_range_of_append {taken ahead : List ℤ} {k : ℕ}
    (h : taken ++ ahead = (List.range k).map Int.ofNat) :
    taken.map Int.toNat = List.range taken.length := by
  have htake : taken = ((List.range k).map Int.ofNat).take taken.length := by
    rw [← h, List.take_left]
  have hlen : taken.length ≤ k := by
    have hlen := congrArg List.length h
    simp at hlen
    omega
  rw [← List.map_take, List.take_range, Nat.min_eq_left hlen] at htake
  conv_lhs => rw [htake, List.map_map]
  exact List.map_id _

section Main

variable (id : Fin n → ℤ) (gLoseTrig : Fin n → Bool) (actions : List (TrigGenAction n))
  {s : TrigGen n}

/-- In any interleaving, whatever the publisher drops: an emulator takes the numbers queued for
it, some of those published, in order, and writes all of them over its connections but those that
it loses. If nothing is dropped or lost for it, these are all the numbers up to some point, so two
such emulators have written the same, as far as both have come. -/
theorem emulators_follow (hrun : Transition.run step (start id gLoseTrig) actions = some s)
    (hlt : s.published.length ≤ 2 ^ 31) :
    (∀ i, (s.drecbes i).taken ++ (s.queues i).map asInt = (s.queued i).map asInt ∧
      (s.queued i).Sublist ((List.range s.published.length).map UInt32.ofNat) ∧
      (s.drecbes i).triggers =
        ((s.drecbes i).taken.filter (· ∉ (s.drecbes i).lost)).map Int.toNat ∧
      ∀ k ∈ (s.drecbes i).lost, 0 < k ∧ k ∈ (s.drecbes i).taken) ∧
    (∀ i, gLoseTrig i = false → s.queued i = s.published →
      (s.drecbes i).triggers = List.range (s.drecbes i).triggers.length) := by
  have hrelayed := relayed_of_run hrun
  have haccounted (i : Fin n) := (hrelayed.counted i).accounted (hrelayed.numbers hlt i)
  refine ⟨fun i => ⟨hrelayed.passed i, ?_, (haccounted i).written, (haccounted i).lost⟩,
    fun i hlose hqueued => ?_⟩
  · rw [← hrelayed.published]
    exact hrelayed.queued i
  · have htaken := hrelayed.passed i
    rw [Passed, hqueued, hrelayed.asInt_published hlt] at htaken
    have hkept : (s.drecbes i).triggers = (s.drecbes i).taken.map Int.toNat := by
      rw [(haccounted i).written, (haccounted i).kept hlose]
      simp
    rw [hkept, List.length_map]
    exact eq_range_of_append htaken

end Main

/-- Three numbers are published, the second emulator misses the second of them. -/
def missesOne : List (TrigGenAction 2) :=
  let first : Fin 2 := (Fin.last 0).castSucc
  let second : Fin 2 := Fin.last 1
  let accept : Drecbe.Action := .accept fun _ => .accepts 1000
  let turn : Drecbe.Action := .turn ⟨0, false, 0⟩
  [.drecbe first accept, .drecbe second accept,
    .publish fun _ => true, .publish fun i => i.val == 0, .drecbe second turn,
    .publish fun _ => true, .drecbe second turn, .drecbe first turn, .drecbe first turn]

set_option maxRecDepth 4000 in
theorem emulators_follow_missesOne :
    ∃ s, Transition.run step (start (fun i => i + 1) fun _ => false) missesOne = some s ∧
      (s.drecbes 1).triggers = [0, 2] ∧ (s.drecbes 0).triggers = [0, 1] ∧
      (s.queued 0 = s.published →
        (s.drecbes 0).triggers = List.range (s.drecbes 0).triggers.length) := by
  refine ⟨_, rfl, rfl, rfl, ?_⟩
  exact (emulators_follow (fun i => i + 1) (fun _ => false) missesOne rfl (by decide)).2 0 rfl

end TrigGen

end LebStudy
