import LebStudy.Lib.Transition
import LebStudy.EventBuilder.PackedEvent

/-!
# The send backlog

`send_data` hands a copy of the packed event to zmq and counts it in `g_ebs_depth`; zmq
frees the copy later, from a thread of its own, and `ebs_buf_free` counts it out. A message
whose `send` has thrown is freed as well, by its destructor, and has not been counted in:
from then on the counter is one too low.
-/

namespace LebStudy

/-- Where the event builder stands in `send_data`. -/
inductive SendPc
  | outside
  /-- before `if (g_ebs_depth < 1000)` -/
  | test (ebdata : List UInt8)
  /-- before `ebserver.send(message)`, the message being a copy of `ebdata` -/
  | send (ebdata : List UInt8)
  /-- before `g_ebs_depth++` -/
  | increment (ebdata : List UInt8)
  /-- behind the `catch`, before the destructor of the message -/
  | destroy
  /-- before `disp_throughput(ebdata, nsize)` -/
  | throughput (ebdata : List UInt8)
  deriving DecidableEq, Repr

/-- `send_data` and what it shares with zmq. `held` are the buffers handed to zmq and not yet
released. -/
structure Backlog where
  mId : ℕ
  mNodes : List ℕ
  gEbsDepth : ℤ
  pc : SendPc
  held : List (List UInt8)
  stat : Throughput
  deriving Repr

inductive BacklogAction
  /-- `send_data` is called. -/
  | call (event : EbEvent)
  /-- The event builder goes on; `accepted` says whether `send` accepts the message, if it is
  called, and `elapse` is what the stop watch reads. -/
  | builder (accepted : Bool) (elapse : ℤ)
  /-- zmq releases a buffer. -/
  | release (k : ℕ)

namespace Backlog

/-- A `std::atomic<int>` behind a change by `d`. -/
def atomicAdd (x d : ℤ) : ℤ := (x + d).bmod (2 ^ 32)

def start (mId : ℕ) (mNodes : List ℕ) : Backlog := ⟨mId, mNodes, 0, .outside, [], .start⟩

/-- A step of the event builder within `send_data`. -/
def sendData (s : Backlog) (accepted : Bool) (elapse : ℤ) : Option Backlog :=
  match s.pc with
  | .outside => none
  | .test ebdata =>
    if s.gEbsDepth < 1000 then some { s with pc := .send ebdata }
    else some { s with pc := .throughput ebdata }
  | .send ebdata =>
    if accepted then some { s with pc := .increment ebdata, held := s.held ++ [ebdata] }
    else some { s with pc := .destroy }
  | .increment ebdata =>
    some { s with pc := .throughput ebdata, gEbsDepth := atomicAdd s.gEbsDepth 1 }
  | .destroy =>
    -- `ebs_buf_free` for the message that was not sent; `return -1`
    some { s with pc := .outside, gEbsDepth := atomicAdd s.gEbsDepth (-1) }
  | .throughput ebdata =>
    some { s with pc := .outside, stat := (dispThroughput s.stat ebdata ebdata.length elapse).1 }

def step (s : Backlog) : BacklogAction → Option Backlog
  | .call event =>
    if s.pc = .outside then some { s with pc := .test (packData s.mId s.mNodes event).2 }
    else none
  | .builder accepted elapse => s.sendData accepted elapse
  | .release k =>
    if k < s.held.length then
      some { s with held := s.held.eraseIdx k, gEbsDepth := atomicAdd s.gEbsDepth (-1) }
    else none

/-- Outside of `send_data` the counter is the number of buffers that zmq holds, and there are
never more than 1000 of them. -/
def Exact (s : Backlog) : Prop :=
  (s.pc = .outside → s.gEbsDepth = s.held.length) ∧ s.held.length ≤ 1000

instance (s : Backlog) : Decidable s.Exact := inferInstanceAs (Decidable (_ ∧ _))

/-- `ebserver.send` does not throw. -/
def SendAccepted (s : Backlog) : BacklogAction → Prop
  | .builder accepted _ =>
    match s.pc with
    | .send _ => accepted = true
    | _ => True
  | _ => True

instance (s : Backlog) : (a : BacklogAction) → Decidable (s.SendAccepted a)
  | .builder accepted _ =>
    match hpc : s.pc with
    | .send _ => decidable_of_iff (accepted = true) (by simp [SendAccepted, hpc])
    | .outside | .test _ | .increment _ | .destroy | .throughput _ =>
      .isTrue (by simp [SendAccepted, hpc])
  | .call _ | .release _ => .isTrue trivial

theorem atomicAdd_eq {x d : ℤ} (h : -2 ^ 31 ≤ x + d) (h' : x + d < 2 ^ 31) :
    atomicAdd x d = x + d := by
  rw [atomicAdd, Int.bmod_eq_of_le (by omega) (by omega)]

/-! ### Where nothing has been thrown -/

/-- A buffer that zmq holds and that is not counted yet. -/
def uncounted : SendPc → ℤ
  | .increment _ => 1
  | .outside | .test _ | .send _ | .destroy | .throughput _ => 0

/-- Room is left for the buffer that is to be sent. -/
def room : SendPc → ℕ
  | .send _ => 1
  | .outside | .test _ | .increment _ | .destroy | .throughput _ => 0

/-- Every buffer that zmq holds is counted, or about to be. -/
structure Counted (s : Backlog) : Prop where
  count : s.gEbsDepth + uncounted s.pc = s.held.length
  limit : s.held.length + room s.pc ≤ 1000
  sent : s.pc ≠ .destroy

theorem counted_start (mId : ℕ) (mNodes : List ℕ) : (start mId mNodes).Counted := by
  constructor <;> simp [start, uncounted, room]

theorem Counted.exact {s : Backlog} (h : s.Counted) : s.Exact := by
  obtain ⟨hcount, hlimit, -⟩ := h
  refine ⟨fun hpc => ?_, by omega⟩
  rw [hpc, uncounted] at hcount
  omega

theorem uncounted_nonneg (pc : SendPc) : 0 ≤ uncounted pc ∧ uncounted pc ≤ 1 := by
  cases pc <;> simp [uncounted]

/-- A release counts one buffer less. -/
theorem release_spec {s t : Backlog} {k : ℕ} (h : s.step (.release k) = some t) :
    t.pc = s.pc ∧ t.held.length + 1 = s.held.length ∧
      t.gEbsDepth = atomicAdd s.gEbsDepth (-1) := by
  rw [step] at h
  split at h <;> cases h
  next hk =>
    refine ⟨rfl, ?_, rfl⟩
    rw [List.length_eraseIdx_of_lt hk]
    omega

theorem Counted.step {s t : Backlog} {a : BacklogAction} (hs : s.Counted)
    (haccepted : s.SendAccepted a) (h : s.step a = some t) : t.Counted := by
  obtain ⟨hcount, hlimit, hsent⟩ := hs
  cases a with
  | call event =>
    rw [Backlog.step] at h
    split at h <;> cases h
    next hpc =>
      rw [hpc] at hcount hlimit
      exact ⟨hcount, hlimit, by simp⟩
  | release k =>
    obtain ⟨hpc, hheld, hdepth⟩ := release_spec h
    have hone := uncounted_nonneg s.pc
    rw [atomicAdd_eq (by omega) (by omega)] at hdepth
    refine ⟨?_, ?_, ?_⟩
    · rw [hpc]
      omega
    · rw [hpc]
      omega
    · rw [hpc]
      exact hsent
  | builder accepted elapse =>
    rw [Backlog.step, sendData] at h
    cases hpc : s.pc with
    | outside =>
      rw [hpc] at h
      cases h
    | test ebdata =>
      simp only [hpc, uncounted, room] at h hcount hlimit
      split at h <;> cases h
      · next hdepth =>
        -- the counter is exact here, so the test is one of the buffers held
        refine ⟨hcount, ?_, by simp⟩
        simp only [room]
        omega
      · exact ⟨hcount, hlimit, by simp⟩
    | send ebdata =>
      have hyes : accepted = true := by simpa [SendAccepted, hpc] using haccepted
      simp only [hpc, uncounted, room, hyes, if_true] at h hcount hlimit
      cases h
      refine ⟨?_, ?_, by simp⟩
      · simp only [uncounted, List.length_append, List.length_singleton]
        omega
      · simp only [room, List.length_append, List.length_singleton]
        omega
    | increment ebdata =>
      simp only [hpc, uncounted, room] at h hcount hlimit
      cases h
      refine ⟨?_, hlimit, by simp⟩
      simp only [uncounted]
      rw [atomicAdd_eq (by omega) (by omega)]
      omega
    | destroy => exact absurd hpc hsent
    | throughput ebdata =>
      simp only [hpc, uncounted, room] at h hcount hlimit
      cases h
      exact ⟨hcount, hlimit, by simp⟩

/-! ### Behind the first throw -/

/-- A `send` has thrown for the first time, and its message is not destroyed yet. -/
structure Thrown (s : Backlog) : Prop where
  pc : s.pc = .destroy
  count : s.gEbsDepth = s.held.length
  limit : s.held.length ≤ 1000

theorem Counted.thrown {s t : Backlog} {a : BacklogAction} (hs : s.Counted)
    (hthrow : ¬ s.SendAccepted a) (h : s.step a = some t) : t.Thrown := by
  obtain ⟨hcount, hlimit, -⟩ := hs
  cases a with
  | call event => exact absurd trivial hthrow
  | release k => exact absurd trivial hthrow
  | builder accepted elapse =>
    cases hpc : s.pc with
    | send ebdata =>
      have hno : accepted = false := by simpa [SendAccepted, hpc] using hthrow
      simp only [Backlog.step, sendData, hpc, uncounted, room, hno] at h hcount hlimit
      cases h
      refine ⟨rfl, ?_, ?_⟩
      · show s.gEbsDepth = s.held.length
        omega
      · show s.held.length ≤ 1000
        omega
    | outside | test | increment | destroy | throughput =>
      exact absurd (by simp [SendAccepted, hpc]) hthrow

/-- The destructor takes one buffer too many out of the count. -/
theorem Thrown.step {s t : Backlog} {a : BacklogAction} (hs : s.Thrown)
    (h : s.step a = some t) : t.Thrown ∨ ¬ t.Exact := by
  obtain ⟨hpc, hcount, hlimit⟩ := hs
  cases a with
  | call event =>
    rw [Backlog.step, if_neg (by simp [hpc])] at h
    cases h
  | release k =>
    obtain ⟨hpc', hheld, hdepth⟩ := release_spec h
    rw [atomicAdd_eq (by omega) (by omega)] at hdepth
    exact .inl ⟨hpc'.trans hpc, by omega, by omega⟩
  | builder accepted elapse =>
    simp only [Backlog.step, sendData, hpc] at h
    cases h
    right
    rintro ⟨hexact, -⟩
    have hdepth := hexact rfl
    simp only at hdepth
    rw [atomicAdd_eq (by omega) (by omega)] at hdepth
    omega

/-! ### Over a run -/

/-- As long as no `send` throws, the counter is exact and the backlog bounded, in every state.
A run that ends outside of `send_data` is exact all along only if none has thrown. -/
theorem exact_iff_accepted (mId : ℕ) (mNodes : List ℕ) (as : List BacklogAction) (s : Backlog)
    (hrun : Transition.run step (start mId mNodes) as = some s) :
    (Transition.Meets step SendAccepted (start mId mNodes) as → s.Exact) ∧
      (s.pc = .outside →
        (∀ pre post t, as = pre ++ post → Transition.run step (start mId mNodes) pre = some t →
          t.Exact) →
        Transition.Meets step SendAccepted (start mId mNodes) as) := by
  constructor
  · intro hmeets
    have hcounted : s.Counted := Transition.run_invariant_of_meets (I := Counted)
      (counted_start mId mNodes) (fun _ _ _ hs ha h => hs.step ha h) hrun hmeets
    exact hcounted.exact
  · intro hout hexact
    -- the first throw shows as soon as the event builder has left `send_data`
    have hfirst : Transition.Meets step SendAccepted (start mId mNodes) as ∧ s.Counted ∨
        s.Thrown := by
      clear hout
      induction as using List.reverseRecOn generalizing s with
      | nil =>
        cases hrun
        exact .inl ⟨trivial, counted_start mId mNodes⟩
      | append_singleton as a ih =>
        obtain ⟨u, hu, hstep⟩ := Transition.run_concat_eq_some.mp hrun
        have hpre := ih u hu fun pre post t hsplit ht =>
          hexact pre (post ++ [a]) t (by rw [hsplit, List.append_assoc]) ht
        rcases hpre with ⟨hmeets, hcounted⟩ | hthrown
        · by_cases ha : u.SendAccepted a
          · refine .inl ⟨Transition.meets_concat.mpr ⟨hmeets, fun v hv => ?_⟩,
              hcounted.step ha hstep⟩
            cases hu.symm.trans hv
            exact ha
          · exact .inr (hcounted.thrown ha hstep)
        · rcases hthrown.step hstep with hthrown | hnot
          · exact .inr hthrown
          · exact absurd (hexact (as ++ [a]) [] s (by simp) hrun) hnot
    rcases hfirst with ⟨hmeets, -⟩ | hthrown
    · exact hmeets
    · rw [hthrown.pc] at hout
      cases hout

/-- One event, whose `send` throws. -/
theorem thrown_send_drifts :
    ¬ ∀ (mId : ℕ) (mNodes : List ℕ) (as : List BacklogAction) (s : Backlog),
      Transition.run step (start mId mNodes) as = some s → s.Exact := by
  intro h
  have hexact := h 999 [1] [.call ⟨7, [1], [[0xaa]], false, 0⟩, .builder true 0,
    .builder false 0, .builder true 0] _ rfl
  revert hexact
  decide

/-- Two events; the first is released before the second is counted. -/
def twoEvents : List BacklogAction :=
  [.call ⟨7, [1], [[0xaa]], false, 0⟩, .builder true 0, .builder true 0, .builder true 0,
    .builder true 0, .call ⟨8, [1], [[0xbb]], false, 1⟩, .builder true 0, .builder true 0,
    .release 0, .builder true 0, .builder true 0]

theorem two_events_exact :
    ∃ s, Transition.run step (start 999 [1]) twoEvents = some s ∧ s.held.length = 1 ∧ s.Exact := by
  refine ⟨_, rfl, by decide, ?_⟩
  exact (exact_iff_accepted 999 [1] twoEvents _ rfl).1 (by decide)

end Backlog

end LebStudy
