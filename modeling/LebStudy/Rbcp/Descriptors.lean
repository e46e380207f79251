import LebStudy.Lib.Ledger
import LebStudy.Rbcp.Relay

/-!
# The descriptor of an `RBCP` object

`m_sock` and `m_is_open` say together what an object owns: `m_sock`, if it is open. `open`
keeps neither of the two in order by itself: it overwrites the descriptor of an object that
is open, and where `connect` fails it leaves behind the one that it has closed. `close`
does not look at `m_is_open`. So what goes wrong is an `open` of an object that is open,
and a `close` of one that is not.
-/

namespace LebStudy

open Ledger (held Proper proper_concat held_concat)

/-- The members of an `RBCP` object that concern its descriptor; the destructor has run; the
descriptors that it got from `socket` and gave to `::close`, in their order. -/
structure RbcpSock where
  mSock : ℤ
  mIsOpen : Bool
  destroyed : Bool
  trace : List (Ledger.Event ℕ)

/-- What is done with an object, with what the system calls in it do: `getaddrinfo` finds the
host, `socket` gives a descriptor, `connect` succeeds. -/
inductive SockOp
  | opening (found : Bool) (socket : Option ℕ) (connects : Bool)
  | closing
  | destroying
  deriving DecidableEq, Repr

namespace RbcpSock

/-- `RBCP::RBCP` -/
def start : RbcpSock := ⟨0, false, false, []⟩

/-- The descriptors that the object got from `socket` and that are not closed. -/
def owned (s : RbcpSock) : List ℕ := held s.trace

/-- `::close(fd)`. No descriptor is negative. -/
def sysClose (fd : ℤ) : List (Ledger.Event ℕ) := if 0 ≤ fd then [.released fd.toNat] else []

/-- `RBCP::close` -/
def close (s : RbcpSock) : RbcpSock :=
  { s with mIsOpen := false, trace := s.trace ++ sysClose s.mSock }

/-- `RBCP::open` from `socket` on. `socket` gives no descriptor that is open already. -/
def connectTo (s : RbcpSock) (connects : Bool) : Option ℕ → Option RbcpSock
  | none => some { s with mSock := -1 }
  | some fd =>
    if fd ∈ s.owned then none
    else if connects then
      some { s with mSock := fd, mIsOpen := true, trace := s.trace ++ [.acquired fd] }
    else
      -- the number stays in `m_sock`
      some { s with mSock := fd, trace := s.trace ++ [.acquired fd] ++ sysClose fd }

/-- `RBCP::~RBCP` -/
def destroy (s : RbcpSock) : RbcpSock :=
  if s.mIsOpen then { s.close with destroyed := true } else { s with destroyed := true }

/-- A call, while the object lives. -/
def step (s : RbcpSock) (op : SockOp) : Option RbcpSock :=
  if s.destroyed then none
  else
    match op with
    | .opening found socket connects => if found then s.connectTo connects socket else some s
    | .closing => some s.close
    | .destroying => some s.destroy

/-- Each descriptor that the object got from `socket` has been closed as often as it got it, and
only while it owned it. -/
def ClosedOnce (s : RbcpSock) : Prop :=
  Proper s.trace ∧ ∀ fd, s.trace.count (.released fd) = s.trace.count (.acquired fd)

/-- An `open` that gets to `socket` finds the object closed; a `close` finds it open, or without
a descriptor since `socket` has failed. -/
def InOrder (s : RbcpSock) : SockOp → Prop
  | .opening found _ _ => found = true → s.mIsOpen = false
  | .closing => s.mIsOpen = true ∨ s.mSock < 0
  | .destroying => True

instance (s : RbcpSock) (op : SockOp) : Decidable (s.InOrder op) :=
  match op with
  | .opening found _ _ => inferInstanceAs (Decidable (found = true → s.mIsOpen = false))
  | .closing => inferInstanceAs (Decidable (_ ∨ _))
  | .destroying => inferInstanceAs (Decidable True)

/-! ### In order, and out of order for good -/

/-- The object owns `m_sock`, if it is open. -/
structure Tidy (s : RbcpSock) : Prop where
  proper : Proper s.trace
  opened : s.mIsOpen = true → ∃ fd : ℕ, s.mSock = fd ∧ s.owned = [fd]
  closed : s.mIsOpen = false → s.owned = []

/-- Something was closed that the object did not own, or it owns something that it has lost. -/
def Broken (s : RbcpSock) : Prop :=
  ¬ Proper s.trace ∨ ∃ fd ∈ s.owned, s.mSock ≠ fd

section Steps

variable {s t : RbcpSock} {op : SockOp} {fd : ℕ}

@[simp] theorem sysClose_natCast (fd : ℕ) : sysClose fd = [.released fd] := by
  rw [sysClose, if_pos (Int.natCast_nonneg fd), Int.toNat_natCast]

theorem sysClose_neg {n : ℤ} (h : n < 0) : sysClose n = [] := if_neg (by omega)

/-- What a call comes to. -/
theorem step_cases (hstep : s.step op = some t) : s.destroyed = false ∧
    ((∃ socket connects, op = .opening true socket connects ∧
        s.connectTo connects socket = some t) ∨
      (∃ socket connects, op = .opening false socket connects ∧ t = s) ∨
      (op = .closing ∧ t = s.close) ∨ (op = .destroying ∧ t = s.destroy)) := by
  unfold step at hstep
  split at hstep
  · cases hstep
  · next halive =>
    refine ⟨Bool.not_eq_true _ ▸ halive, ?_⟩
    cases op with
    | opening found socket connects =>
      cases found with
      | false => exact .inr (.inl ⟨socket, connects, rfl, (Option.some.inj hstep).symm⟩)
      | true => exact .inl ⟨socket, connects, rfl, hstep⟩
    | closing => exact .inr (.inr (.inl ⟨rfl, (Option.some.inj hstep).symm⟩))
    | destroying => exact .inr (.inr (.inr ⟨rfl, (Option.some.inj hstep).symm⟩))

/-- What `open` comes to from `socket` on. -/
theorem connectTo_cases {socket : Option ℕ} {connects : Bool}
    (hstep : s.connectTo connects socket = some t) :
    t = { s with mSock := -1 } ∨ ∃ fd : ℕ, fd ∉ s.owned ∧
      (t = { s with mSock := fd, mIsOpen := true, trace := s.trace ++ [.acquired fd] } ∨
        t = { s with mSock := fd, trace := s.trace ++ [.acquired fd] ++ [.released fd] }) := by
  cases socket with
  | none => exact .inl (Option.some.inj hstep).symm
  | some fd =>
    rw [connectTo] at hstep
    split at hstep
    · cases hstep
    · next hnew =>
      refine .inr ⟨fd, hnew, ?_⟩
      split at hstep
      · exact .inl (Option.some.inj hstep).symm
      · rw [sysClose_natCast] at hstep
        exact .inr (Option.some.inj hstep).symm

theorem owned_acquired (s : RbcpSock) (fd : ℕ) :
    held (s.trace ++ [.acquired fd]) = fd :: s.owned := held_concat _ _

theorem owned_released (s : RbcpSock) (fd : ℕ) :
    held (s.trace ++ [.released fd]) = s.owned.erase fd := held_concat _ _

/-- A descriptor that is closed at once. -/
theorem owned_acquired_released (s : RbcpSock) (fd : ℕ) :
    held (s.trace ++ [.acquired fd] ++ [.released fd]) = s.owned := by
  rw [held_concat, owned_acquired]
  exact List.erase_cons_head fd s.owned

/-- A descriptor owned before `open` overwrites `m_sock` is lost. -/
theorem lost_of_connectTo {socket : Option ℕ} {connects : Bool} (hmem : fd ∈ s.owned)
    (hstep : s.connectTo connects socket = some t) : fd ∈ t.owned ∧ t.mSock ≠ fd := by
  rcases connectTo_cases hstep with rfl | ⟨new, hnew, rfl | rfl⟩
  · refine ⟨hmem, ?_⟩
    show (-1 : ℤ) ≠ fd
    omega
  · have hne : new ≠ fd := fun heq => hnew (heq ▸ hmem)
    refine ⟨?_, Int.ofNat_inj.not.mpr hne⟩
    show fd ∈ held (s.trace ++ [.acquired new])
    rw [owned_acquired]
    exact List.mem_cons_of_mem _ hmem
  · have hne : new ≠ fd := fun heq => hnew (heq ▸ hmem)
    refine ⟨?_, Int.ofNat_inj.not.mpr hne⟩
    show fd ∈ held (s.trace ++ [.acquired new] ++ [.released new])
    rw [owned_acquired_released]
    exact hmem

theorem proper_of_connectTo {socket : Option ℕ} {connects : Bool}
    (hstep : s.connectTo connects socket = some t) (h : Proper t.trace) : Proper s.trace := by
  rcases connectTo_cases hstep with rfl | ⟨new, -, rfl | rfl⟩
  · exact h
  · exact Ledger.Proper.of_append h
  · exact Ledger.Proper.of_append (Ledger.Proper.of_append h)

theorem proper_acquired (h : Proper s.trace) (fd : ℕ) : Proper (s.trace ++ [.acquired fd]) :=
  proper_concat.mpr ⟨h, fun _ heq => nomatch heq⟩

theorem proper_released (s : RbcpSock) (fd : ℕ) :
    Proper (s.trace ++ [.released fd]) ↔ Proper s.trace ∧ fd ∈ s.owned := by
  rw [proper_concat]
  refine and_congr_right fun _ => ⟨fun h => h fd rfl, ?_⟩
  rintro hmem a ⟨⟩
  exact hmem

theorem tidy_start : Tidy start where
  proper := Ledger.proper_nil
  opened := fun h => nomatch h
  closed := fun _ => rfl

theorem tidy_connectTo {connects : Bool} {socket : Option ℕ} (h : Tidy s)
    (hclosed : s.mIsOpen = false) (hstep : s.connectTo connects socket = some t) : Tidy t := by
  have howned := h.closed hclosed
  rcases connectTo_cases hstep with rfl | ⟨fd, -, rfl | rfl⟩
  · exact ⟨h.proper, fun hopen => absurd (hclosed.symm.trans hopen) Bool.false_ne_true,
      fun _ => howned⟩
  · refine ⟨proper_acquired h.proper fd, fun _ => ⟨fd, rfl, ?_⟩, fun hfalse => nomatch hfalse⟩
    exact (owned_acquired s fd).trans (congrArg (fd :: ·) howned)
  · refine ⟨?_, fun hopen => absurd (hclosed.symm.trans hopen) Bool.false_ne_true,
      fun _ => (owned_acquired_released s fd).trans howned⟩
    refine proper_concat.mpr ⟨proper_acquired h.proper fd, ?_⟩
    rintro a ⟨⟩
    rw [owned_acquired]
    exact List.mem_cons_self

theorem tidy_close (h : Tidy s) (horder : s.InOrder .closing) : Tidy s.close := by
  have hboth : Proper (s.trace ++ sysClose s.mSock) ∧ held (s.trace ++ sysClose s.mSock) = [] := by
    cases hopen : s.mIsOpen with
    | true =>
      obtain ⟨fd, hsock, howned⟩ := h.opened hopen
      rw [hsock, sysClose_natCast, proper_released, owned_released, howned]
      exact ⟨⟨h.proper, List.mem_singleton_self fd⟩, List.erase_cons_head fd []⟩
    | false =>
      have hneg : s.mSock < 0 := horder.resolve_left (by rw [hopen]; exact Bool.false_ne_true)
      rw [sysClose_neg hneg, List.append_nil]
      exact ⟨h.proper, h.closed hopen⟩
  exact ⟨hboth.1, fun hopen => absurd hopen Bool.false_ne_true, fun _ => hboth.2⟩

theorem tidy_destroy (h : Tidy s) : Tidy s.destroy ∧ s.destroy.mIsOpen = false := by
  rw [destroy]
  split
  · next hopen =>
    have hclose := tidy_close h (.inl hopen)
    exact ⟨⟨hclose.proper, hclose.opened, hclose.closed⟩, rfl⟩
  · next hopen => exact ⟨⟨h.proper, h.opened, h.closed⟩, Bool.not_eq_true _ ▸ hopen⟩

/-- What is in order keeps the object tidy. -/
theorem tidy_step (h : Tidy s) (horder : s.InOrder op) (hstep : s.step op = some t) : Tidy t := by
  obtain ⟨socket, connects, rfl, hconnect⟩ | ⟨socket, connects, rfl, rfl⟩ | ⟨rfl, rfl⟩ |
    ⟨rfl, rfl⟩ := (step_cases hstep).2
  · exact tidy_connectTo h (horder rfl) hconnect
  · exact h
  · exact tidy_close h horder
  · exact (tidy_destroy h).1

/-- The first call out of order breaks it. -/
theorem broken_of_disorder (h : Tidy s) (hnot : ¬ s.InOrder op) (hstep : s.step op = some t) :
    Broken t := by
  obtain ⟨socket, connects, rfl, hconnect⟩ | ⟨socket, connects, rfl, rfl⟩ | ⟨rfl, rfl⟩ |
    ⟨rfl, rfl⟩ := (step_cases hstep).2
  · have hopen : s.mIsOpen = true := by
      by_contra hclosed
      exact hnot fun _ => Bool.not_eq_true _ ▸ hclosed
    obtain ⟨old, hsock, howned⟩ := h.opened hopen
    have hmem : old ∈ s.owned := howned ▸ List.mem_singleton_self old
    exact .inr ⟨old, lost_of_connectTo hmem hconnect⟩
  · exact absurd (fun hfalse => absurd hfalse Bool.false_ne_true) hnot
  · obtain ⟨hopen, hsock⟩ := not_or.mp hnot
    obtain ⟨fd, hfd⟩ := Int.eq_ofNat_of_zero_le (Int.not_lt.mp hsock)
    refine .inl fun hproper => ?_
    have hproper' : Proper (s.trace ++ sysClose s.mSock) := hproper
    rw [hfd, sysClose_natCast, proper_released, h.closed (Bool.not_eq_true _ ▸ hopen)] at hproper'
    exact List.not_mem_nil hproper'.2
  · exact absurd trivial hnot

theorem broken_close (h : Broken s) : Broken s.close := by
  rcases h with hnot | ⟨fd, hmem, hne⟩
  · exact .inl fun hproper => hnot (Ledger.Proper.of_append hproper)
  · refine .inr ⟨fd, ?_, hne⟩
    show fd ∈ held (s.trace ++ sysClose s.mSock)
    by_cases hneg : s.mSock < 0
    · rw [sysClose_neg hneg, List.append_nil]
      exact hmem
    · obtain ⟨n, hn⟩ := Int.eq_ofNat_of_zero_le (Int.not_lt.mp hneg)
      have hfd : fd ≠ n := fun heq => hne (by rw [hn, heq])
      rw [hn, sysClose_natCast, owned_released]
      exact (List.mem_erase_of_ne hfd).mpr hmem

/-- What is broken stays so: a lost descriptor is given by no `socket`. -/
theorem broken_step (h : Broken s) (hstep : s.step op = some t) : Broken t := by
  obtain ⟨socket, connects, rfl, hconnect⟩ | ⟨socket, connects, rfl, rfl⟩ | ⟨rfl, rfl⟩ |
    ⟨rfl, rfl⟩ := (step_cases hstep).2
  · cases h with
    | inl hnot => exact .inl fun hproper => hnot (proper_of_connectTo hconnect hproper)
    | inr hlost =>
      obtain ⟨fd, hmem, -⟩ := hlost
      exact .inr ⟨fd, lost_of_connectTo hmem hconnect⟩
  · exact h
  · exact broken_close h
  · rw [destroy]
    split
    · exact broken_close h
    · exact h

/-- What has been broken is not closed once. -/
theorem not_closedOnce_of_broken (h : Broken s) : ¬ s.ClosedOnce := by
  rintro ⟨hproper, hcount⟩
  rcases h with hnot | ⟨fd, hmem, -⟩
  · exact hnot hproper
  · have hnil : s.owned = [] := hproper.held_eq_nil_iff.mpr hcount
    rw [hnil] at hmem
    exact List.not_mem_nil hmem

end Steps

/-! ### A whole life -/

/-- In the whole life of an object each descriptor is closed once and none that is not owned,
exactly if every call is in order. -/
theorem closed_once_iff {ops : List SockOp} {t : RbcpSock}
    (hrun : Transition.run step start (ops ++ [.destroying]) = some t) :
    t.ClosedOnce ↔ Transition.Meets step InOrder start ops := by
  obtain ⟨s, hs, hdestroy⟩ := Transition.run_concat_eq_some.mp hrun
  have htidy : ∀ u, Transition.Meets step InOrder start ops →
      Transition.run step start ops = some u → Tidy u := fun u hmeets hu =>
    Transition.run_invariant_of_meets tidy_start (fun _ _ _ => tidy_step) hu hmeets
  constructor
  · intro hclosed
    have hcases := Transition.meets_or tidy_start (fun _ _ _ => tidy_step)
      (fun _ _ _ => broken_of_disorder) (fun _ _ _ => broken_step) hs
    rcases hcases with ⟨hmeets, -⟩ | hbroken
    · exact hmeets
    · exact absurd hclosed (not_closedOnce_of_broken (broken_step hbroken hdestroy))
  · intro hmeets
    obtain ⟨hend, hclosed⟩ := tidy_destroy (htidy s hmeets hs)
    obtain ⟨_, _, heq, -⟩ | ⟨_, _, heq, -⟩ | ⟨heq, -⟩ | ⟨-, rfl⟩ := (step_cases hdestroy).2
    · cases heq
    · cases heq
    · cases heq
    · exact ⟨hend.proper, hend.proper.held_eq_nil_iff.mp (hend.closed hclosed)⟩

/-- An object that is opened, closed and destroyed. -/
theorem closed_once_opened_closed :
    ClosedOnce ⟨3, false, true, [.acquired 3, .released 3]⟩ := by
  have hiff : ClosedOnce ⟨3, false, true, [.acquired 3, .released 3]⟩ ↔
      Transition.Meets step InOrder start [.opening true (some 3) true, .closing] :=
    closed_once_iff (by rfl)
  exact hiff.mpr (by decide)

/-- What `relay` does where `connect` fails: `open` closes the descriptor, and `close` closes the
number again. -/
theorem failed_connect_closes_twice :
    ¬ ∀ (ops : List SockOp) (t : RbcpSock),
      Transition.run step start (ops ++ [.destroying]) = some t → t.ClosedOnce := by
  intro h
  obtain ⟨hproper, -⟩ := h [.opening true (some 3) false, .closing]
    ⟨3, false, true, [.acquired 3, .released 3, .released 3]⟩ (by rfl)
  exact absurd (hproper [.acquired 3, .released 3] 3 [] rfl) (by decide)

end RbcpSock

/-! ### What `relay` does with its object -/

/-- The calls for a hop: `close` follows whatever `open` comes to, unless `relay` returns behind
an `open` that succeeds; that destroys the object. -/
def SockOp.ofHop (found : Bool) (socket : Option ℕ) (connects returns : Bool) : List SockOp :=
  .opening found socket connects ::
    if found && socket.isSome && connects && returns then [.destroying] else [.closing]

/-- The calls of a turn for `rbcp`. -/
def Relay.sockOps (getaddrinfo : String → Option UInt32) (s : Relay) (i : RelayInput)
    (socket : Option ℕ) (connects : Bool) : List SockOp :=
  let buf := (s.receive i.packet).2.buf
  if buf 0 = rbcpTypeHop then
    SockOp.ofHop (getaddrinfo (ipUint2char (EbcpHeader.ofBuffer buf).destIp)).isSome socket connects
      (s.turn getaddrinfo i).1.returned.isSome
  else []

namespace RbcpSock

/-- The `open` succeeds, or it fails in `socket`; or no host is found, and `socket` has failed the
last time it was called. -/
def OpensOrHasNone (sock : RbcpSock) (found : Bool) (socket : Option ℕ) (connects : Bool) : Prop :=
  if found then socket = none ∨ connects = true else sock.mSock < 0

theorem meets_closing {sock : RbcpSock} :
    Transition.Meets step InOrder sock [.closing] ↔ sock.mIsOpen = true ∨ sock.mSock < 0 :=
  and_iff_left fun _ _ => trivial

section Hop

variable {sock : RbcpSock} {found connects returns : Bool} {socket : Option ℕ}

/-- Only the `close` behind a failed `open` can be out of order. -/
theorem meets_ofHop (hclosed : sock.mIsOpen = false) (halive : sock.destroyed = false) :
    Transition.Meets step InOrder sock (SockOp.ofHop found socket connects returns) ↔
      ∀ t, (if found then sock.connectTo connects socket else some sock) = some t →
        Transition.Meets step InOrder t
          (if found && socket.isSome && connects && returns then [.destroying] else [.closing]) := by
  have hopening : sock.InOrder (.opening found socket connects) := fun _ => hclosed
  have hstep : sock.step (.opening found socket connects) =
      if found then sock.connectTo connects socket else some sock := by
    rw [step, halive]
    rfl
  rw [SockOp.ofHop, Transition.meets_cons, hstep, and_iff_right hopening]

theorem ofHop_inOrder_iff (htidy : sock.Tidy) (hclosed : sock.mIsOpen = false)
    (halive : sock.destroyed = false) :
    Transition.Meets step InOrder sock (SockOp.ofHop found socket connects returns) ↔
      sock.OpensOrHasNone found socket connects := by
  rw [meets_ofHop hclosed halive]
  cases found with
  | false =>
    show (∀ t, some sock = some t → Transition.Meets step InOrder t [.closing]) ↔ sock.mSock < 0
    simp only [Option.some.injEq, forall_eq', meets_closing, hclosed, Bool.false_eq_true, false_or]
  | true =>
    cases socket with
    | none =>
      refine iff_of_true ?_ (.inl rfl)
      rintro t ⟨⟩
      exact meets_closing.mpr (.inr (show (-1 : ℤ) < 0 by decide))
    | some fd =>
      have hnew : fd ∉ sock.owned := by
        rw [htidy.closed hclosed]
        exact List.not_mem_nil
      rw [if_pos rfl, connectTo, if_neg hnew]
      cases connects with
      | true =>
        refine iff_of_true ?_ (.inr rfl)
        rintro t ⟨⟩
        split
        · exact ⟨trivial, fun _ _ => trivial⟩
        · exact meets_closing.mpr (.inl rfl)
      | false =>
        -- the number of the closed descriptor is closed again
        refine iff_of_false (fun h => ?_) (by simp [OpensOrHasNone])
        cases meets_closing.mp (h _ rfl) with
        | inl hopen => exact absurd (hclosed.symm.trans hopen) Bool.false_ne_true
        | inr hneg => exact absurd hneg (Int.not_lt.mpr (Int.natCast_nonneg fd))

/-- A turn of the relay keeps the order exactly if its `open` succeeds or leaves no descriptor
number behind. -/
theorem sockOps_inOrder_iff {getaddrinfo : String → Option UInt32} {s : Relay} {i : RelayInput}
    (htidy : sock.Tidy) (hclosed : sock.mIsOpen = false) (halive : sock.destroyed = false) :
    Transition.Meets step InOrder sock (s.sockOps getaddrinfo i socket connects) ↔
      ((s.receive i.packet).2.buf 0 = rbcpTypeHop → sock.OpensOrHasNone
        (getaddrinfo (ipUint2char
          (EbcpHeader.ofBuffer (s.receive i.packet).2.buf).destIp)).isSome socket connects) := by
  rw [Relay.sockOps]
  by_cases hhop : (s.receive i.packet).2.buf 0 = rbcpTypeHop
  · rw [if_pos hhop, forall_prop_of_true hhop]
    exact ofHop_inOrder_iff htidy hclosed halive
  · rw [if_neg hhop]
    exact iff_of_true (Transition.meets_nil sock) fun h => absurd h hhop

end Hop

end RbcpSock

end LebStudy
