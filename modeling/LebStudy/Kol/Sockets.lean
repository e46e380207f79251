import LebStudy.Lib.Ledger
import LebStudy.Lib.Transition

/-!
# The descriptors of `kol::Socket` objects

A `Socket` hides a descriptor: copying an object duplicates it, and the object closes what it
holds when it is assigned to, created anew or destroyed. Any number of objects, copied from each
other in any way and with system calls that may fail: each open descriptor belongs to one
object, and each is closed once.
-/

namespace LebStudy

open Ledger (held note Proper proper_concat held_concat)

/-- The objects that live, with their `m_sd`, `invalid` being none; the descriptors acquired and
released, in their order. -/
structure Sockets where
  objects : ℕ → Option (Option ℕ)
  trace : List (Ledger.Event ℕ)

/-- What is done with the objects, and the descriptor that the system call in it answers with, if
it answers with one. -/
inductive SocketOp
  /-- `Socket()` -/
  | construct (i : ℕ)
  /-- `Socket(int domain, int type, int protocol)` -/
  | constructNew (i : ℕ) (answer : Option ℕ)
  /-- `Socket(const Socket& from)` -/
  | copy (i source : ℕ) (answer : Option ℕ)
  /-- The object that `accept` of another returns. -/
  | accept (i source : ℕ) (answer : Option ℕ)
  /-- `operator=(const Socket& from)` -/
  | assign (i source : ℕ) (answer : Option ℕ)
  | close (i : ℕ)
  | create (i : ℕ) (answer : Option ℕ)
  /-- `~Socket()` -/
  | destroy (i : ℕ)
  deriving DecidableEq, Repr

namespace Sockets

def start : Sockets := ⟨fun _ => none, []⟩

/-- The descriptors that are open. -/
def opened (s : Sockets) : List ℕ := held s.trace

def set (s : Sockets) (i : ℕ) (object : Option (Option ℕ)) : Sockets :=
  { s with objects := Function.update s.objects i object }

/-- `m_sd` becomes the descriptor that the system call answers with, which is not one that is
open. -/
def obtains (s : Sockets) (i : ℕ) (fd : ℕ) : Option Sockets :=
  if fd ∈ s.opened then none
  else some ⟨Function.update s.objects i (some (some fd)), s.trace ++ [.acquired fd]⟩

/-- `Socket::close` -/
def closeObject (s : Sockets) (i : ℕ) : Sockets :=
  match s.objects i with
  | some (some fd) => ⟨Function.update s.objects i (some none), s.trace ++ [.released fd]⟩
  | _ => s

/-- An object that is without a descriptor, and a system call that answers or fails: a
constructor then throws, and the others leave the object `invalid`. -/
def answered (s : Sockets) (i : ℕ) : Option ℕ → Option Sockets
  | some fd => s.obtains i fd
  | none => some s

/-- One operation, where it is possible: a constructor takes memory without an object, the others
need theirs to live. -/
def step (s : Sockets) : SocketOp → Option Sockets
  | .construct i => if s.objects i = none then some (s.set i (some none)) else none
  | .constructNew i answer => if s.objects i = none then s.answered i answer else none
  | .copy i source answer =>
    match s.objects i, s.objects source with
    | none, some none => some (s.set i (some none))
    | none, some (some _) => s.answered i answer
    | _, _ => none
  | .accept i source answer =>
    match s.objects i, s.objects source with
    | none, some none => some s
    | none, some (some _) => s.answered i answer
    | _, _ => none
  | .assign i source answer =>
    match s.objects i, s.objects source with
    | some _, some sd =>
      if i = source then some s
      else
        match sd with
        | none => some (s.closeObject i)
        | some _ => (s.closeObject i).answered i answer
    | _, _ => none
  | .close i => if (s.objects i).isSome then some (s.closeObject i) else none
  | .create i answer =>
    if (s.objects i).isSome then (s.closeObject i).answered i answer else none
  | .destroy i => if (s.objects i).isSome then some ((s.closeObject i).set i none) else none

/-- Object `i` holds descriptor `fd`. -/
def Holds (s : Sockets) (i fd : ℕ) : Prop := s.objects i = some (some fd)

/-- Each open descriptor is held by one object, and what an object holds is open. -/
structure Owned (s : Sockets) : Prop where
  proper : Proper s.trace
  nodup : s.opened.Nodup
  opened : ∀ {i fd}, s.Holds i fd → fd ∈ s.opened
  holder : ∀ {fd}, fd ∈ s.opened → ∃ i, s.Holds i fd
  unique : ∀ {i j fd}, s.Holds i fd → s.Holds j fd → i = j

section Steps

variable {s t : Sockets} {i fd : ℕ}

theorem owned_start : Owned start where
  proper := Ledger.proper_nil
  nodup := List.nodup_nil
  opened h := by cases h
  holder h := by cases h
  unique h := by cases h

theorem holds_update {object : Option (Option ℕ)} {trace : List (Ledger.Event ℕ)} {j : ℕ} :
    Holds ⟨Function.update s.objects i object, trace⟩ j fd ↔
      (j = i ∧ object = some (some fd)) ∨ (j ≠ i ∧ s.Holds j fd) := by
  rw [Holds, Holds]
  by_cases hj : j = i
  · subst hj
    simp
  · simp [hj]

/-- Where nothing is held, a place can become empty or `invalid`. -/
theorem owned_set (hs : Owned s) (hfree : ∀ fd, ¬ s.Holds i fd) {object : Option (Option ℕ)}
    (hobject : ∀ fd, object ≠ some (some fd)) : Owned (s.set i object) := by
  have hsame {j fd : ℕ} : (s.set i object).Holds j fd ↔ s.Holds j fd := by
    rw [set, holds_update]
    constructor
    · rintro (⟨-, h⟩ | ⟨-, h⟩)
      · exact absurd h (hobject fd)
      · exact h
    · intro h
      refine .inr ⟨?_, h⟩
      rintro rfl
      exact hfree fd h
  refine ⟨hs.proper, hs.nodup, fun h => hs.opened (hsame.mp h), fun h => ?_, fun h h' =>
    hs.unique (hsame.mp h) (hsame.mp h')⟩
  obtain ⟨j, hj⟩ := hs.holder h
  exact ⟨j, hsame.mpr hj⟩

theorem owned_obtains (hs : Owned s) (hfree : ∀ fd, ¬ s.Holds i fd)
    (h : s.obtains i fd = some t) : Owned t := by
  rw [obtains] at h
  split at h
  · cases h
  · next hfresh =>
    cases h
    have hopened {x : ℕ} : x ∈ held (s.trace ++ [.acquired fd]) ↔ x = fd ∨ x ∈ s.opened := by
      rw [held_concat, note, List.mem_cons]
      rfl
    refine ⟨proper_concat.mpr ⟨hs.proper, fun a ha => by cases ha⟩, ?_, ?_, ?_, ?_⟩
    · show (held (s.trace ++ [.acquired fd])).Nodup
      rw [held_concat]
      exact List.nodup_cons.mpr ⟨hfresh, hs.nodup⟩
    · intro j x hj
      rcases holds_update.mp hj with ⟨-, hx⟩ | ⟨-, hx⟩
      · cases hx
        exact hopened.mpr (.inl rfl)
      · exact hopened.mpr (.inr (hs.opened hx))
    · intro x hx
      rcases hopened.mp hx with rfl | hx
      · exact ⟨i, holds_update.mpr (.inl ⟨rfl, rfl⟩)⟩
      · obtain ⟨j, hj⟩ := hs.holder hx
        refine ⟨j, holds_update.mpr (.inr ⟨?_, hj⟩)⟩
        rintro rfl
        exact hfree x hj
    · intro j k x hj hk
      rcases holds_update.mp hj with ⟨rfl, hx⟩ | ⟨-, hx⟩ <;>
        rcases holds_update.mp hk with ⟨rfl, hx'⟩ | ⟨-, hx'⟩
      · rfl
      · cases hx
        exact absurd (hs.opened hx') hfresh
      · cases hx'
        exact absurd (hs.opened hx) hfresh
      · exact hs.unique hx hx'

theorem owned_answered (hs : Owned s) (hfree : ∀ fd, ¬ s.Holds i fd) {answer : Option ℕ}
    (h : s.answered i answer = some t) : Owned t := by
  cases answer with
  | none =>
    cases h
    exact hs
  | some fd => exact owned_obtains hs hfree h

theorem closeObject_of_holds (h : s.Holds i fd) : s.closeObject i =
    ⟨Function.update s.objects i (some none), s.trace ++ [.released fd]⟩ := by
  rw [closeObject, show s.objects i = some (some fd) from h]

theorem closeObject_of_free (h : ∀ fd, ¬ s.Holds i fd) : s.closeObject i = s := by
  rw [closeObject]
  split
  · next fd hi => exact absurd hi (h fd)
  · rfl

/-- Behind a close nothing is held there. -/
theorem free_closeObject (s : Sockets) (i fd : ℕ) : ¬ (s.closeObject i).Holds i fd := by
  by_cases h : ∃ x, s.Holds i x
  · obtain ⟨x, hx⟩ := h
    rw [closeObject_of_holds hx, holds_update]
    rintro (⟨-, h⟩ | ⟨h, -⟩)
    · cases h
    · exact h rfl
  · rw [closeObject_of_free (not_exists.mp h)]
    exact not_exists.mp h fd

theorem owned_closeObject (hs : Owned s) (i : ℕ) : Owned (s.closeObject i) := by
  by_cases h : ∃ fd, s.Holds i fd
  · obtain ⟨fd, hfd⟩ := h
    rw [closeObject_of_holds hfd]
    have hmem := hs.opened hfd
    have hopened {x : ℕ} : x ∈ held (s.trace ++ [.released fd]) ↔ x ≠ fd ∧ x ∈ s.opened := by
      rw [held_concat, note]
      exact hs.nodup.mem_erase_iff
    refine ⟨proper_concat.mpr ⟨hs.proper, fun a ha => ?_⟩, ?_, ?_, ?_, ?_⟩
    · cases ha
      exact hmem
    · show (held (s.trace ++ [.released fd])).Nodup
      rw [held_concat]
      exact hs.nodup.erase fd
    · intro j x hj
      rcases holds_update.mp hj with ⟨-, hx⟩ | ⟨hne, hx⟩
      · cases hx
      · refine hopened.mpr ⟨?_, hs.opened hx⟩
        rintro rfl
        exact hne (hs.unique hx hfd)
    · intro x hx
      obtain ⟨hne, hx⟩ := hopened.mp hx
      obtain ⟨j, hj⟩ := hs.holder hx
      refine ⟨j, holds_update.mpr (.inr ⟨?_, hj⟩)⟩
      rintro rfl
      exact hne (Option.some.inj (Option.some.inj (hj.symm.trans hfd)))
    · intro j k x hj hk
      rcases holds_update.mp hj with ⟨-, hx⟩ | ⟨-, hx⟩
      · cases hx
      · rcases holds_update.mp hk with ⟨-, hx'⟩ | ⟨-, hx'⟩
        · cases hx'
        · exact hs.unique hx hx'
  · rw [closeObject_of_free (not_exists.mp h)]
    exact hs

theorem free_of_none (h : s.objects i = none) (fd : ℕ) : ¬ s.Holds i fd := by
  rw [Holds, h]
  exact Option.some_ne_none _ ∘ Eq.symm

/-- Every operation keeps each open descriptor with one object. -/
theorem owned_step (hs : Owned s) {op : SocketOp} (hstep : s.step op = some t) : Owned t := by
  have hinvalid (fd : ℕ) : some none ≠ some (some fd) := fun h => by cases h
  cases op with
  | construct i =>
    rw [step] at hstep
    split at hstep
    · next hnone =>
      cases hstep
      exact owned_set hs (free_of_none hnone) hinvalid
    · cases hstep
  | constructNew i answer =>
    rw [step] at hstep
    split at hstep
    · next hnone => exact owned_answered hs (free_of_none hnone) hstep
    · cases hstep
  | copy i source answer =>
    rw [step] at hstep
    split at hstep
    · next hnone _ =>
      cases hstep
      exact owned_set hs (free_of_none hnone) hinvalid
    · next hnone _ => exact owned_answered hs (free_of_none hnone) hstep
    · cases hstep
  | accept i source answer =>
    rw [step] at hstep
    split at hstep
    · cases hstep
      exact hs
    · next hnone _ => exact owned_answered hs (free_of_none hnone) hstep
    · cases hstep
  | assign i source answer =>
    rw [step] at hstep
    split at hstep
    · split at hstep
      · cases hstep
        exact hs
      · split at hstep
        · cases hstep
          exact owned_closeObject hs i
        · exact owned_answered (owned_closeObject hs i) (free_closeObject s i) hstep
    · cases hstep
  | close i =>
    rw [step] at hstep
    split at hstep
    · cases hstep
      exact owned_closeObject hs i
    · cases hstep
  | create i answer =>
    rw [step] at hstep
    split at hstep
    · exact owned_answered (owned_closeObject hs i) (free_closeObject s i) hstep
    · cases hstep
  | destroy i =>
    rw [step] at hstep
    split at hstep
    · cases hstep
      exact owned_set (owned_closeObject hs i) (free_closeObject s i) fun fd h => by cases h
    · cases hstep

end Steps

/-! ### Any operations -/

/-- For any operations on any objects, whichever system calls fail: only descriptors that are open
are closed, each open one is held by exactly one object, and where no object holds one, each has
been closed as often as it was opened. -/
theorem descriptors_owned (ops : List SocketOp) (t : Sockets)
    (hrun : Transition.run step start ops = some t) :
    Proper t.trace ∧ (∀ fd, fd ∈ t.opened ↔ ∃! i, t.Holds i fd) ∧
      ((∀ i fd, ¬ t.Holds i fd) →
        ∀ fd, t.trace.count (.released fd) = t.trace.count (.acquired fd)) := by
  have ht : Owned t := Transition.run_invariant owned_start (fun _ _ _ hs hstep => owned_step hs hstep) hrun
  refine ⟨ht.proper, fun fd => ⟨fun hmem => ?_, ?_⟩, fun hfree => ?_⟩
  · obtain ⟨i, hi⟩ := ht.holder hmem
    exact ⟨i, hi, fun j hj => ht.unique hj hi⟩
  · rintro ⟨i, hi, -⟩
    exact ht.opened hi
  · apply ht.proper.held_eq_nil_iff.mp
    refine List.eq_nil_iff_forall_not_mem.mpr fun fd hmem => ?_
    obtain ⟨i, hi⟩ := ht.holder hmem
    exact hfree i fd hi

/-- A socket is copied, the copy assigned to a third that holds another descriptor, and all are
destroyed; the number that the assignment closes is given out again by its own `dup`. -/
def copies : List SocketOp :=
  [.constructNew 0 (some 3), .copy 1 0 (some 4), .constructNew 2 (some 5), .assign 2 1 (some 5),
    .create 0 none, .destroy 1, .destroy 2, .destroy 0]

theorem descriptors_owned_copies :
    ∃ t, Transition.run step start copies = some t ∧ t.opened = [] ∧ Proper t.trace := by
  refine ⟨_, rfl, by decide, ?_⟩
  exact (descriptors_owned copies _ rfl).1

end Sockets

end LebStudy
