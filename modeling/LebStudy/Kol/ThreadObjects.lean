import LebStudy.Kol.ThreadController

/-!
# The objects and the ids of posted threads

The deleter of a thread joins it before it deletes the object, if the object holds the id of the
thread, and passes its own id on to the deleter after it, if the thread has stored it. Both ids are
stored behind the call of `pthread_create`, and so may come late.
-/

namespace LebStudy

open Transition

namespace ThreadController

variable {n : ℕ}

/-! ### Deleted objects -/

/-- The step uses the object of thread `i`. -/
def Touches (s : ThreadController n) : ThreadAction n → Fin n → Prop
  | .owner _, i => s.owner = .post i ∨ s.owner = .store i
  | .worker j _, i => j = i
  | .deleter j, i => j = i ∧ ¬ (s.threads j).deleter.HasDeleted

/-- A deleter that is about to join its thread finds the id there. -/
def KnowsId (s : ThreadController n) : ThreadAction n → Prop
  | .owner _ | .worker _ _ => True
  | .deleter i => (s.threads i).deleter = .joinThread → (s.threads i).threadid = true

instance : ∀ (s : ThreadController n) (a : ThreadAction n), Decidable (s.KnowsId a)
  | _, .owner _ | _, .worker _ _ => .isTrue trivial
  | s, .deleter i => inferInstanceAs
      (Decidable ((s.threads i).deleter = .joinThread → (s.threads i).threadid = true))

/-- The id of a thread is stored once it has been created, before the next is posted. -/
structure Stored (s : ThreadController n) : Prop where
  known : ∀ i, (s.threads i).worker ≠ .none → (s.threads i).threadid = true ∨ s.owner = .store i
  storing : ∀ i, s.owner = .store i → (s.threads i).threadid = false ∧
    (s.threads i).worker ≠ .none
  unknown : ∀ i, (s.threads i).worker = .none → (s.threads i).threadid = false

/-- What is deleted has been joined. -/
def Joined (s : ThreadController n) : Prop :=
  ∀ i, (s.threads i).deleter = .delete ∨ (s.threads i).deleter.HasDeleted →
    (s.threads i).threadid = true ∧ (s.threads i).worker = .ended

theorem stored_start (n : ℕ) : (start n).Stored := by
  constructor <;> simp [start]

section Touch

variable {s t : ThreadController n} {i : Fin n}

/-- Only the ids, where the owner stores one, and which threads there are count. -/
theorem Stored.congr (hs : s.Stored)
    (hthreads : ∀ j, (t.threads j).threadid = (s.threads j).threadid ∧
      ((t.threads j).worker = .none ↔ (s.threads j).worker = .none))
    (howner : ∀ j, t.owner = .store j ↔ s.owner = .store j) : t.Stored where
  known j hj := by
    rw [(hthreads j).1, howner j]
    exact hs.known j ((hthreads j).2.not.mp hj)
  storing j hj := by
    rw [(hthreads j).1, Ne, (hthreads j).2]
    exact hs.storing j ((howner j).mp hj)
  unknown j hj := by
    rw [(hthreads j).1]
    exact hs.unknown j ((hthreads j).2.mp hj)

theorem Stored.ownerStep (hs : s.Stored) (hinv : s.Inv) {creates : Bool}
    (h : s.ownerStep creates = some t) : t.Stored := by
  cases ownerStep_kind h with
  | create k howner =>
    have hworker := worker_of_post hinv howner
    constructor
    · intro j hj
      by_cases hjk : j = k
      · subst hjk
        exact .inr rfl
      · left
        simp only [ThreadController.setThread, Function.update_of_ne hjk] at hj ⊢
        exact (hs.known j hj).resolve_right (by simp [howner])
    · intro j hj
      cases hj
      simpa [ThreadController.setThread] using hs.unknown k hworker
    · intro j hj
      by_cases hjk : j = k
      · subst hjk
        simp [ThreadController.setThread] at hj
      · simp only [ThreadController.setThread, Function.update_of_ne hjk] at hj ⊢
        exact hs.unknown j hj
  | fail k howner | posted k _ howner hk | count k _ howner hfree | leave _ howner hfree hzero =>
    apply hs.congr <;> simp [howner]
  | store k _ howner =>
    obtain ⟨-, hworker⟩ := hs.storing k howner
    constructor
    · intro j hj
      left
      by_cases hjk : j = k
      · subst hjk
        simp [ThreadController.setThread]
      · simp only [ThreadController.setThread, Function.update_of_ne hjk] at hj ⊢
        exact (hs.known j hj).resolve_right (by simpa [howner] using Ne.symm hjk)
    · simp
    · intro j hj
      by_cases hjk : j = k
      · subst hjk
        simp [ThreadController.setThread, hworker] at hj
      · simp only [ThreadController.setThread, Function.update_of_ne hjk] at hj ⊢
        exact hs.unknown j hj
  | wait _ howner hrunning => exact hs
  | join _ u howner hjoin =>
    obtain ⟨hthreads, -⟩ := joinId_frame hjoin
    apply hs.congr <;> simp [howner, hthreads]

theorem Stored.step (hs : s.Stored) (hinv : s.Inv) {a : ThreadAction n} (h : s.step a = some t) :
    t.Stored := by
  cases a with
  | owner creates => exact hs.ownerStep hinv h
  | worker i creates =>
    obtain ⟨u, rfl, hid, hold, hnew, -⟩ := workerStep_kind h
    apply hs.congr
    · intro j
      by_cases hj : j = i
      · subst hj
        simp [ThreadController.setThread, hid, hold, hnew]
      · simp [ThreadController.setThread, hj]
    · exact fun j => Iff.rfl
  | deleter i =>
    obtain ⟨pc, hthreads, howner, -⟩ := deleterStep_kind h
    apply hs.congr
    · intro j
      by_cases hj : j = i
      · subst hj
        simp [hthreads]
      · simp [hthreads, hj]
    · simp [howner]

/-- The owner moves no deleter, ends no thread and takes no id away. -/
theorem ownerStep_thread (hinv : s.Inv) {creates : Bool} (h : s.ownerStep creates = some t)
    (j : Fin n) : (t.threads j).deleter = (s.threads j).deleter ∧
      ((s.threads j).threadid = true → (t.threads j).threadid = true) ∧
      ((s.threads j).worker = .ended → (t.threads j).worker = .ended) := by
  cases ownerStep_kind h with
  | create k howner =>
    by_cases hj : j = k
    · subst hj
      simp [ThreadController.setThread, worker_of_post hinv howner]
    · simp [ThreadController.setThread, hj]
  | store k _ howner =>
    by_cases hj : j = k
    · subst hj
      simp [ThreadController.setThread]
    · simp [ThreadController.setThread, hj]
  | fail | posted | count | leave | wait => exact ⟨rfl, id, id⟩
  | join _ u howner hjoin => simp [joinId_frame hjoin]

theorem Joined.step (hs : s.Joined) (hinv : s.Inv) {a : ThreadAction n}
    (hknows : s.KnowsId a) (h : s.step a = some t) : t.Joined := by
  intro j hj
  cases a with
  | owner creates =>
    obtain ⟨hdeleter, hid, hworker⟩ := ownerStep_thread hinv h j
    rw [hdeleter] at hj
    obtain ⟨hknown, hended⟩ := hs j hj
    exact ⟨hid hknown, hworker hended⟩
  | worker i creates =>
    obtain ⟨u, rfl, -, -, -, hopen, hdeleter⟩ := workerStep_kind h
    by_cases hji : j = i
    · subst hji
      -- a thread that has not ended is not deleted
      simp only [ThreadController.setThread, Function.update_self] at hj
      obtain hsame | hnone | hlock := hdeleter
      · rw [hsame] at hj
        exact absurd (hs j hj).2 hopen
      · simp [hnone, DeleterPc.HasDeleted] at hj
      · simp [hlock, DeleterPc.HasDeleted] at hj
    · simp only [ThreadController.setThread, Function.update_of_ne hji] at hj ⊢
      exact hs j hj
  | deleter i =>
    obtain ⟨pc, hthreads, -, -, -, hdeletes⟩ := deleterStep_kind h
    rw [hthreads] at hj ⊢
    by_cases hji : j = i
    · subst hji
      simp only [Function.update_self] at hj ⊢
      obtain ⟨hjoins, hpasses⟩ | hbehind := hdeletes hj
      · exact ⟨hknows hjoins, hpasses (hknows hjoins)⟩
      · exact hs j hbehind
    · simp only [Function.update_of_ne hji] at hj ⊢
      exact hs j hj

theorem stored_of_run {as : List (ThreadAction n)}
    (h : run ThreadController.step (start n) as = some s) : s.Stored := by
  have hboth : s.Inv ∧ s.Stored :=
    run_invariant (I := fun s => s.Inv ∧ s.Stored) ⟨inv_start n, stored_start n⟩
      (fun _ _ _ hs hstep => ⟨hs.1.step hstep, hs.2.step hs.1 hstep⟩) h
  exact hboth.2

theorem joined_of_run {as : List (ThreadAction n)}
    (h : run ThreadController.step (start n) as = some s)
    (hknows : Meets ThreadController.step KnowsId (start n) as) : s.Joined := by
  have hboth : s.Inv ∧ s.Joined := by
    refine run_invariant_of_meets (I := fun s => s.Inv ∧ s.Joined) ⟨inv_start n, ?_⟩
      (fun _ _ _ hs hc hstep => ⟨hs.1.step hstep, hs.2.step hs.1 hc hstep⟩) h hknows
    intro i hi
    simp [start, DeleterPc.HasDeleted] at hi
  exact hboth.2

end Touch

section Lifetime

variable {as : List (ThreadAction n)} {s : ThreadController n}

/-- As long as each deleter that is about to join its thread finds the id of it, no step uses a
thread that has been deleted. Where one does not find it, two more of its steps delete the thread
under the owner, which has yet to store the id in it. -/
theorem touched_not_deleted (hrun : run step (start n) as = some s) :
    (Meets step KnowsId (start n) as → ∀ a t, s.step a = some t → ∀ i, s.Touches a i →
      ¬ (s.threads i).deleter.HasDeleted) ∧
    ∀ i, (s.threads i).deleter = .joinThread → (s.threads i).threadid = false →
      ∃ t, run step s [.deleter i, .deleter i] = some t ∧ (t.threads i).deleter.HasDeleted ∧
        (t.step (.owner true)).isSome ∧ t.Touches (.owner true) i := by
  have hinv := inv_of_run hrun
  have hstored := stored_of_run hrun
  refine ⟨fun hknows a t hstep i htouches hdeleted => ?_, fun i hjoins hid => ?_⟩
  · obtain ⟨hknown, hended⟩ := joined_of_run hrun hknows i (.inr hdeleted)
    cases a with
    | owner creates =>
      obtain hpost | hstore := htouches
      · have hdeleter := deleter_of_unposted (i := i) hinv (by simp [hpost, OwnerPc.posted])
        rw [hdeleter] at hdeleted
        exact hdeleted
      · rw [(hstored.storing i hstore).1] at hknown
        cases hknown
    | worker j creates =>
      cases htouches
      obtain ⟨-, -, -, -, -, hopen, -⟩ := workerStep_kind hstep
      exact hopen hended
    | deleter j =>
      obtain ⟨rfl, hnot⟩ := htouches
      exact hnot hdeleted
  · have hworker : (s.threads i).worker ≠ .none := by
      intro hnone
      rw [(hinv.ordered i).absent (.inl hnone)] at hjoins
      cases hjoins
    have howner : s.owner = .store i := (hstored.known i hworker).resolve_left (by simp [hid])
    have hfirst : s.step (.deleter i) =
        some (s.setThread i { s.threads i with deleter := .delete }) := by
      rw [step, deleterStep, hjoins]
      simp [hid]
    have hsecond : (s.setThread i { s.threads i with deleter := .delete }).step (.deleter i) =
        some ((s.setThread i { s.threads i with deleter := .delete }).setThread i
          { s.threads i with deleter := .count }) := by
      simp [step, deleterStep, ThreadController.setThread]
    refine ⟨(s.setThread i { s.threads i with deleter := .delete }).setThread i
      { s.threads i with deleter := .count }, ?_, ?_, ?_, ?_⟩
    · rw [run_cons, hfirst, Option.bind_some, run_cons, hsecond]
      rfl
    · simp [ThreadController.setThread, DeleterPc.HasDeleted]
    · have hstores : ((s.setThread i { s.threads i with deleter := .delete }).setThread i
          { s.threads i with deleter := .count }).owner = .store i := howner
      rw [step, ThreadController.ownerStep, hstores]
      rfl
    · exact .inr howner

/-- The deleter takes its id and gets to `p->join()` while `post` has yet to store that of the
thread. -/
def overtaken : List (ThreadAction 1) :=
  [.owner true] ++ List.replicate 2 (.worker (Fin.last 0) true) ++
    List.replicate 3 (.deleter (Fin.last 0))

theorem touched_not_deleted_overtaken :
    ∃ s t, run step (start 1) overtaken = some s ∧
      run step s [.deleter 0, .deleter 0] = some t ∧ (t.threads 0).deleter.HasDeleted ∧
      (t.step (.owner true)).isSome ∧ t.Touches (.owner true) 0 := by
  have hthread : (run step (start 1) overtaken).map (fun s => s.threads 0) =
      some ⟨.setId, .joinThread, false, false, true⟩ := by decide +kernel
  obtain ⟨s, hrun, hthread⟩ := Option.map_eq_some_iff.mp hthread
  obtain ⟨-, hovertaken⟩ := touched_not_deleted hrun
  obtain ⟨t, ht, hdeleted, hstep, htouches⟩ := hovertaken 0 (by rw [hthread]) (by rw [hthread])
  exact ⟨s, t, hrun, ht, hdeleted, hstep, htouches⟩

/-- Once destroyed, the controller holds no id. -/
theorem closed_of_ended (hrun : run step (start n) as = some s) (h : s.owner = .ended) :
    s.mThreadid = none := by
  have hboth : s.Inv ∧ (s.owner = .ended → s.mThreadid = none) := by
    refine run_invariant (I := fun s => s.Inv ∧ (s.owner = .ended → s.mThreadid = none))
      ⟨inv_start n, fun _ => rfl⟩ (fun s a t hs hstep => ⟨hs.1.step hstep, fun hended => ?_⟩) hrun
    obtain ⟨hinv, hclosed⟩ := hs
    cases a with
    | worker i creates =>
      obtain ⟨u, rfl, -⟩ := workerStep_kind hstep
      exact hclosed hended
    | deleter i =>
      -- it would have ended
      obtain ⟨pc, -, howner, -⟩ := deleterStep_kind hstep
      rw [step, deleterStep, hinv.allEnded (.inr (howner ▸ hended)) i] at hstep
      cases hstep
    | owner creates =>
      cases ownerStep_kind hstep with
      | create | fail | posted | store | count | leave => cases hended
      | wait _ howner => exact hclosed hended
      | join _ u howner hjoin => exact (hinv.joinId hjoin).2.1
  exact hboth.2 h

/-- A deleter is joined at most once, when it has ended, and only if its id was there when it took
it. Of those whose ids the controller has taken, all but the last are joined, and in the end the
last is too. -/
theorem deleters_joined (hrun : run step (start n) as = some s) :
    (∀ i, s.joined i ≤ 1 ∧
      (s.joined i = 1 → (s.threads i).deleter = .ended ∧ s.idTaken i = true)) ∧
      (∀ i, s.idTaken i = true → s.joined i = 1 ∨ s.mThreadid = some i) ∧
      (s.owner = .ended → ∀ i, s.joined i = if s.idTaken i then 1 else 0) := by
  have hinv := inv_of_run hrun
  have hheld : ∀ i, s.idTaken i = true → s.joined i = 1 ∨ s.mThreadid = some i := by
    intro i htook
    obtain hzero | ⟨hone, -, -⟩ := hinv.after i
    · exact .inr ((hinv.held i).mpr ⟨htook, hzero⟩)
    · exact .inl hone
  refine ⟨fun i => ?_, hheld, fun hended i => ?_⟩
  · obtain hzero | ⟨hone, htook, hdone⟩ := hinv.after i
    · exact ⟨by omega, fun hone => by omega⟩
    · exact ⟨hone.le, fun _ => ⟨hdone, htook⟩⟩
  · split
    · next htook =>
      refine (hheld i htook).resolve_right ?_
      rw [closed_of_ended hrun hended]
      simp
    · next hmissed => exact (hinv.after i).resolve_right fun h => hmissed h.2.1

theorem deleters_joined_oneThread :
    ∃ s, run step (start 1) oneThread = some s ∧ s.owner = .ended ∧ s.joined 0 = 1 := by
  have hends : (run step (start 1) oneThread).map (fun s => (s.owner, s.idTaken 0)) =
      some (.ended, true) := by decide +kernel
  obtain ⟨s, hrun, hends⟩ := Option.map_eq_some_iff.mp hends
  obtain ⟨howner, htook⟩ := Prod.mk.inj hends
  obtain ⟨-, -, hjoined⟩ := deleters_joined hrun
  refine ⟨s, hrun, howner, ?_⟩
  rw [hjoined howner 0, htook]
  rfl

end Lifetime

end ThreadController

end LebStudy
