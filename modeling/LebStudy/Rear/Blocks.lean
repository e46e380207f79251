import LebStudy.Lib.Interleaving
import LebStudy.Rear.Dtmain
import LebStudy.Rear.ExactFiles
import Mathlib.Data.List.Perm.Subperm

/-!
# The blocks that `dtmain` writes

What `DTavant` reads are the blocks of the stream, in order and wherever TCP cuts it. Those of one
activation get to `write_data` in that order, and all of them do if `DTavant` never starts anew
while blocks of its last activation wait. Of the blocks read, one may be lost for each time that
`DTrear` leaves its loop, the one of a turn that had begun before and had no buffer yet, and those
of the turns that begin with a sender whose receiver is closed.
-/

namespace LebStudy

open Transition
open scoped List

instance (pc : AvantPc) : Decidable pc.InTurn := by
  unfold AvantPc.InTurn
  split <;> infer_instance

namespace Dtmain

variable {time : ℕ → UInt64} {s t : Dtmain}

/-! ### The threads do not end -/

/-- Nothing has seen `SM_EXIT`. -/
structure Endless (s : Dtmain) : Prop where
  state : s.cState ≠ .smExit
  avant : s.avant ≠ .ended
  rear : s.rear ≠ .ended
  main : s.main ≠ .joinRear ∧ s.main ≠ .ended

theorem Endless.step (hs : s.Endless) {a : DtAction} (h : s.step time a = some t) : t.Endless := by
  obtain ⟨hstate, havant, hrear, hmain⟩ := hs
  cases a with
  | main oneline =>
    obtain ⟨state, pc, rfl, hset, hjoined⟩ := mainStep_kind h
    have hopen : ¬ (pc = .joinRear ∨ pc = .ended) :=
      fun hpc => (hjoined hpc).elim havant hrear
    rw [not_or] at hopen
    exact ⟨fun hexit => hstate (hset hexit), havant, hrear, hopen⟩
  | avant allocates sends =>
    cases avantStep_kind h with
    | move pc hs ht hended => exact ⟨hstate, fun hpc => hstate (hended hpc), hrear, hmain⟩
    | begin | allocate | dummy | read | throw | send | fail =>
      exact ⟨hstate, by simp, hrear, hmain⟩
  | connect late =>
    obtain ⟨-, receiver, -, rfl⟩ := step_connect h
    exact ⟨hstate, by simp, hrear, hmain⟩
  | rear found =>
    cases rearStep_kind h with
    | move pc hended => exact ⟨hstate, havant, fun hpc => hstate (hended hpc), hmain⟩
    | leave | idle | receive => exact ⟨hstate, havant, by simp, hmain⟩
  | destroy block =>
    obtain ⟨-, -, rfl⟩ := step_destroy h
    exact ⟨hstate, havant, hrear, hmain⟩

theorem endless_of_run {isGoodInit mIsDummy : Bool} {mBufsize mNspill : ℕ} {socket : Socket}
    {as : List DtAction}
    (h : run (step time) (start isGoodInit mIsDummy mBufsize mNspill socket) as = some s) :
    s.Endless := by
  refine run_invariant (I := Endless) ?_ (fun _ _ _ hs hstep => hs.step hstep) h
  cases isGoodInit <;> constructor <;> simp [start]

/-- `main` waits for the thread of `DTavant` for ever. -/
theorem joins_wait {isGoodInit mIsDummy : Bool} {mBufsize mNspill : ℕ} {socket : Socket}
    {as : List DtAction}
    (hrun : run (step time) (start isGoodInit mIsDummy mBufsize mNspill socket) as = some s) :
    s.avant ≠ .ended ∧ s.rear ≠ .ended ∧ s.main ≠ .joinRear ∧ s.main ≠ .ended ∧
      (s.main = .joinAvant → ∀ more t, run (step time) s more = some t → t.main = .joinAvant) := by
  have hs := endless_of_run hrun
  refine ⟨hs.avant, hs.rear, hs.main.1, hs.main.2, fun hjoin more t hmore => ?_⟩
  have hboth : t.Endless ∧ t.main = .joinAvant := by
    refine run_invariant (I := fun t => t.Endless ∧ t.main = .joinAvant) ⟨hs, hjoin⟩
      (fun u a v hu hstep => ⟨hu.1.step hstep, ?_⟩) hmore
    obtain ⟨hendless, hwaits⟩ := hu
    cases a with
    | main oneline =>
      rw [Dtmain.step, mainStep, hwaits] at hstep
      simp [hendless.avant] at hstep
    | avant allocates sends =>
      cases avantStep_kind hstep <;> exact hwaits
    | connect late =>
      obtain ⟨-, receiver, -, rfl⟩ := step_connect hstep
      exact hwaits
    | rear found =>
      cases rearStep_kind hstep <;> exact hwaits
    | destroy block =>
      obtain ⟨-, -, rfl⟩ := step_destroy hstep
      exact hwaits
  exact hboth.2

theorem joins_wait_notInitialised :
    ∃ s, run (step fun _ => 0) (start false false 8 1 ⟨[], false⟩) [.main ""] = some s ∧
      ∀ more t, run (step fun _ => 0) s more = some t → t.main = .joinAvant := by
  have hmain : (run (step fun _ => 0) (start false false 8 1 ⟨[], false⟩) [.main ""]).map
      (fun s => s.main) = some .joinAvant := rfl
  obtain ⟨s, hrun, hjoin⟩ := Option.map_eq_some_iff.mp hmain
  obtain ⟨-, -, -, -, hwaits⟩ := joins_wait hrun
  exact ⟨s, hrun, hwaits hjoin⟩

/-! ### The blocks -/

/-- Block `k` of the stream. -/
def blockOf (mIsDummy : Bool) (mBufsize : ℕ) (stream : List UInt8) (k : ℕ) : List UInt8 :=
  if mIsDummy then dummyData mBufsize else (stream.drop (k * mBufsize)).take mBufsize

/-- The blocks received, those in the pipes and the one in hand. -/
def blocks (s : Dtmain) : List Block := s.received ++ s.queue ++ s.avant.inHand

/-- The blocks on their way from the stream to the files. -/
structure Flow (time : ℕ → UInt64) (stream : List UInt8) (s : Dtmain) : Prop where
  plain : s.tcp.Plain
  unread : s.mIsDummy = false → s.tcp.socket.bytes = stream.drop (s.reads * s.mBufsize)
  data : ∀ block ∈ s.blocks, block.data = blockOf s.mIsDummy s.mBufsize stream block.index
  once : s.blocks.map (·.index) <+~ List.range s.reads
  written : s.writer = DTrear.writeChunks s.mNspill time .start
    (s.received.map fun block => wordsOf block.data)
  depth : s.gAvantDepth = s.queue.length + (if s.message then 1 else 0) + s.avant.buffers
  turn : ∀ block ∈ s.avant.inHand, block.sender = s.sender

theorem flow_start (isGoodInit mIsDummy : Bool) (mBufsize mNspill : ℕ) {socket : Socket}
    (hclean : socket.Clean) :
    Flow time socket.bytes (start isGoodInit mIsDummy mBufsize mNspill socket) where
  plain := TcpBuffer.plain_start hclean
  unread _ := by simp [start, TcpBuffer.start]
  data := by simp [start, blocks, AvantPc.inHand]
  once := List.nil_subperm
  written := rfl
  depth := by simp [start, AvantPc.buffers]
  turn := by simp [start, AvantPc.inHand]

theorem inHand_of_buffers {pc : AvantPc} (h : pc.buffers = 0) : pc.inHand = [] := by
  cases pc with
  | send => cases h
  | stateMachine | connect | loopTest | allocate | read | exitTest | ended => rfl

theorem of_not_inTurn {pc : AvantPc} (h : ¬ pc.InTurn) : pc.inHand = [] ∧ pc.buffers = 0 := by
  cases pc with
  | send | allocate | read => exact absurd trivial h
  | stateMachine | connect | loopTest | exitTest | ended => exact ⟨rfl, rfl⟩

/-- A step that reads nothing and hands nothing over. -/
theorem blocks_sublist (hreceived : t.received = s.received) (hqueue : t.queue = s.queue)
    (hhand : t.avant.inHand = []) : t.blocks.Sublist s.blocks := by
  rw [blocks, blocks, hreceived, hqueue, hhand]
  exact (List.nil_sublist _).append_left _

/-- What only the event of a read or of a send, or the change of a pointer, does not touch. -/
theorem Flow.congr {stream : List UInt8} (hs : s.Flow time stream)
    (hsame : t.tcp = s.tcp ∧ t.mIsDummy = s.mIsDummy ∧ t.mBufsize = s.mBufsize ∧ t.reads = s.reads)
    (hblocks : t.blocks <+~ s.blocks)
    (hwritten : t.writer = DTrear.writeChunks t.mNspill time .start
      (t.received.map fun block => wordsOf block.data))
    (hdepth : t.gAvantDepth = t.queue.length + (if t.message then 1 else 0) + t.avant.buffers)
    (hturn : ∀ block ∈ t.avant.inHand, block.sender = t.sender) : t.Flow time stream where
  plain := by
    rw [hsame.1]
    exact hs.plain
  unread := by
    obtain ⟨htcp, hdummy, hbufsize, hreads⟩ := hsame
    rw [htcp, hdummy, hbufsize, hreads]
    exact hs.unread
  data block hblock := by
    rw [hsame.2.1, hsame.2.2.1]
    exact hs.data block (hblocks.subset hblock)
  once := by
    obtain ⟨l, hperm, hsub⟩ := hblocks
    rw [hsame.2.2.2]
    exact (hperm.map (·.index)).symm.subperm.trans ((hsub.map _).subperm.trans hs.once)
  written := hwritten
  depth := hdepth
  turn := hturn

/-- The next block is read. -/
theorem Flow.read {stream : List UInt8} (hs : s.Flow time stream) (hpc : s.avant = .read)
    {tcp : TcpBuffer} (hplain : tcp.Plain)
    (hunread : s.mIsDummy = false → tcp.socket.bytes = stream.drop ((s.reads + 1) * s.mBufsize)) :
    Flow time stream { s with
      tcp := tcp
      avant := .send ⟨s.reads, s.sender, blockOf s.mIsDummy s.mBufsize stream s.reads⟩
      reads := s.reads + 1 } := by
  have hold : s.blocks = s.received ++ s.queue := by simp [blocks, hpc, AvantPc.inHand]
  have hdata := hs.data
  have honce := hs.once
  have hdepth := hs.depth
  rw [hold] at hdata honce
  constructor
  · exact hplain
  · exact hunread
  · intro block hblock
    simp only [blocks, AvantPc.inHand, List.mem_append, List.mem_singleton] at hblock
    obtain hblock | rfl := hblock
    · exact hdata block (List.mem_append.mpr hblock)
    · rfl
  · simp only [blocks, AvantPc.inHand, List.map_append, List.map_cons, List.map_nil,
      List.range_succ] at honce ⊢
    exact honce.append (List.Subperm.refl _)
  · exact hs.written
  · rw [hpc] at hdepth
    exact hdepth
  · simp [AvantPc.inHand]

theorem Flow.avantStep {stream : List UInt8} (hs : s.Flow time stream) {allocates sends : Bool}
    (h : s.avantStep allocates sends = some t) : t.Flow time stream := by
  have hdepth := hs.depth
  cases avantStep_kind h with
  | move pc hpc hpc' hended =>
    obtain ⟨hhand, hbuffers⟩ := of_not_inTurn hpc'
    rw [hpc] at hdepth
    apply hs.congr
    · exact ⟨rfl, rfl, rfl, rfl⟩
    · exact List.Sublist.subperm (blocks_sublist rfl rfl hhand)
    · exact hs.written
    · rw [hbuffers]
      exact hdepth
    · simp [hhand]
  | begin hpc =>
    rw [hpc] at hdepth
    apply hs.congr
    · exact ⟨rfl, rfl, rfl, rfl⟩
    · exact List.Sublist.subperm (blocks_sublist rfl rfl rfl)
    · exact hs.written
    · exact hdepth
    · simp [AvantPc.inHand]
  | allocate hpc =>
    rw [hpc] at hdepth
    apply hs.congr
    · exact ⟨rfl, rfl, rfl, rfl⟩
    · exact List.Sublist.subperm (blocks_sublist rfl rfl rfl)
    · exact hs.written
    · simp only [AvantPc.buffers] at hdepth ⊢
      omega
    · simp [AvantPc.inHand]
  | dummy hpc hdummy =>
    have hblock : blockOf s.mIsDummy s.mBufsize stream s.reads = dummyData s.mBufsize :=
      if_pos hdummy
    have hread := hs.read hpc hs.plain (by simp [hdummy])
    rw [hblock] at hread
    exact hread
  | read r hpc hdummy hread hexc =>
    obtain ⟨-, hdata, hrest, hplain, -⟩ := TcpBuffer.read_spec hs.plain hread
    have hblock : r.data = blockOf s.mIsDummy s.mBufsize stream s.reads := by
      rw [hdata, hs.unread hdummy, blockOf, hdummy]
      rfl
    rw [hblock]
    apply hs.read hpc hplain
    intro _
    rw [hrest, hs.unread hdummy, List.drop_drop, Nat.succ_mul]
  | throw r hpc hread hexc =>
    obtain ⟨hnone, -⟩ := TcpBuffer.read_spec hs.plain hread
    exact absurd hnone hexc
  | send block hpc =>
    rw [hpc] at hdepth
    apply hs.congr
    · exact ⟨rfl, rfl, rfl, rfl⟩
    · simp only [blocks, hpc, AvantPc.inHand, List.append_assoc, List.append_nil]
      exact List.Subperm.refl _
    · exact hs.written
    · simp only [AvantPc.buffers, List.length_append, List.length_singleton] at hdepth ⊢
      omega
    · simp [AvantPc.inHand]
  | fail block hpc =>
    rw [hpc] at hdepth
    apply hs.congr
    · exact ⟨rfl, rfl, rfl, rfl⟩
    · exact List.Sublist.subperm (blocks_sublist rfl rfl rfl)
    · exact hs.written
    · simp only [AvantPc.buffers] at hdepth ⊢
      omega
    · simp [AvantPc.inHand]

/-- A block received is still one of the blocks. -/
theorem perm_of_received {block : Block} {queue : List Block} (hmem : block ∈ queue)
    (received hand : List Block) :
    received ++ [block] ++ queue.erase block ++ hand ~ received ++ queue ++ hand := by
  rw [List.append_assoc received, List.singleton_append]
  exact ((List.perm_cons_erase hmem).symm.append_left _).append_right _

theorem sublist_of_destroyed (block : Block) (received queue hand : List Block) :
    (received ++ queue.erase block ++ hand).Sublist (received ++ queue ++ hand) :=
  (List.erase_sublist.append_left _).append_right _

theorem Flow.rearStep {stream : List UInt8} (hs : s.Flow time stream) {found : Option ℕ}
    (h : s.rearStep time found = some t) : t.Flow time stream := by
  have hdepth := hs.depth
  cases rearStep_kind h with
  | move pc hended =>
    exact hs.congr ⟨rfl, rfl, rfl, rfl⟩ (List.Subperm.refl _) hs.written hdepth hs.turn
  | leave | idle =>
    apply hs.congr
    · exact ⟨rfl, rfl, rfl, rfl⟩
    · exact List.Subperm.refl _
    · exact hs.written
    · simp only [release] at hdepth ⊢
      simp only [Bool.false_eq_true, if_false]
      push_cast at *
      omega
    · exact hs.turn
  | receive block hmem =>
    apply hs.congr
    · exact ⟨rfl, rfl, rfl, rfl⟩
    · exact (perm_of_received hmem s.received s.avant.inHand).subperm
    · simp only [release, List.map_append, List.map_cons, List.map_nil, DTrear.writeChunks,
        List.foldl_append, List.foldl_cons, List.foldl_nil]
      rw [hs.written]
      rfl
    · have hlen := (List.perm_cons_erase hmem).length_eq
      simp only [List.length_cons] at hlen
      simp only [release] at hdepth ⊢
      simp only [if_true]
      push_cast at *
      omega
    · exact hs.turn

theorem Flow.step {stream : List UInt8} (hs : s.Flow time stream) {a : DtAction}
    (h : s.step time a = some t) : t.Flow time stream := by
  cases a with
  | main oneline =>
    obtain ⟨state, pc, rfl, -⟩ := mainStep_kind h
    exact hs.congr ⟨rfl, rfl, rfl, rfl⟩ (List.Subperm.refl _) hs.written hs.depth hs.turn
  | avant allocates sends => exact hs.avantStep h
  | connect late =>
    obtain ⟨hpc, receiver, -, rfl⟩ := step_connect h
    have hdepth := hs.depth
    rw [hpc] at hdepth
    apply hs.congr
    · exact ⟨rfl, rfl, rfl, rfl⟩
    · exact List.Sublist.subperm (blocks_sublist rfl rfl rfl)
    · exact hs.written
    · exact hdepth
    · simp [AvantPc.inHand]
  | rear found => exact hs.rearStep h
  | destroy block =>
    obtain ⟨hmem, -, rfl⟩ := step_destroy h
    have hdepth := hs.depth
    have hlen := (List.perm_cons_erase hmem).length_eq
    simp only [List.length_cons] at hlen
    apply hs.congr
    · exact ⟨rfl, rfl, rfl, rfl⟩
    · exact (sublist_of_destroyed block s.received s.queue s.avant.inHand).subperm
    · exact hs.written
    · show s.gAvantDepth - 1 = _
      push_cast at *
      omega
    · exact hs.turn

/-- When `DTrear` leaves its loop, nothing is under way. -/
theorem Flow.idle_of_exit {stream : List UInt8} (hs : s.Flow time stream) (h : s.ExitCondition) :
    s.queue = [] ∧ s.avant.buffers = 0 := by
  have hdepth := hs.depth
  obtain ⟨-, hzero⟩ := h
  constructor
  · apply List.length_eq_zero_iff.mp
    omega
  · omega

theorem Flow.index_lt {stream : List UInt8} (hs : s.Flow time stream) {block : Block}
    (h : block ∈ s.blocks) : block.index < s.reads :=
  List.mem_range.mp (hs.once.subset (List.mem_map_of_mem h))

/-! ### The order of the blocks -/

/-- The senders that the blocks have come through, and the present one. -/
def senders (s : Dtmain) : List Sender := s.sender :: s.blocks.map (·.sender)

/-- Each activation has one sender, which leads no further than to the receiver that is bound, or
will be bound next, and the blocks of a sender keep their order. -/
structure Wired (s : Dtmain) : Prop where
  one : Set.InjOn Sender.activation {sender | sender ∈ s.senders}
  last : ∀ sender ∈ s.senders, sender.activation ≤ s.sender.activation
  present : ∀ sender ∈ s.senders, sender.receiver ≤ s.leaves
  order : Interleaving.Ordered Block.sender (·.index < ·.index) s.blocks

theorem wired_start (isGoodInit mIsDummy : Bool) (mBufsize mNspill : ℕ) (socket : Socket) :
    (start isGoodInit mIsDummy mBufsize mNspill socket).Wired := by
  constructor <;> simp [start, senders, blocks, AvantPc.inHand, Interleaving.Ordered]

theorem Wired.congr (hs : s.Wired) (hsender : t.sender = s.sender) (hleaves : s.leaves ≤ t.leaves)
    (hblocks : t.blocks ⊆ s.blocks)
    (horder : Interleaving.Ordered Block.sender (·.index < ·.index) t.blocks) : t.Wired := by
  have hsenders : ∀ sender ∈ t.senders, sender ∈ s.senders := by
    rw [senders, senders, hsender]
    exact List.cons_subset_cons _ (List.map_subset _ hblocks)
  refine ⟨hs.one.mono hsenders, fun sender h => ?_, fun sender h => ?_, horder⟩
  · rw [hsender]
    exact hs.last sender (hsenders sender h)
  · exact (hs.present sender (hsenders sender h)).trans hleaves

/-- A block that is read comes behind all blocks. -/
theorem Wired.read {stream : List UInt8} (hs : s.Wired) (hflow : s.Flow time stream)
    (hpc : s.avant = .read) (tcp : TcpBuffer) (data : List UInt8) :
    Wired { s with
      tcp := tcp
      avant := .send ⟨s.reads, s.sender, data⟩
      reads := s.reads + 1 } := by
  have hold : s.blocks = s.received ++ s.queue := by simp [blocks, hpc, AvantPc.inHand]
  obtain ⟨hone, hlast, hpresent, horder⟩ := hs
  have hsenders : ∀ sender ∈ senders { s with
      tcp := tcp
      avant := .send ⟨s.reads, s.sender, data⟩
      reads := s.reads + 1 }, sender ∈ s.senders := by
    intro sender hsender
    simp only [senders, blocks, AvantPc.inHand, List.map_append, List.map_cons, List.map_nil,
      List.mem_cons, List.mem_append, hpc] at hsender ⊢
    tauto
  refine ⟨hone.mono hsenders, fun sender h => hlast sender (hsenders sender h),
    fun sender h => hpresent sender (hsenders sender h), ?_⟩
  rw [hold] at horder
  refine List.pairwise_append.mpr ⟨horder, List.pairwise_singleton _ _, ?_⟩
  intro block hblock new hnew _
  rw [List.mem_singleton.mp hnew]
  exact hflow.index_lt (hold ▸ hblock)

/-- A new activation is none of those before. -/
theorem Wired.connect (hs : s.Wired) (hpc : s.avant = .connect) {receiver : ℕ}
    (hle : receiver ≤ s.leaves) : Wired { s with
      avant := .loopTest
      sender := ⟨s.sender.activation + 1, receiver⟩ } := by
  have hblocks : blocks { s with
      avant := .loopTest
      sender := ⟨s.sender.activation + 1, receiver⟩ } = s.blocks := by
    simp only [blocks, hpc, AvantPc.inHand]
  have hold : ∀ sender ∈ s.blocks.map (·.sender), sender ∈ s.senders :=
    fun _ => List.mem_cons_of_mem _
  constructor
  · intro a ha b hb hab
    simp only [senders, hblocks, Set.mem_ofPred_eq, List.mem_cons] at ha hb
    obtain rfl | ha := ha <;> obtain rfl | hb := hb
    · rfl
    · have hlast := hs.last b (hold b hb)
      simp only at hab
      omega
    · have hlast := hs.last a (hold a ha)
      simp only at hab
      omega
    · exact hs.one (hold a ha) (hold b hb) hab
  · intro sender hsender
    simp only [senders, hblocks, List.mem_cons] at hsender
    obtain rfl | hsender := hsender
    · exact le_rfl
    · exact (hs.last sender (hold sender hsender)).trans (Nat.le_succ _)
  · intro sender hsender
    simp only [senders, hblocks, List.mem_cons] at hsender
    obtain rfl | hsender := hsender
    · exact hle
    · exact hs.present sender (hold sender hsender)
  · rw [hblocks]
    exact hs.order

theorem Wired.step {stream : List UInt8} (hs : s.Wired) (hflow : s.Flow time stream)
    {a : DtAction} (h : s.step time a = some t) : t.Wired := by
  have hkept (hsender : t.sender = s.sender) (hleaves : s.leaves ≤ t.leaves)
      (hblocks : t.blocks.Sublist s.blocks) : t.Wired :=
    hs.congr hsender hleaves hblocks.subset (hs.order.sublist hblocks)
  cases a with
  | main oneline =>
    obtain ⟨state, pc, rfl, -⟩ := mainStep_kind h
    exact hkept rfl le_rfl (List.Sublist.refl _)
  | avant allocates sends =>
    cases avantStep_kind h with
    | move pc hpc hpc' => exact hkept rfl le_rfl (blocks_sublist rfl rfl (of_not_inTurn hpc').1)
    | begin | allocate | throw | fail => exact hkept rfl le_rfl (blocks_sublist rfl rfl rfl)
    | dummy hpc => exact hs.read hflow hpc s.tcp _
    | read r hpc => exact hs.read hflow hpc r.tcp _
    | send block hpc =>
      refine hkept rfl le_rfl ?_
      simp only [blocks, hpc, AvantPc.inHand, List.append_assoc, List.append_nil]
      exact List.Sublist.refl _
  | connect late =>
    obtain ⟨hpc, receiver, hle, rfl⟩ := step_connect h
    exact hs.connect hpc hle
  | rear found =>
    cases rearStep_kind h with
    | move | idle => exact hkept rfl le_rfl (List.Sublist.refl _)
    | leave => exact hkept rfl (Nat.le_succ _) (List.Sublist.refl _)
    | receive block hmem _ hfirst =>
      have hperm := perm_of_received hmem s.received s.avant.inHand
      refine hs.congr rfl le_rfl hperm.subset (Interleaving.ordered_of_forall_filter fun k => ?_)
      have hsame := Interleaving.filter_handOver hfirst s.received k
      have hold := hs.order.filter k
      rw [blocks, List.filter_append] at hold ⊢
      rw [← hsame] at hold
      exact hold
  | destroy block =>
    obtain ⟨-, -, rfl⟩ := step_destroy h
    exact hkept rfl le_rfl (sublist_of_destroyed block s.received s.queue s.avant.inHand)

/-- A sender is connected when no block is under way to the present receiver. -/
def ConnectsDrained (s : Dtmain) : DtAction → Prop
  | .connect _ => ∀ block ∈ s.queue, block.sender.receiver ≠ s.leaves
  | .main _ | .avant _ _ | .rear _ | .destroy _ => True

instance (s : Dtmain) (a : DtAction) : Decidable (s.ConnectsDrained a) := by
  cases a <;> unfold ConnectsDrained <;> infer_instance

/-- The blocks that the present receiver can still get. -/
def waiting (s : Dtmain) : List Block :=
  s.queue.filter (·.sender.receiver = s.leaves)

/-- What the present receiver can still get is in one pipe, and the blocks come in the order of the
stream. -/
structure InOrder (s : Dtmain) : Prop where
  pipe : ∀ block ∈ s.waiting, block.sender = s.sender
  order : ((s.received ++ s.waiting ++ s.avant.inHand).map (·.index)).Sublist (List.range s.reads)

theorem inOrder_start (isGoodInit mIsDummy : Bool) (mBufsize mNspill : ℕ) (socket : Socket) :
    (start isGoodInit mIsDummy mBufsize mNspill socket).InOrder := by
  constructor <;> simp [start, waiting, AvantPc.inHand]

theorem mem_waiting {block : Block} :
    block ∈ s.waiting ↔ block ∈ s.queue ∧ block.sender.receiver = s.leaves := by
  simp [waiting]

/-- What is found is the first that waits. -/
theorem InOrder.waiting_of_first (hs : s.InOrder) {block : Block} (hmem : block ∈ s.queue)
    (hpresent : block.sender.receiver = s.leaves)
    (hfirst : s.queue.find? (·.sender = block.sender) = some block) :
    s.waiting = block :: (s.queue.erase block).filter (·.sender.receiver = s.leaves) := by
  -- in the queue, those of the pipe are those that wait
  refine Interleaving.filter_eq_cons_of_key hfirst fun b hb => ⟨fun h => h ▸ hpresent, fun h => ?_⟩
  rw [hs.pipe b (mem_waiting.mpr ⟨hb, h⟩), hs.pipe block (mem_waiting.mpr ⟨hmem, hpresent⟩)]

/-- A step that adds nothing to what waits, received or in hand. -/
theorem InOrder.congr (hs : s.InOrder) (hsender : t.sender = s.sender) (hreads : t.reads = s.reads)
    (hwaiting : t.waiting ⊆ s.waiting)
    (hblocks : (t.received ++ t.waiting ++ t.avant.inHand).Sublist
      (s.received ++ s.waiting ++ s.avant.inHand)) : t.InOrder := by
  refine ⟨fun block hblock => ?_, ?_⟩
  · rw [hsender]
    exact hs.pipe block (hwaiting hblock)
  · rw [hreads]
    exact (hblocks.map _).trans hs.order

theorem InOrder.read (hs : s.InOrder) (hpc : s.avant = .read) (tcp : TcpBuffer)
    (data : List UInt8) : InOrder { s with
      tcp := tcp
      avant := .send ⟨s.reads, s.sender, data⟩
      reads := s.reads + 1 } := by
  refine ⟨hs.pipe, ?_⟩
  have horder := hs.order
  simp only [hpc, AvantPc.inHand, List.append_nil] at horder
  show (List.map _ (s.received ++ s.waiting ++ [_])).Sublist _
  rw [List.map_append, List.range_succ]
  exact horder.append (List.Sublist.refl _)

theorem InOrder.avantStep {stream : List UInt8} (hs : s.InOrder) (hflow : s.Flow time stream)
    {allocates sends : Bool} (h : s.avantStep allocates sends = some t) : t.InOrder := by
  cases avantStep_kind h with
  | move pc hpc hpc' =>
    refine hs.congr rfl rfl (List.Subset.refl _) ?_
    simp only [(of_not_inTurn hpc').1, List.append_nil]
    exact List.sublist_append_left _ _
  | begin hpc | allocate hpc | throw _ hpc =>
    refine hs.congr rfl rfl (List.Subset.refl _) ?_
    simp only [hpc, AvantPc.inHand]
    exact List.Sublist.refl _
  | dummy hpc => exact hs.read hpc s.tcp _
  | read r hpc => exact hs.read hpc r.tcp _
  | send block hpc =>
    -- it goes behind those that wait, or to a receiver that is closed
    have hsender : block.sender = s.sender := hflow.turn block (by simp [hpc, AvantPc.inHand])
    have hwaiting : waiting { s with avant := .loopTest, queue := s.queue ++ [block] } =
        s.waiting ++ if block.sender.receiver = s.leaves then [block] else [] := by
      simp only [waiting, List.filter_append, List.filter_cons, List.filter_nil, decide_eq_true_eq]
    have horder := hs.order
    simp only [hpc, AvantPc.inHand] at horder
    refine ⟨fun b hb => ?_, ?_⟩
    · rw [hwaiting, List.mem_append] at hb
      obtain hb | hb := hb
      · exact hs.pipe b hb
      · split at hb
        · rw [List.mem_singleton.mp hb]
          exact hsender
        · cases hb
    · rw [hwaiting]
      refine List.Sublist.trans (List.Sublist.map _ ?_) horder
      simp only [AvantPc.inHand, List.append_nil]
      rw [← List.append_assoc]
      split
      · exact List.Sublist.refl _
      · exact List.Sublist.append_left (List.nil_sublist _) _
  | fail block hpc =>
    refine hs.congr rfl rfl (List.Subset.refl _) ?_
    simp only [AvantPc.inHand, List.append_nil]
    exact List.sublist_append_left _ _

theorem InOrder.rearStep {stream : List UInt8} (hs : s.InOrder) (hflow : s.Flow time stream)
    {found : Option ℕ} (h : s.rearStep time found = some t) : t.InOrder := by
  cases rearStep_kind h with
  | move | idle => exact ⟨hs.pipe, hs.order⟩
  | leave hexit =>
    -- nothing waits for the next receiver
    obtain ⟨hqueue, -⟩ := hflow.idle_of_exit hexit
    have hwaiting : waiting { s.release with rear := .exitTest, leaves := s.leaves + 1 } = [] := by
      simp [waiting, release, hqueue]
    refine hs.congr rfl rfl (by simp [hwaiting]) ?_
    rw [hwaiting, List.append_nil]
    exact (List.sublist_append_left _ _).append_right _
  | receive block hmem hpresent hfirst =>
    have hfront := hs.waiting_of_first hmem hpresent hfirst
    refine hs.congr rfl rfl ?_ ?_
    · exact (List.erase_sublist.filter _).subset
    · show (s.received ++ [block] ++ _ ++ s.avant.inHand).Sublist _
      rw [hfront, List.append_assoc s.received, List.singleton_append]
      exact List.Sublist.refl _

theorem InOrder.step {stream : List UInt8} (hs : s.InOrder) (hflow : s.Flow time stream)
    {a : DtAction} (hdrained : s.ConnectsDrained a) (h : s.step time a = some t) : t.InOrder := by
  cases a with
  | main oneline =>
    obtain ⟨state, pc, rfl, -⟩ := mainStep_kind h
    exact ⟨hs.pipe, hs.order⟩
  | avant allocates sends => exact hs.avantStep hflow h
  | connect late =>
    obtain ⟨hpc, receiver, -, rfl⟩ := step_connect h
    refine ⟨fun block hblock => ?_, ?_⟩
    · obtain ⟨hmem, hpresent⟩ := mem_waiting.mp hblock
      exact absurd hpresent (hdrained block hmem)
    · have horder := hs.order
      rw [hpc] at horder
      exact horder
  | rear found => exact hs.rearStep hflow h
  | destroy block =>
    obtain ⟨-, -, rfl⟩ := step_destroy h
    have hsub := (List.erase_sublist (a := block) (l := s.queue)).filter
      (·.sender.receiver = s.leaves)
    exact hs.congr rfl rfl hsub.subset ((hsub.append_left _).append_right _)

/-! ### What is lost -/

/-- The block has been sent to a receiver that is closed. -/
def late (leaves : ℕ) (block : Block) : Bool := block.sender.receiver < leaves

/-- Turns of `DTavant` under way that will send such a block. -/
def lateTurn (pc : AvantPc) (sender : Sender) (leaves : ℕ) : ℕ :=
  if pc.InTurn ∧ sender.receiver < leaves then 1 else 0

/-- Each time that `DTrear` leaves its loop, at most one block may be lost later, and none before
it is late, and one for each turn that begins late. -/
def Losses (s : Dtmain) : Prop :=
  s.reads + s.queue.countP (late s.leaves) + lateTurn s.avant s.sender s.leaves ≤
    s.received.length + s.queue.length + s.avant.inHand.length + s.leaves + s.failed + s.stale

theorem lateTurn_le (pc : AvantPc) (sender : Sender) (leaves : ℕ) :
    lateTurn pc sender leaves ≤ 1 := by
  rw [lateTurn]
  split <;> omega

theorem lateTurn_eq_zero (pc : AvantPc) (h : ¬ pc.InTurn) (sender : Sender) (leaves : ℕ) :
    lateTurn pc sender leaves = 0 := if_neg fun hturn => h hturn.1

/-- In a turn that goes on it stays the same. -/
theorem lateTurn_congr (pc pc' : AvantPc) (hpc : pc.InTurn) (hpc' : pc'.InTurn)
    (sender : Sender) (leaves : ℕ) : lateTurn pc' sender leaves = lateTurn pc sender leaves := by
  rw [lateTurn, lateTurn]
  simp only [hpc, hpc']

theorem Losses.avantStep {stream : List UInt8} (hs : s.Losses) (hflow : s.Flow time stream)
    {allocates sends : Bool} (h : s.avantStep allocates sends = some t) : t.Losses := by
  rw [Losses] at hs ⊢
  cases avantStep_kind h with
  | move pc hpc hpc' hended =>
    have hzero := lateTurn_eq_zero pc hpc' s.sender s.leaves
    rw [inHand_of_buffers hpc] at hs
    simp only [hzero, (of_not_inTurn hpc').1]
    omega
  | begin hpc =>
    have hturn : lateTurn .allocate s.sender s.leaves =
        if s.sender.receiver < s.leaves then 1 else 0 := by simp [lateTurn, AvantPc.InTurn]
    simp only [hpc, hturn, AvantPc.inHand] at hs ⊢
    omega
  | allocate hpc =>
    have hsame : lateTurn .read s.sender s.leaves = lateTurn .allocate s.sender s.leaves :=
      lateTurn_congr .allocate .read trivial trivial _ _
    simp only [hpc, hsame, AvantPc.inHand] at hs ⊢
    exact hs
  | dummy hpc | read _ hpc =>
    have hsame : ∀ block, lateTurn (.send block) s.sender s.leaves =
        lateTurn .read s.sender s.leaves := fun block =>
          lateTurn_congr .read (.send block) trivial trivial _ _
    simp only [hpc, hsame, AvantPc.inHand, List.length_nil, List.length_singleton] at hs ⊢
    omega
  | throw _ hpc =>
    have hzero := lateTurn_eq_zero .exitTest id s.sender s.leaves
    simp only [hpc, hzero, AvantPc.inHand] at hs ⊢
    omega
  | send block hpc =>
    -- the turn is over, and the block is as late as it was
    have hsender : block.sender = s.sender := hflow.turn block (by simp [hpc, AvantPc.inHand])
    have hlate : (if late s.leaves block = true then 1 else 0) =
        lateTurn (.send block) s.sender s.leaves := by
      simp [late, lateTurn, hsender, AvantPc.InTurn]
    have hzero := lateTurn_eq_zero .loopTest id s.sender s.leaves
    simp only [hpc, hzero, AvantPc.inHand, List.countP_append, List.countP_singleton, hlate,
      List.length_append, List.length_singleton, List.length_nil] at hs ⊢
    omega
  | fail block hpc =>
    have hzero := lateTurn_eq_zero .exitTest id s.sender s.leaves
    simp only [hpc, hzero, AvantPc.inHand, List.length_nil, List.length_singleton] at hs ⊢
    omega

theorem Losses.rearStep {stream : List UInt8} (hs : s.Losses) (hflow : s.Flow time stream)
    {found : Option ℕ} (h : s.rearStep time found = some t) : t.Losses := by
  rw [Losses] at hs ⊢
  cases rearStep_kind h with
  | move | idle => exact hs
  | leave hexit =>
    obtain ⟨hqueue, hbuffers⟩ := hflow.idle_of_exit hexit
    have hone := lateTurn_le s.avant s.sender (s.leaves + 1)
    rw [hqueue, inHand_of_buffers hbuffers] at hs
    simp only [release, hqueue, inHand_of_buffers hbuffers, List.countP_nil] at hs ⊢
    omega
  | receive block hmem hpresent =>
    have hperm := List.perm_cons_erase hmem
    have hlen := hperm.length_eq
    have hcount := hperm.countP_eq (late s.leaves)
    have hlate : late s.leaves block = false := decide_eq_false (by omega)
    simp only [List.length_cons, List.countP_cons, hlate] at hlen hcount
    simp only [release, List.length_append, List.length_singleton] at hs ⊢
    simp only [Bool.false_eq_true, if_false] at hcount
    omega

theorem Losses.step {stream : List UInt8} (hs : s.Losses) (hflow : s.Flow time stream)
    {a : DtAction} (h : s.step time a = some t) : t.Losses := by
  cases a with
  | main oneline =>
    obtain ⟨state, pc, rfl, -⟩ := mainStep_kind h
    exact hs
  | avant allocates sends => exact hs.avantStep hflow h
  | connect late =>
    obtain ⟨hpc, receiver, -, rfl⟩ := step_connect h
    have hzero := lateTurn_eq_zero .loopTest id ⟨s.sender.activation + 1, receiver⟩ s.leaves
    rw [Losses, hpc, AvantPc.inHand] at hs
    rw [Losses, AvantPc.inHand]
    simp only [hzero]
    omega
  | rear found => exact hs.rearStep hflow h
  | destroy block =>
    obtain ⟨hmem, hclosed, rfl⟩ := step_destroy h
    have hperm := List.perm_cons_erase hmem
    have hlen := hperm.length_eq
    have hcount := hperm.countP_eq (late s.leaves)
    have hlate : late s.leaves block = true := decide_eq_true hclosed
    rw [Losses] at hs ⊢
    simp only [List.length_cons, List.countP_cons, hlate, if_true] at hlen hcount ⊢
    omega

/-- No turn begins late before `DTrear` has left its loop. -/
def Fresh (s : Dtmain) : Prop := s.leaves = 0 → s.stale = 0

theorem Fresh.step (hs : s.Fresh) {a : DtAction} (h : s.step time a = some t) : t.Fresh := by
  cases a with
  | main oneline =>
    obtain ⟨state, pc, rfl, -⟩ := mainStep_kind h
    exact hs
  | avant allocates sends =>
    cases avantStep_kind h with
    | begin =>
      intro hleaves
      have hstale := hs hleaves
      simp only at hleaves ⊢
      rw [hleaves, hstale]
      simp
    | move | allocate | dummy | read | throw | send | fail => exact hs
  | connect late =>
    obtain ⟨-, receiver, -, rfl⟩ := step_connect h
    exact hs
  | rear found =>
    cases rearStep_kind h with
    | move | idle | receive => exact hs
    | leave => exact fun hleaves => absurd hleaves (Nat.succ_ne_zero _)
  | destroy block =>
    obtain ⟨-, -, rfl⟩ := step_destroy h
    exact hs

/-! ### What is written -/

/-- The options of a run stay as they are. -/
theorem options_step {a : DtAction} (h : s.step time a = some t) :
    t.mIsDummy = s.mIsDummy ∧ t.mBufsize = s.mBufsize ∧ t.mNspill = s.mNspill := by
  cases a with
  | main oneline =>
    obtain ⟨state, pc, rfl, -⟩ := mainStep_kind h
    exact ⟨rfl, rfl, rfl⟩
  | avant allocates sends => cases avantStep_kind h <;> exact ⟨rfl, rfl, rfl⟩
  | connect late =>
    obtain ⟨-, receiver, -, rfl⟩ := step_connect h
    exact ⟨rfl, rfl, rfl⟩
  | rear found => cases rearStep_kind h <;> exact ⟨rfl, rfl, rfl⟩
  | destroy block =>
    obtain ⟨-, -, rfl⟩ := step_destroy h
    exact ⟨rfl, rfl, rfl⟩

/-- The numbers of the blocks received. -/
def numbers (s : Dtmain) : List ℕ := s.received.map (·.index)

section Run

variable {isGoodInit mIsDummy : Bool} {mBufsize mNspill : ℕ} {socket : Socket} {as : List DtAction}

theorem flow_of_run (hclean : socket.Clean)
    (h : run (step time) (start isGoodInit mIsDummy mBufsize mNspill socket) as = some s) :
    s.Flow time socket.bytes ∧
      s.mIsDummy = mIsDummy ∧ s.mBufsize = mBufsize ∧ s.mNspill = mNspill := by
  refine run_invariant (I := fun s => s.Flow time socket.bytes ∧
    s.mIsDummy = mIsDummy ∧ s.mBufsize = mBufsize ∧ s.mNspill = mNspill)
      ⟨flow_start isGoodInit mIsDummy mBufsize mNspill hclean, rfl, rfl, rfl⟩ ?_ h
  intro s a t hs hstep
  obtain ⟨hflow, hdummy, hbufsize, hnspill⟩ := hs
  obtain ⟨hdummy', hbufsize', hnspill'⟩ := options_step hstep
  exact ⟨hflow.step hstep, hdummy'.trans hdummy, hbufsize'.trans hbufsize,
    hnspill'.trans hnspill⟩

theorem wired_of_run (hclean : socket.Clean)
    (h : run (step time) (start isGoodInit mIsDummy mBufsize mNspill socket) as = some s) :
    s.Wired ∧ s.Losses ∧ s.Fresh := by
  refine (run_invariant (I := fun s => s.Flow time socket.bytes ∧ s.Wired ∧ s.Losses ∧ s.Fresh)
      ⟨flow_start isGoodInit mIsDummy mBufsize mNspill hclean,
        wired_start isGoodInit mIsDummy mBufsize mNspill socket, ?_, fun _ => rfl⟩ ?_ h).2
  · simp [Losses, start, AvantPc.inHand, lateTurn, AvantPc.InTurn]
  · intro s a t hs hstep
    obtain ⟨hflow, hwired, hlosses, hfresh⟩ := hs
    exact ⟨hflow.step hstep, hwired.step hflow hstep, hlosses.step hflow hstep,
      hfresh.step hstep⟩

theorem inOrder_of_run (hclean : socket.Clean)
    (h : run (step time) (start isGoodInit mIsDummy mBufsize mNspill socket) as = some s)
    (hdrained : Meets (step time) ConnectsDrained
      (start isGoodInit mIsDummy mBufsize mNspill socket) as) : s.InOrder :=
  (run_invariant_of_meets (I := fun s => s.Flow time socket.bytes ∧ s.InOrder)
    ⟨flow_start isGoodInit mIsDummy mBufsize mNspill hclean,
      inOrder_start isGoodInit mIsDummy mBufsize mNspill socket⟩
    (fun _ _ _ hs hc hstep => ⟨hs.1.step hstep, hs.2.step hs.1 hc hstep⟩) h hdrained).2

theorem Flow.received_data {stream : List UInt8} (hs : s.Flow time stream) :
    s.received.map (fun block => wordsOf block.data) =
      s.numbers.map fun k => wordsOf (blockOf s.mIsDummy s.mBufsize stream k) := by
  rw [numbers, List.map_map]
  apply List.map_congr_left
  intro block hblock
  have hmem : block ∈ s.blocks :=
    List.mem_append_left _ (List.mem_append_left _ hblock)
  rw [hs.data block hmem]
  rfl

/-- The blocks received of an activation come in the order of the stream. -/
theorem Wired.received_in_order (hs : s.Wired) (activation : ℕ) :
    ((s.received.filter (·.sender.activation = activation)).map (·.index)).Pairwise (· < ·) := by
  have horder : s.received.Pairwise fun a b => a.sender = b.sender → a.index < b.index :=
    hs.order.of_append.of_append
  have hmem : ∀ block ∈ s.received, block.sender ∈ s.senders := fun block hblock =>
    List.mem_cons_of_mem _ (List.mem_map_of_mem
      (List.mem_append_left _ (List.mem_append_left _ hblock)))
  rw [List.pairwise_map]
  refine (horder.filter _).imp_of_mem fun {a b} ha hb hlt => hlt ?_
  rw [List.mem_filter, decide_eq_true_eq] at ha hb
  exact hs.one (hmem a ha.1) (hmem b hb.1) (ha.2.trans hb.2.symm)

/-- Two words, of which the second ends a spill. -/
def oneSpill : Socket := ⟨[.data 1 [0, 0, 0, 0x55, 0x55, 0xff, 0xff]], true⟩

/-- They are read and written as one block. -/
def oneBlock : List DtAction :=
  [.main "", .main "", .avant true true, .connect false] ++ List.replicate 4 (.avant true true) ++
    [.rear none, .rear none, .rear (some 1)]

/-- A block, `idle` and `run`, and a block of the next activation, which is received first. -/
def twoActivations : List DtAction :=
  [.main "", .main "", .avant true true, .connect false] ++ List.replicate 4 (.avant true true) ++
    [.main "idle", .avant true true, .avant true true, .main "run", .avant true true,
      .connect false] ++ List.replicate 4 (.avant true true) ++
    [.rear none, .rear none, .rear (some 2), .rear none, .rear (some 1)]

end Run

/-! ### Whether the files are exact -/

theorem wordsOf_append {bs bs' : List UInt8} (h : 4 ∣ bs.length) :
    wordsOf (bs ++ bs') = wordsOf bs ++ wordsOf bs' := by
  fun_induction wordsOf bs with
  | case1 a b c d bytes ih =>
    have hrest : 4 ∣ bytes.length := by
      simp only [List.length_cons] at h
      omega
    simp only [List.cons_append, wordsOf, ih hrest]
  | case2 bs hshort =>
    match bs, hshort, h with
    | [], _, _ => rfl
    | [_], _, h | [_, _], _, h | [_, _, _], _, h =>
      simp at h
    | a :: b :: c :: d :: bytes, hshort, _ => exact absurd rfl (hshort a b c d bytes)

/-- The first blocks make up the front of the stream. -/
theorem wordsOf_blocks {b : ℕ} {stream : List UInt8} (hb : 4 ∣ b) (hstream : 4 ∣ stream.length)
    (n : ℕ) : ((List.range n).map fun k => wordsOf (blockOf false b stream k)).flatten =
      wordsOf (stream.take (n * b)) := by
  induction n with
  | zero => simp [wordsOf]
  | succ n ih =>
    have hsplit : stream.take ((n + 1) * b) =
        stream.take (n * b) ++ blockOf false b stream n := by
      rw [Nat.succ_mul, List.take_add]
      rfl
    have hfront : 4 ∣ (stream.take (n * b)).length := by
      rw [List.length_take]
      have hmul : 4 ∣ n * b := Dvd.dvd.mul_left hb n
      omega
    rw [List.range_succ, List.map_append, List.flatten_append, ih, hsplit, wordsOf_append hfront]
    simp

/-- Before `DTrear` has left its loop and where no send fails nothing is lost, so that the blocks
received are the first ones. -/
theorem InOrder.numbers_eq_range (hs : s.InOrder) (hwired : s.Wired) (hlosses : s.Losses)
    (hfresh : s.Fresh) (hleaves : s.leaves = 0) (hfailed : s.failed = 0) :
    s.numbers = List.range s.received.length := by
  -- all that is in the pipes waits for the first receiver
  have hwaiting : s.waiting = s.queue := by
    apply List.filter_eq_self.mpr
    intro block hblock
    have hpresent := hwired.present block.sender (List.mem_cons_of_mem _
      (List.mem_map_of_mem (List.mem_append_left _ (List.mem_append_right _ hblock))))
    exact decide_eq_true (by omega)
  have hall : s.blocks.map (·.index) = List.range s.reads := by
    have horder := hs.order
    rw [hwaiting] at horder
    apply horder.eq_of_length_le
    rw [Losses, hleaves, hfailed, hfresh hleaves] at hlosses
    simp only [List.length_range, List.length_map, List.length_append]
    omega
  have hprefix : s.numbers <+: List.range s.reads := by
    rw [← hall, blocks, List.append_assoc, List.map_append]
    exact List.prefix_append _ _
  have hle := hprefix.length_le
  rw [List.prefix_iff_eq_take.mp hprefix, List.take_range, numbers, List.length_map]
  rw [numbers, List.length_map, List.length_range] at hle
  rw [Nat.min_eq_left hle]

/-- Before `DTrear` has left its loop, and where `DTavant` never starts anew while blocks of its
last activation wait, the files hold the stream as far as it has been received, each word once and
the times behind the ends of the spills, if and only if each spill ends where a block does. -/
theorem dtmain_files_exact_iff {isGoodInit : Bool} {mBufsize mNspill : ℕ} {socket : Socket}
    {as : List DtAction} (hclean : socket.Clean) (hbufsize : 4 ∣ mBufsize)
    (hwords : 4 ∣ socket.bytes.length)
    (hrun : run (step time) (start isGoodInit false mBufsize mNspill socket) as = some s)
    (hdrained : Meets (step time) ConnectsDrained
      (start isGoodInit false mBufsize mNspill socket) as)
    (hleaves : s.leaves = 0) (hfailed : s.failed = 0) (hsome : s.received ≠ []) :
    s.writer.files = spillFiles mNspill time 0
        (wordsOf (socket.bytes.take (s.received.length * mBufsize))) ↔
      ∀ k < s.received.length,
        DTrear.EndsWithSpill (wordsOf (blockOf false mBufsize socket.bytes k)) := by
  obtain ⟨hwired, hlosses, hfresh⟩ := wired_of_run hclean hrun
  have hordered := inOrder_of_run hclean hrun hdrained
  obtain ⟨hflow, hdummy, rfl, rfl⟩ := flow_of_run hclean hrun
  have hnumbers := hordered.numbers_eq_range hwired hlosses hfresh hleaves hfailed
  have hwritten := hflow.written
  rw [hflow.received_data, hnumbers, hdummy] at hwritten
  have hchunks : ((List.range s.received.length).map fun k =>
      wordsOf (blockOf false s.mBufsize socket.bytes k)) ≠ [] := by
    simpa using hsome
  rw [← wordsOf_blocks hbufsize hwords, hwritten]
  constructor
  · intro hfiles k hk
    have hexact : DTrear.Exact s.mNspill time _ := fun _ => hfiles
    apply hexact.endsWithSpill
    exact List.mem_map_of_mem (List.mem_range.mpr hk)
  · intro hends
    refine DTrear.exact_of_endsWithSpill (fun cdata hcdata => ?_) hchunks
    obtain ⟨k, hk, rfl⟩ := List.mem_map.mp hcdata
    exact hends k (List.mem_range.mp hk)

theorem dtmain_files_exact_iff_oneBlock :
    ∃ s, run (step fun _ => 7) (start true false 8 1 oneSpill) oneBlock = some s ∧
      s.writer.files = spillFiles 1 (fun _ => 7) 0 [1, spillEnd] := by
  have hone : (run (step fun _ => 7) (start true false 8 1 oneSpill) oneBlock).map
      (fun s => (s.received.length, s.leaves, s.failed)) = some (1, 0, 0) := rfl
  obtain ⟨s, hrun, hone⟩ := Option.map_eq_some_iff.mp hone
  obtain ⟨hlength, hnone⟩ := Prod.mk.inj hone
  obtain ⟨hleaves, hfailed⟩ := Prod.mk.inj hnone
  have hsome : s.received ≠ [] := fun hnil => by simp [hnil] at hlength
  have hfiles := dtmain_files_exact_iff (by simp [oneSpill, Socket.Clean]) (by decide) (by decide)
    hrun (by decide +kernel) hleaves hfailed hsome
  rw [hlength] at hfiles
  refine ⟨s, hrun, hfiles.mpr fun k hk => ?_⟩
  obtain rfl : k = 0 := by omega
  show spillEnd ∉ [(1 : UInt32)]
  decide

end Dtmain

end LebStudy
