import LebStudy.EventBuilder.PackedEvent
import LebStudy.Lib.Buffer
import LebStudy.Lib.IStream
import Mathlib.Data.List.Forall2

/-!
# `checkleb` on a stream of packed events

`reading` of `checkleb.cxx` loops until `cin` is at its end, which it is not
before a read has found too few bytes. Behind the last event the loop makes one
more turn: the header read fails, and `event` and `ebody` still hold what the
turn before has left in them.
-/

namespace LebStudy

open BigEndian

namespace Checkleb

/-- The line printed for the header of an event. -/
structure HeaderLine where
  magic : UInt32
  length : ℤ
  id : ℕ
  nodes : ℕ
  flags : ℕ
  deriving DecidableEq, Repr

/-- What a turn of the loop prints: the header, and with `-r` the recbe headers. -/
structure Report where
  header : HeaderLine
  recbes : List RecbeHeader
  deriving DecidableEq, Repr

def HeaderLine.ofHeader (event : PackedEvent) : HeaderLine where
  magic := event.magicRaw
  length := event.lengthInt
  id := event.id.toNat
  nodes := event.nodes.toNat
  flags := event.flag.toNat

/-- The variables of `reading`. `fresh` is the memory that the next `new` returns, and
`later` those after it. -/
structure State where
  cin : IStream
  event : Buffer
  ebody : Buffer
  bufsize : ℤ
  fresh : ℕ → Buffer

/-- `while (lnread < len) { .. }`, if it is left after at most so many turns. -/
def bodyLoop (len : ℤ) : ℕ → IStream → Buffer → ℤ → Option (IStream × Buffer)
  | 0, _, _, _ => none
  | turns + 1, cin, ebody, lnread =>
    if lnread < len then
      let (got, cin) := cin.read len.toNat
      let ebody := ebody.store got
      let lnread := lnread + cin.gcount
      if cin.eof then some (cin, ebody) else bodyLoop len turns cin ebody lnread
    else some (cin, ebody)

/-- `for (int i = 0 ; i < nnode ; i++)`: the headers from `buf` on. -/
def recbeLoop : ℕ → Buffer → List RecbeHeader
  | 0, _ => []
  | nnode + 1, buf =>
    let h := RecbeHeader.ofBytes (buf.bytes RecbeHeader.size)
    h :: recbeLoop nnode (buf.plus (h.len.toNat + RecbeHeader.size))

/-- `if (bufsize < len)`: a new buffer of twice the length. -/
def grow (s : State) (len : ℤ) : State :=
  if s.bufsize < len then
    { s with ebody := s.fresh 0, bufsize := len * 2, fresh := fun i => s.fresh (i + 1) }
  else s

/-- A turn of the outer loop behind the header: the body, and the printing, with `flag` for
`g_flag_disp_recbe_header`. -/
def turnBody (flag : Bool) (header : PackedEvent) (s : State) : Option (State × Report) :=
  let len := header.lengthInt
  let nnode := header.nodes.toNat
  (bodyLoop len (len.toNat + 1) s.cin s.ebody 0).map fun (cin, ebody) =>
    ({ s with cin := cin, ebody := ebody },
      ⟨.ofHeader header, if flag then recbeLoop nnode ebody else []⟩)

/-- A turn of the outer loop. -/
def turn (flag : Bool) (s : State) : Option (State × Report) :=
  let (got, cin) := s.cin.read PackedEvent.size
  -- with too few bytes, or none, the rest of `event` stays
  let event := s.event.store got
  let header := PackedEvent.ofBytes (event.bytes PackedEvent.size)
  turnBody flag header (grow { s with cin := cin, event := event } header.lengthInt)

/-- `while (! std::cin.eof()) { .. }`: the reports, if it is left after at most so many turns. -/
def outerLoop (flag : Bool) : ℕ → State → Option (List Report)
  | 0, _ => none
  | turns + 1, s =>
    if s.cin.eof then some []
    else
      (turn flag s).bind fun (s, report) => (outerLoop flag turns s).map (report :: ·)

/-- What lies in the memory of `event` and of the buffers before anything is read into it. -/
structure Memory where
  event : Buffer
  ebody : Buffer
  fresh : ℕ → Buffer

/-- `reading()`, with this content of `cin`. -/
def reading (flag : Bool) (memory : Memory) (content : List UInt8) : Option (List Report) :=
  outerLoop flag (content.length + 2)
    ⟨.ofBytes content, memory.event, memory.ebody, 100000, memory.fresh⟩

/-! ### Packed events -/

/-- A packed event: the magic word, the length of its body in the header, and the body. -/
structure Packed where
  header : PackedEvent
  body : List UInt8
  magic_eq : header.magic = lebMagic
  length_eq : header.length.toNat = body.length
  length_lt : body.length < 2 ^ 30

namespace Packed

def bytes (e : Packed) : List UInt8 := e.header.bytes ++ e.body

/-- The report is the event's: its header, and with `-r` the headers of its records, if its
body is made of as many records as the header counts. -/
def Reported (flag : Bool) (e : Packed) (r : Report) : Prop :=
  r.header = ⟨lebMagic, e.body.length, e.header.id.toNat, e.header.nodes.toNat,
      e.header.flag.toNat⟩ ∧
    (flag = false → r.recbes = []) ∧
      (flag = true → ∀ records : List RecbeRecord, e.body = records.flatMap RecbeRecord.bytes →
        e.header.nodes.toNat = records.length → r.recbes = records.map (·.header))

theorem lengthInt_eq (e : Packed) : e.header.lengthInt = e.body.length := by
  have h := e.length_lt
  have heq := e.length_eq
  rw [PackedEvent.lengthInt_of_lt (by omega), heq]

theorem headerLine_eq (e : Packed) : HeaderLine.ofHeader e.header =
    ⟨lebMagic, e.body.length, e.header.id.toNat, e.header.nodes.toNat,
      e.header.flag.toNat⟩ := by
  have hmagic : e.header.magicRaw = lebMagic := by
    rw [PackedEvent.magicRaw, e.magic_eq]
    decide
  rw [HeaderLine.ofHeader, hmagic, e.lengthInt_eq]

end Packed

/-! ### One turn -/

/-- The body is there: it goes into the buffer in one read. -/
theorem bodyLoop_of_good {cin : IStream} {body content : List UInt8} (ebody : Buffer)
    (h : cin.Good (body ++ content)) :
    ∃ cin' ebody', bodyLoop body.length (body.length + 1) cin ebody 0 = some (cin', ebody') ∧
      cin'.Good content ∧ ebody'.Holds body := by
  by_cases hnil : body = []
  · subst hnil
    exact ⟨cin, ebody, rfl, h, rfl⟩
  · have hpos : 0 < body.length := List.length_pos_iff.mpr hnil
    obtain ⟨hgot, hgood, hgcount⟩ := IStream.read_of_good h
    refine ⟨_, _, ?_, hgood, Buffer.holds_store ebody body⟩
    rw [bodyLoop, if_pos (by omega)]
    simp only [Int.toNat_natCast, hgot, hgood.1, hgcount, Bool.false_eq_true, if_false]
    -- all is read, so the next test ends the loop
    cases hlen : body.length with
    | zero => omega
    | succ n => simp [bodyLoop]

/-- The body, as much of it as comes. -/
theorem bodyLoop_eq {cin : IStream} {content : List UInt8} (len : ℤ) (ebody : Buffer)
    (hcin : cin.Good content) :
    ∃ cin' ebody', bodyLoop len (len.toNat + 1) cin ebody 0 = some (cin', ebody') ∧
      ebody'.Holds (content.take len.toNat) ∧ cin'.rest = content.drop len.toNat ∧
      (content.length < len.toNat → cin'.eof = true) ∧
      (len.toNat ≤ content.length → cin'.Good (content.drop len.toNat)) := by
  by_cases hlen : len.toNat ≤ content.length
  · have htake : (content.take len.toNat).length = len.toNat := List.length_take_of_le hlen
    by_cases hpos : 0 ≤ len
    · obtain ⟨cin', ebody', hloop, hgood, hheld⟩ :=
        bodyLoop_of_good ebody ((List.take_append_drop len.toNat content).symm ▸ hcin)
      rw [htake, Int.toNat_of_nonneg hpos] at hloop
      exact ⟨cin', ebody', hloop, hheld, hgood.2.2, fun hlt => by omega, fun _ => hgood⟩
    · -- a negative length: nothing is read
      have hzero : len.toNat = 0 := Int.toNat_eq_zero.mpr (by omega)
      refine ⟨cin, ebody, ?_, ?_, ?_, fun hlt => by omega, fun _ => ?_⟩
      · rw [bodyLoop, if_neg (by omega)]
      · rw [hzero]
        rfl
      · rw [hzero]
        exact hcin.2.2
      · rw [hzero]
        exact hcin
  · have hlt : content.length < len.toNat := Nat.lt_of_not_le hlen
    have hread := IStream.read_of_short hcin hlt
    refine ⟨⟨[], true, true, content.length⟩, ebody.store content, ?_, ?_, ?_, fun _ => rfl,
      fun hle => absurd hle hlen⟩
    · rw [bodyLoop, if_pos (by omega), hread]
      simp
    · rw [List.take_of_length_le hlt.le]
      exact Buffer.holds_store ebody content
    · rw [List.drop_eq_nil_of_le hlt.le]

/-- At the end of the stream the buffer stays as it is. -/
theorem bodyLoop_of_eof {cin : IStream} (len : ℤ) (ebody : Buffer) (h : cin.eof = true) :
    ∃ cin', bodyLoop len (len.toNat + 1) cin ebody 0 = some (cin', ebody) ∧ cin'.eof = true := by
  rw [bodyLoop]
  by_cases hlen : 0 < len
  · rw [if_pos hlen, IStream.read_of_eof h]
    simp only [h, if_true, Buffer.store_nil]
    exact ⟨_, rfl, rfl⟩
  · rw [if_neg hlen]
    exact ⟨cin, rfl, h⟩

/-- Where records lie in memory, the walk finds their headers. -/
theorem recbeLoop_of_holds {records : List RecbeRecord} {buf : Buffer}
    (h : buf.Holds (records.flatMap RecbeRecord.bytes)) :
    recbeLoop records.length buf = records.map (·.header) := by
  induction records generalizing buf with
  | nil => rfl
  | cons r rs ih =>
    obtain ⟨hheader, hrest⟩ := RecbeRecord.header_of_holds h
    rw [RecbeRecord.bytes_length, Nat.add_comm RecbeHeader.size] at hrest
    rw [List.length_cons, recbeLoop, hheader, List.map_cons, ih hrest]

theorem grow_cin (s : State) (len : ℤ) : (grow s len).cin = s.cin := by
  rw [grow]
  split <;> rfl

theorem grow_event (s : State) (len : ℤ) : (grow s len).event = s.event := by
  rw [grow]
  split <;> rfl

/-- A turn with an event header to come: as much of the body as comes goes into `ebody`. -/
theorem turn_of_header (flag : Bool) {s : State} {h : PackedEvent} {rest : List UInt8}
    (hcin : s.cin.Good (h.bytes ++ rest)) :
    ∃ s', turn flag s =
        some (s', ⟨.ofHeader h, if flag then recbeLoop h.nodes.toNat s'.ebody else []⟩) ∧
      s'.ebody.Holds (rest.take h.lengthInt.toNat) ∧ s'.event.Holds h.bytes ∧
      s'.bufsize = (grow s h.lengthInt).bufsize ∧
      s'.cin.rest = rest.drop h.lengthInt.toNat ∧
      (rest.length < h.lengthInt.toNat → s'.cin.eof = true) ∧
      (h.lengthInt.toNat ≤ rest.length → s'.cin.Good (rest.drop h.lengthInt.toNat)) := by
  obtain ⟨hgot, hrest, -⟩ := IStream.read_of_good hcin
  rw [PackedEvent.bytes_length] at hgot hrest
  have hevent : (s.event.store h.bytes).Holds h.bytes := Buffer.holds_store _ _
  have hheader := PackedEvent.ofBytes_of_holds hevent
  generalize hs₁ : grow
    { s with cin := (s.cin.read PackedEvent.size).2, event := s.event.store h.bytes }
    h.lengthInt = s₁
  have hread : s₁.cin = (s.cin.read PackedEvent.size).2 := by rw [← hs₁, grow_cin]
  have hkept : s₁.event = s.event.store h.bytes := by rw [← hs₁, grow_event]
  have hbufsize : s₁.bufsize = (grow s h.lengthInt).bufsize := by
    rw [← hs₁, grow, grow]
    split <;> rfl
  obtain ⟨cin', ebody', hbody, hheld, hleft, heof, hgood⟩ :=
    bodyLoop_eq h.lengthInt s₁.ebody (hread ▸ hrest)
  refine ⟨{ s₁ with cin := cin', ebody := ebody' }, ?_, hheld, hkept ▸ hevent, hbufsize, hleft,
    heof, hgood⟩
  have hturn : turn flag s = turnBody flag h s₁ := by
    rw [turn]
    simp only [hgot, hheader, hs₁]
  rw [hturn, turnBody, hbody]
  rfl

/-- With an event to come, the turn reports it and leaves its header in `event`. -/
theorem turn_of_good (flag : Bool) {s : State} {e : Packed} {content : List UInt8}
    (h : s.cin.Good (e.bytes ++ content)) :
    ∃ s' r, turn flag s = some (s', r) ∧ s'.cin.Good content ∧
      s'.event.Holds e.header.bytes ∧ e.Reported flag r := by
  rw [Packed.bytes, List.append_assoc] at h
  obtain ⟨s', hturn, hheld, hevent, -, -, -, hgood⟩ := turn_of_header flag h
  rw [e.lengthInt_eq, Int.toNat_natCast] at hheld hgood
  rw [List.take_left] at hheld
  rw [List.drop_left] at hgood
  refine ⟨s', _, hturn, hgood (by simp), hevent, e.headerLine_eq, ?_, ?_⟩
  · intro hflag
    simp [hflag]
  · intro hflag records hrecords hnodes
    simp only [hflag, if_true, hnodes]
    exact recbeLoop_of_holds (hrecords ▸ hheld)

/-- Behind the last event the turn reports the header that is still in `event`. -/
theorem turn_of_empty (flag : Bool) {s : State} (h : s.cin.Good []) :
    ∃ s' r, turn flag s = some (s', r) ∧ s'.cin.eof = true ∧
      r.header = .ofHeader (.ofBytes (s.event.bytes PackedEvent.size)) := by
  have hread := IStream.read_of_short h (show 0 < PackedEvent.size by decide)
  generalize hheader : PackedEvent.ofBytes (s.event.bytes PackedEvent.size) = header
  obtain ⟨s₁, hs₁⟩ : ∃ s₁, s₁ = grow { s with cin := ⟨[], true, true, 0⟩ } header.lengthInt :=
    ⟨_, rfl⟩
  have heof : s₁.cin.eof = true := by rw [hs₁, grow_cin]
  obtain ⟨cin', hbody, heof'⟩ := bodyLoop_of_eof header.lengthInt s₁.ebody heof
  refine ⟨{ s₁ with cin := cin' },
    ⟨.ofHeader header, if flag then recbeLoop header.nodes.toNat s₁.ebody else []⟩, ?_, heof', rfl⟩
  have hturn : turn flag s = turnBody flag header s₁ := by
    rw [turn, hread]
    simp only [Buffer.store_nil, hheader, List.length_nil, hs₁]
  rw [hturn, turnBody, hbody]
  rfl

/-! ### The whole stream -/

/-- The loop reports each event, and then once more what the last one has left in `event`. -/
theorem outerLoop_eq (flag : Bool) {es : List Packed} {turns : ℕ} {s : State}
    (hcin : s.cin.Good (es.flatMap Packed.bytes)) (hturns : es.length + 1 < turns) :
    ∃ reports last, outerLoop flag turns s = some (reports ++ [last]) ∧
      List.Forall₂ (Packed.Reported flag) es reports ∧
        ∀ header : PackedEvent,
          (es.getLast?.map (·.header)).getD (.ofBytes (s.event.bytes PackedEvent.size)) = header →
            last.header = .ofHeader header := by
  induction es generalizing turns s with
  | nil =>
    cases turns with
    | zero => omega
    | succ turns =>
      obtain ⟨s', last, hturn, heof, hlast⟩ := turn_of_empty flag hcin
      refine ⟨[], last, ?_, .nil, ?_⟩
      · cases turns with
        | zero => simp at hturns
        | succ turns => simp [outerLoop, hcin.1, hturn, heof]
      · intro header hheader
        rw [List.getLast?_nil, Option.map_none, Option.getD_none] at hheader
        rw [hlast, hheader]
  | cons e es ih =>
    cases turns with
    | zero => omega
    | succ turns =>
      rw [List.flatMap_cons] at hcin
      obtain ⟨s', r, hturn, hcin', hevent, hreported⟩ := turn_of_good flag hcin
      obtain ⟨reports, last, hloop, hreports, hlast⟩ :=
        ih hcin' (by simpa using hturns)
      refine ⟨r :: reports, last, ?_, .cons hreported hreports, ?_⟩
      · simp [outerLoop, hcin.1, hturn, hloop]
      · intro header hheader
        refine hlast header ?_
        rw [PackedEvent.ofBytes_of_holds hevent, ← hheader]
        cases es with
        | nil => simp
        | cons e' es => simp [List.getLast?_cons]

/-- The reports are those of the events, one for each. -/
def Exact (flag : Bool) (es : List Packed) (reports : Option (List Report)) : Prop :=
  ∃ rs, reports = some rs ∧ List.Forall₂ (Packed.Reported flag) es rs

/-- `reading` never reports exactly the events of its input: it reports them all, and then the
header of the last one again (or what lay in `event`, if there was none). -/
theorem reading_not_exact (flag : Bool) (memory : Memory) (es : List Packed) :
    ¬ Exact flag es (reading flag memory (es.flatMap Packed.bytes)) ∧
      ∃ reports last, reading flag memory (es.flatMap Packed.bytes) = some (reports ++ [last]) ∧
        List.Forall₂ (Packed.Reported flag) es reports ∧
          last.header = .ofHeader ((es.getLast?.map (·.header)).getD
            (.ofBytes (memory.event.bytes PackedEvent.size))) := by
  have hturns : es.length + 1 < (es.flatMap Packed.bytes).length + 2 := by
    have hle : es.length ≤ (es.flatMap Packed.bytes).length := by
      induction es with
      | nil => exact Nat.zero_le _
      | cons e es ih =>
        simp only [List.flatMap_cons, List.length_cons, List.length_append, Packed.bytes,
          PackedEvent.bytes_length, PackedEvent.size]
        omega
    omega
  obtain ⟨reports, last, hloop, hreports, hlast⟩ :=
    outerLoop_eq flag (s := ⟨.ofBytes (es.flatMap Packed.bytes), memory.event, memory.ebody,
      100000, memory.fresh⟩) (IStream.good_ofBytes _) hturns
  refine ⟨?_, reports, last, hloop, hreports, hlast _ rfl⟩
  rintro ⟨rs, hrs, hexact⟩
  have heq : reports ++ [last] = rs := Option.some_inj.mp (hloop.symm.trans hrs)
  have hlen := hexact.length_eq
  have hlen' := hreports.length_eq
  rw [← heq, List.length_append, List.length_singleton] at hlen
  omega

/-- Nothing on the standard input, and zeros in memory: a header is reported. -/
theorem header_of_nothing :
    ¬ ∀ (flag : Bool) (memory : Memory) (es : List Packed),
      Exact flag es (reading flag memory (es.flatMap Packed.bytes)) := by
  intro h
  obtain ⟨rs, hrs, hexact⟩ := h false ⟨fun _ => 0, fun _ => 0, fun _ _ => 0⟩ []
  cases hexact
  revert hrs
  decide

end Checkleb

end LebStudy
