import LebStudy.EventBuilder.PackedEvent
import LebStudy.Lib.IStream

/-!
# Reading a recorded file back

`recv_data` of `ebreceiver.cxx` writes each message to the file as it came, and
`read_file` reads the file event by event. The length of an event is a 32-bit word
in network byte order; `read_file` takes it with `ntohs`, so that on a
little-endian host it gets the upper half of the number.
-/

namespace LebStudy

open BigEndian

/-- `g_ofs.write(buf, nsize)`, for the messages in the order they are received. -/
def recorded (messages : List (List UInt8)) : List UInt8 :=
  messages.foldl (fun file buf => file ++ buf) []

/-- A call of `check_data`: the bytes of the buffer it is given, and `size`. -/
structure CheckCall where
  data : List UInt8
  size : ℕ
  deriving DecidableEq, Repr

/-- `ntohs(pheader->length)`: the conversion to sixteen bits keeps the lower half of the word
in memory, which on a little-endian host are its first two bytes. -/
def ntohsLength (cpheader : List UInt8) : ℕ := beNat ((cpheader.drop 4).take 2)

/-- `while (ifs) { .. }`: the calls of `check_data`, if the loop is left after at most so many
turns. -/
def readFileLoop : ℕ → IStream → Option (List CheckCall)
  | 0, _ => none
  | turns + 1, ifs =>
    if ifs.fail then some []
    else
      let (cpheader, ifs) := ifs.read PackedEvent.size
      if ifs.eof then some []
      else
        let len := ntohsLength cpheader
        let (body, ifs) := ifs.read len
        let nsize := ifs.gcount
        if ifs.eof then some []
        else (readFileLoop turns ifs).map (⟨cpheader ++ body, nsize + PackedEvent.size⟩ :: ·)

/-- `read_file` on a file with this content. -/
def readFile (content : List UInt8) : Option (List CheckCall) :=
  readFileLoop (content.length + 1) (.ofBytes content)

/-- A call with exactly the message. -/
def CheckCall.ofMessage (message : List UInt8) : CheckCall := ⟨message, message.length⟩

theorem recorded_eq (messages : List (List UInt8)) : recorded messages = messages.flatten := by
  have hfold : ∀ file, messages.foldl (fun file buf => file ++ buf) file =
      file ++ messages.flatten := by
    induction messages with
    | nil => simp
    | cons m ms ih =>
      intro file
      rw [List.foldl_cons, ih, List.flatten_cons, List.append_assoc]
  exact hfold []

/-! ### The events of a file -/

/-- The events that `read_file` cuts a file into, by the length that `ntohs` makes of the word
in the header. -/
def fileEvents (content : List UInt8) : List (List UInt8) :=
  if PackedEvent.size + ntohsLength content ≤ content.length then
    content.take (PackedEvent.size + ntohsLength content) ::
      fileEvents (content.drop (PackedEvent.size + ntohsLength content))
  else []
termination_by content.length
decreasing_by
  have hsize : PackedEvent.size = 16 := rfl
  rw [List.length_drop]
  omega

/-- The length is read from the event header alone. -/
theorem ntohsLength_take (content : List UInt8) :
    ntohsLength (content.take PackedEvent.size) = ntohsLength content := by
  rw [ntohsLength, ntohsLength, List.drop_take, List.take_take]
  rfl

/-- `check_data` is called for each of these events, with the event as it was read. -/
theorem readFileLoop_eq {turns : ℕ} {ifs : IStream} {content : List UInt8} (h : ifs.Good content)
    (hturns : content.length < turns) :
    readFileLoop turns ifs = some ((fileEvents content).map CheckCall.ofMessage) := by
  induction turns generalizing ifs content with
  | zero => omega
  | succ turns ih =>
    rw [readFileLoop, h.2.1, if_neg Bool.false_ne_true, fileEvents]
    by_cases hheader : PackedEvent.size ≤ content.length
    · have hcpheader : (content.take PackedEvent.size).length = PackedEvent.size :=
        List.length_take_of_le hheader
      have hsplit := List.take_append_drop PackedEvent.size content
      obtain ⟨hgot, hgood, -⟩ := IStream.read_of_good (hsplit.symm ▸ h)
      rw [hcpheader] at hgot hgood
      simp only [hgot, hgood.1, Bool.false_eq_true, if_false, ntohsLength_take]
      by_cases hbody : PackedEvent.size + ntohsLength content ≤ content.length
      · have hlen : ((content.drop PackedEvent.size).take (ntohsLength content)).length =
            ntohsLength content := by
          rw [List.length_take, List.length_drop]
          omega
        have hrest := List.take_append_drop (ntohsLength content) (content.drop PackedEvent.size)
        obtain ⟨hgot', hgood', hgcount⟩ := IStream.read_of_good (hrest.symm ▸ hgood)
        rw [hlen] at hgot' hgood' hgcount
        rw [List.drop_drop] at hgood'
        have hsize : PackedEvent.size = 16 := rfl
        have hloop := ih hgood' (by rw [List.length_drop]; omega)
        have hevent : content.take (PackedEvent.size + ntohsLength content) =
            content.take PackedEvent.size ++
              (content.drop PackedEvent.size).take (ntohsLength content) := List.take_add
        have hcall : CheckCall.ofMessage (content.take (PackedEvent.size + ntohsLength content)) =
            ⟨content.take PackedEvent.size ++
                (content.drop PackedEvent.size).take (ntohsLength content),
              ntohsLength content + PackedEvent.size⟩ := by
          rw [CheckCall.ofMessage, hevent, List.length_append, hcpheader, hlen, Nat.add_comm]
        simp only [hgot', hgood'.1, hgcount, Bool.false_eq_true, if_false, hloop, Option.map_some]
        rw [if_pos hbody, List.map_cons, hcall]
      · -- the end of the file is inside the body
        have hread := IStream.read_of_short hgood
          (show (content.drop PackedEvent.size).length < ntohsLength content by
            rw [List.length_drop]; omega)
        rw [if_neg hbody]
        simp [hread]
    · have hread := IStream.read_of_short h (Nat.lt_of_not_le hheader)
      rw [if_neg (by omega)]
      simp [hread]

theorem readFile_eq (content : List UInt8) :
    readFile content = some ((fileEvents content).map CheckCall.ofMessage) :=
  readFileLoop_eq (IStream.good_ofBytes content) (Nat.lt_succ_self _)

theorem readFile_isSome (content : List UInt8) : (readFile content).isSome := by
  rw [readFile_eq]
  rfl

/-! ### One event -/

theorem ntohsLength_bytes (p : PackedEvent) : ntohsLength p.bytes = p.length.toNat / 2 ^ 16 := by
  have htake : (p.bytes.drop 4).take 2 = beBytes 2 (p.length.toNat / 256 ^ 2) := by
    simp [PackedEvent.bytes, beBytes, Nat.div_div_eq_div_mul]
  have hlt : p.length.toNat / 256 ^ 2 < 256 ^ 2 := by
    have := p.length.toNat_lt
    omega
  rw [ntohsLength, htake, beNat_beBytes_of_lt hlt]
  norm_num

/-- An event whose body length is in the header: what is cut out for it is the header and as many
bytes as the upper half of the length says. -/
theorem fileEvents_event {p : PackedEvent} {body : List UInt8} (content : List UInt8)
    (hlength : p.length.toNat = body.length) :
    fileEvents (p.bytes ++ (body ++ content)) =
      (p.bytes ++ body.take (body.length / 2 ^ 16)) ::
        fileEvents (body.drop (body.length / 2 ^ 16) ++ content) := by
  have hntohs : ntohsLength (p.bytes ++ (body ++ content)) = body.length / 2 ^ 16 := by
    rw [← ntohsLength_take, List.take_left' (PackedEvent.bytes_length p), ntohsLength_bytes,
      hlength]
  have hle : body.length / 2 ^ 16 ≤ body.length := Nat.div_le_self _ _
  have hthere : p.bytes.length + body.length / 2 ^ 16 ≤ (p.bytes ++ (body ++ content)).length := by
    rw [List.length_append, List.length_append]
    omega
  rw [fileEvents, hntohs, ← PackedEvent.bytes_length p, if_pos hthere,
    List.take_length_add_append, List.drop_length_add_append, List.take_append_of_le_length hle,
    List.drop_append_of_le_length hle]

/-- A packed event is a header with the length of the body, and the body. -/
theorem packData_split (mId : ℕ) (mNodes : List ℕ) {ev : EbEvent}
    (hlen : (packBody mNodes ev.fragments).length < 2 ^ 31) :
    ∃ p : PackedEvent, (packData mId mNodes ev).2 = p.bytes ++ packBody mNodes ev.fragments ∧
      p.length.toNat = (packBody mNodes ev.fragments).length := by
  rw [packData_eq]
  refine ⟨_, rfl, ?_⟩
  rw [UInt32.toNat_ofNat']
  exact Nat.mod_eq_of_lt (by omega)

/-! ### Files of packed events -/

/-- The events cut out are those packed exactly if none of these has a body. -/
theorem fileEvents_eq_iff (mId : ℕ) (mNodes : List ℕ) {evs : List EbEvent}
    (hlen : ∀ ev ∈ evs, (packBody mNodes ev.fragments).length < 2 ^ 31) :
    (fileEvents (evs.map fun ev => (packData mId mNodes ev).2).flatten).map CheckCall.ofMessage =
        evs.map (fun ev => CheckCall.ofMessage (packData mId mNodes ev).2) ↔
      ∀ ev ∈ evs, packBody mNodes ev.fragments = [] := by
  induction evs with
  | nil =>
    have hnil : fileEvents [] = [] := by
      rw [fileEvents, if_neg (by simp [PackedEvent.size])]
    simp [hnil]
  | cons ev evs ih =>
    obtain ⟨hev, hevs⟩ := List.forall_mem_cons.mp hlen
    obtain ⟨p, hmessage, hlength⟩ := packData_split mId mNodes hev
    rw [List.map_cons, List.flatten_cons, hmessage, List.append_assoc,
      fileEvents_event _ hlength, List.map_cons, List.map_cons, hmessage, List.forall_mem_cons,
      List.cons.injEq]
    have hcall : CheckCall.ofMessage (p.bytes ++ (packBody mNodes ev.fragments).take
          ((packBody mNodes ev.fragments).length / 2 ^ 16)) =
          .ofMessage (p.bytes ++ packBody mNodes ev.fragments) ↔
        packBody mNodes ev.fragments = [] := by
      constructor
      · intro h
        -- the upper half of a length below 2 ^ 31 is the length only if it is zero
        have hsize := congrArg CheckCall.size h
        simp only [CheckCall.ofMessage, List.length_append, List.length_take] at hsize
        exact List.length_eq_zero_iff.mp (by omega)
      · intro h
        simp [h]
    rw [hcall]
    refine and_congr_right fun hbody => ?_
    rw [hbody, List.drop_nil, List.nil_append]
    exact ih hevs

/-- A file of packed events reads back as these events exactly if none of them has a body. -/
theorem readFile_recorded_iff (mId : ℕ) (mNodes : List ℕ) (evs : List EbEvent)
    (hlen : ∀ ev ∈ evs, (packBody mNodes ev.fragments).length < 2 ^ 31) :
    readFile (recorded (evs.map fun ev => (packData mId mNodes ev).2)) =
        some (evs.map fun ev => CheckCall.ofMessage (packData mId mNodes ev).2) ↔
      ∀ ev ∈ evs, packBody mNodes ev.fragments = [] := by
  rw [recorded_eq, readFile_eq, Option.some.injEq]
  exact fileEvents_eq_iff mId mNodes hlen

/-- An event with one body byte: the header alone is taken for it. -/
theorem read_file_loses_body :
    ¬ ∀ (mId : ℕ) (mNodes : List ℕ) (evs : List EbEvent),
      (∀ ev ∈ evs, (packBody mNodes ev.fragments).length < 2 ^ 31) →
        readFile (recorded (evs.map fun ev => (packData mId mNodes ev).2)) =
          some (evs.map fun ev => CheckCall.ofMessage (packData mId mNodes ev).2) := by
  intro h
  have hread := h 999 [1] [⟨7, [1], [[0xaa]], false, 0⟩] (by decide)
  revert hread
  decide

/-- Two events without body bytes, one of them without fragments. -/
theorem read_file_empty_bodies :
    readFile (recorded ([⟨7, [1], [[]], false, 0⟩, ⟨8, [], [], false, 1⟩].map
        fun ev => (packData 999 [1] ev).2)) =
      some ([⟨7, [1], [[]], false, 0⟩, ⟨8, [], [], false, 1⟩].map
        fun ev => CheckCall.ofMessage (packData 999 [1] ev).2) :=
  (readFile_recorded_iff 999 [1] _ (by decide)).mpr (by decide)

end LebStudy
