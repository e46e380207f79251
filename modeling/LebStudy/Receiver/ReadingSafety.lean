import LebStudy.Receiver.Safety

/-!
# Where `checkleb -r` reads

A turn of `reading` takes the event header from `cin` and the body, as far as there is
one, and then reads as many recbe headers as the event counts. It asks for the end of
the stream only before the turn, so that it is safe exactly on inputs whose last
event is cut inside its body, or finds no memory.
-/

namespace LebStudy

namespace Checkleb

/-- Whether `new char[bufsize]` throws behind `bufsize = len * 2`: there is no memory for so many
bytes, or the product is no `int` and comes out negative. -/
def refused (enough : ℤ → Bool) (bufsize len : ℤ) : Bool :=
  decide (bufsize < len) && (decide (2 ^ 30 ≤ len) || !enough (len * 2))

/-- What a turn from `s` to `s'` does. The offsets count the event header with the body. -/
def dumpOf (s s' : State) : Dump :=
  let header := PackedEvent.ofBytes (s'.event.bytes PackedEvent.size)
  { received := s.cin.rest.length - s'.cin.rest.length
    headers := (recordWalk (fun _ => false) s'.ebody header.nodes.toNat 0).map
      (PackedEvent.size + ·)
    nodes := header.nodes.toNat
    complaint := false }

/-- `while (! std::cin.eof()) { .. }` with `-r`, up to the turn that finds no memory and returns
with "Buffer allocation fail": what the turns do, if the loop is left after at most so many. -/
def dumpLoop (enough : ℤ → Bool) : ℕ → State → Option (List Dump)
  | 0, _ => none
  | turns + 1, s =>
    if s.cin.eof then some []
    else
      let (got, _) := s.cin.read PackedEvent.size
      let header := PackedEvent.ofBytes ((s.event.store got).bytes PackedEvent.size)
      if refused enough s.bufsize header.lengthInt then
        some [⟨got.length, [], header.nodes.toNat, true⟩]
      else (turn true s).bind fun (s', _) => (dumpLoop enough turns s').map (dumpOf s s' :: ·)

/-- All turns of `reading` with `-r` are safe. -/
def ReadingSafe (enough : ℤ → Bool) (memory : Memory) (content : List UInt8) : Prop :=
  ∃ dumps, dumpLoop enough (content.length + 2)
      ⟨.ofBytes content, memory.event, memory.ebody, 100000, memory.fresh⟩ = some dumps ∧
    ∀ d ∈ dumps, d.Safe

/-- `bufsize` behind an event of this length. -/
def grown (bufsize len : ℤ) : ℤ := if bufsize < len then len * 2 else bufsize

/-- Events, each with all its recbe headers in its body, up to one whose body is cut short or
for which there is no memory. -/
inductive Dumpable (enough : ℤ → Bool) : ℤ → List UInt8 → Prop
  | refused {bufsize : ℤ} (h : PackedEvent) (rest : List UInt8)
      (hrefused : refused enough bufsize h.lengthInt = true) :
      Dumpable enough bufsize (h.bytes ++ rest)
  | cut {bufsize : ℤ} (h : PackedEvent) (body : List UInt8)
      (hshort : body.length < h.lengthInt.toNat)
      (hheaders : HoldsHeaders (fun _ => false) h.nodes.toNat 0 body) :
      Dumpable enough bufsize (h.bytes ++ body)
  | event {bufsize : ℤ} (h : PackedEvent) (body rest : List UInt8)
      (hlength : body.length = h.lengthInt.toNat)
      (hheaders : HoldsHeaders (fun _ => false) h.nodes.toNat 0 body)
      (hrest : Dumpable enough (grown bufsize h.lengthInt) rest) :
      Dumpable enough bufsize (h.bytes ++ (body ++ rest))

section Turn

variable {enough : ℤ → Bool} {s s' : State} {r : Report} {h : PackedEvent}
  {content rest : List UInt8}

/-- The headers printed are those at the offsets of the walk. -/
theorem recbeLoop_eq_walk (buf : Buffer) (nnode offset : ℕ) :
    recbeLoop nnode (buf.plus offset) =
      (recordWalk (fun _ => false) buf nnode offset).map (headerAt buf) := by
  induction nnode generalizing offset with
  | zero => rfl
  | succ nnode ih =>
    rw [recbeLoop, Buffer.plus_plus, recordWalk, if_neg Bool.false_ne_true, List.map_cons]
    exact congrArg₂ List.cons rfl (ih _)

theorem grow_bufsize (s : State) (len : ℤ) : (grow s len).bufsize = grown s.bufsize len := by
  rw [grow, grown]
  by_cases hlt : s.bufsize < len
  · rw [if_pos hlt, if_pos hlt]
  · rw [if_neg hlt, if_neg hlt]

theorem turnBody_recbes (hturn : turnBody true h s = some (s', r)) :
    r.recbes = (recordWalk (fun _ => false) s'.ebody h.nodes.toNat 0).map (headerAt s'.ebody) ∧
      s'.event = s.event := by
  obtain ⟨⟨cin, ebody⟩, -, heq⟩ := Option.map_eq_some_iff.mp hturn
  obtain ⟨rfl, rfl⟩ := Prod.mk.inj heq
  refine ⟨?_, rfl⟩
  rw [← recbeLoop_eq_walk, Buffer.plus_zero]
  rfl

/-- The report of a turn is made of what it reads. -/
theorem turn_recbes (hturn : turn true s = some (s', r)) :
    r.recbes = (recordWalk (fun _ => false) s'.ebody (dumpOf s s').nodes 0).map
      (headerAt s'.ebody) := by
  rcases hread : s.cin.read PackedEvent.size with ⟨got, cin⟩
  rw [turn, hread] at hturn
  obtain ⟨hrecbes, hevent⟩ := turnBody_recbes hturn
  rw [grow_event] at hevent
  rw [hrecbes, dumpOf]
  simp only [hevent]

theorem turn_recbes_headers (hturn : turn true s = some (s', r)) :
    r.recbes = (dumpOf s s').headers.map fun o => headerAt s'.ebody (o - PackedEvent.size) := by
  have hrecbes := turn_recbes hturn
  rw [dumpOf] at hrecbes ⊢
  rw [hrecbes, List.map_map]
  exact List.map_congr_left fun o _ => by rw [Function.comp_apply, Nat.add_sub_cancel_left]

/-- Where no allocation is refused, the turns are those of the loop that finds all its memory, and
each report has as many recbe headers as its turn reads. -/
theorem outerLoop_of_dumpLoop {turns : ℕ} {dumps : List Dump}
    (hdumps : dumpLoop enough turns s = some dumps)
    (hmemory : ∀ d ∈ dumps, d.complaint = false) :
    ∃ reports, outerLoop true turns s = some reports ∧
      List.Forall₂ (fun d r => r.recbes.length = d.headers.length) dumps reports := by
  induction turns generalizing s dumps with
  | zero => cases hdumps
  | succ turns ih =>
    rw [dumpLoop] at hdumps
    rw [outerLoop]
    by_cases heof : s.cin.eof = true
    · rw [if_pos heof] at hdumps ⊢
      cases hdumps
      exact ⟨[], rfl, .nil⟩
    · rw [if_neg heof] at hdumps ⊢
      dsimp only at hdumps
      split at hdumps
      · cases hdumps
        exact absurd (hmemory _ (List.mem_singleton_self _)) (by simp)
      · obtain ⟨⟨s', r⟩, hturn, hrest⟩ := Option.bind_eq_some_iff.mp hdumps
        obtain ⟨others, hothers, rfl⟩ := Option.map_eq_some_iff.mp hrest
        obtain ⟨-, hmemory⟩ := List.forall_mem_cons.mp hmemory
        obtain ⟨reports, hreports, hsame⟩ := ih hothers hmemory
        refine ⟨r :: reports, ?_, .cons ?_ hsame⟩
        · rw [hturn, Option.bind_some]
          simp only [hreports, Option.map_some]
        · rw [turn_recbes hturn, List.length_map, recordWalk_length, dumpOf, List.length_map,
            recordWalk_length]

/-- The headers of a turn are inside what it takes off the stream exactly if the body holds them. -/
theorem dumpOf_safe_iff (hrest : s.cin.rest = h.bytes ++ rest)
    (hleft : s'.cin.rest = rest.drop h.lengthInt.toNat)
    (hheld : s'.ebody.Holds (rest.take h.lengthInt.toNat))
    (hheader : PackedEvent.ofBytes (s'.event.bytes PackedEvent.size) = h) :
    (dumpOf s s').Safe ↔
      HoldsHeaders (fun _ => false) h.nodes.toNat 0 (rest.take h.lengthInt.toNat) := by
  have hreceived : s.cin.rest.length - s'.cin.rest.length =
      PackedEvent.size + (rest.take h.lengthInt.toNat).length := by
    rw [hrest, hleft, List.length_append, PackedEvent.bytes_length, List.length_drop,
      List.length_take]
    omega
  have hwalk := @recordWalk_inside_iff (fun _ => false) s'.ebody h.nodes.toNat 0 _ hheld
  rw [List.drop_zero] at hwalk
  simp only [Dump.safe_iff, dumpOf, hheader, hreceived, List.forall_mem_map, List.length_map,
    recordWalk_length, Nat.lt_irrefl, false_implies, and_true, Nat.add_assoc,
    Nat.add_le_add_iff_left, Nat.le_add_right, true_and]
  exact hwalk

theorem Dumpable.size_le {bufsize : ℤ} (hdump : Dumpable enough bufsize content) :
    PackedEvent.size ≤ content.length := by
  cases hdump with
  | refused h rest hrefused => simp
  | cut h body hshort hheaders => simp
  | event h body rest hlength hheaders hrest => simp

theorem append_header_inj {h' : PackedEvent} {rest' : List UInt8}
    (heq : h.bytes ++ rest = h'.bytes ++ rest') : h = h' ∧ rest = rest' := by
  obtain ⟨hbytes, hrest⟩ := List.append_inj heq (by simp)
  have hheader := congrArg PackedEvent.ofBytes hbytes
  rw [← List.append_nil h.bytes, ← List.append_nil h'.bytes, PackedEvent.ofBytes_bytes_append,
    PackedEvent.ofBytes_bytes_append] at hheader
  exact ⟨hheader, hrest⟩

/-- What an event that finds its memory asks of the input. -/
theorem dumpable_iff {bufsize : ℤ} (hrefused : refused enough bufsize h.lengthInt = false) :
    Dumpable enough bufsize (h.bytes ++ rest) ↔
      HoldsHeaders (fun _ => false) h.nodes.toNat 0 (rest.take h.lengthInt.toNat) ∧
        (h.lengthInt.toNat ≤ rest.length →
          Dumpable enough (grown bufsize h.lengthInt) (rest.drop h.lengthInt.toNat)) := by
  constructor
  · intro hdump
    generalize hcontent : h.bytes ++ rest = content at hdump
    cases hdump with
    | refused h' rest' hthrows =>
      obtain ⟨rfl, rfl⟩ := append_header_inj hcontent
      rw [hrefused] at hthrows
      cases hthrows
    | cut h' body hshort hheaders =>
      obtain ⟨rfl, rfl⟩ := append_header_inj hcontent
      refine ⟨?_, fun hle => absurd hle (Nat.not_le_of_lt hshort)⟩
      rw [List.take_of_length_le hshort.le]
      exact hheaders
    | event h' body rest' hlength hheaders hrest =>
      obtain ⟨rfl, rfl⟩ := append_header_inj hcontent
      rw [← hlength, List.take_left, List.drop_left]
      exact ⟨hheaders, fun _ => hrest⟩
  · rintro ⟨hheaders, hmore⟩
    by_cases hle : h.lengthInt.toNat ≤ rest.length
    · rw [← List.take_append_drop h.lengthInt.toNat rest]
      exact .event h _ _ (List.length_take_of_le hle) hheaders (hmore hle)
    · have hlt := Nat.lt_of_not_le hle
      rw [List.take_of_length_le hlt.le] at hheaders
      exact .cut h rest hlt hheaders

/-- Too few bytes for an event header: they are taken for one all the same. -/
theorem not_safe_of_short {turns : ℕ} (hcin : s.cin.Good content)
    (hshort : content.length < PackedEvent.size) {dumps : List Dump}
    (hdumps : dumpLoop enough (turns + 1) s = some dumps) : ¬ ∀ d ∈ dumps, d.Safe := by
  intro hsafe
  obtain ⟨d, hmem, hreceived⟩ : ∃ d ∈ dumps, d.received ≤ content.length := by
    rw [dumpLoop, hcin.1, if_neg Bool.false_ne_true, IStream.read_of_short hcin hshort] at hdumps
    dsimp only at hdumps
    by_cases hrefused : refused enough s.bufsize (PackedEvent.ofBytes
        ((s.event.store content).bytes PackedEvent.size)).lengthInt = true
    · rw [if_pos hrefused, Option.some.injEq] at hdumps
      subst hdumps
      exact ⟨_, List.mem_singleton_self _, Nat.le_refl _⟩
    · rw [if_neg hrefused, Option.bind_eq_some_iff] at hdumps
      obtain ⟨⟨s', r⟩, -, hrest⟩ := hdumps
      obtain ⟨rest, -, rfl⟩ := Option.map_eq_some_iff.mp hrest
      refine ⟨dumpOf s s', List.mem_cons_self, ?_⟩
      rw [← hcin.2.2]
      exact Nat.sub_le _ _
  have hevent := (Dump.safe_iff d).mp (hsafe d hmem)
  omega

/-- The loop is safe from any of its turns on exactly if what is left of the input is dumpable. -/
theorem dumpLoop_safe_iff {turns : ℕ} (hcin : s.cin.Good content)
    (hturns : content.length + 1 < turns) :
    (∃ dumps, dumpLoop enough turns s = some dumps ∧ ∀ d ∈ dumps, d.Safe) ↔
      Dumpable enough s.bufsize content := by
  induction turns generalizing s content with
  | zero => omega
  | succ turns ih =>
    by_cases hheader : PackedEvent.size ≤ content.length
    · obtain ⟨h, rest, rfl⟩ : ∃ h : PackedEvent, ∃ rest, content = h.bytes ++ rest :=
        ⟨_, _, PackedEvent.bytes_append_drop hheader⟩
      obtain ⟨hgot, -, -⟩ := IStream.read_of_good hcin
      rw [PackedEvent.bytes_length] at hgot
      have hfields := PackedEvent.ofBytes_of_holds (Buffer.holds_store s.event h.bytes)
      rw [dumpLoop, hcin.1, if_neg Bool.false_ne_true]
      simp only [hgot, hfields]
      by_cases hrefused : refused enough s.bufsize h.lengthInt = true
      · -- the header is there, and no record is read
        rw [if_pos hrefused]
        refine iff_of_true ⟨_, rfl, ?_⟩ (.refused h rest hrefused)
        rw [List.forall_mem_singleton, Dump.safe_iff]
        exact ⟨(PackedEvent.bytes_length h).ge, (fun o ho => nomatch ho), fun _ => rfl⟩
      · obtain ⟨s', hturn, hheld, hevent, hbufsize, hleft, heof, hgood⟩ := turn_of_header true hcin
        have hsafe := dumpOf_safe_iff hcin.2.2 hleft hheld (PackedEvent.ofBytes_of_holds hevent)
        rw [grow_bufsize] at hbufsize
        have hsize : PackedEvent.size = 16 := rfl
        rw [List.length_append, PackedEvent.bytes_length] at hturns
        rw [if_neg hrefused, hturn, Option.bind_some,
          dumpable_iff (Bool.eq_false_iff.mpr hrefused), ← hsafe, ← hbufsize]
        -- the turns behind this one
        have hrest : (∃ dumps, dumpLoop enough turns s' = some dumps ∧ ∀ d ∈ dumps, d.Safe) ↔
            (h.lengthInt.toNat ≤ rest.length →
              Dumpable enough s'.bufsize (rest.drop h.lengthInt.toNat)) := by
          by_cases hle : h.lengthInt.toNat ≤ rest.length
          · rw [ih (hgood hle) (by rw [List.length_drop]; omega), forall_prop_of_true hle]
          · refine iff_of_true ?_ fun hle' => absurd hle' hle
            cases turns with
            | zero => omega
            | succ turns =>
              rw [dumpLoop, heof (Nat.lt_of_not_le hle), if_pos rfl]
              exact ⟨[], rfl, fun d hd => nomatch hd⟩
        rw [← hrest]
        simp only [Option.map_eq_some_iff]
        constructor
        · rintro ⟨dumps, ⟨others, hothers, rfl⟩, hall⟩
          obtain ⟨hfirst, hmore⟩ := List.forall_mem_cons.mp hall
          exact ⟨hfirst, others, hothers, hmore⟩
        · rintro ⟨hfirst, others, hothers, hmore⟩
          exact ⟨_, ⟨others, hothers, rfl⟩, List.forall_mem_cons.mpr ⟨hfirst, hmore⟩⟩
    · refine iff_of_false ?_ fun hdump => hheader hdump.size_le
      rintro ⟨dumps, hdumps, hsafe⟩
      exact not_safe_of_short hcin (Nat.lt_of_not_le hheader) hdumps hsafe

end Turn

end Checkleb

/-- For every content of a message, a file or the standard input, and whatever lies in memory:
`check_data` at the message and in `read_file`, and `reading` with `-r`, keep inside the bytes
received exactly if these hold the headers, and for `reading` the last event is cut or refused
besides. What `check_data` reports depends on the bytes at the offsets read, and the records that
both print are those at these offsets. -/
theorem dumpers_safe_iff (content : List UInt8) (mem : Buffer) (size : ℤ) (enough : ℤ → Bool)
    (memory : Checkleb.Memory) :
    ((checkDump (mem.store content) size content.length).Safe ↔ HoldsEvent content) ∧
    (ReadFileSafe content ↔ ∀ event ∈ fileEvents content, HoldsEvent event) ∧
    (Checkleb.ReadingSafe enough memory content ↔ Checkleb.Dumpable enough 100000 content) ∧
    (∀ data : Buffer, (checkData data size).recbes =
        ((checkDump data size content.length).headers.mapIdx fun i o =>
          RecbeLine.ofHeader i (headerAt data o)) ∧
      ∀ data' : Buffer, (∀ r ∈ (checkDump data size content.length).reads, ∀ k < r.2,
        data (r.1 + k) = data' (r.1 + k)) → checkData data' size = checkData data size) ∧
    ∀ (s s' : Checkleb.State) (r : Checkleb.Report), Checkleb.turn true s = some (s', r) →
      r.recbes = (Checkleb.dumpOf s s').headers.map fun o =>
        headerAt s'.ebody (o - PackedEvent.size) := by
  refine ⟨checkDump_safe_iff mem content size, readFileSafe_iff content, ?_, fun data =>
    ⟨checkData_recbes data size content.length, fun _ => checkData_congr size content.length⟩,
    fun _ _ _ => Checkleb.turn_recbes_headers⟩
  exact Checkleb.dumpLoop_safe_iff (IStream.good_ofBytes content) (Nat.lt_succ_self _)

/-- A message that is an event header, which counts one record and 100 bytes. -/
theorem record_not_received :
    ¬ ∀ (mem : Buffer) (message : List UInt8) (size : ℤ),
      (checkDump (mem.store message) size message.length).Safe := by
  intro hall
  have hsafe := hall (fun _ => 0)
    [0xff, 0xff, 0xff, 0xff, 0, 0, 0, 100, 0, 1, 0, 1, 0, 0, 0, 1] 16
  have hrecord := hsafe.inside (16, 12) (by decide)
  revert hrecord
  decide

end LebStudy
