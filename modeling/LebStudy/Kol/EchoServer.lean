import LebStudy.Kol.Input
import LebStudy.Kol.Output

/-!
# The server of `ex1.cpp`

It answers each connection with the lines that it reads from it, up to the first empty one.
Both sides of `TcpBuffer` share `m_iostate`, so `badbit` ends the loop over `getline` too.
-/

namespace LebStudy

namespace ByteStream

/-- A line that has room, and its line feed. -/
theorem getline_line {l rest : List UInt8} (hfeed : 0x0a ∉ l) {s : ByteStream}
    (hs : s.rest = l ++ 0x0a :: rest) {room : ℕ} (hroom : l.length < room) (line : List UInt8) :
    s.getline room line =
      (s.take (l.length + 1)).answer (line ++ l) (line.length + (l.length + 1)) := by
  induction l generalizing s room line with
  | nil =>
    obtain ⟨room, rfl⟩ : ∃ k, room = k + 1 := Nat.exists_eq_succ_of_ne_zero (Nat.ne_of_gt hroom)
    rw [getline_feed hs, List.append_nil]
    rfl
  | cons c l ih =>
    obtain ⟨room, rfl⟩ : ∃ k, room = k + 1 := Nat.exists_eq_succ_of_ne_zero (by omega)
    rw [List.mem_cons, not_or] at hfeed
    obtain ⟨hc, hl⟩ := hfeed
    have hrest : (s.take 1).rest = l ++ 0x0a :: rest := by
      rw [take, hs]
      rfl
    rw [getline_byte hs (Ne.symm hc), ih hl hrest (by simpa using hroom)]
    have htake : (s.take 1).take (l.length + 1) = s.take (l.length + 1 + 1) :=
      take_take hs _
    have hcount : (line ++ [c]).length + (l.length + 1) = line.length + (l.length + 1 + 1) := by
      rw [List.length_append, List.length_singleton]
      omega
    rw [htake, hcount, List.append_assoc, List.length_cons]
    rfl

end ByteStream

namespace TcpOutput

/-- Each call of `send` takes something. -/
def Accepting (s : TcpOutput) : Prop := ∀ k, ∃ n, s.outcome k = .accepts (n + 1)

/-- Nothing is held back or has failed, and nothing will. -/
structure Clear (s : TcpOutput) : Prop where
  accepting : s.Accepting
  sbuf : s.sbuf = []
  good : s.badbit = false
  connected : s.closed = false

theorem sendLoop_of_clear {fuel : ℕ} {buf : List UInt8} (hfuel : buf.length ≤ fuel)
    {s : TcpOutput} (hs : s.Clear) :
    ∃ t, sendLoop fuel s buf = (none, t) ∧ t.Clear ∧ t.wire = s.wire ++ buf := by
  induction fuel generalizing s buf with
  | zero =>
    obtain rfl : buf = [] := List.length_eq_zero_iff.mp (Nat.le_zero.mp hfuel)
    exact ⟨s, rfl, hs, by simp⟩
  | succ fuel ih =>
    by_cases hbuf : buf = []
    · refine ⟨s, ?_, hs, by simp [hbuf]⟩
      rw [sendLoop, if_pos hbuf]
    · have hpos : 0 < buf.length := List.length_pos_iff.mpr hbuf
      obtain ⟨n, houtcome⟩ := hs.accepting s.sends
      obtain ⟨k, hk⟩ : ∃ k, min (n + 1) buf.length = k + 1 :=
        Nat.exists_eq_succ_of_ne_zero (by omega)
      have htake : buf.take (n + 1) = buf.take (k + 1) := by
        rw [← hk, List.take_eq_take_min]
      have hsend : s.send buf = (.ok (k + 1),
          { s with sends := s.sends + 1, wire := s.wire ++ buf.take (k + 1) }) := by
        rw [send, hs.connected]
        simp only [Bool.false_eq_true, if_false, houtcome, hk, htake]
      have hclear : ({ s with sends := s.sends + 1, wire := s.wire ++ buf.take (k + 1) } :
          TcpOutput).Clear := ⟨hs.accepting, hs.sbuf, hs.good, hs.connected⟩
      have hfuel' : (buf.drop (k + 1)).length ≤ fuel := by
        rw [List.length_drop]
        omega
      obtain ⟨t, hloop, ht, hwire⟩ := ih hfuel' hclear
      refine ⟨t, ?_, ht, ?_⟩
      · rw [sendLoop, if_neg hbuf, hsend]
        exact hloop
      · rw [hwire, List.append_assoc, List.take_append_drop]

theorem write_of_clear {s : TcpOutput} (hs : s.Clear) (buf : List UInt8) :
    ∃ t, s.write buf = (none, t) ∧ t.Clear ∧ t.wire = s.wire ++ buf := by
  rw [write]
  split
  · next hnil => exact ⟨s, rfl, hs, by simp [hnil]⟩
  · rw [flush, if_pos hs.sbuf]
    exact sendLoop_of_clear (Nat.le_refl _) hs

end TcpOutput

namespace EchoServer

/-- `putline`, a null pointer being none. -/
def putline (s : TcpOutput) (str : Option (List UInt8)) : Option SocketException × TcpOutput :=
  match s.write (str.getD []) with
  | (some e, s) => (some e, s)
  | (none, s) => s.write [0x0a]

/-- What a pointer to these bytes and a terminating zero gives as a string. -/
def cString (bs : List UInt8) : List UInt8 := bs.takeWhile (· ≠ 0)

/-- `while(sock.getline(linebuf, 4095)) { .. }`, if it is left after at most so many turns. -/
def echoLoop : ℕ → TcpInput → TcpOutput → Option (Option SocketException × TcpOutput)
  | 0, _, _ => none
  | turns + 1, input, output =>
    match input.getline 4095 with
    | none => none
    | some (a, input) =>
      match a.exception with
      | some e => some (some e, output)
      | none =>
        -- `fail()`
        if a.failbit || output.badbit then some (none, output)
        else
          let linebuf := cString a.data
          match putline output (some linebuf) with
          | (some e, output) => some (some e, output)
          | (none, output) =>
            if linebuf = [] then some (none, output) else echoLoop turns input output

/-- A string literal. -/
def literal (str : String) : List UInt8 := str.toList.map fun c => UInt8.ofNat c.toNat

/-- The three calls of `putline` in front of the loop. -/
def putHeader (s : TcpOutput) : Option SocketException × TcpOutput :=
  match putline s (some (literal "HTTP/1.0 200 ")) with
  | (some e, s) => (some e, s)
  | (none, s) =>
    match putline s (some (literal "Content-Type: text/plain")) with
    | (some e, s) => (some e, s)
    | (none, s) => putline s none

/-- One connection: the body of `while(1)` behind `accept`. -/
def session (turns : ℕ) (socket : Socket) (outcome : ℕ → SendOutcome) :
    Option (Option SocketException × TcpOutput) :=
  match putHeader (.start outcome) with
  | (some e, output) => some (some e, output)
  | (none, output) =>
    match echoLoop turns (.start socket) output with
    | none => none
    | some (some e, output) => some (some e, output)
    | some (none, output) =>
      match output.flush with
      | (some e, output) => some (some e, output)
      | (none, output) => some output.close

/-! ### What a client gets -/

theorem putline_of_clear {s : TcpOutput} (hs : s.Clear) (str : Option (List UInt8)) :
    ∃ t, putline s str = (none, t) ∧ t.Clear ∧ t.wire = s.wire ++ (str.getD [] ++ [0x0a]) := by
  obtain ⟨t, hfirst, ht, hwire⟩ := TcpOutput.write_of_clear hs (str.getD [])
  obtain ⟨u, hsecond, hu, hwire'⟩ := TcpOutput.write_of_clear ht [0x0a]
  refine ⟨u, ?_, hu, by rw [hwire', hwire, List.append_assoc]⟩
  rw [putline, hfirst]
  exact hsecond

/-- The header of each answer. -/
def header : List UInt8 :=
  literal "HTTP/1.0 200 " ++ [0x0a] ++ (literal "Content-Type: text/plain" ++ [0x0a]) ++ [0x0a]

theorem putHeader_of_clear {s : TcpOutput} (hs : s.Clear) :
    ∃ t, putHeader s = (none, t) ∧ t.Clear ∧ t.wire = s.wire ++ header := by
  obtain ⟨t, hfirst, ht, hwire⟩ := putline_of_clear hs (some (literal "HTTP/1.0 200 "))
  obtain ⟨u, hsecond, hu, hwire'⟩ := putline_of_clear ht (some (literal "Content-Type: text/plain"))
  obtain ⟨v, hthird, hv, hwire''⟩ := putline_of_clear hu none
  refine ⟨v, ?_, hv, ?_⟩
  · rw [putHeader, hfirst]
    simp only [hsecond]
    exact hthird
  · rw [hwire'', hwire', hwire, header]
    simp

/-- A line that the server sends back: not empty up to its first zero, without a line feed, and
short enough. -/
structure Line (l : List UInt8) : Prop where
  visible : cString l ≠ []
  feed : 0x0a ∉ l
  room : l.length < 4094

/-- Each line comes back up to its first zero, with a line feed. -/
def echoed (lines : List (List UInt8)) : List UInt8 := lines.flatMap fun l => cString l ++ [0x0a]

/-- The request: lines, each with its line feed. -/
def request (lines : List (List UInt8)) : List UInt8 := lines.flatMap (· ++ [0x0a])

theorem getline_eq (s : TcpInput) : s.getline 4095 =
    TcpInput.getlineLoop 4094 ⟨{ s.tcp with gcount := 0 }, s.failbit⟩ [] := rfl

theorem ready_reset {socket : Socket} {input : TcpInput} (h : input.Ready socket) :
    TcpInput.Ready socket ⟨{ input.tcp with gcount := 0 }, input.failbit⟩ :=
  ⟨⟨h.sound.clean, h.sound.taken, h.sound.bounded⟩, h.closed⟩

/-- A line that is there is read, and what is behind it stays. -/
theorem getline_of_line {socket : Socket} {input : TcpInput} (h : input.Ready socket)
    {l rest : List UInt8} (hfeed : 0x0a ∉ l) (hroom : l.length < 4094)
    (hrest : input.tcp.pending = l ++ 0x0a :: rest) :
    ∃ a input', input.getline 4095 = some (a, input') ∧ a.data = l ∧ a.exception = none ∧
      a.failbit = input.failbit ∧ input'.Ready socket ∧ input'.tcp.pending = rest ∧
      input'.failbit = input.failbit := by
  have hmem : 0x0a ∈ input.tcp.pending := by
    rw [hrest]
    simp
  have hsome : (input.getline 4095).isSome := by
    rw [getline_eq]
    exact TcpInput.getlineLoop_isSome_of_feed (ready_reset h).sound hmem
  obtain ⟨⟨a, input'⟩, hgetline⟩ := Option.isSome_iff_exists.mp hsome
  obtain ⟨hspec, hready⟩ := TcpInput.getlineLoop_spec (ready_reset h) (getline_eq input ▸ hgetline)
  have hline := ByteStream.getline_line hfeed
    (s := TcpInput.stream ⟨{ input.tcp with gcount := 0 }, input.failbit⟩) hrest hroom []
  rw [hline] at hspec
  obtain ⟨ha, hstream⟩ := Prod.mk.inj hspec
  have hdrop : (l ++ 0x0a :: rest).drop (l.length + 1) = rest := by simp
  refine ⟨a, input', hgetline, by rw [ha]; rfl, by rw [ha], by rw [ha]; rfl, hready, ?_, ?_⟩
  · refine (congrArg ByteStream.rest hstream).trans (Eq.trans ?_ hdrop)
    rw [← hrest]
    rfl
  · exact congrArg ByteStream.failbit hstream

/-- At the end of the stream there is no line. -/
theorem getline_of_end {socket : Socket} (hclosed : socket.closed = true) {input : TcpInput}
    (h : input.Ready socket) (hrest : input.tcp.pending = []) :
    ∃ a input', input.getline 4095 = some (a, input') ∧ a.exception = none ∧
      a.failbit = true := by
  have hsome : (input.getline 4095).isSome := by
    rw [getline_eq]
    exact TcpInput.getlineLoop_isSome (ready_reset h).sound (h.closed.trans hclosed)
  obtain ⟨⟨a, input'⟩, hgetline⟩ := Option.isSome_iff_exists.mp hsome
  obtain ⟨hspec, -⟩ := TcpInput.getlineLoop_spec (ready_reset h) (getline_eq input ▸ hgetline)
  have hend := ByteStream.getline_end
    (s := TcpInput.stream ⟨{ input.tcp with gcount := 0 }, input.failbit⟩) hrest 4093 []
  rw [hend] at hspec
  obtain ⟨ha, -⟩ := Prod.mk.inj hspec
  exact ⟨a, input', hgetline, by rw [ha], by rw [ha]; simp⟩

/-- The loop sends the lines back, and ends at an empty line or at the end of the stream. -/
theorem echoLoop_lines {socket : Socket} {lines : List (List UInt8)} (hlines : ∀ l ∈ lines, Line l)
    {tail : List UInt8} (htail : (∃ rest, tail = 0x0a :: rest) ∨ tail = [] ∧ socket.closed = true)
    {turns : ℕ} (hturns : lines.length < turns) {input : TcpInput} (h : input.Ready socket)
    (hfail : input.failbit = false) (hrest : input.tcp.pending = request lines ++ tail)
    {output : TcpOutput} (hout : output.Clear) :
    ∃ t, echoLoop turns input output = some (none, t) ∧ t.Clear ∧
      t.wire = output.wire ++ (echoed lines ++ if tail = [] then [] else [0x0a]) := by
  induction lines generalizing turns input output with
  | nil =>
    obtain ⟨turns, rfl⟩ : ∃ k, turns = k + 1 := Nat.exists_eq_succ_of_ne_zero (by omega)
    rcases htail with ⟨rest, rfl⟩ | ⟨rfl, hclosed⟩
    · -- the empty line comes back, and the loop is left
      obtain ⟨a, input', hgetline, hdata, hexc, hfailbit, -⟩ :=
        getline_of_line h (l := []) (by simp) (by simp) hrest
      obtain ⟨t, hputline, ht, hwire⟩ := putline_of_clear hout (some [])
      refine ⟨t, ?_, ht, hwire⟩
      have hcString : cString a.data = [] := by rw [hdata]; rfl
      rw [echoLoop, hgetline]
      simp only [hexc, hfailbit, hfail, hout.good, Bool.or_self, Bool.false_eq_true, if_false,
        hcString, hputline, if_true]
    · obtain ⟨a, input', hgetline, hexc, hfailbit⟩ := getline_of_end hclosed h hrest
      refine ⟨output, ?_, hout, by simp [echoed]⟩
      rw [echoLoop, hgetline]
      simp only [hexc, hfailbit, Bool.true_or, if_true]
  | cons l lines ih =>
    obtain ⟨turns, rfl⟩ : ∃ k, turns = k + 1 := Nat.exists_eq_succ_of_ne_zero (by omega)
    obtain ⟨hl, hlines⟩ := List.forall_mem_cons.mp hlines
    have hsplit : input.tcp.pending = l ++ 0x0a :: (request lines ++ tail) := by
      rw [hrest, request, List.flatMap_cons, ← request]
      simp
    obtain ⟨a, input', hgetline, hdata, hexc, hfailbit, hready, hpending, hfail'⟩ :=
      getline_of_line h hl.feed hl.room hsplit
    obtain ⟨t, hputline, ht, hwire⟩ := putline_of_clear hout (some (cString l))
    have hturns' : lines.length < turns := by simpa using hturns
    obtain ⟨u, hloop, hu, hwire'⟩ :=
      ih hlines hturns' hready (hfail'.trans hfail) hpending ht
    refine ⟨u, ?_, hu, ?_⟩
    · rw [echoLoop, hgetline]
      simp only [hexc, hfailbit, hfail, hout.good, Bool.or_self, Bool.false_eq_true, if_false,
        hdata, hputline, hl.visible]
      exact hloop
    · rw [hwire', hwire, echoed, echoed, List.flatMap_cons]
      simp

/-- A client that sends lines and then an empty one, or closes behind them, however the network
cuts what it sends and takes what is sent to it: it gets the header and its lines, each up to its
first zero, the empty line with them, and the connection is closed. -/
theorem session_echoes (socket : Socket) (outcome : ℕ → SendOutcome) (lines : List (List UInt8))
    (tail : List UInt8) (turns : ℕ) (hclean : socket.Clean)
    (hbytes : socket.bytes = request lines ++ tail) (hlines : ∀ l ∈ lines, Line l)
    (htail : (∃ rest, tail = 0x0a :: rest) ∨ tail = [] ∧ socket.closed = true)
    (haccepts : ∀ k, ∃ n, outcome k = .accepts (n + 1)) (hturns : lines.length < turns) :
    ∃ t, session turns socket outcome = some (none, t) ∧ t.closed = true ∧
      t.wire = header ++ (echoed lines ++ if tail = [] then [] else [0x0a]) := by
  have hstart : (TcpOutput.start outcome).Clear := ⟨haccepts, rfl, rfl, rfl⟩
  obtain ⟨s, hheader, hs, hwire⟩ := putHeader_of_clear hstart
  have hpending : (TcpInput.start socket).tcp.pending = request lines ++ tail := hbytes
  obtain ⟨t, hloop, ht, hwire'⟩ :=
    echoLoop_lines hlines htail hturns (TcpInput.ready_start hclean) rfl hpending hs
  refine ⟨{ t with closed := true }, ?_, rfl, ?_⟩
  · have hflush : t.flush = (none, t) := by rw [TcpOutput.flush, if_pos ht.sbuf]
    rw [session, hheader]
    simp only [hloop, hflush, TcpOutput.close]
  · show t.wire = _
    rw [hwire', hwire, List.append_assoc]
    rfl

/-- A line with a zero in it and an empty line, in three pieces; `send` takes five bytes at a
time. -/
theorem session_echoes_two_lines :
    ∃ t, session 2 ⟨[.data 0x61 [0x00, 0x62], .data 0x0a [], .data 0x0a [0x63]], false⟩
        (fun _ => .accepts 5) = some (none, t) ∧ t.closed = true ∧
      t.wire = header ++ [0x61, 0x0a, 0x0a] := by
  exact session_echoes _ _ [[0x61, 0x00, 0x62]] [0x0a, 0x63] 2 (by simp [Socket.Clean]) (by decide)
    (by simpa using ⟨by decide, by decide, by decide⟩) (.inl ⟨[0x63], rfl⟩) (fun _ => ⟨4, rfl⟩)
    (by decide)

end EchoServer

end LebStudy
