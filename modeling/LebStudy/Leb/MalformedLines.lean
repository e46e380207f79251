import LebStudy.Leb.CommandLines

/-!
# Malformed lines

A line that is not well-formed should count for nothing. The code fails in two ways: such
a line ends the program, or it is half understood and has an effect all the same: a node,
a command, or a host or a port for the commands behind it.
-/

namespace LebStudy

open Numerals

namespace NodeList

/-- A line `rbcp port P` with a decimal number. -/
def PortSaid (ws : List Word) : Prop := ∃ port, decimalInt (ws.getD 2 []) = some port ∧ 0 ≤ port

/-- A blank line, a comment, a node, or one of the three lines for `process_rbcp`. -/
def WellFormed (ws : List Word) : Prop :=
  ws = [] ∨ (ws.getD 0 []).head? = some '#' ∨ (nodeLine ws).isSome ∨
    HostLine ws ∧ ws.length = 3 ∨ PortLine ws ∧ ws.length = 3 ∧ PortSaid ws ∨ CommandLine ws

/-- The file is read to its end, and each malformed line in it could be left out. -/
def MalformedSkipped (s : State) (content : List Char) : Prop :=
  (∃ t, nodelist (some content) s = .ok (0, t)) ∧
    ∀ pre line post, lines content = pre ++ line :: post → ¬ WellFormed (tokens line) →
      ∃ t u, linesLoop s (pre ++ line :: post) = .ok t ∧ linesLoop s (pre ++ post) = .ok u ∧
        t.nodes = u.nodes ∧ t.rcoms = u.rcoms

/-- What the line sets is in force already, or is set again before the next command. -/
def SetsNothing (target : RbcpTarget) (ws : List Word) (post : List (List Char)) : Prop :=
  ∀ mid line rest, post = mid ++ line :: rest → HexLine (tokens line) →
    (HostLine ws → ws.getD 2 [] = target.host ∨ ∃ x ∈ mid, HostLine (tokens x)) ∧
      (PortLine ws → toUnsigned (number 10 (ws.getD 2 [])) = target.port ∨
        ∃ x ∈ mid, PortLine (tokens x))

/-- The line has no effect: no node, no command, and nothing for the commands behind it. -/
def Harmless (target : RbcpTarget) (ws : List Word) (post : List (List Char)) : Prop :=
  ¬ (NodeCandidate ws ∧ isNumber (ws.getD 0 []) = true ∧ isNumber (ws.getD 2 []) = true) ∧
    ¬ HexLine ws ∧ SetsNothing target ws post

/-! ### The effect of a line -/

theorem nodeEntry_eq_none_iff (ws : List Word) :
    nodeEntry ws = none ↔
      ¬ (NodeCandidate ws ∧ isNumber (ws.getD 0 []) = true ∧ isNumber (ws.getD 2 []) = true) := by
  rw [← nodeOf_isSome_iff, nodeEntry]
  by_cases hcandidate : NodeCandidate ws
  · rw [if_pos hcandidate, and_iff_right hcandidate, Option.not_isSome_iff_eq_none]
  · rw [if_neg hcandidate]
    exact iff_of_true rfl fun h => hcandidate h.1

theorem commandEntry_isSome_iff (target : RbcpTarget) (ws : List Word) :
    (commandEntry target ws).isSome ↔ HexLine ws := by
  rw [commandEntry]
  by_cases hline : HexLine ws
  · rw [if_pos hline]
    exact iff_of_true rfl hline
  · rw [if_neg hline]
    exact iff_of_false (by simp) hline

theorem commandEntry_congr_iff (a b : RbcpTarget) (ws : List Word) :
    commandEntry a ws = commandEntry b ws ↔ (HexLine ws → a = b) := by
  rw [commandEntry, commandEntry]
  by_cases hline : HexLine ws
  · rw [if_pos hline, if_pos hline]
    constructor
    · intro heq _
      cases a
      cases b
      simp_all
    · intro h
      rw [h hline]
  · rw [if_neg hline, if_neg hline]
    exact iff_of_true rfl fun h => absurd h hline

theorem targetAfter_host (target : RbcpTarget) (ws : List Word) :
    (targetAfter target ws).host = if HostLine ws then ws.getD 2 [] else target.host := by
  rw [targetAfter]
  by_cases hhost : HostLine ws
  · rw [if_pos hhost, if_pos hhost]
  · rw [if_neg hhost, if_neg hhost]
    split <;> rfl

theorem targetAfter_port (target : RbcpTarget) (ws : List Word) :
    (targetAfter target ws).port =
      if PortLine ws then toUnsigned (number 10 (ws.getD 2 [])) else target.port := by
  rw [targetAfter]
  by_cases hport : PortLine ws
  · rw [if_neg (not_hostLine_of_portLine hport), if_pos hport, if_pos hport]
  · rw [if_neg hport, if_neg hport]
    split <;> rfl

/-- Two hosts and ports are the same behind the lines if they are in front of them, or if a line
sets them. -/
theorem targetsFrom_eq_iff (a b : RbcpTarget) (ls : List (List Char)) :
    targetsFrom a ls = targetsFrom b ls ↔
      (a.host = b.host ∨ ∃ x ∈ ls, HostLine (tokens x)) ∧
        (a.port = b.port ∨ ∃ x ∈ ls, PortLine (tokens x)) := by
  induction ls generalizing a b with
  | nil =>
    cases a
    cases b
    simp [targetsFrom]
  | cons line ls ih =>
    have hstep := ih (targetAfter a (tokens line)) (targetAfter b (tokens line))
    rw [targetAfter_host, targetAfter_host, targetAfter_port, targetAfter_port] at hstep
    rw [targetsFrom, targetsFrom, List.foldl_cons, List.foldl_cons, ← targetsFrom, ← targetsFrom,
      hstep, List.exists_mem_cons_iff, List.exists_mem_cons_iff]
    by_cases hhost : HostLine (tokens line) <;> by_cases hport : PortLine (tokens line) <;>
      simp [hhost, hport]

theorem targetAfter_sets_iff (target : RbcpTarget) (ws : List Word) (mid : List (List Char)) :
    targetsFrom (targetAfter target ws) mid = targetsFrom target mid ↔
      (HostLine ws → ws.getD 2 [] = target.host ∨ ∃ x ∈ mid, HostLine (tokens x)) ∧
        (PortLine ws → toUnsigned (number 10 (ws.getD 2 [])) = target.port ∨
          ∃ x ∈ mid, PortLine (tokens x)) := by
  rw [targetsFrom_eq_iff, targetAfter_host, targetAfter_port]
  by_cases hhost : HostLine ws <;> by_cases hport : PortLine ws <;> simp [hhost, hport]

/-! ### A line left out -/

/-- The nodes are those without the line exactly if it adds none. -/
theorem nodes_without_iff (s : State) (pre post : List (List Char)) (line : List Char) :
    ((pre ++ line :: post).foldl after s).nodes = ((pre ++ post).foldl after s).nodes ↔
      nodeEntry (tokens line) = none := by
  rw [foldl_after_nodes, foldl_after_nodes, List.append_cancel_left_eq, List.filterMap_append,
    List.filterMap_append, List.append_cancel_left_eq, List.filterMap_cons]
  cases nodeEntry (tokens line) <;> simp

/-- The commands are those without the line exactly if it adds none and the commands behind it
find the host and the port that they would find without it. -/
theorem rcoms_without_iff (s : State) (pre post : List (List Char)) (line : List Char) :
    ((pre ++ line :: post).foldl after s).rcoms = ((pre ++ post).foldl after s).rcoms ↔
      ¬ HexLine (tokens line) ∧ SetsNothing (targetsFrom s.target pre) (tokens line) post := by
  have hsome : ∀ a b x, (commandEntry a (tokens x)).isSome = (commandEntry b (tokens x)).isSome :=
    fun a b x => Bool.eq_iff_iff.mpr
      ((commandEntry_isSome_iff a _).trans (commandEntry_isSome_iff b _).symm)
  rw [foldl_after_rcoms, foldl_after_rcoms, List.append_cancel_left_eq, collect_without_iff hsome,
    ← targetsFrom, ← Option.not_isSome_iff_eq_none, commandEntry_isSome_iff, SetsNothing]
  refine and_congr_right fun _ => forall₄_congr fun mid x rest _ => ?_
  rw [commandEntry_congr_iff]
  exact forall_congr' fun _ => targetAfter_sets_iff _ _ _

/-- A line of a file that is read to its end could be left out exactly if it is harmless. -/
theorem without_iff {s : State} {pre post : List (List Char)} {line : List Char}
    (hok : ∀ x ∈ pre ++ line :: post, ¬ Aborts x) :
    (∃ t u, linesLoop s (pre ++ line :: post) = .ok t ∧ linesLoop s (pre ++ post) = .ok u ∧
        t.nodes = u.nodes ∧ t.rcoms = u.rcoms) ↔
      Harmless (targetsFrom s.target pre) (tokens line) post := by
  have hwithout : ∀ x ∈ pre ++ post, ¬ Aborts x := fun x hx => hok x (by
    rcases List.mem_append.mp hx with hx | hx <;> simp [hx])
  rw [linesLoop_eq s hok, linesLoop_eq s hwithout, Harmless, ← nodeEntry_eq_none_iff,
    ← nodes_without_iff s pre post, ← rcoms_without_iff]
  constructor
  · rintro ⟨t, u, ht, hu, hsame⟩
    cases ht
    cases hu
    exact hsame
  · exact fun hsame => ⟨_, _, rfl, rfl, hsame⟩

/-- Malformed lines count for nothing exactly if no line ends the program and every malformed
line is harmless. -/
theorem malformed_skipped_iff (s : State) (content : List Char) :
    MalformedSkipped s content ↔ ∀ pre line post, lines content = pre ++ line :: post →
      ¬ Aborts line ∧
        (¬ WellFormed (tokens line) → Harmless (targetsFrom s.target pre) (tokens line) post) := by
  rw [MalformedSkipped, nodelist_ok_iff]
  constructor
  · rintro ⟨hok, hskipped⟩ pre line post hsplit
    have hall := hok
    rw [hsplit] at hall
    refine ⟨hok line (by simp [hsplit]), fun hbad => ?_⟩
    exact (without_iff hall).mp (hskipped pre line post hsplit hbad)
  · intro h
    have hok : ∀ line ∈ lines content, ¬ Aborts line := fun line hmem => by
      obtain ⟨pre, post, hsplit⟩ := List.append_of_mem hmem
      exact (h pre line post hsplit).1
    refine ⟨hok, fun pre line post hsplit hbad => ?_⟩
    have hall := hok
    rw [hsplit] at hall
    exact (without_iff hall).mpr ((h pre line post hsplit).2 hbad)

/-- `rbcp` alone: its second word is read. -/
theorem lonely_rbcp_aborts :
    ¬ ∀ (s : State) (content : List Char), MalformedSkipped s content := by
  intro h
  obtain ⟨hok, -⟩ := h ⟨defaultTarget, [], []⟩ ['r', 'b', 'c', 'p']
  exact (nodelist_ok_iff _ _).mp hok ['r', 'b', 'c', 'p'] (by decide)
    (.inr (.inl ⟨by decide, by decide⟩))

end NodeList

end LebStudy
