import LebStudy.Leb.NodeLines

/-!
# Command lines

What a line `rbcp A D1 .. Dn` says is a command for the host and the port that the lines
before it in the file have set. The code adds it from two data words on; it checks the
characters of the address and of the first data word only, and it keeps host and port
from one file to the next.
-/

namespace LebStudy

open Numerals

namespace NodeList

/-- The word is a hexadecimal number below the bound. -/
def HexBelow (bound : ℕ) (w : Word) : Prop :=
  w ≠ [] ∧ isHexNumber w = true ∧ numeral 16 w < bound

instance (bound : ℕ) (w : Word) : Decidable (HexBelow bound w) :=
  inferInstanceAs (Decidable (_ ∧ _))

/-- A line `rbcp A D1 .. Dn` with `n ≥ 1`, a 32-bit address and bytes. -/
def CommandLine (ws : List Word) : Prop :=
  isRbcp (ws.getD 0 []) = true ∧ 2 < ws.length ∧ HexBelow (2 ^ 32) (ws.getD 1 []) ∧
    ∀ w ∈ ws.drop 2, HexBelow (2 ^ 8) w

instance (ws : List Word) : Decidable (CommandLine ws) := inferInstanceAs (Decidable (_ ∧ _))

/-- The command that the line says, for this host and port. -/
def saidCommand (target : RbcpTarget) (ws : List Word) : Option RbcpCom :=
  if CommandLine ws then
    some ⟨target.host, target.port, UInt32.ofNat (numeral 16 (ws.getD 1 [])),
      (ws.drop 2).map fun w => UInt8.ofNat (numeral 16 w)⟩
  else none

/-- Host and port behind the line, as it says: a port is a decimal number. -/
def saidTarget (target : RbcpTarget) (ws : List Word) : RbcpTarget :=
  if HostLine ws then { target with host := ws.getD 2 [] }
  else if PortLine ws then
    match decimalInt (ws.getD 2 []) with
    | some port => if 0 ≤ port then { target with port := toUnsigned port } else target
    | none => target
  else target

/-- The commands that the lines of a file say, in their order. -/
def saidCommands (ls : List (List Char)) : List RbcpCom :=
  collect (fun target line => saidCommand target (tokens line))
    (fun target line => saidTarget target (tokens line)) defaultTarget ls

/-- Host and port as the lines of a file say. -/
def saidTargets (ls : List (List Char)) : RbcpTarget :=
  ls.foldl (fun target line => saidTarget target (tokens line)) defaultTarget

/-- Host and port as the code has them behind the lines. -/
def targetsFrom (target : RbcpTarget) (ls : List (List Char)) : RbcpTarget :=
  ls.foldl (fun target line => targetAfter target (tokens line)) target

/-- Behind each line of the file the vector has gained the commands of the lines up to it. -/
def CommandsAsSaid (s : State) (content : List Char) : Prop :=
  ∀ pre post, lines content = pre ++ post →
    ∃ t, linesLoop s pre = .ok t ∧ t.rcoms = s.rcoms ++ saidCommands pre

/-- The line adds what it says, with these hosts and ports in the code and in what is said. -/
def CommandAgrees (target said : RbcpTarget) (ws : List Word) : Prop :=
  (CommandLine ws → ws.length ≠ 3 ∧ target = said) ∧ (HexLine ws → CommandLine ws)

theorem foldl_after_rcoms (s : State) (ls : List (List Char)) :
    (ls.foldl after s).rcoms =
      s.rcoms ++ collect (fun target line => commandEntry target (tokens line))
        (fun target line => targetAfter target (tokens line)) s.target ls := by
  induction ls generalizing s with
  | nil => exact (List.append_nil _).symm
  | cons line ls ih => rw [List.foldl_cons, ih, collect, after, List.append_assoc]

theorem isDigitIn_of_isHexNumber {w : Word} (h : isHexNumber w = true) :
    ∀ c ∈ w, isDigitIn 16 c = true := by
  have hdigits : hexDigits.all (isDigitIn 16) = true := by decide
  intro c hc
  exact List.all_eq_true.mp hdigits c (of_decide_eq_true (List.all_eq_true.mp h c hc))

/-- What is converted and has the characters of a hexadecimal number is that number. -/
theorem number_of_hex {w : Word} (hchars : isHexNumber w = true) (hconverts : Converts 16 w) :
    number 16 w = numeral 16 w ∧ numeral 16 w < 2 ^ 31 := by
  obtain ⟨i, hi⟩ := hconverts
  have hne : w ≠ [] := by
    rintro rfl
    cases hi
  have hstoi := stoi_of_digits (by decide) (by decide) hne (isDigitIn_of_isHexNumber hchars)
  by_cases hlt : numeral 16 w < 2 ^ 31
  · rw [if_pos hlt] at hstoi
    rw [number, hstoi]
    exact ⟨rfl, hlt⟩
  · rw [if_neg hlt, hi] at hstoi
    cases hstoi

theorem toUnsigned_natCast {n : ℕ} (h : n < 2 ^ 32) : toUnsigned n = UInt32.ofNat n := by
  rw [toUnsigned, Int.emod_eq_of_lt (by omega) (by omega), Int.toNat_natCast]

theorem toByte_natCast {n : ℕ} (h : n < 2 ^ 8) : toByte n = UInt8.ofNat n := by
  rw [toByte, Int.emod_eq_of_lt (by omega) (by omega), Int.toNat_natCast]

section Words

variable {ws : List Word}

theorem hexLine_of_commandLine (h : CommandLine ws) (hlen : ws.length ≠ 3) : HexLine ws := by
  obtain ⟨hrbcp, hlen', haddress, hdata⟩ := h
  have hfirst : ws.getD 2 [] ∈ ws.drop 2 := by
    rw [List.drop_eq_getElem_cons hlen', List.getD_eq_getElem _ _ hlen']
    exact List.mem_cons_self
  exact ⟨hrbcp, by omega, haddress.2.1, (hdata _ hfirst).2.1⟩

/-- A command line of four words and more adds its command, for the code's host and port. -/
theorem commandEntry_eq (hok : ¬ Throws ws) (h : CommandLine ws) (hlen : ws.length ≠ 3)
    (target : RbcpTarget) : commandEntry target ws = saidCommand target ws := by
  have hline := hexLine_of_commandLine h hlen
  have hconverts : ∀ w ∈ ws.drop 1, Converts 16 w := by
    intro w hw
    by_contra hnot
    exact hok (.inr (.inr ⟨hline, w, hw, hnot⟩))
  rw [drop_one_eq (by have := hline.2.1; omega), List.forall_mem_cons] at hconverts
  obtain ⟨-, -, haddress, hdata⟩ := id h
  have haddress' : toUnsigned (number 16 (ws.getD 1 [])) =
      UInt32.ofNat (numeral 16 (ws.getD 1 [])) := by
    rw [(number_of_hex haddress.2.1 hconverts.1).1, toUnsigned_natCast haddress.2.2]
  have hdata' : (ws.drop 2).map (fun w => toByte (number 16 w)) =
      (ws.drop 2).map fun w => UInt8.ofNat (numeral 16 w) := by
    refine List.map_congr_left fun w hw => ?_
    rw [(number_of_hex (hdata w hw).2.1 (hconverts.2 w hw)).1, toByte_natCast (hdata w hw).2.2]
  rw [commandEntry, if_pos hline, saidCommand, if_pos h, haddress', hdata']

theorem saidCommand_injective (h : CommandLine ws) {target said : RbcpTarget}
    (heq : saidCommand target ws = saidCommand said ws) : target = said := by
  rw [saidCommand, saidCommand, if_pos h, if_pos h] at heq
  cases target
  cases said
  simp_all

theorem commandEntry_eq_iff (hok : ¬ Throws ws) (target said : RbcpTarget) :
    commandEntry target ws = saidCommand said ws ↔ CommandAgrees target said ws := by
  by_cases hcommand : CommandLine ws
  · by_cases hlen : ws.length = 3
    · -- the code wants a second data word
      have hnot : ¬ HexLine ws := fun hline => by
        have := hline.2.1
        omega
      rw [commandEntry, if_neg hnot, saidCommand, if_pos hcommand]
      exact iff_of_false (by simp) fun h => (h.1 hcommand).1 hlen
    · rw [commandEntry_eq hok hcommand hlen]
      constructor
      · intro heq
        exact ⟨fun _ => ⟨hlen, saidCommand_injective hcommand heq⟩, fun _ => hcommand⟩
      · intro h
        rw [(h.1 hcommand).2]
  · rw [saidCommand, if_neg hcommand]
    by_cases hline : HexLine ws
    · rw [commandEntry, if_pos hline]
      exact iff_of_false (by simp) fun h => hcommand (h.2 hline)
    · rw [commandEntry, if_neg hline]
      exact iff_of_true rfl ⟨fun h => absurd h hcommand, fun h => absurd h hline⟩

end Words

/-- At each line: it does not end the program, and it adds what it says. -/
def LinesAgree (target : RbcpTarget) (content : List Char) : Prop :=
  ∀ pre line post, lines content = pre ++ line :: post →
    ¬ Aborts line ∧ CommandAgrees (targetsFrom target pre) (saidTargets pre) (tokens line)

theorem not_aborts_of_commandsAsSaid {s : State} {content : List Char}
    (h : CommandsAsSaid s content) : ∀ line ∈ lines content, ¬ Aborts line := by
  obtain ⟨t, ht, -⟩ := h (lines content) [] (List.append_nil _).symm
  exact ((linesLoop_ok_iff s t _).mp ht).1

theorem not_aborts_of_linesAgree {target : RbcpTarget} {content : List Char}
    (h : LinesAgree target content) : ∀ line ∈ lines content, ¬ Aborts line := by
  intro line hmem
  obtain ⟨pre, post, hsplit⟩ := List.append_of_mem hmem
  exact (h pre line post hsplit).1

theorem commandsAsSaid_iff (s : State) (content : List Char) :
    CommandsAsSaid s content ↔ LinesAgree s.target content := by
  constructor
  · intro h
    have hok := not_aborts_of_commandsAsSaid h
    have hcollect := (collect_eq_iff s.target defaultTarget (lines content)).mp
      fun pre post hsplit => by
        obtain ⟨t, ht, hcoms⟩ := h pre post hsplit
        obtain ⟨-, rfl⟩ := (linesLoop_ok_iff s t pre).mp ht
        rw [foldl_after_rcoms] at hcoms
        exact List.append_cancel_left hcoms
    intro pre line post hsplit
    have hline := hok line (by simp [hsplit])
    exact ⟨hline, (commandEntry_eq_iff (fun h => hline (.inr h)) _ _).mp
      (hcollect pre line post hsplit)⟩
  · intro h pre post hsplit
    have hok := not_aborts_of_linesAgree h
    refine ⟨_, linesLoop_eq s fun line hmem => hok line (by simp [hsplit, hmem]), ?_⟩
    rw [foldl_after_rcoms]
    refine congrArg _ ((collect_eq_iff s.target defaultTarget (lines content)).mpr ?_ pre post
      hsplit)
    intro pre line post hsplit
    obtain ⟨hline, hagrees⟩ := h pre line post hsplit
    exact (commandEntry_eq_iff (fun h => hline (.inr h)) _ _).mpr hagrees

/-- A file is read to its end and its command lines mean what they say exactly if no line ends
the program, each command line has two data words or more and finds the host and the port
of this file, and no other line is taken for one. -/
theorem command_lines_iff (s : State) (content : List Char) :
    (∃ t, nodelist (some content) s = .ok (0, t)) ∧ CommandsAsSaid s content ↔
      LinesAgree s.target content := by
  rw [commandsAsSaid_iff, nodelist_ok_iff, and_iff_right_iff_imp]
  exact not_aborts_of_linesAgree

/-- `rbcp 10 11` adds no command. -/
theorem one_data_word_dropped :
    ¬ ∀ (s : State) (content : List Char),
      (∃ t, nodelist (some content) s = .ok (0, t)) ∧ CommandsAsSaid s content := by
  intro h
  obtain ⟨-, hsaid⟩ := h ⟨defaultTarget, [], []⟩ ['r', 'b', 'c', 'p', ' ', '1', '0', ' ', '1', '1']
  have hagree := (commandsAsSaid_iff _ _).mp hsaid []
    ['r', 'b', 'c', 'p', ' ', '1', '0', ' ', '1', '1'] [] (by decide)
  exact absurd (hagree.2.1 (by decide)).1 (by decide)

end NodeList

end LebStudy
