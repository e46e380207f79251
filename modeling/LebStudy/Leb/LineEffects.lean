import LebStudy.Leb.NodeList
import Mathlib.Data.List.GetD

/-!
# What a line of the node file does

The words of a line are the pieces between its blanks, as long as an `int` reaches them. A
line ends the program, or it adds at most a node and a command and sets the host or the
port for the commands behind it; so a file is read to its end exactly if none of its lines
ends the program, and then the effects of its lines add up.
-/

namespace LebStudy

open Numerals

namespace NodeList

/-! ### What the words of a line are -/

/-- The pieces between blanks, those without a character left out. -/
def tokens (line : List Char) : List Word := (line.splitOn ' ').filter (· ≠ [])

/-- There is a blank from position `2 ^ 31 - 1` on: behind it an `int` has no position. -/
def FarBlank (text : List Char) : Prop := ∃ k, 2 ^ 31 - 1 ≤ k ∧ text[k]? = some ' '

theorem pushWord_eq (words : List Word) (word : Word) :
    pushWord words word = words ++ [word].filter (· ≠ []) := by
  rw [pushWord]
  by_cases hne : word ≠ []
  · rw [if_pos hne, List.filter_cons_of_pos (by simpa using hne), List.filter_nil]
  · rw [if_neg hne, List.filter_cons_of_neg (by simpa using hne), List.filter_nil,
      List.append_nil]

theorem tokens_of_notMem {line : List Char} (h : ' ' ∉ line) :
    tokens line = [line].filter (· ≠ []) := by
  rw [tokens, List.splitOn_eq_singleton h]

theorem tokens_append {word rest : List Char} (h : ' ' ∉ word) :
    tokens (word ++ ' ' :: rest) = [word].filter (· ≠ []) ++ tokens rest := by
  rw [tokens, List.splitOn_append_cons_self_of_not_mem h, ← List.singleton_append,
    List.filter_append, tokens]

theorem substr_natCast {line : List Char} {offset : ℕ} (h : offset ≤ line.length) (n : ℕ) :
    substr line offset n = .ok ((line.drop offset).take n) := by
  rw [substr, if_pos ⟨by omega, by exact_mod_cast h⟩, Int.toNat_natCast]

/-- What `find` comes to from a position on: nothing, or the next blank. -/
theorem find_cases (line : List Char) (offset : ℕ) :
    find line offset = none ∧ ' ' ∉ line.drop offset ∨
      ∃ word rest, line.drop offset = word ++ ' ' :: rest ∧ ' ' ∉ word ∧
        find line offset = some (offset + word.length) := by
  rw [find, if_pos (Int.natCast_nonneg offset), Int.toNat_natCast]
  cases hfind : (line.drop offset).idxOf? ' ' with
  | none => exact .inl ⟨rfl, List.idxOf?_eq_none_iff.mp hfind⟩
  | some k =>
    obtain ⟨hk, hblank, hbefore⟩ := List.idxOf?_eq_some_iff.mp hfind
    refine .inr ⟨(line.drop offset).take k, (line.drop offset).drop (k + 1), ?_, ?_, ?_⟩
    · rw [← hblank, List.getElem_cons_drop, List.take_append_drop]
    · intro hmem
      obtain ⟨j, hj, heq⟩ := List.mem_take_iff_getElem.mp hmem
      exact hbefore j (by omega) heq
    · rw [List.length_take_of_le hk.le]
      rfl

/-- From a position on, all blanks within reach: the loop adds the pieces between them. -/
theorem wordsLoop_eq {line : List Char} {offset turns : ℕ} {words : List Word}
    (hnear : ¬ FarBlank line) (hoffset : offset ≤ line.length)
    (hturns : line.length < turns + offset) :
    wordsLoop line turns offset words = .ok (words ++ tokens (line.drop offset)) := by
  induction turns generalizing offset words with
  | zero => omega
  | succ turns ih =>
    rw [wordsLoop]
    rcases find_cases line offset with ⟨hnone, hblank⟩ | ⟨word, rest, hsplit, hword, hsome⟩
    · simp only [hnone, substr_natCast hoffset, Except.map]
      rw [List.take_of_length_le (by simp), pushWord_eq, tokens_of_notMem hblank]
    · have hlen := congrArg List.length hsplit
      rw [List.length_drop, List.length_append, List.length_cons] at hlen
      have hpos : offset + word.length < 2 ^ 31 - 1 := by
        by_contra hfar
        refine hnear ⟨offset + word.length, Nat.not_lt.mp hfar, ?_⟩
        rw [← List.getElem?_drop, hsplit]
        simp
      have hwrap : wrapInt ((offset + word.length : ℕ) + 1) = (offset + word.length + 1 : ℕ) :=
        wrapInt_of_fits ⟨by omega, by omega⟩
      have hrest : line.drop (offset + word.length + 1) = rest := by
        rw [Nat.add_assoc, ← List.drop_drop, hsplit]
        simp
      simp only [hsome, substr_natCast hoffset, Int.toNat_natCast, Nat.add_sub_cancel_left, hsplit,
        List.take_left, hwrap]
      rw [ih (by omega) (by omega), hrest, pushWord_eq, tokens_append hword, List.append_assoc]

/-- A blank out of reach: the loop meets it, whatever its offset was. -/
theorem wordsLoop_error {line : List Char} (hfar : FarBlank line) (turns : ℕ) {offset : ℕ}
    (hoffset : offset < 2 ^ 31) (words : List Word) :
    ∃ e, wordsLoop line turns offset words = .error e := by
  obtain ⟨k, hk, hblank⟩ := hfar
  induction turns generalizing offset words with
  | zero => exact ⟨_, rfl⟩
  | succ turns ih =>
    have hklen : k < line.length := (List.getElem?_eq_some_iff.mp hblank).1
    have hin : ' ' ∈ line.drop offset := by
      refine List.mem_of_getElem? (i := k - offset) ?_
      rw [List.getElem?_drop, Nat.add_sub_cancel' (by omega), hblank]
    rw [wordsLoop]
    rcases find_cases line offset with ⟨-, hnot⟩ | ⟨word, rest, -, -, hsome⟩
    · exact absurd hin hnot
    · simp only [hsome, substr_natCast (show offset ≤ line.length by omega)]
      generalize hnext : wrapInt ((offset + word.length : ℕ) + 1) = next
      have hlow : -2 ^ 31 ≤ next := by
        rw [← hnext, wrapInt]
        exact Int.le_bmod (by decide)
      have hhigh : next < 2 ^ 31 := by
        rw [← hnext, wrapInt]
        exact Int.bmod_lt (by decide)
      by_cases hsign : 0 ≤ next
      · obtain ⟨n, rfl⟩ := Int.eq_ofNat_of_zero_le hsign
        exact ih (by omega) _
      · -- a negative offset is behind the end for `find` and for `substr`
        cases turns with
        | zero => exact ⟨_, rfl⟩
        | succ turns =>
          refine ⟨.outOfRange, ?_⟩
          rw [wordsLoop, find, if_neg hsign]
          simp only [substr, if_neg fun h : 0 ≤ next ∧ _ => hsign h.1]
          rfl

theorem wordsOf_eq {line : List Char} (hnear : ¬ FarBlank line) :
    wordsOf line = .ok (tokens line) := by
  have h := @wordsLoop_eq line 0 (line.length + 2) [] hnear (Nat.zero_le _) (by omega)
  rwa [List.nil_append, List.drop_zero] at h

theorem wordsOf_error {line : List Char} (hfar : FarBlank line) : ∃ e, wordsOf line = .error e :=
  wordsLoop_error hfar _ (by decide) _

/-! ### What a line does -/

/-- `std::stoi` converts the word. -/
def Converts (base : ℕ) (w : Word) : Prop := ∃ i, Numerals.stoi base w = .ok i

instance (base : ℕ) (w : Word) : Decidable (Converts base w) :=
  match h : Numerals.stoi base w with
  | .ok i => .isTrue ⟨i, h⟩
  | .error _ => .isFalse fun ⟨_, hok⟩ => by rw [h] at hok; cases hok

/-- What `std::stoi` makes of a word that it converts. -/
def number (base : ℕ) (w : Word) : ℤ := ((Numerals.stoi base w).toOption).getD 0

/-- A line `rbcp host X ..`. -/
def HostLine (ws : List Word) : Prop :=
  isRbcp (ws.getD 0 []) = true ∧ ws.getD 1 [] = hostWord ∧ 2 < ws.length

/-- A line `rbcp port X ..`. -/
def PortLine (ws : List Word) : Prop :=
  isRbcp (ws.getD 0 []) = true ∧ ws.getD 1 [] = portWord ∧ 2 < ws.length

/-- A line `rbcp X Y Z ..` with the characters of hexadecimal numbers in `X` and `Y`. -/
def HexLine (ws : List Word) : Prop :=
  isRbcp (ws.getD 0 []) = true ∧ 3 < ws.length ∧ isHexNumber (ws.getD 1 []) = true ∧
    isHexNumber (ws.getD 2 []) = true

instance (ws : List Word) : Decidable (HostLine ws) := inferInstanceAs (Decidable (_ ∧ _))

instance (ws : List Word) : Decidable (PortLine ws) := inferInstanceAs (Decidable (_ ∧ _))

instance (ws : List Word) : Decidable (HexLine ws) := inferInstanceAs (Decidable (_ ∧ _))

/-- The words end the program. -/
def Throws (ws : List Word) : Prop :=
  isRbcp (ws.getD 0 []) = true ∧ ws.length < 2 ∨
    PortLine ws ∧ ¬ Converts 10 (ws.getD 2 []) ∨
    HexLine ws ∧ ∃ w ∈ ws.drop 1, ¬ Converts 16 w

/-- The line ends the program. -/
def Aborts (line : List Char) : Prop := FarBlank line ∨ Throws (tokens line)

/-- The static variables behind the line. -/
def targetAfter (target : RbcpTarget) (ws : List Word) : RbcpTarget :=
  if HostLine ws then { target with host := ws.getD 2 [] }
  else if PortLine ws then { target with port := toUnsigned (number 10 (ws.getD 2 [])) }
  else target

/-- The command that the line adds. -/
def commandEntry (target : RbcpTarget) (ws : List Word) : Option RbcpCom :=
  if HexLine ws then
    some ⟨target.host, target.port, toUnsigned (number 16 (ws.getD 1 [])),
      (ws.drop 2).map fun w => toByte (number 16 w)⟩
  else none

/-- A line of three words and more that is no comment and not for `process_rbcp`. -/
def NodeCandidate (ws : List Word) : Prop :=
  3 ≤ ws.length ∧ (ws.getD 0 []).head? ≠ some '#' ∧ isRbcp (ws.getD 0 []) = false

instance (ws : List Word) : Decidable (NodeCandidate ws) := inferInstanceAs (Decidable (_ ∧ _))

/-- The node that the line adds. -/
def nodeEntry (ws : List Word) : Option NodeProp :=
  if NodeCandidate ws then nodeOf ws else none

theorem stoi_of_converts {base : ℕ} {w : Word} (h : Converts base w) :
    stoi base w = .ok (number base w) := by
  obtain ⟨i, hi⟩ := h
  rw [stoi, number, hi]
  rfl

theorem stoi_of_not_converts {base : ℕ} {w : Word} (h : ¬ Converts base w) :
    ∃ e, stoi base w = .error e := by
  cases hi : Numerals.stoi base w with
  | ok i => exact absurd ⟨i, hi⟩ h
  | error e =>
    rw [stoi, hi]
    exact ⟨_, rfl⟩

theorem mapM_stoi_of_converts {base : ℕ} {ws : List Word} (h : ∀ w ∈ ws, Converts base w) :
    ws.mapM (stoi base) = .ok (ws.map (number base)) := by
  induction ws with
  | nil => rfl
  | cons w ws ih =>
    obtain ⟨hw, hws⟩ := List.forall_mem_cons.mp h
    rw [List.mapM_cons, stoi_of_converts hw, ih hws]
    rfl

theorem mapM_stoi_error {base : ℕ} {ws : List Word} (h : ∃ w ∈ ws, ¬ Converts base w) :
    ∃ e, ws.mapM (stoi base) = .error e := by
  induction ws with
  | nil =>
    obtain ⟨w, hw, -⟩ := h
    cases hw
  | cons w ws ih =>
    rw [List.mapM_cons]
    by_cases hw : Converts base w
    · obtain ⟨x, hx, hnot⟩ := h
      rcases List.mem_cons.mp hx with rfl | hx
      · exact absurd hw hnot
      · obtain ⟨e, he⟩ := ih ⟨x, hx, hnot⟩
        rw [stoi_of_converts hw, he]
        exact ⟨e, rfl⟩
    · obtain ⟨e, he⟩ := stoi_of_not_converts hw
      rw [he]
      exact ⟨e, rfl⟩

theorem isHexNumber_hostWord : isHexNumber hostWord = false := by decide

theorem isHexNumber_portWord : isHexNumber portWord = false := by decide

section Words

variable {ws : List Word}

theorem targetAfter_of_hexLine (h : HexLine ws) (target : RbcpTarget) :
    targetAfter target ws = target := by
  obtain ⟨-, -, hhex, -⟩ := h
  have hhost : ¬ HostLine ws := fun hline => by
    rw [hline.2.1, isHexNumber_hostWord] at hhex
    cases hhex
  have hport : ¬ PortLine ws := fun hline => by
    rw [hline.2.1, isHexNumber_portWord] at hhex
    cases hhex
  rw [targetAfter, if_neg hhost, if_neg hport]

theorem not_hostLine_of_portLine (h : PortLine ws) : ¬ HostLine ws := by
  have hneq : portWord ≠ hostWord := by decide
  exact fun hhost => hneq (h.2.1.symm.trans hhost.2.1)

theorem setTarget_eq (hrbcp : isRbcp (ws.getD 0 []) = true)
    (hport : PortLine ws → Converts 10 (ws.getD 2 [])) (target : RbcpTarget) :
    setTarget ws target = .ok (targetAfter target ws) := by
  rw [setTarget, targetAfter]
  by_cases hline : PortLine ws
  · have hnot := not_hostLine_of_portLine hline
    rw [if_pos hline.2, if_neg fun h => hnot ⟨hrbcp, h⟩, if_neg hnot, if_pos hline,
      stoi_of_converts (hport hline)]
    rfl
  · rw [if_neg fun h => hline ⟨hrbcp, h⟩, if_neg hline]
    by_cases hhost : HostLine ws
    · rw [if_pos hhost.2, if_pos hhost]
    · rw [if_neg fun h => hhost ⟨hrbcp, h⟩, if_neg hhost]

theorem setTarget_error (hline : PortLine ws) (hnot : ¬ Converts 10 (ws.getD 2 []))
    (target : RbcpTarget) : ∃ e, setTarget ws target = .error e := by
  obtain ⟨e, he⟩ := stoi_of_not_converts hnot
  rw [setTarget, if_pos hline.2, he]
  exact ⟨e, rfl⟩

theorem HexLine.both (h : HexLine ws) :
    (isHexNumber (ws.getD 1 []) && isHexNumber (ws.getD 2 [])) = true := by
  rw [h.2.2.1, h.2.2.2]
  rfl

theorem drop_one_eq (hlen : 1 < ws.length) : ws.drop 1 = ws.getD 1 [] :: ws.drop 2 := by
  rw [List.drop_eq_getElem_cons hlen, List.getD_eq_getElem _ _ hlen]

theorem addCommand_eq (hrbcp : isRbcp (ws.getD 0 []) = true)
    (hhex : HexLine ws → ∀ w ∈ ws.drop 1, Converts 16 w) (target : RbcpTarget)
    (com : List RbcpCom) :
    addCommand ws target com = .ok (com ++ (commandEntry target ws).toList) := by
  rw [addCommand, commandEntry]
  by_cases hline : HexLine ws
  · have hlen := hline.2.1
    have hall := hhex hline
    rw [drop_one_eq (by omega), List.forall_mem_cons] at hall
    rw [if_pos hlen, if_pos hline.both, if_pos hline, stoi_of_converts hall.1,
      mapM_stoi_of_converts hall.2]
    simp only [bind, Except.bind, List.map_map, Option.toList_some]
    rfl
  · rw [if_neg hline, Option.toList_none, List.append_nil]
    by_cases hlen : 3 < ws.length
    · rw [if_pos hlen, if_neg]
      rw [Bool.and_eq_true]
      exact fun h => hline ⟨hrbcp, hlen, h⟩
    · rw [if_neg hlen]

theorem addCommand_error (hline : HexLine ws) (hnot : ∃ w ∈ ws.drop 1, ¬ Converts 16 w)
    (target : RbcpTarget) (com : List RbcpCom) :
    ∃ e, addCommand ws target com = .error e := by
  have hlen := hline.2.1
  rw [addCommand, if_pos hlen, if_pos hline.both]
  by_cases haddress : Converts 16 (ws.getD 1 [])
  · have hdata : ∃ w ∈ ws.drop 2, ¬ Converts 16 w := by
      obtain ⟨w, hw, hnot⟩ := hnot
      rw [drop_one_eq (by omega)] at hw
      rcases List.mem_cons.mp hw with rfl | hw
      · exact absurd haddress hnot
      · exact ⟨w, hw, hnot⟩
    obtain ⟨e, he⟩ := mapM_stoi_error hdata
    rw [stoi_of_converts haddress, he]
    exact ⟨e, rfl⟩
  · obtain ⟨e, he⟩ := stoi_of_not_converts haddress
    rw [he]
    exact ⟨e, rfl⟩

theorem processRbcp_eq (hrbcp : isRbcp (ws.getD 0 []) = true) (hok : ¬ Throws ws)
    (target : RbcpTarget) (com : List RbcpCom) :
    processRbcp ws target com =
      .ok (0, targetAfter target ws, com ++ (commandEntry target ws).toList) := by
  simp only [Throws, not_or, not_and, not_not, not_exists] at hok
  obtain ⟨hlen, hport, hhex⟩ := hok
  have hentry : commandEntry (targetAfter target ws) ws = commandEntry target ws := by
    by_cases hline : HexLine ws
    · rw [targetAfter_of_hexLine hline]
    · rw [commandEntry, commandEntry, if_neg hline, if_neg hline]
  have hcommand := addCommand_eq hrbcp hhex (targetAfter target ws) com
  rw [processRbcp, if_pos hrbcp, if_neg (hlen hrbcp), setTarget_eq hrbcp hport]
  simp only [bind, Except.bind, hcommand, hentry]

theorem not_portLine_of_hexLine (h : HexLine ws) : ¬ PortLine ws := by
  intro hport
  have hhex := h.2.2.1
  rw [hport.2.1, isHexNumber_portWord] at hhex
  cases hhex

theorem processRbcp_error (hthrows : Throws ws) (target : RbcpTarget) (com : List RbcpCom) :
    ∃ e, processRbcp ws target com = .error e := by
  rw [processRbcp]
  rcases hthrows with ⟨hrbcp, hlen⟩ | ⟨hline, hnot⟩ | ⟨hline, hnot⟩
  · rw [if_pos hrbcp, if_pos hlen]
    exact ⟨_, rfl⟩
  · have hlen := hline.2.2
    obtain ⟨e, he⟩ := setTarget_error hline hnot target
    rw [if_pos hline.1, if_neg (by omega), he]
    exact ⟨e, rfl⟩
  · have hlen := hline.2.1
    obtain ⟨e, he⟩ := addCommand_error hline hnot (targetAfter target ws) com
    rw [if_pos hline.1, if_neg (by omega),
      setTarget_eq hline.1 fun hport => absurd hport (not_portLine_of_hexLine hline)]
    simp only [bind, Except.bind, he]
    exact ⟨e, rfl⟩

/-! ### What a file does -/

/-- A word with `rbcp` in it begins with another character than a comment. -/
theorem not_comment_of_rbcp (h : isRbcp (ws.getD 0 []) = true) :
    (ws.getD 0 []).head? ≠ some '#' := by
  rw [isRbcp, Bool.or_eq_true, decide_eq_true_eq, decide_eq_true_eq] at h
  rcases h with h | h <;> rw [h] <;> decide

theorem processWords_eq (s : State) (hok : ¬ Throws ws) :
    processWords s ws =
      .ok ⟨targetAfter s.target ws, s.nodes ++ (nodeEntry ws).toList,
        s.rcoms ++ (commandEntry s.target ws).toList⟩ := by
  rw [processWords]
  by_cases hrbcp : isRbcp (ws.getD 0 []) = true
  · have hlen : ¬ ws.length < 1 := fun hlt => by
      rw [List.getD_eq_default _ _ (by omega)] at hrbcp
      cases hrbcp
    have hentry : nodeEntry ws = none := by
      rw [nodeEntry, if_neg]
      rintro ⟨-, -, hnot⟩
      rw [hrbcp] at hnot
      cases hnot
    rw [if_neg hlen, if_neg (not_comment_of_rbcp hrbcp), if_pos hrbcp, processRbcp_eq hrbcp hok,
      hentry, Option.toList_none, List.append_nil]
    rfl
  · have htarget : targetAfter s.target ws = s.target := by
      rw [targetAfter, if_neg fun h => hrbcp h.1, if_neg fun h => hrbcp h.1]
    have hcommand : commandEntry s.target ws = none := by
      rw [commandEntry, if_neg fun h => hrbcp h.1]
    rw [htarget, hcommand, Option.toList_none, List.append_nil, nodeEntry]
    split
    · next hlen => rw [if_neg fun h => absurd h.1 (by omega), Option.toList_none, List.append_nil]
    · split
      · next hcomment =>
        rw [if_neg fun h => h.2.1 hcomment, Option.toList_none, List.append_nil]
      · next hcomment =>
        split
        · next hlen => rw [if_pos ⟨hlen, hcomment, Bool.not_eq_true _ ▸ hrbcp⟩]
        · next hlen => rw [if_neg fun h => hlen h.1, Option.toList_none, List.append_nil]

theorem processWords_error (s : State) (hthrows : Throws ws) :
    ∃ e, processWords s ws = .error e := by
  have hrbcp : isRbcp (ws.getD 0 []) = true := by
    rcases hthrows with h | h | h
    · exact h.1
    · exact h.1.1
    · exact h.1.1
  have hlen : ¬ ws.length < 1 := fun hlt => by
    rw [List.getD_eq_default _ _ (by omega)] at hrbcp
    cases hrbcp
  obtain ⟨e, he⟩ := processRbcp_error hthrows s.target s.rcoms
  rw [processWords, if_neg hlen, if_neg (not_comment_of_rbcp hrbcp), if_pos hrbcp, he]
  exact ⟨e, rfl⟩

end Words

/-- The state behind a line that does not end the program. -/
def after (s : State) (line : List Char) : State :=
  ⟨targetAfter s.target (tokens line), s.nodes ++ (nodeEntry (tokens line)).toList,
    s.rcoms ++ (commandEntry s.target (tokens line)).toList⟩

theorem processLine_eq (s : State) {line : List Char} (hok : ¬ Aborts line) :
    processLine s line = .ok (after s line) := by
  rw [Aborts, not_or] at hok
  rw [processLine, wordsOf_eq hok.1]
  exact processWords_eq s hok.2

theorem processLine_error (s : State) {line : List Char} (h : Aborts line) :
    ∃ e, processLine s line = .error e := by
  rw [processLine]
  rcases h with hfar | hthrows
  · obtain ⟨e, he⟩ := wordsOf_error hfar
    rw [he]
    exact ⟨e, rfl⟩
  · by_cases hfar : FarBlank line
    · obtain ⟨e, he⟩ := wordsOf_error hfar
      rw [he]
      exact ⟨e, rfl⟩
    · rw [wordsOf_eq hfar]
      exact processWords_error s hthrows

theorem linesLoop_eq (s : State) {ls : List (List Char)} (hok : ∀ line ∈ ls, ¬ Aborts line) :
    linesLoop s ls = .ok (ls.foldl after s) := by
  induction ls generalizing s with
  | nil => rfl
  | cons line ls ih =>
    obtain ⟨hline, hls⟩ := List.forall_mem_cons.mp hok
    rw [linesLoop, List.foldlM_cons, processLine_eq s hline]
    exact ih (after s line) hls

theorem linesLoop_error (s : State) {ls : List (List Char)} (h : ∃ line ∈ ls, Aborts line) :
    ∃ e, linesLoop s ls = .error e := by
  induction ls generalizing s with
  | nil =>
    obtain ⟨line, hmem, -⟩ := h
    cases hmem
  | cons line ls ih =>
    rw [linesLoop, List.foldlM_cons]
    by_cases hline : Aborts line
    · obtain ⟨e, he⟩ := processLine_error s hline
      rw [he]
      exact ⟨e, rfl⟩
    · obtain ⟨x, hx, haborts⟩ := h
      rw [processLine_eq s hline]
      rcases List.mem_cons.mp hx with rfl | hx
      · exact absurd haborts hline
      · exact ih (after s line) ⟨x, hx, haborts⟩

/-- The file is read to its end exactly if no line ends the program. -/
theorem linesLoop_ok_iff (s t : State) (ls : List (List Char)) :
    linesLoop s ls = .ok t ↔ (∀ line ∈ ls, ¬ Aborts line) ∧ ls.foldl after s = t := by
  by_cases hok : ∀ line ∈ ls, ¬ Aborts line
  · rw [linesLoop_eq s hok, Except.ok.injEq, and_iff_right hok]
  · refine iff_of_false (fun h => ?_) fun h => hok h.1
    simp only [not_forall, not_not, exists_prop] at hok
    obtain ⟨e, he⟩ := linesLoop_error s hok
    rw [he] at h
    cases h

theorem nodelist_ok_iff (s : State) (content : List Char) :
    (∃ t, nodelist (some content) s = .ok (0, t)) ↔ ∀ line ∈ lines content, ¬ Aborts line := by
  constructor
  · rintro ⟨t, ht⟩
    by_contra hnot
    simp only [not_forall, not_not, exists_prop] at hnot
    obtain ⟨e, he⟩ := linesLoop_error s hnot
    rw [nodelist, he] at ht
    cases ht
  · intro hok
    refine ⟨(lines content).foldl after s, ?_⟩
    rw [nodelist, linesLoop_eq s hok]
    rfl

theorem foldl_after_nodes (s : State) (ls : List (List Char)) :
    (ls.foldl after s).nodes = s.nodes ++ ls.filterMap fun line => nodeEntry (tokens line) := by
  induction ls generalizing s with
  | nil => simp
  | cons line ls ih =>
    rw [List.foldl_cons, ih, after, List.filterMap_cons]
    cases nodeEntry (tokens line) with
    | none => simp
    | some node => simp

end NodeList

end LebStudy
