import LebStudy.Lib.Collect
import LebStudy.Leb.LineEffects
import Mathlib.Data.List.Basic

/-!
# Node lines

`isNumber` decides by the characters whether a word is a number, and the extraction from
a stream says which. On words of digits the two agree with the decimal number up to
`2 ^ 31`; dots inside a word and larger numbers are accepted and change the value, and a
number with a sign is refused.
-/

namespace LebStudy

open Numerals

namespace NodeList

/-- The word is a decimal integer, with or without a sign, that an `int` can represent. -/
def decimalInt (w : Word) : Option ℤ :=
  let (minus, ds) := takeSign w
  if ds ≠ [] ∧ ds.all (· ∈ decDigits) ∧ FitsInt (signed minus (numeral 10 ds)) then
    some (signed minus (numeral 10 ds))
  else none

/-- The node that a line says: id, host and port, and whether it is a dummy. -/
def nodeLine (ws : List Word) : Option NodeProp :=
  if NodeCandidate ws then
    (decimalInt (ws.getD 0 [])).bind fun id => (decimalInt (ws.getD 2 [])).map fun port =>
      ⟨id, ws.getD 1 [], port, decide (3 < ws.length) && isDummy (ws.getD 3 [])⟩
  else none

/-- Behind each line of the file the vector has gained the nodes of the lines up to it. -/
def NodesAsSaid (s : State) (content : List Char) : Prop :=
  ∀ pre post, lines content = pre ++ post →
    ∃ t, linesLoop s pre = .ok t ∧
      t.nodes = s.nodes ++ pre.filterMap fun line => nodeLine (tokens line)

/-- In a line that may have a node, the first and the third word are digits and dots exactly if
both are decimal integers. -/
def NumbersAgree (ws : List Word) : Prop :=
  NodeCandidate ws →
    (isNumber (ws.getD 0 []) = true ∧ isNumber (ws.getD 2 []) = true ↔
      (decimalInt (ws.getD 0 [])).isSome ∧ (decimalInt (ws.getD 2 [])).isSome)

theorem isDigitIn_of_all_decDigits {w : Word} (h : w.all (· ∈ decDigits) = true) :
    ∀ c ∈ w, isDigitIn 10 c = true := by
  have hdigits : decDigits.all (isDigitIn 10) = true := by decide
  intro c hc
  exact List.all_eq_true.mp hdigits c (of_decide_eq_true (List.all_eq_true.mp h c hc))

theorem isNumber_spec {w : Word} (h : isNumber w = true) :
    ∀ c ∈ w, c = '.' ∨ c ∈ decDigits := by
  rw [isNumber, Bool.and_eq_true, Bool.and_eq_true, List.all_eq_true] at h
  intro c hc
  have hmem := of_decide_eq_true (h.1.1 c hc)
  exact List.mem_cons.mp hmem

/-- What is accepted and is a decimal integer is converted to that number. -/
theorem extractInt_of_decimal {w : Word} {i : ℤ} (hnumber : isNumber w = true)
    (hdecimal : decimalInt w = some i) : extractInt w = i := by
  have hchars := isNumber_spec hnumber
  have hsign : takeSign w = (false, w) := by
    cases w with
    | nil => rfl
    | cons c w =>
      have hc := hchars c List.mem_cons_self
      rw [takeSign]
      · rintro s heq
        cases heq
        exact absurd hc (by decide)
      · rintro s heq
        cases heq
        exact absurd hc (by decide)
  rw [decimalInt, hsign] at hdecimal
  simp only [Option.ite_none_right_eq_some, Option.some.injEq] at hdecimal
  obtain ⟨⟨-, hdigits, hfits⟩, rfl⟩ := hdecimal
  have hall := isDigitIn_of_all_decDigits hdigits
  rw [extractInt, dropWhile_isSpace_of_digits hall, hsign]
  simp only [List.takeWhile_eq_self_iff.mpr hall]
  exact clamp_of_fits hfits

theorem nodeOf_isSome_iff (ws : List Word) :
    (nodeOf ws).isSome ↔ isNumber (ws.getD 0 []) = true ∧ isNumber (ws.getD 2 []) = true := by
  rw [nodeOf]
  split
  · next h0 =>
    split
    · next h2 => exact iff_of_true rfl ⟨h0, h2⟩
    · next h2 => exact iff_of_false (by simp) fun h => h2 h.2
  · next h0 => exact iff_of_false (by simp) fun h => h0 h.1

theorem nodeLine_isSome_iff {ws : List Word} (h : NodeCandidate ws) :
    (nodeLine ws).isSome ↔
      (decimalInt (ws.getD 0 [])).isSome ∧ (decimalInt (ws.getD 2 [])).isSome := by
  rw [nodeLine, if_pos h]
  cases decimalInt (ws.getD 0 []) <;> cases decimalInt (ws.getD 2 []) <;> simp

/-- A line adds the node that it says exactly if its numbers agree. -/
theorem nodeEntry_eq_iff (ws : List Word) : nodeEntry ws = nodeLine ws ↔ NumbersAgree ws := by
  by_cases hcandidate : NodeCandidate ws
  · rw [nodeEntry, if_pos hcandidate, NumbersAgree, ← nodeOf_isSome_iff,
      ← nodeLine_isSome_iff hcandidate]
    constructor
    · intro heq _
      rw [heq]
    · intro hagree
      have hsome := hagree hcandidate
      cases hline : nodeLine ws with
      | none =>
        rw [hline] at hsome
        exact Option.not_isSome_iff_eq_none.mp fun h => absurd (hsome.mp h) (by simp)
      | some node =>
        have hnumbers := (nodeOf_isSome_iff ws).mp (hsome.mpr (by rw [hline]; rfl))
        rw [nodeLine, if_pos hcandidate, Option.bind_eq_some_iff] at hline
        obtain ⟨id, hid, hline⟩ := hline
        obtain ⟨port, hport, rfl⟩ := Option.map_eq_some_iff.mp hline
        rw [nodeOf, if_pos hnumbers.1, if_pos hnumbers.2, extractInt_of_decimal hnumbers.1 hid,
          extractInt_of_decimal hnumbers.2 hport]
  · rw [nodeEntry, if_neg hcandidate, nodeLine, if_neg hcandidate]
    exact iff_of_true rfl fun h => absurd h hcandidate

theorem agree_of_nodesAsSaid {s : State} {content : List Char} (h : NodesAsSaid s content) :
    ∀ line ∈ lines content, ¬ Aborts line ∧ NumbersAgree (tokens line) := by
  obtain ⟨t, ht, -⟩ := h (lines content) [] (List.append_nil _).symm
  have hok := ((linesLoop_ok_iff s t _).mp ht).1
  have hentries := (filterMap_eq_iff (fun line => nodeEntry (tokens line))
    (fun line => nodeLine (tokens line)) (lines content)).mp fun pre post hsplit => by
      obtain ⟨t, ht, hnodes⟩ := h pre post hsplit
      obtain ⟨-, rfl⟩ := (linesLoop_ok_iff s t pre).mp ht
      rw [foldl_after_nodes] at hnodes
      exact List.append_cancel_left hnodes
  intro line hmem
  exact ⟨hok line hmem, (nodeEntry_eq_iff _).mp (hentries line hmem)⟩

/-- A file is read to its end and its node lines mean what they say exactly if no line ends the
program and the numbers agree in each line. -/
theorem node_lines_iff (s : State) (content : List Char) :
    (∃ t, nodelist (some content) s = .ok (0, t)) ∧ NodesAsSaid s content ↔
      ∀ line ∈ lines content, ¬ Aborts line ∧ NumbersAgree (tokens line) := by
  constructor
  · rintro ⟨-, hsaid⟩
    exact agree_of_nodesAsSaid hsaid
  · intro hgood
    refine ⟨(nodelist_ok_iff s content).mpr fun line hmem => (hgood line hmem).1, ?_⟩
    intro pre post hsplit
    have hpre : ∀ line ∈ pre, line ∈ lines content := fun line hmem => by simp [hsplit, hmem]
    have hentries : ∀ line ∈ pre, nodeEntry (tokens line) = nodeLine (tokens line) :=
      fun line hmem => (nodeEntry_eq_iff _).mpr (hgood line (hpre line hmem)).2
    refine ⟨_, linesLoop_eq s fun line hmem => (hgood line (hpre line hmem)).1, ?_⟩
    rw [foldl_after_nodes, List.filterMap_congr hentries]

/-- `1.5 h 24` adds a node with id 1. -/
theorem dotted_number_accepted :
    ¬ ∀ (s : State) (content : List Char),
      (∃ t, nodelist (some content) s = .ok (0, t)) ∧ NodesAsSaid s content := by
  intro h
  obtain ⟨-, hsaid⟩ := h ⟨defaultTarget, [], []⟩ ['1', '.', '5', ' ', 'h', ' ', '2', '4']
  have hagree := (agree_of_nodesAsSaid hsaid ['1', '.', '5', ' ', 'h', ' ', '2', '4']
    (by decide)).2
  exact absurd ((hagree (by decide)).mp (by decide)) (by decide)

end NodeList

end LebStudy
