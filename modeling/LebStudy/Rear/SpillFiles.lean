import LebStudy.Rear.WriteData

/-!
# The files of the spills

What the files should hold depends on the stream of words alone: every word once, the
time behind every end of a spill, and the next file after so many of them. It is what
becomes of the open file when the words are put into it one by one.
-/

namespace LebStudy

/-- The words with the times put in, from the `k`-th spill on. -/
def stamped (time : ℕ → UInt64) : ℕ → List UInt32 → List SpillItem
  | _, [] => []
  | k, w :: ws =>
    if w = spillEnd then .word w :: .stamp (time k) :: stamped time (k + 1) ws
    else .word w :: stamped time k ws

/-- The same cut into files, with a new one after every `nspill` spills. -/
def spillFiles (nspill : ℕ) (time : ℕ → UInt64) : ℕ → List UInt32 → List (List SpillItem)
  | _, [] => [[]]
  | k, w :: ws =>
    if w = spillEnd then
      let files := spillFiles nspill time (k + 1) ws
      if (k + 1) % nspill = 0 then [.word w, .stamp (time k)] :: files
      else files.modifyHead ([.word w, .stamp (time k)] ++ ·)
    else (spillFiles nspill time k ws).modifyHead (.word w :: ·)

/-! ### The files, word by word -/

namespace SpillItem

def isWord : SpillItem → Bool
  | .word _ => true
  | .stamp _ => false

end SpillItem

section SpillFiles

variable {nspill : ℕ} {time : ℕ → UInt64} {k : ℕ} {ws : List UInt32}

theorem spillFiles_ne_nil (k : ℕ) (ws : List UInt32) : spillFiles nspill time k ws ≠ [] := by
  induction ws generalizing k with
  | nil => exact List.cons_ne_nil _ _
  | cons w ws ih =>
    rw [spillFiles]
    by_cases hw : w = spillEnd
    · rw [if_pos hw]
      by_cases hk : (k + 1) % nspill = 0
      · rw [if_pos hk]
        exact List.cons_ne_nil _ _
      · rw [if_neg hk]
        cases hfiles : spillFiles nspill time (k + 1) ws with
        | nil => exact absurd hfiles (ih (k + 1))
        | cons file files => exact List.cons_ne_nil _ _
    · rw [if_neg hw]
      cases hfiles : spillFiles nspill time k ws with
      | nil => exact absurd hfiles (ih k)
      | cons file files => exact List.cons_ne_nil _ _

theorem modifyHead_self {α : Type} (files : List α) :
    (files.modifyHead fun file => file) = files := by
  cases files <;> rfl

theorem flatten_modifyHead {α : Type} (items : List α) {files : List (List α)} (h : files ≠ []) :
    (files.modifyHead (items ++ ·)).flatten = items ++ files.flatten := by
  cases files with
  | nil => exact absurd rfl h
  | cons file files => simp

/-- The files one behind the other are the words with the times. -/
theorem flatten_spillFiles (k : ℕ) (ws : List UInt32) :
    (spillFiles nspill time k ws).flatten = stamped time k ws := by
  induction ws generalizing k with
  | nil => rfl
  | cons w ws ih =>
    rw [spillFiles, stamped]
    by_cases hw : w = spillEnd
    · rw [if_pos hw, if_pos hw]
      by_cases hk : (k + 1) % nspill = 0
      · rw [if_pos hk, List.flatten_cons, ih]
        rfl
      · rw [if_neg hk, flatten_modifyHead _ (spillFiles_ne_nil (k + 1) ws), ih]
        rfl
    · have hhead := flatten_modifyHead [SpillItem.word w]
        (@spillFiles_ne_nil nspill time k ws)
      rw [if_neg hw, if_neg hw]
      rw [ih] at hhead
      exact hhead

/-- They hold every word once. -/
theorem countP_stamped (k : ℕ) (ws : List UInt32) :
    (stamped time k ws).countP SpillItem.isWord = ws.length := by
  induction ws generalizing k with
  | nil => rfl
  | cons w ws ih =>
    rw [stamped]
    by_cases hw : w = spillEnd
    · rw [if_pos hw, List.countP_cons_of_pos rfl, List.countP_cons_of_neg Bool.false_ne_true, ih,
        List.length_cons]
    · rw [if_neg hw, List.countP_cons_of_pos rfl, ih, List.length_cons]

end SpillFiles

namespace SpillWriter

variable {nspill : ℕ} {time : ℕ → UInt64} {s : SpillWriter} {file : List SpillItem}

/-- What becomes of the files by one more word. -/
def put (nspill : ℕ) (time : ℕ → UInt64) (s : SpillWriter) (w : UInt32) : SpillWriter :=
  let s := s.write [.word w]
  if w = spillEnd then s.endSpill nspill (time s.spillcount) else s

theorem write_write (s : SpillWriter) (items items' : List SpillItem) :
    (s.write items).write items' = s.write (items ++ items') := by
  cases s with
  | mk spillcount ofs closed => cases ofs <;> simp [write]

theorem write_nil (s : SpillWriter) : s.write [] = s := by
  cases s with
  | mk spillcount ofs closed => cases ofs <;> simp [write]

theorem foldl_put_of_notMem {ws : List UInt32} (h : spillEnd ∉ ws) (s : SpillWriter) :
    ws.foldl (put nspill time) s = s.write (ws.map .word) := by
  induction ws generalizing s with
  | nil => exact (write_nil s).symm
  | cons w ws ih =>
    rw [List.mem_cons, not_or] at h
    obtain ⟨hw, hws⟩ := h
    have hput : s.put nspill time w = s.write [.word w] := if_neg (Ne.symm hw)
    rw [List.foldl_cons, ih hws, hput, write_write]
    rfl

/-- From an open file on. -/
theorem files_foldl_put (hs : s.ofs = some file) (ws : List UInt32) :
    (ws.foldl (put nspill time) s).files =
      s.closed ++ (spillFiles nspill time s.spillcount ws).modifyHead (file ++ ·) := by
  induction ws generalizing s file with
  | nil => simp [files, hs, spillFiles]
  | cons w ws ih =>
    rw [List.foldl_cons, spillFiles]
    by_cases hw : w = spillEnd
    · rw [if_pos hw]
      -- the spill ends a file, or the file goes on
      by_cases hk : (s.spillcount + 1) % nspill = 0
      · have hput : s.put nspill time w = ⟨s.spillcount + 1, some [],
            s.closed ++ [file ++ [.word w, .stamp (time s.spillcount)]]⟩ := by
          simp [put, hw, endSpill, write, hs, hk, nextFile]
        rw [if_pos hk, hput, ih rfl]
        simp [modifyHead_self]
      · have hput : s.put nspill time w = ⟨s.spillcount + 1,
            some (file ++ [.word w, .stamp (time s.spillcount)]), s.closed⟩ := by
          simp [put, hw, endSpill, write, hs, hk]
        rw [if_neg hk, hput, ih rfl]
        simp [List.modifyHead_modifyHead, Function.comp_def]
    · have hput : s.put nspill time w = ⟨s.spillcount, some (file ++ [.word w]), s.closed⟩ := by
        simp [put, hw, write, hs]
      rw [if_neg hw, hput, ih rfl]
      simp [List.modifyHead_modifyHead, Function.comp_def]

theorem openFile_eq (hs : s.ofs = some file) : s.openFile = s := by
  rw [openFile, hs]

theorem openFile_ofs (s : SpillWriter) : ∃ file, s.openFile.ofs = some file := by
  cases h : s.ofs with
  | none => exact ⟨[], by rw [openFile, h]⟩
  | some file => exact ⟨file, by rw [openFile_eq h, h]⟩

theorem put_ofs (hs : s.ofs = some file) (w : UInt32) :
    ∃ file', (s.put nspill time w).ofs = some file' := by
  by_cases hw : w = spillEnd
  · by_cases hk : (s.spillcount + 1) % nspill = 0
    · exact ⟨[], by simp [put, hw, endSpill, write, hk, nextFile]⟩
    · exact ⟨file ++ [.word w, .stamp (time s.spillcount)],
        by simp [put, hw, endSpill, write, hk, hs]⟩
  · exact ⟨file ++ [.word w], by simp [put, hw, write, hs]⟩

theorem foldl_put_ofs (hs : s.ofs = some file) (ws : List UInt32) :
    ∃ file', (ws.foldl (put nspill time) s).ofs = some file' := by
  induction ws generalizing s file with
  | nil => exact ⟨file, hs⟩
  | cons w ws ih =>
    obtain ⟨file', hput⟩ := @put_ofs nspill time s file hs w
    exact ih hput

end SpillWriter

end LebStudy
