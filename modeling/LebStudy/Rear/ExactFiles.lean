import LebStudy.Rear.SpillFiles
import Mathlib.Data.List.GetD
import Mathlib.Data.List.Count

/-!
# Whether the files are exact

A chunk whose only end of a spill is its last word, or that has none, is written as it
should be. Behind an end within a chunk the first words of the chunk are written once
more, and all of the chunk is written besides, so that the files hold more words than
have come in.
-/

namespace LebStudy

namespace DTrear

/-- Whatever the chunks are, the files hold their words and the times, cut as they should be. -/
def Exact (nspill : ℕ) (time : ℕ → UInt64) (chunks : List (List UInt32)) : Prop :=
  chunks ≠ [] →
    (writeChunks nspill time .start chunks).files = spillFiles nspill time 0 chunks.flatten

/-- No word of the chunk follows the end of a spill. -/
def EndsWithSpill (cdata : List UInt32) : Prop := spillEnd ∉ cdata.dropLast

variable {nspill : ℕ} {time : ℕ → UInt64} {cdata : List UInt32} {chunks : List (List UInt32)}

/-! ### Chunks that end with the spill -/

/-- The inner loop passes by words that end no spill. -/
theorem scan_of_forall {i k : ℕ} {s : Scan} (hik : i ≤ k) (hk : k ≤ s.dataSize)
    (h : ∀ j, i ≤ j → j < k → cdata.getD (s.data + j) 0 ≠ spillEnd) :
    scan nspill time cdata i s = scan nspill time cdata k s := by
  obtain ⟨d, rfl⟩ := Nat.exists_eq_add_of_le hik
  induction d generalizing i with
  | zero => rfl
  | succ d ih =>
    have hsame : scanWord nspill time cdata i s = s := by
      rw [scanWord, if_neg (h i (Nat.le_refl _) (by omega))]
    have hnext : i + (d + 1) = i + 1 + d := by omega
    rw [scan, if_pos (by omega), hsame, hnext]
    refine ih (Nat.le_add_right _ _) (by omega) ?_
    intro j hij hj
    exact h j (by omega) (by omega)

theorem scan_of_le {i : ℕ} {s : Scan} (h : s.dataSize ≤ i) : scan nspill time cdata i s = s := by
  rw [scan, if_neg (by omega)]

theorem getD_ne_of_notMem {ws us : List UInt32} (h : spillEnd ∉ ws) {j : ℕ} (hj : j < ws.length) :
    (ws ++ us).getD j 0 ≠ spillEnd := by
  intro heq
  rw [List.getD_append _ _ _ _ hj, List.getD_eq_getElem _ _ hj] at heq
  exact h (heq ▸ List.getElem_mem hj)

/-- A chunk whose first spill ends with `ws`: the inner loop finds its end. -/
theorem scan_append {ws us : List UInt32} (h : spillEnd ∉ ws) (writer : SpillWriter) :
    scan nspill time (ws ++ spillEnd :: us) 0
        ⟨0, (ws ++ spillEnd :: us).length, false, writer⟩ =
      scan nspill time (ws ++ spillEnd :: us) (ws.length + 1)
        (scanWord nspill time (ws ++ spillEnd :: us) ws.length
          ⟨0, (ws ++ spillEnd :: us).length, false, writer⟩) := by
  have hlt : ws.length < (ws ++ spillEnd :: us).length := by
    rw [List.length_append, List.length_cons]
    omega
  have hpass := @scan_of_forall nspill time (ws ++ spillEnd :: us) 0 ws.length
    ⟨0, (ws ++ spillEnd :: us).length, false, writer⟩ (Nat.zero_le _) (Nat.le_of_lt hlt)
    (fun j _ hj => by
      rw [Nat.zero_add]
      exact getD_ne_of_notMem h hj)
  rw [hpass, scan, if_pos hlt]

/-- Without the end of a spill the chunk is written as it is. -/
theorem writeData_of_notMem (h : spillEnd ∉ cdata) (writer : SpillWriter) :
    (writeData nspill time cdata writer).1 = writer.openFile.write (cdata.map .word) := by
  have hscan : scan nspill time cdata 0 ⟨0, cdata.length, false, writer.openFile⟩ =
      ⟨0, cdata.length, false, writer.openFile⟩ := by
    have hpass := @scan_of_forall nspill time cdata 0 cdata.length
      ⟨0, cdata.length, false, writer.openFile⟩ (Nat.zero_le _) (Nat.le_refl _)
      (fun j _ hj => by
        have hne := @getD_ne_of_notMem cdata [] h j hj
        rw [List.append_nil] at hne
        rw [Nat.zero_add]
        exact hne)
    rw [hpass]
    exact scan_of_le (Nat.le_refl _)
  rw [writeData, loop, hscan]
  by_cases hpos : 0 < cdata.length
  · simp [hpos, words]
  · have hnil : cdata = [] := List.length_eq_zero_iff.mp (by omega)
    rw [if_neg hpos, hnil]
    exact (SpillWriter.write_nil _).symm

theorem getD_append_cons (ws us : List UInt32) :
    (ws ++ spillEnd :: us).getD ws.length 0 = spillEnd := by
  rw [List.getD_append_right _ _ _ _ (Nat.le_refl _), Nat.sub_self]
  rfl

/-- The end of a spill at the end of the chunk: the words, the time, and nothing is left. -/
theorem writeData_of_last {ws : List UInt32} (h : spillEnd ∉ ws) (writer : SpillWriter) :
    (writeData nspill time (ws ++ [spillEnd]) writer).1 =
      (writer.openFile.write (ws.map .word)).put nspill time spillEnd := by
  obtain ⟨cdata, hcdata⟩ : ∃ cdata, cdata = ws ++ [spillEnd] := ⟨_, rfl⟩
  have hlen : cdata.length = ws.length + 1 := by rw [hcdata, List.length_append]; rfl
  have hwords : words cdata 0 (ws.length + 1) = ws.map .word ++ [.word spillEnd] := by
    rw [words, List.drop_zero, ← hlen, List.take_length, hcdata, List.map_append]
    rfl
  have hend : cdata.getD (0 + ws.length) 0 = spillEnd := by
    rw [hcdata, Nat.zero_add]
    exact getD_append_cons ws []
  have hword : scanWord nspill time cdata ws.length ⟨0, cdata.length, false, writer.openFile⟩ =
      ⟨ws.length + 1, 0, true,
        (writer.openFile.write (ws.map .word)).put nspill time spillEnd⟩ := by
    rw [scanWord, if_pos hend]
    simp [hwords, hlen, SpillWriter.put, SpillWriter.write_write]
  have hscan := @scan_append nspill time ws [] h writer.openFile
  have hrest := @scan_of_le nspill time cdata (ws.length + 1) ⟨ws.length + 1, 0, true,
    (writer.openFile.write (ws.map .word)).put nspill time spillEnd⟩ (Nat.zero_le _)
  rw [← hcdata, hword, hrest] at hscan
  have hpos : 0 < cdata.length := by omega
  rw [← hcdata, writeData, loop, if_pos hpos, hscan]
  simp [loop]

/-- A chunk that is written as its words one by one. -/
theorem writeData_eq_foldl (h : EndsWithSpill cdata) (writer : SpillWriter) :
    (writeData nspill time cdata writer).1 =
      cdata.foldl (SpillWriter.put nspill time) writer.openFile := by
  by_cases hmem : spillEnd ∈ cdata
  · have hne : cdata ≠ [] := List.ne_nil_of_mem hmem
    have hsplit := List.dropLast_append_getLast hne
    have hlast : cdata.getLast hne = spillEnd := by
      rw [← hsplit, List.mem_append] at hmem
      cases hmem with
      | inl hmem => exact absurd hmem h
      | inr hmem => exact (List.mem_singleton.mp hmem).symm
    rw [hlast] at hsplit
    rw [← hsplit, writeData_of_last h, List.foldl_append, SpillWriter.foldl_put_of_notMem h]
    rfl
  · rw [writeData_of_notMem hmem, SpillWriter.foldl_put_of_notMem hmem]

theorem writeChunks_cons (writer : SpillWriter) (cdata : List UInt32)
    (chunks : List (List UInt32)) :
    writeChunks nspill time writer (cdata :: chunks) =
      writeChunks nspill time (writeData nspill time cdata writer).1 chunks := rfl

theorem writeChunks_eq_foldl (h : ∀ cdata ∈ chunks, EndsWithSpill cdata) {writer : SpillWriter}
    {file : List SpillItem} (hfile : writer.ofs = some file) :
    writeChunks nspill time writer chunks =
      chunks.flatten.foldl (SpillWriter.put nspill time) writer := by
  induction chunks generalizing writer file with
  | nil => rfl
  | cons cdata chunks ih =>
    have hhead := @writeData_eq_foldl nspill time cdata (h cdata List.mem_cons_self) writer
    rw [SpillWriter.openFile_eq hfile] at hhead
    obtain ⟨file', hfile'⟩ := @SpillWriter.foldl_put_ofs nspill time writer file hfile cdata
    rw [List.flatten_cons, List.foldl_append, writeChunks_cons, hhead]
    exact ih (fun c hc => h c (List.mem_cons_of_mem _ hc)) hfile'

/-- The first call opens the first file. -/
theorem writeChunks_openFile (hne : chunks ≠ []) (writer : SpillWriter) :
    writeChunks nspill time writer.openFile chunks = writeChunks nspill time writer chunks := by
  cases chunks with
  | nil => exact absurd rfl hne
  | cons cdata chunks =>
    obtain ⟨file, hfile⟩ := writer.openFile_ofs
    have htwice : writer.openFile.openFile = writer.openFile := SpillWriter.openFile_eq hfile
    rw [writeChunks_cons, writeChunks_cons, writeData, htwice]
    rfl

theorem exact_of_endsWithSpill (h : ∀ cdata ∈ chunks, EndsWithSpill cdata) :
    Exact nspill time chunks := by
  intro hne
  have hopen : SpillWriter.start.openFile.ofs = some [] := rfl
  rw [← writeChunks_openFile hne, writeChunks_eq_foldl h hopen,
    SpillWriter.files_foldl_put hopen]
  exact modifyHead_self _

/-! ### Chunks that go on behind a spill -/

end DTrear

namespace SpillWriter

variable {nspill : ℕ} {s : SpillWriter} {items : List SpillItem}

/-- How many words the files hold. -/
def wordCount (s : SpillWriter) : ℕ := s.files.flatten.countP SpillItem.isWord

theorem wordCount_write (hs : s.ofs ≠ none) :
    (s.write items).wordCount = s.wordCount + items.countP SpillItem.isWord := by
  cases h : s.ofs with
  | none => exact absurd h hs
  | some file => simp [wordCount, files, write, h, Nat.add_assoc]

theorem write_ofs (hs : s.ofs ≠ none) : (s.write items).ofs ≠ none := by
  cases h : s.ofs with
  | none => exact absurd h hs
  | some file => simp [write, h]

/-- The end of a spill adds no word. -/
theorem wordCount_endSpill (hs : s.ofs ≠ none) (now : UInt64) :
    (s.endSpill nspill now).wordCount = s.wordCount ∧ (s.endSpill nspill now).ofs ≠ none := by
  cases h : s.ofs with
  | none => exact absurd h hs
  | some file =>
    by_cases hk : (s.spillcount + 1) % nspill = 0
    · simp [endSpill, write, h, hk, nextFile, wordCount, files, SpillItem.isWord]
    · simp [endSpill, write, h, hk, wordCount, files, SpillItem.isWord]

theorem wordCount_openFile (s : SpillWriter) : s.openFile.wordCount = s.wordCount := by
  cases h : s.ofs with
  | none => simp [openFile, h, wordCount, files]
  | some file => rw [openFile_eq h]

end SpillWriter

namespace DTrear

variable {nspill : ℕ} {time : ℕ → UInt64} {cdata : List UInt32} {chunks : List (List UInt32)}
  {base : ℕ} {s : Scan} {i : ℕ}

theorem countP_words {data n : ℕ} (h : data + n ≤ cdata.length) :
    (words cdata data n).countP SpillItem.isWord = n := by
  rw [words, List.countP_map]
  have hall : (SpillItem.isWord ∘ SpillItem.word) = fun _ => true := by
    funext w
    rfl
  rw [hall, List.countP_true, List.length_take, List.length_drop]
  omega

/-- What the loops keep: the words before `data` have been written, behind `base` others. -/
structure Written (cdata : List UInt32) (base : ℕ) (s : Scan) : Prop where
  opened : s.writer.ofs ≠ none
  total : s.data + s.dataSize = cdata.length
  count : base + s.data ≤ s.writer.wordCount

/-- The end of a spill is found: the words up to it are written, and after them some of the
chunk once more if there are words behind it. -/
theorem scanWord_spillEnd (h : Written cdata base s) (hi : i < s.dataSize)
    (hword : cdata.getD (s.data + i) 0 = spillEnd) :
    Written cdata (base + (s.dataSize - (i + 1))) (scanWord nspill time cdata i s) := by
  obtain ⟨hopened, htotal, hcount⟩ := h
  have hwrite := @SpillWriter.write_ofs s.writer (words cdata s.data (i + 1)) hopened
  obtain ⟨hend, hended⟩ := @SpillWriter.wordCount_endSpill nspill
    (s.writer.write (words cdata s.data (i + 1))) hwrite
    (time (s.writer.write (words cdata s.data (i + 1))).spillcount)
  rw [SpillWriter.wordCount_write hopened, countP_words (by omega)] at hend
  rw [scanWord, if_pos hword]
  -- what is written once more are as many words as are left, from the start of the chunk
  by_cases hrest : 0 < s.dataSize - (i + 1)
  · refine ⟨?_, ?_, ?_⟩
    · simp only [if_pos hrest]
      exact SpillWriter.write_ofs hended
    · simp only
      omega
    · simp only [if_pos hrest]
      rw [SpillWriter.wordCount_write hended, hend, countP_words (by omega)]
      omega
  · refine ⟨?_, ?_, ?_⟩
    · simp only [if_neg hrest]
      exact hended
    · simp only
      omega
    · simp only [if_neg hrest]
      rw [hend]
      omega

theorem Written.mono {base' : ℕ} (h : Written cdata base s) (hle : base' ≤ base) :
    Written cdata base' s :=
  ⟨h.opened, h.total, Nat.le_trans (Nat.add_le_add_right hle _) h.count⟩

theorem scanWord_written (h : Written cdata base s) (hi : i < s.dataSize) :
    Written cdata base (scanWord nspill time cdata i s) := by
  by_cases hword : cdata.getD (s.data + i) 0 = spillEnd
  · exact (scanWord_spillEnd h hi hword).mono (Nat.le_add_right _ _)
  · rw [scanWord, if_neg hword]
    exact h

theorem scan_written (h : Written cdata base s) :
    Written cdata base (scan nspill time cdata i s) := by
  fun_induction scan nspill time cdata i s with
  | case1 i s hi ih => exact ih (scanWord_written h hi)
  | case2 i s hi => exact h

/-- What is left of the chunk is written. -/
theorem written_rest (h : Written cdata base s) :
    base + cdata.length ≤ (s.writer.write (words cdata s.data s.dataSize)).wordCount := by
  obtain ⟨hopened, htotal, hcount⟩ := h
  rw [SpillWriter.wordCount_write hopened, countP_words (by omega)]
  omega

theorem loop_written {data dataSize : ℕ} {writer : SpillWriter}
    (h : Written cdata base ⟨data, dataSize, false, writer⟩) :
    base + cdata.length ≤ (loop nspill time cdata data dataSize writer).1.wordCount ∧
      (loop nspill time cdata data dataSize writer).1.ofs ≠ none := by
  fun_induction loop nspill time cdata data dataSize writer with
  | case1 data dataSize writer hpos s hend ih =>
    obtain ⟨hopened, htotal, hcount⟩ := @scan_written nspill time cdata base _ 0 h
    exact ih ⟨hopened, htotal, hcount⟩
  | case2 data dataSize writer hpos s hend =>
    have hs := @scan_written nspill time cdata base _ 0 h
    exact ⟨written_rest hs, SpillWriter.write_ofs hs.opened⟩
  | case3 data dataSize writer hpos =>
    obtain ⟨hopened, htotal, hcount⟩ := h
    simp only at hopened htotal hcount
    refine ⟨?_, hopened⟩
    show base + cdata.length ≤ writer.wordCount
    omega

/-- The outer loop behind its first turn. -/
theorem loop_of_scan {data dataSize : ℕ} {writer : SpillWriter} (hpos : 0 < dataSize)
    (h : Written cdata base (scan nspill time cdata 0 ⟨data, dataSize, false, writer⟩)) :
    base + cdata.length ≤ (loop nspill time cdata data dataSize writer).1.wordCount := by
  rw [loop, if_pos hpos]
  by_cases hend : (scan nspill time cdata 0 ⟨data, dataSize, false, writer⟩).isSpillEnd = true
  · simp only [dif_pos hend]
    exact (loop_written ⟨h.opened, h.total, h.count⟩).1
  · simp only [dif_neg hend]
    exact written_rest h

theorem written_start (cdata : List UInt32) (writer : SpillWriter) :
    Written cdata writer.wordCount ⟨0, cdata.length, false, writer.openFile⟩ := by
  obtain ⟨file, hfile⟩ := writer.openFile_ofs
  refine ⟨?_, Nat.zero_add _, Nat.le_of_eq writer.wordCount_openFile.symm⟩
  show writer.openFile.ofs ≠ none
  rw [hfile]
  exact Option.some_ne_none file

/-- All the words of a chunk are written at least once. -/
theorem writeData_written (cdata : List UInt32) (writer : SpillWriter) :
    writer.wordCount + cdata.length ≤ (writeData nspill time cdata writer).1.wordCount :=
  (loop_written (written_start cdata writer)).1

/-- With a word behind the end of a spill, more words are written than the chunk has. -/
theorem writeData_written_twice (h : ¬ EndsWithSpill cdata) (writer : SpillWriter) :
    writer.wordCount + cdata.length < (writeData nspill time cdata writer).1.wordCount := by
  obtain ⟨ws, us, hsplit, hws⟩ := List.eq_append_cons_of_mem (Classical.not_not.mp h)
  have hne : cdata ≠ [] := by
    intro hnil
    rw [hnil] at hsplit
    simp at hsplit
  obtain ⟨us', hus, hcdata⟩ : ∃ us', 0 < us'.length ∧ cdata = ws ++ spillEnd :: us' := by
    refine ⟨us ++ [cdata.getLast hne], by simp, ?_⟩
    rw [← List.cons_append, ← List.append_assoc, ← hsplit, List.dropLast_append_getLast]
  have hlen : cdata.length = ws.length + (us'.length + 1) := by
    rw [hcdata, List.length_append, List.length_cons]
  have hend : cdata.getD (0 + ws.length) 0 = spillEnd := by
    rw [hcdata, Nat.zero_add]
    exact getD_append_cons ws us'
  have hlt : ws.length < cdata.length := by omega
  -- at the first end of a spill the count gets ahead, and the loops keep it there
  have htwice := @scanWord_spillEnd nspill time cdata writer.wordCount
    ⟨0, cdata.length, false, writer.openFile⟩ ws.length (written_start cdata writer) hlt hend
  have hmore : writer.wordCount + 1 ≤
      writer.wordCount + (cdata.length - (ws.length + 1)) := by omega
  have hscan := @scan_written nspill time cdata (writer.wordCount + 1) _ (ws.length + 1)
    (htwice.mono hmore)
  have hfirst := @scan_append nspill time ws us' hws writer.openFile
  rw [← hcdata] at hfirst
  rw [← hfirst] at hscan
  have hpos : 0 < cdata.length := by omega
  have hloop := loop_of_scan hpos hscan
  rw [writeData]
  omega

theorem writeChunks_written (chunks : List (List UInt32)) (writer : SpillWriter) :
    writer.wordCount + chunks.flatten.length ≤
      (writeChunks nspill time writer chunks).wordCount := by
  induction chunks generalizing writer with
  | nil => exact Nat.le_refl _
  | cons cdata chunks ih =>
    have hhead := @writeData_written nspill time cdata writer
    have htail := ih (writeData nspill time cdata writer).1
    rw [List.flatten_cons, List.length_append, writeChunks_cons]
    omega

theorem writeChunks_written_twice (h : ∃ cdata ∈ chunks, ¬ EndsWithSpill cdata)
    (writer : SpillWriter) :
    writer.wordCount + chunks.flatten.length <
      (writeChunks nspill time writer chunks).wordCount := by
  induction chunks generalizing writer with
  | nil =>
    obtain ⟨cdata, hmem, -⟩ := h
    cases hmem
  | cons cdata chunks ih =>
    rw [List.flatten_cons, List.length_append, writeChunks_cons]
    by_cases hend : EndsWithSpill cdata
    · obtain ⟨cdata', hmem, hbad⟩ := h
      have hmem' : cdata' ∈ chunks := by
        cases hmem with
        | head => exact absurd hend hbad
        | tail _ hmem => exact hmem
      have hhead := @writeData_written nspill time cdata writer
      have htail := ih ⟨cdata', hmem', hbad⟩ (writeData nspill time cdata writer).1
      omega
    · have hhead := @writeData_written_twice nspill time cdata hend writer
      have htail := @writeChunks_written nspill time chunks (writeData nspill time cdata writer).1
      omega

theorem Exact.endsWithSpill (h : Exact nspill time chunks) :
    ∀ cdata ∈ chunks, EndsWithSpill cdata := by
  by_contra hbad
  push Not at hbad
  have hne : chunks ≠ [] := by
    rintro rfl
    obtain ⟨cdata, hmem, -⟩ := hbad
    cases hmem
  -- exact files hold as many words as have come in
  have hmore := @writeChunks_written_twice nspill time chunks hbad .start
  have hstart : SpillWriter.start.wordCount = 0 := rfl
  have hfiles : (writeChunks nspill time .start chunks).wordCount = chunks.flatten.length := by
    rw [SpillWriter.wordCount, h hne, flatten_spillFiles, countP_stamped]
  omega

/-- For every number of spills to a file, every stream and every way to cut it into chunks: the
files are exact exactly if in no chunk a word follows the end of a spill. -/
theorem exact_iff (nspill : ℕ) (time : ℕ → UInt64) (chunks : List (List UInt32)) :
    Exact nspill time chunks ↔ ∀ cdata ∈ chunks, EndsWithSpill cdata :=
  ⟨Exact.endsWithSpill, exact_of_endsWithSpill⟩

/-- The end of a spill, and one word behind it. -/
theorem spill_end_written_twice :
    ¬ ∀ (nspill : ℕ) (time : ℕ → UInt64) (chunks : List (List UInt32)), 1 ≤ nspill →
      Exact nspill time chunks := by
  intro h
  exact (h 1 (fun _ => 0) [[spillEnd, 7]] (Nat.le_refl 1)).endsWithSpill [spillEnd, 7]
    List.mem_cons_self List.mem_cons_self

end DTrear

end LebStudy
