import Mathlib.Data.List.Basic

/-!
# Writing the data of spills

`DTrear::write_data` gets the data stream in chunks of whole words, puts the time
behind every word that ends a spill, and starts a new file after so many spills. Two
loops run over a chunk: the inner one looks for the end of a spill, and moves `data`
and `data_size` behind it while its index goes on; the outer one starts again with
what is left.
-/

namespace LebStudy

/-- What is written to a file: words of the data, and the times behind the spills. -/
inductive SpillItem
  | word (w : UInt32)
  | stamp (now : UInt64)
  deriving DecidableEq, Repr

/-- The word that ends a spill. -/
def spillEnd : UInt32 := 0xffff5555

/-- The static variables of `write_data`: `ofs` is what the open file holds, if one is open,
and `closed` are the files before it. -/
structure SpillWriter where
  spillcount : ℕ
  ofs : Option (List SpillItem)
  closed : List (List SpillItem)

namespace SpillWriter

def start : SpillWriter := ⟨0, none, []⟩

/-- The files in the order of their creation. -/
def files (s : SpillWriter) : List (List SpillItem) := s.closed ++ s.ofs.toList

/-- `if (! ofs.is_open()) ofs.open(wfname)`; `dtfilename` finds a name that no file has. -/
def openFile (s : SpillWriter) : SpillWriter :=
  match s.ofs with
  | none => { s with ofs := some [] }
  | some _ => s

/-- `ofs.write` -/
def write (s : SpillWriter) (items : List SpillItem) : SpillWriter :=
  { s with ofs := s.ofs.map (· ++ items) }

/-- `ofs.close()` and `ofs.open(wfname)` -/
def nextFile (s : SpillWriter) : SpillWriter :=
  { s with ofs := some [], closed := s.closed ++ s.ofs.toList }

/-- What follows the words of a spill: its time, and a new file after every `nspill` spills. -/
def endSpill (nspill : ℕ) (now : UInt64) (s : SpillWriter) : SpillWriter :=
  let s := { s.write [.stamp now] with spillcount := s.spillcount + 1 }
  if s.spillcount % nspill = 0 then s.nextFile else s

end SpillWriter

/-- The variables of the loops. `data` is an index into the chunk, and `dataSize` counts
words. -/
structure Scan where
  data : ℕ
  dataSize : ℕ
  isSpillEnd : Bool
  writer : SpillWriter

namespace DTrear

section

variable (nspill : ℕ) (time : ℕ → UInt64) (cdata : List UInt32)

/-- The words from `data` on, as many as `n`. -/
def words (data n : ℕ) : List SpillItem := ((cdata.drop data).take n).map .word

/-- The body of the inner loop. `time` is asked once for each spill. At the end of a spill,
what is left of the chunk is counted from its end, and written from its start. -/
def scanWord (i : ℕ) (s : Scan) : Scan :=
  if cdata.getD (s.data + i) 0 = spillEnd then
    let writer := s.writer.write (words cdata s.data (i + 1))
    let writer := writer.endSpill nspill (time writer.spillcount)
    let data := s.data + (i + 1)
    let dataSize := s.dataSize - (i + 1)
    -- `ofs.write(cdata, data_size)`, where `data` would be the rest of the chunk
    ⟨data, dataSize, true,
      if 0 < dataSize then writer.write (words cdata 0 dataSize) else writer⟩
  else s

variable {nspill time cdata}

theorem scanWord_dataSize_le (i : ℕ) (s : Scan) :
    (scanWord nspill time cdata i s).dataSize ≤ s.dataSize := by
  rw [scanWord]
  by_cases h : cdata.getD (s.data + i) 0 = spillEnd
  · rw [if_pos h]
    exact Nat.sub_le _ _
  · exact Nat.le_of_eq (congrArg Scan.dataSize (if_neg h))

variable (nspill time cdata)

/-- The inner loop, from the index `i` on. -/
def scan (i : ℕ) (s : Scan) : Scan :=
  if i < s.dataSize then scan (i + 1) (scanWord nspill time cdata i s) else s
termination_by s.dataSize - i
decreasing_by
  have hle := @scanWord_dataSize_le nspill time cdata i s
  omega

variable {nspill time cdata}

theorem scan_dataSize_le (i : ℕ) (s : Scan) :
    (scan nspill time cdata i s).dataSize ≤ s.dataSize := by
  fun_induction scan nspill time cdata i s with
  | case1 i s h ih => exact Nat.le_trans ih (scanWord_dataSize_le i s)
  | case2 i s h => exact Nat.le_refl _

/-- A turn of the outer loop in which a spill ends leaves less of the chunk. -/
theorem scan_dataSize_lt (i : ℕ) (s : Scan) (hs : s.isSpillEnd = false)
    (hend : (scan nspill time cdata i s).isSpillEnd = true) :
    (scan nspill time cdata i s).dataSize < s.dataSize := by
  fun_induction scan nspill time cdata i s with
  | case1 i s h ih =>
    by_cases hword : cdata.getD (s.data + i) 0 = spillEnd
    · have hle := @scan_dataSize_le nspill time cdata (i + 1) (scanWord nspill time cdata i s)
      have hlt : (scanWord nspill time cdata i s).dataSize < s.dataSize := by
        rw [scanWord, if_pos hword]
        exact Nat.sub_lt (by omega) (by omega)
      omega
    · have hsame : scanWord nspill time cdata i s = s := by rw [scanWord, if_neg hword]
      rw [hsame] at ih hend ⊢
      exact ih hs hend
  | case2 i s h =>
    rw [hs] at hend
    cases hend

variable (nspill time cdata)

/-- The outer loop, with the value that `write_data` returns. -/
def loop (data dataSize : ℕ) (writer : SpillWriter) : SpillWriter × ℕ :=
  if 0 < dataSize then
    let s := scan nspill time cdata 0 ⟨data, dataSize, false, writer⟩
    if _h : s.isSpillEnd = true then loop s.data s.dataSize s.writer
    else (s.writer.write (words cdata s.data s.dataSize), s.dataSize)
  else (writer, dataSize)
termination_by dataSize
decreasing_by exact scan_dataSize_lt 0 _ rfl _h

/-- `write_data(cdata, data_size)` with the whole chunk. -/
def writeData (writer : SpillWriter) : SpillWriter × ℕ :=
  loop nspill time cdata 0 cdata.length writer.openFile

end

/-- The files after `write_data` has been called with the chunks. -/
def writeChunks (nspill : ℕ) (time : ℕ → UInt64) (writer : SpillWriter)
    (chunks : List (List UInt32)) : SpillWriter :=
  chunks.foldl (fun writer cdata => (writeData nspill time cdata writer).1) writer

end DTrear

end LebStudy
