import Mathlib.Data.List.Basic

/-!
# Reading from an input stream

The state of a `std::istream` as far as `read`, `gcount`, `eof` and the test of
the stream go. A `read` that finds too few bytes takes them all and sets `eofbit`
and `failbit`; a stream that ends exactly behind the bytes asked for sets neither.
-/

namespace LebStudy

/-- The bytes not read yet, `eofbit`, `failbit`, and `gcount()` of the last `read`. -/
structure IStream where
  rest : List UInt8
  eof : Bool
  fail : Bool
  gcount : ℕ
  deriving DecidableEq, Repr

namespace IStream

/-- A stream as it is opened. -/
def ofBytes (content : List UInt8) : IStream := ⟨content, false, false, 0⟩

/-- `read(p, n)`: the bytes that go to `p`, and the stream after it. -/
def read (s : IStream) (n : ℕ) : List UInt8 × IStream :=
  if s.eof || s.fail then ([], { s with fail := true, gcount := 0 })
  else if n ≤ s.rest.length then
    (s.rest.take n, { s with rest := s.rest.drop n, gcount := n })
  else (s.rest, ⟨[], true, true, s.rest.length⟩)

/-- A stream that has not come to its end, with these bytes to come. -/
def Good (s : IStream) (content : List UInt8) : Prop :=
  s.eof = false ∧ s.fail = false ∧ s.rest = content

theorem good_ofBytes (content : List UInt8) : (ofBytes content).Good content := ⟨rfl, rfl, rfl⟩

/-- The bytes asked for are there. -/
theorem read_of_good {s : IStream} {bs content : List UInt8} (h : s.Good (bs ++ content)) :
    (s.read bs.length).1 = bs ∧ (s.read bs.length).2.Good content ∧
      (s.read bs.length).2.gcount = bs.length := by
  obtain ⟨heof, hfail, hrest⟩ := h
  have hlen : bs.length ≤ s.rest.length := by
    rw [hrest, List.length_append]
    omega
  rw [read, heof, hfail, if_neg (by decide), if_pos hlen, hrest]
  exact ⟨List.take_left, ⟨rfl, rfl, List.drop_left⟩, rfl⟩

/-- There are fewer bytes than asked for. -/
theorem read_of_short {s : IStream} {content : List UInt8} {n : ℕ} (h : s.Good content)
    (hlen : content.length < n) :
    s.read n = (content, ⟨[], true, true, content.length⟩) := by
  obtain ⟨heof, hfail, hrest⟩ := h
  rw [read, heof, hfail, if_neg (by decide), hrest, if_neg (by omega)]

/-- A stream at its end gives nothing more. -/
theorem read_of_eof {s : IStream} (h : s.eof = true) (n : ℕ) :
    s.read n = ([], { s with fail := true, gcount := 0 }) := by
  rw [read, h, Bool.true_or, if_pos rfl]

end IStream

end LebStudy
