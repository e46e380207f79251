import LebStudy.Lib.Numerals
import Mathlib.Data.Finset.Card
import Mathlib.Data.Finset.Image
import Mathlib.Data.Nat.Find

/-!
# Names of data files

`dtfilename` puts the local time behind a prefix and takes the first of `base.dat`,
`base_1.dat`, `base_2.dat`, .. that no file has which can be read. The names are
pairwise different, so among one more of them than there are files one is free; the
number in them is an `int`.
-/

namespace LebStudy

open Numerals

/-- The characters of a `const char *`. -/
structure CString where
  chars : List Char
  no_nul : '\x00' ∉ chars

/-- The fields of `struct tm` that are read. -/
structure Tm where
  sec : ℕ
  min : ℕ
  hour : ℕ
  mday : ℕ
  mon : ℕ
  year : ℤ
  deriving DecidableEq, Repr

namespace DataFile

/-- `std::setfill('0') << std::setw(2) << n` -/
def putTwo (n : ℕ) : List Char := (putInt n).leftpad 2 '0'

/-- `ossdaytime.str()` -/
def ossdaytime (lt : Tm) : List Char :=
  putTwo (lt.mon + 1) ++ putTwo lt.mday ++ putTwo lt.hour ++ putTwo lt.min ++ putTwo lt.sec

/-- `oss.str()` -/
def oss (name : CString) (lt : Tm) : List Char :=
  name.chars ++ ['_'] ++ putInt (lt.year + 1900) ++ ossdaytime lt

/-- `".dat"` -/
def dat : List Char := ['.', 'd', 'a', 't']

/-- `while (true) { .. }` with the files that can be read: the name it is left with, if it is left
after at most so many turns. -/
def searchLoop (files : Finset (List Char)) (oss : List Char) : ℕ → ℤ → List Char →
    Option (List Char)
  | 0, _, _ => none
  | turns + 1, fileno, fnamestr =>
    if fnamestr ++ dat ∈ files then
      searchLoop files oss turns (wrapInt (fileno + 1))
        (oss ++ ['_'] ++ putInt (wrapInt (fileno + 1)))
    else some (fnamestr ++ dat)

/-- `strncpy(fname, s, n)` for an array of `n` characters. -/
def strncpy (n : ℕ) (s : List Char) : List Char := s.take n ++ List.replicate (n - s.length) '\x00'

/-- The string in an array, if it ends there. -/
def terminated (fname : List Char) : Option (List Char) :=
  if '\x00' ∈ fname then some (fname.takeWhile (· ≠ '\x00')) else none

/-- `dtfilename`, if its loop is left after at most so many turns and the name ends within
`fname`. -/
def dtfilename (turns : ℕ) (files : Finset (List Char)) (lt : Tm) (name : CString) :
    Option (List Char) :=
  (searchLoop files (oss name lt) turns 0 (oss name lt)).bind fun s => terminated (strncpy 128 s)

/-! ### The names -/

/-- `base`, `base_1`, `base_2`, .. -/
def stem (base : List Char) : ℕ → List Char
  | 0 => base
  | n + 1 => base ++ ['_'] ++ putInt (n + 1 : ℕ)

/-- `base.dat`, `base_1.dat`, `base_2.dat`, .. -/
def dataName (base : List Char) (n : ℕ) : List Char := stem base n ++ dat

/-- The first of the names that no file has. -/
def FirstFree (files : Finset (List Char)) (base : List Char) (n : ℕ) : Prop :=
  dataName base n ∉ files ∧ ∀ k < n, dataName base k ∈ files

variable {files : Finset (List Char)} {base : List Char}

theorem dataName_injective (base : List Char) : Function.Injective (dataName base) := by
  intro m n h
  have hstem := List.append_cancel_right h
  cases m with
  | zero =>
    cases n with
    | zero => rfl
    | succ n =>
      rw [stem, stem, List.append_assoc, List.self_eq_append_right] at hstem
      cases hstem
  | succ m =>
    cases n with
    | zero =>
      rw [stem, stem, List.append_assoc, List.append_right_eq_self] at hstem
      cases hstem
    | succ n => exact toDigits_injective (List.append_cancel_left hstem)

/-- Among one more name than there are files one is free. -/
theorem exists_firstFree (files : Finset (List Char)) (base : List Char) :
    ∃ n ≤ files.card, FirstFree files base n := by
  have hcard : files.card < ((Finset.range (files.card + 1)).image (dataName base)).card := by
    rw [Finset.card_image_of_injective _ (dataName_injective base), Finset.card_range]
    exact Nat.lt_succ_self _
  obtain ⟨s, hs, hfree⟩ := Finset.exists_mem_notMem_of_card_lt_card hcard
  obtain ⟨m, hm, rfl⟩ := Finset.mem_image.mp hs
  have hex : ∃ n, dataName base n ∉ files := ⟨m, hfree⟩
  refine ⟨Nat.find hex, ?_, Nat.find_spec hex, fun k hk => not_not.mp (Nat.find_min hex hk)⟩
  exact (Nat.find_min' hex hfree).trans (Nat.le_of_lt_succ (Finset.mem_range.mp hm))

theorem firstFree_unique {m n : ℕ} (hm : FirstFree files base m) (hn : FirstFree files base n) :
    m = n := by
  rcases Nat.lt_trichotomy m n with hlt | heq | hgt
  · exact absurd (hn.2 m hlt) hm.1
  · exact heq
  · exact absurd (hm.2 n hgt) hn.1

theorem nul_notMem_putInt (i : ℤ) : '\x00' ∉ putInt i := by
  intro h
  rcases isDigit_or_minus h with hdigit | hminus
  · exact absurd hdigit (by decide)
  · exact absurd hminus (by decide)

theorem nul_notMem_putTwo (n : ℕ) : '\x00' ∉ putTwo n := by
  intro h
  rw [putTwo, List.leftpad, List.mem_append, List.mem_replicate] at h
  rcases h with ⟨-, hzero⟩ | h
  · exact absurd hzero (by decide)
  · exact nul_notMem_putInt n h

theorem nul_notMem_oss (name : CString) (lt : Tm) : '\x00' ∉ oss name lt := by
  simp [oss, ossdaytime, name.no_nul, nul_notMem_putInt, nul_notMem_putTwo]

theorem nul_notMem_numbered {name : CString} {lt : Tm} (i : ℤ) :
    '\x00' ∉ oss name lt ++ ['_'] ++ putInt i ++ dat := by
  simp [nul_notMem_oss, nul_notMem_putInt, dat]

theorem nul_notMem_dataName (name : CString) (lt : Tm) (n : ℕ) :
    '\x00' ∉ dataName (oss name lt) n := by
  cases n with
  | zero => simp [dataName, stem, nul_notMem_oss, dat]
  | succ n => exact nul_notMem_numbered _

/-- A name of less than 128 bytes is returned as it is. -/
theorem terminated_strncpy {n : ℕ} {s : List Char} (hnul : '\x00' ∉ s) (hlen : s.length < n) :
    terminated (strncpy n s) = some s := by
  obtain ⟨k, hk⟩ : ∃ k, n - s.length = k + 1 := ⟨n - s.length - 1, by omega⟩
  rw [strncpy, List.take_of_length_le hlen.le, hk, List.replicate_succ, terminated,
    if_pos (List.mem_append_right _ List.mem_cons_self), List.takeWhile_append_of_pos]
  · simp
  · intro c hc
    simp only [ne_eq, decide_not, Bool.not_eq_eq_eq_not, Bool.not_true, decide_eq_false_iff_not]
    exact fun heq => hnul (heq ▸ hc)

/-! ### The loop -/

/-- Names that are taken are passed over, as far as the number is an `int`. -/
theorem searchLoop_skip {n : ℕ} (htaken : ∀ k < n, dataName base k ∈ files) (hn : n < 2 ^ 31)
    (turns : ℕ) :
    searchLoop files base (turns + n) 0 base = searchLoop files base turns n (stem base n) := by
  induction n generalizing turns with
  | zero => rfl
  | succ n ih =>
    have hwrap : wrapInt ((n : ℤ) + 1) = (n + 1 : ℕ) := wrapInt_of_fits ⟨by omega, by omega⟩
    have hskip := ih (fun k hk => htaken k (Nat.lt_succ_of_lt hk)) (by omega) (turns + 1)
    have hmem : stem base n ++ dat ∈ files := htaken n (Nat.lt_succ_self n)
    rw [← Nat.add_assoc, Nat.add_right_comm, hskip, searchLoop, if_pos hmem, hwrap, stem]

/-- The first free name ends the loop. -/
theorem searchLoop_of_firstFree {n turns : ℕ} (hfree : FirstFree files base n) (hn : n < 2 ^ 31)
    (hturns : n < turns) : searchLoop files base turns 0 base = some (dataName base n) := by
  obtain ⟨rest, rfl⟩ : ∃ rest, turns = rest + 1 + n := ⟨turns - n - 1, by omega⟩
  rw [searchLoop_skip hfree.2 hn, searchLoop]
  exact if_neg hfree.1

/-- Where an `int` has no number left, the name searched next has a negative one. -/
theorem searchLoop_overflow (htaken : ∀ k < 2 ^ 31, dataName base k ∈ files)
    (hneg : base ++ ['_'] ++ putInt (-2 ^ 31) ++ dat ∉ files) {turns : ℕ} {s : List Char}
    (hs : searchLoop files base turns 0 base = some s) :
    s = base ++ ['_'] ++ putInt (-2 ^ 31) ++ dat := by
  have hskip {n : ℕ} (hn : n < 2 ^ 31) (rest : ℕ) :=
    searchLoop_skip (fun k hk => htaken k (hk.trans hn)) hn rest
  by_cases hturns : turns < 2 ^ 31
  · have hnone := hskip hturns 0
    rw [Nat.zero_add, hs] at hnone
    cases hnone
  · obtain ⟨rest, rfl⟩ : ∃ rest, turns = rest + 1 + (2 ^ 31 - 1) := ⟨turns - 2 ^ 31, by omega⟩
    have hwrap : wrapInt (((2 ^ 31 - 1 : ℕ) : ℤ) + 1) = -2 ^ 31 := by decide
    have hmem : stem base (2 ^ 31 - 1) ++ dat ∈ files := htaken _ (by omega)
    rw [hskip (by omega), searchLoop, if_pos hmem, hwrap] at hs
    cases rest with
    | zero => cases hs
    | succ rest =>
      rw [searchLoop, if_neg hneg] at hs
      exact (Option.some.inj hs).symm

/-- For every set of files one of the first names, as many as the files and one more, is free; if
the number of the first free name is below 2 ^ 31 and the names searched have less than 128 bytes,
`dtfilename` returns that name. -/
theorem dtfilename_firstFree (files : Finset (List Char)) (lt : Tm) (name : CString) :
    ∃ n ≤ files.card, FirstFree files (oss name lt) n ∧
      (n < 2 ^ 31 → (∀ k ≤ n, (dataName (oss name lt) k).length < 128) →
        ∀ turns > n, dtfilename turns files lt name = some (dataName (oss name lt) n)) := by
  obtain ⟨n, hcard, hfree⟩ := exists_firstFree files (oss name lt)
  refine ⟨n, hcard, hfree, fun hn hlen turns hturns => ?_⟩
  rw [dtfilename, searchLoop_of_firstFree hfree hn hturns]
  exact terminated_strncpy (nul_notMem_dataName name lt n) (hlen n (Nat.le_refl n))

/-- The second file of a second, `run_20250101000000_1.dat`. -/
theorem dtfilename_second_file :
    let name : CString := ⟨['r', 'u', 'n'], by decide⟩
    let lt : Tm := ⟨0, 0, 0, 1, 0, 125⟩
    FirstFree {dataName (oss name lt) 0} (oss name lt) 1 ∧
      dtfilename 2 {dataName (oss name lt) 0} lt name = some (dataName (oss name lt) 1) := by
  intro name lt
  have hfirst : FirstFree {dataName (oss name lt) 0} (oss name lt) 1 := by
    refine ⟨by decide, fun k hk => ?_⟩
    obtain rfl := Nat.lt_one_iff.mp hk
    exact Finset.mem_singleton_self _
  obtain ⟨n, -, hfree, hreturn⟩ := dtfilename_firstFree {dataName (oss name lt) 0} lt name
  obtain rfl := firstFree_unique hfree hfirst
  have hlen : ∀ k ≤ 1, (dataName (oss name lt) k).length < 128 := by decide
  exact ⟨hfirst, hreturn (by decide) hlen 2 (by decide)⟩

/-! ### The last number -/

/-- The first 2 ^ 31 names. -/
def allNumbers (base : List Char) : Finset (List Char) :=
  (Finset.range (2 ^ 31)).image (dataName base)

theorem allNumbers_firstFree (base : List Char) : FirstFree (allNumbers base) base (2 ^ 31) := by
  constructor
  · intro h
    obtain ⟨k, hk, heq⟩ := Finset.mem_image.mp h
    have hlt := Finset.mem_range.mp hk
    rw [dataName_injective base heq] at hlt
    exact absurd hlt (Nat.lt_irrefl _)
  · intro k hk
    exact Finset.mem_image_of_mem _ (Finset.mem_range.mpr hk)

/-- No name of the list has a negative number. -/
theorem negative_ne_dataName (base : List Char) (n : ℕ) :
    base ++ ['_'] ++ putInt (-2 ^ 31) ++ dat ≠ dataName base n := by
  intro h
  have hstem := List.append_cancel_right h
  cases n with
  | zero =>
    rw [stem, List.append_assoc, List.append_right_eq_self] at hstem
    cases hstem
  | succ n =>
    have hdigits : putInt (-2 ^ 31) = Nat.toDigits 10 (n + 1) := List.append_cancel_left hstem
    have hminus : '-' ∈ Nat.toDigits 10 (n + 1) := hdigits ▸ List.mem_cons_self
    exact absurd (Nat.isDigit_of_mem_toDigits (by decide) (Nat.le_refl _) hminus) (by decide)

theorem length_dataName_le (base : List Char) {n : ℕ} (hn : n ≤ 2 ^ 31) :
    (dataName base n).length ≤ base.length + 15 := by
  cases n with
  | zero => simp [dataName, stem, dat]
  | succ n =>
    have hdigits : (Nat.toDigits 10 (n + 1)).length ≤ 10 :=
      (Nat.length_toDigits_le_iff (by decide) (by decide)).mpr (by omega)
    simp only [dataName, stem, dat, putInt_natCast, List.length_append, List.length_cons,
      List.length_nil]
    omega

/-- With the first 2 ^ 31 names taken the number overflows, and the name that is returned is none
of the list. -/
theorem dtfilename_number_overflows :
    ¬ ∀ (files : Finset (List Char)) (lt : Tm) (name : CString),
      (∀ n, FirstFree files (oss name lt) n →
        ∀ k ≤ n, (dataName (oss name lt) k).length < 128) →
      ∃ n turns, FirstFree files (oss name lt) n ∧
        dtfilename turns files lt name = some (dataName (oss name lt) n) := by
  intro h
  let name : CString := ⟨['r', 'u', 'n'], by decide⟩
  let lt : Tm := ⟨0, 0, 0, 1, 0, 125⟩
  have hfirst := allNumbers_firstFree (oss name lt)
  have hbase : (oss name lt).length = 18 := by decide
  have hlen : ∀ n, FirstFree (allNumbers (oss name lt)) (oss name lt) n →
      ∀ k ≤ n, (dataName (oss name lt) k).length < 128 := by
    intro n hn k hk
    rw [firstFree_unique hn hfirst] at hk
    have hle := length_dataName_le (oss name lt) hk
    omega
  obtain ⟨n, turns, -, hreturn⟩ := h _ lt name hlen
  rw [dtfilename] at hreturn
  obtain ⟨s, hs, hterminated⟩ := Option.bind_eq_some_iff.mp hreturn
  have hneg : oss name lt ++ ['_'] ++ putInt (-2 ^ 31) ++ dat ∉ allNumbers (oss name lt) := by
    intro hmem
    obtain ⟨k, -, heq⟩ := Finset.mem_image.mp hmem
    exact negative_ne_dataName _ k heq.symm
  obtain rfl := searchLoop_overflow hfirst.2 hneg hs
  rw [terminated_strncpy (nul_notMem_numbered _) (by decide)] at hterminated
  exact negative_ne_dataName _ n (Option.some.inj hterminated)

end DataFile

end LebStudy
