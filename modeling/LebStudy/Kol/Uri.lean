import LebStudy.Lib.Numerals

/-!
# `kol::URI`

The constructor cuts a string into the components of a URI, each function taking its component off
the front of what the one before it has left. A component without characters is a null pointer. The
string is what stands before its terminating zero, and the characters are those of the C locale.
-/

namespace LebStudy

open Numerals

/-- `class URI`. `m_uri` is always a null pointer. -/
structure URI where
  mScheme : Option (List Char)
  mUser : Option (List Char)
  mPassword : Option (List Char)
  mHostport : Option (List Char)
  mHost : Option (List Char)
  mPort : ℤ
  mPath : Option (List Char)
  mQuery : Option (List Char)
  mFragment : Option (List Char)
  deriving DecidableEq, Repr

/-- The indices that the loop of `set_authority` counts. -/
structure AuthorityScan where
  n : ℕ
  ncol1 : ℕ
  ncol2 : ℕ
  nat : ℕ
  deriving DecidableEq, Repr

namespace URI

/-- A character that ends the authority. -/
def endsAuthority (c : Char) : Bool := c = '/' || c = '?' || c = '#'

/-- `ALPHA / DIGIT / "+" / "-" / "."` -/
def isSchemeChar (c : Char) : Bool := c.isAlphanum || c = '+' || c = '-' || c = '.'

/-- The `ns` characters from `start` on, in a new array if there are any. -/
def copy (s : List Char) (start ns : ℕ) : Option (List Char) :=
  if 0 < ns then some ((s.drop start).take ns) else none

def setScheme (u : URI) (s : List Char) : URI × List Char :=
  match s with
  | [] => (u, s)
  | c :: _ =>
    -- 1st character must be ALPHA
    if c.isAlpha then
      let n := (s.takeWhile isSchemeChar).length
      if s[n]? = some ':' then ({ u with mScheme := some (s.take n) }, s.drop (n + 1)) else (u, s)
    else (u, s)

/-- The loop of `set_authority`. -/
def scanAuthority (s : List Char) (st : AuthorityScan) : AuthorityScan :=
  match s with
  | [] => st
  | c :: s =>
    if endsAuthority c then st
    else
      let st := if c = ':' then
          if st.nat = 0 then { st with ncol1 := st.n } else { st with ncol2 := st.n }
        else st
      let st := if c = '@' then { st with nat := st.n } else st
      scanAuthority s { st with n := st.n + 1 }

/-- The loop over the digits of the port. -/
def portLoop (mPort port : ℤ) (s : List Char) : ℤ :=
  match s with
  | [] => mPort
  | c :: s =>
    if c.isDigit then
      let port := wrapInt (port * 10 + c.toNat - '0'.toNat)
      portLoop port port s
    else mPort

def setAuthority (u : URI) (s : List Char) : URI × List Char :=
  if s[0]? ≠ some '/' ∨ s[1]? ≠ some '/' then (u, s)
  else
    let ⟨n, ncol1, ncol2, nat⟩ := scanAuthority (s.drop 2) ⟨2, 0, 0, 0⟩
    let (ncol1, ncol2) :=
      if nat = 0 then (0, if 2 ≤ ncol1 then ncol1 else ncol2)
      else (if ncol1 = 0 ∨ nat < ncol1 then nat else ncol1, ncol2)
    let nat := if nat = 0 then 1 else nat
    let ncol2 := if ncol2 = 0 then n else ncol2
    -- none where the count is negative
    ({ u with
        mUser := copy s 2 (ncol1 - 1 - 1)
        mPassword := copy s (ncol1 + 1) (nat - 1 - ncol1)
        mHostport := copy s (nat + 1) (n - 1 - nat)
        mHost := copy s (nat + 1) (ncol2 - 1 - nat)
        mPort := portLoop u.mPort 0 ((s.drop (ncol2 + 1)).take (n - 1 - ncol2)) },
      s.drop n)

def setPath (u : URI) (s : List Char) : URI × List Char :=
  let n := (s.takeWhile fun c => c ≠ '?' && c ≠ '#').length
  (if 0 < n then { u with mPath := some (s.take n) } else u, s.drop n)

def setQuery (u : URI) (s : List Char) : URI × List Char :=
  match s with
  | '?' :: t =>
    let n := (t.takeWhile (· ≠ '#')).length
    (if 0 < n then { u with mQuery := some (t.take n) } else u, t.drop n)
  | _ => (u, s)

def setFragment (u : URI) (s : List Char) : URI × List Char :=
  match s with
  | '#' :: t => (if 0 < t.length then { u with mFragment := some t } else u, [])
  | _ => (u, s)

/-- `URI::URI(const char*)` -/
def parse (struri : List Char) : URI :=
  let u : URI := ⟨none, none, none, none, none, -1, none, none, none⟩
  let (u, s) := u.setScheme struri
  let (u, s) := u.setAuthority s
  let (u, s) := u.setPath s
  let (u, s) := u.setQuery s
  (u.setFragment s).1

example : parse "http://me:pw@host:80/a/b?q#f".toList =
    ⟨some "http".toList, some "me".toList, some "pw".toList, some "host:80".toList,
      some "host".toList, 80, some "/a/b".toList, some "q".toList, some "f".toList⟩ := by decide

/-- A scheme as `set_scheme` takes it. -/
def IsScheme (s : List Char) : Prop :=
  ∃ c s', s = c :: s' ∧ c.isAlpha = true ∧ ∀ d ∈ s', isSchemeChar d = true

/-- A null pointer for what is empty. -/
def pointer (s : List Char) : Option (List Char) := if s = [] then none else some s

variable {u : URI} {s t : List Char}

/-! ### The scheme -/

theorem takeWhile_append_stop {p : Char → Bool} (hs : ∀ c ∈ s, p c = true)
    (ht : ∀ c, t[0]? = some c → p c = false) : (s ++ t).takeWhile p = s := by
  rw [List.takeWhile_append_of_pos hs]
  match t with
  | [] => simp
  | c :: t => rw [List.takeWhile_cons_of_neg (by simp [ht c rfl]), List.append_nil]

theorem IsScheme.isSchemeChar (hs : IsScheme s) : ∀ c ∈ s, isSchemeChar c = true := by
  obtain ⟨c, s', rfl, hc, hs'⟩ := hs
  intro d hd
  obtain rfl | hd := List.mem_cons.mp hd
  · simp [URI.isSchemeChar, Char.isAlphanum, hc]
  · exact hs' d hd

theorem setScheme_of_isScheme (hs : IsScheme s) :
    u.setScheme (s ++ ':' :: t) = ({ u with mScheme := some s }, t) := by
  have hall := hs.isSchemeChar
  obtain ⟨c, s', rfl, hc, -⟩ := hs
  have htake : (c :: (s' ++ ':' :: t)).takeWhile isSchemeChar = c :: s' := by
    apply takeWhile_append_stop (s := c :: s') hall
    rintro d ⟨⟩
    decide
  rw [List.cons_append, setScheme]
  simp [hc, htake]

/-- What does not start with a scheme and a colon is left as it is. -/
theorem setScheme_of_not (hs : ∀ s' t, s = s' ++ ':' :: t → ¬ IsScheme s') :
    u.setScheme s = (u, s) := by
  match s with
  | [] => rfl
  | c :: s =>
    rw [setScheme]
    by_cases hc : c.isAlpha = true
    · have hsplit : (c :: s).takeWhile isSchemeChar ++ (c :: s).dropWhile isSchemeChar = c :: s :=
        List.takeWhile_append_dropWhile
      have hfront : (c :: s).takeWhile isSchemeChar = c :: s.takeWhile isSchemeChar :=
        List.takeWhile_cons_of_pos (by simp [isSchemeChar, Char.isAlphanum, hc])
      have hnot : (c :: s)[((c :: s).takeWhile isSchemeChar).length]? ≠ some ':' := by
        intro hcolon
        nth_rewrite 1 [← hsplit] at hcolon
        rw [List.getElem?_append_right (Nat.le_refl _), Nat.sub_self] at hcolon
        obtain ⟨t, ht⟩ : ∃ t, (c :: s).dropWhile isSchemeChar = ':' :: t := by
          cases hrest : (c :: s).dropWhile isSchemeChar with
          | nil => simp [hrest] at hcolon
          | cons d t =>
            rw [hrest] at hcolon
            exact ⟨t, by rw [← Option.some.inj hcolon]⟩
        rw [ht] at hsplit
        refine hs _ t hsplit.symm ⟨c, s.takeWhile isSchemeChar, hfront, hc, fun d hd => ?_⟩
        exact List.mem_takeWhile_imp hd
      rw [if_pos hc]
      exact if_neg hnot
    · rw [if_neg hc]

/-! ### The authority -/

/-- The loop goes on behind a part in which the authority does not end. -/
theorem scanAuthority_append (hs : ∀ c ∈ s, endsAuthority c = false) (st : AuthorityScan) :
    scanAuthority (s ++ t) st = scanAuthority t (scanAuthority s st) := by
  induction s generalizing st with
  | nil => rfl
  | cons c s ih =>
    have hc := hs c List.mem_cons_self
    rw [List.cons_append, scanAuthority, scanAuthority]
    simp only [hc, Bool.false_eq_true, if_false]
    exact ih (fun d hd => hs d (List.mem_cons_of_mem _ hd)) _

/-- It ends with the authority. -/
theorem scanAuthority_end (ht : ∀ c, t[0]? = some c → endsAuthority c = true)
    (st : AuthorityScan) : scanAuthority t st = st := by
  match t with
  | [] => rfl
  | c :: t =>
    rw [scanAuthority, if_pos (ht c rfl)]

/-- Characters that separate nothing are only counted. -/
theorem scanAuthority_plain (hs : ∀ c ∈ s, c ≠ '@' ∧ endsAuthority c = false ∧ c ≠ ':')
    (st : AuthorityScan) : scanAuthority s st = { st with n := st.n + s.length } := by
  induction s generalizing st with
  | nil => rfl
  | cons c s ih =>
    obtain ⟨hat, hends, hcolon⟩ := hs c List.mem_cons_self
    rw [scanAuthority]
    simp only [hends, Bool.false_eq_true, if_false, hcolon, hat]
    rw [ih fun d hd => hs d (List.mem_cons_of_mem _ hd)]
    simp only [List.length_cons, AuthorityScan.mk.injEq, and_true]
    omega

/-- In front of an `@` colons are noted in `ncol1`, behind one in `ncol2`. -/
theorem scanAuthority_colons (hs : ∀ c ∈ s, c ≠ '@' ∧ endsAuthority c = false)
    (st : AuthorityScan) :
    ∃ ncol1 ncol2, scanAuthority s st = ⟨st.n + s.length, ncol1, ncol2, st.nat⟩ ∧
      (st.nat = 0 → ncol2 = st.ncol2) ∧ (st.nat ≠ 0 → ncol1 = st.ncol1) := by
  induction s generalizing st with
  | nil => exact ⟨st.ncol1, st.ncol2, rfl, fun _ => rfl, fun _ => rfl⟩
  | cons c s ih =>
    obtain ⟨hat, hends⟩ := hs c List.mem_cons_self
    have hrest := ih fun d hd => hs d (List.mem_cons_of_mem _ hd)
    have hlen : st.n + 1 + s.length = st.n + (c :: s).length := by
      rw [List.length_cons]
      omega
    rw [scanAuthority]
    simp only [hends, Bool.false_eq_true, if_false, hat]
    by_cases hcolon : c = ':'
    · by_cases hnat : st.nat = 0
      · obtain ⟨ncol1, ncol2, hscan, hsame, -⟩ := hrest { st with ncol1 := st.n, n := st.n + 1 }
        rw [if_pos hcolon, if_pos hnat, hscan]
        refine ⟨ncol1, ncol2, ?_, hsame, fun hne => absurd hnat hne⟩
        rw [← hlen]
      · obtain ⟨ncol1, ncol2, hscan, -, hsame⟩ := hrest { st with ncol2 := st.n, n := st.n + 1 }
        rw [if_pos hcolon, if_neg hnat, hscan]
        refine ⟨ncol1, ncol2, ?_, fun hzero => absurd hzero hnat, hsame⟩
        rw [← hlen]
    · obtain ⟨ncol1, ncol2, hscan, hsame, hsame'⟩ := hrest { st with n := st.n + 1 }
      rw [if_neg hcolon, hscan]
      refine ⟨ncol1, ncol2, ?_, hsame, hsame'⟩
      rw [← hlen]

/-- The digits of a number that an `int` holds. -/
theorem portLoop_of_digits {ds : List Char} (hds : ∀ c ∈ ds, c.isDigit = true) (mPort : ℤ)
    {port : ℕ} (hfits : Nat.ofDigitChars 10 ds port < 2 ^ 31) :
    portLoop mPort port ds = if ds = [] then mPort else Nat.ofDigitChars 10 ds port := by
  induction ds generalizing mPort port with
  | nil => rfl
  | cons c ds ih =>
    have hdigit := hds c List.mem_cons_self
    have hlow : '0'.toNat ≤ c.toNat := by
      simp only [Char.isDigit, Bool.and_eq_true, decide_eq_true_eq] at hdigit
      exact hdigit.1
    rw [Nat.ofDigitChars_cons] at hfits ⊢
    have hle : 10 * port + (c.toNat - '0'.toNat) ≤
        Nat.ofDigitChars 10 ds (10 * port + (c.toNat - '0'.toNat)) := by
      rw [Nat.ofDigitChars_eq_ofDigitChars_zero]
      have hpow : 0 < 10 ^ ds.length := Nat.pow_pos (by decide)
      exact (Nat.le_mul_of_pos_left _ hpow).trans (Nat.le_add_right _ _)
    have hnext : wrapInt ((port : ℤ) * 10 + c.toNat - '0'.toNat) =
        ((10 * port + (c.toNat - '0'.toNat) : ℕ) : ℤ) := by
      have hsame : (port : ℤ) * 10 + c.toNat - '0'.toNat =
          ((10 * port + (c.toNat - '0'.toNat) : ℕ) : ℤ) := by
        have hzero : '0'.toNat = 48 := rfl
        rw [hzero] at hlow ⊢
        omega
      rw [hsame]
      apply wrapInt_of_fits
      constructor <;> omega
    rw [portLoop, if_pos hdigit]
    simp only [hnext]
    rw [ih (fun d hd => hds d (List.mem_cons_of_mem _ hd)) _ hfits, if_neg (List.cons_ne_nil c ds)]
    split
    · next hnil => rw [hnil, Nat.ofDigitChars_nil]
    · rfl

/-- A part of the string, given by where it starts and how long it is. -/
theorem copy_of_eq (s' : List Char) {s'' : List Char} {start ns : ℕ} (h : s = s' ++ (s'' ++ t))
    (hstart : start = s'.length) (hns : ns = s''.length) :
    copy s start ns = pointer s'' := by
  rw [copy, pointer, h, hstart, hns]
  by_cases hs : s'' = []
  · simp [hs]
  · rw [if_pos (List.length_pos_iff.mpr hs), if_neg hs]
    simp

/-! ### The rest of the components -/

theorem setPath_append (hs : ∀ c ∈ s, c ≠ '?' ∧ c ≠ '#')
    (ht : ∀ c, t[0]? = some c → c = '?' ∨ c = '#') (hu : u.mPath = none) :
    u.setPath (s ++ t) = ({ u with mPath := pointer s }, t) := by
  have htake : (s ++ t).takeWhile (fun c => c ≠ '?' && c ≠ '#') = s := by
    apply takeWhile_append_stop
    · intro c hc
      simpa using hs c hc
    · intro c hc
      obtain rfl | rfl := ht c hc <;> rfl
  rw [setPath, htake, pointer]
  by_cases hnil : s = []
  · simp [hnil, ← hu]
  · simp [hnil, List.length_pos_iff]

theorem setQuery_append (hs : '#' ∉ s) (ht : ∀ c, t[0]? = some c → c = '#')
    (hu : u.mQuery = none) :
    u.setQuery ((if s = [] then [] else '?' :: s) ++ t) =
      ({ u with mQuery := pointer s }, t) := by
  by_cases hnil : s = []
  · have hnot : ∀ s', t ≠ '?' :: s' := by
      rintro s' rfl
      exact absurd (ht '?' rfl) (by decide)
    rw [if_pos hnil, List.nil_append, hnil, setQuery]
    · rw [pointer, if_pos rfl, ← hu]
    · exact hnot
  · have htake : (s ++ t).takeWhile (· ≠ '#') = s := by
      apply takeWhile_append_stop
      · intro c hc
        have hne : c ≠ '#' := fun h => hs (h ▸ hc)
        simpa using hne
      · intro c hc
        simp [ht c hc]
    rw [if_neg hnil, List.cons_append, setQuery, htake, pointer]
    simp [hnil, List.length_pos_iff]

theorem setFragment_of_text (hu : u.mFragment = none) :
    u.setFragment (if s = [] then [] else '#' :: s) =
      ({ u with mFragment := pointer s }, []) := by
  by_cases hnil : s = []
  · rw [if_pos hnil, hnil, pointer, if_pos rfl, ← hu]
    rfl
  · rw [if_neg hnil, setFragment, pointer]
    simp [hnil, List.length_pos_iff]

end URI

end LebStudy
