import LebStudy.Kol.Uri

/-!
# The text of a URI

What `kol::URI` reads from the text of a URI: the components that the text was put together from.
-/

namespace LebStudy

open Numerals

/-- The authority of a URI; the user, the password and the host may be empty. -/
structure Authority where
  user : List Char
  password : List Char
  host : List Char
  port : Option ℕ
  deriving DecidableEq, Repr

/-- The components of a URI; the scheme, the path, the query and the fragment may be empty. -/
structure UriParts where
  scheme : List Char
  authority : Option Authority
  path : List Char
  query : List Char
  fragment : List Char
  deriving DecidableEq, Repr

namespace Authority

/-- What stands in front of the host. -/
def userinfo (a : Authority) : List Char :=
  if a.user = [] ∧ a.password = [] then []
  else a.user ++ (if a.password = [] then [] else ':' :: a.password) ++ ['@']

def portText (a : Authority) : List Char :=
  match a.port with
  | none => []
  | some port => ':' :: putInt port

def hostport (a : Authority) : List Char := a.host ++ a.portText

def text (a : Authority) : List Char := a.userinfo ++ a.hostport

/-- No character that separates another component, and no colon unless a later one follows. -/
structure WellFormed (a : Authority) : Prop where
  user : ∀ c ∈ a.user, c ≠ '@' ∧ URI.endsAuthority c = false ∧ (c = ':' → a.password ≠ [])
  password : ∀ c ∈ a.password, c ≠ '@' ∧ URI.endsAuthority c = false ∧ c ≠ ':'
  host : ∀ c ∈ a.host, c ≠ '@' ∧ URI.endsAuthority c = false ∧ (c = ':' → a.port ≠ none)
  port : ∀ port, a.port = some port → port < 2 ^ 31

theorem userinfo_eq_nil {a : Authority} : a.userinfo = [] ↔ a.user = [] ∧ a.password = [] := by
  rw [userinfo]
  split <;> simp [*]

theorem userinfo_of_ne {a : Authority} (h : a.userinfo ≠ []) : a.userinfo =
    a.user ++ (if a.password = [] then [] else ':' :: a.password) ++ ['@'] := by
  rw [userinfo, if_neg fun hnil => h (userinfo_eq_nil.mpr hnil)]

end Authority

namespace UriParts

/-- Behind an authority the path is empty or starts with a slash, without one it does not start
with two; and without a scheme it does not look as if it had one. -/
structure WellFormed (u : UriParts) : Prop where
  scheme : u.scheme = [] ∨ URI.IsScheme u.scheme
  authority : ∀ a, u.authority = some a → a.WellFormed
  path : ∀ c ∈ u.path, c ≠ '?' ∧ c ≠ '#'
  rooted : u.authority ≠ none → u.path = [] ∨ u.path[0]? = some '/'
  single : u.authority = none → ¬ (u.path[0]? = some '/' ∧ u.path[1]? = some '/')
  relative : u.scheme = [] → u.authority = none →
    ∀ s t, u.path = s ++ ':' :: t → ¬ URI.IsScheme s
  query : '#' ∉ u.query

/-- The URI with these components. -/
def text (u : UriParts) : List Char :=
  (if u.scheme = [] then [] else u.scheme ++ [':']) ++
    (match u.authority with
      | none => []
      | some a => '/' :: '/' :: a.text) ++
    u.path ++ (if u.query = [] then [] else '?' :: u.query) ++
    (if u.fragment = [] then [] else '#' :: u.fragment)

/-- The fields of the components. -/
def fields (u : UriParts) : URI where
  mScheme := URI.pointer u.scheme
  mUser := u.authority.bind fun a => URI.pointer a.user
  mPassword := u.authority.bind fun a => URI.pointer a.password
  mHostport := u.authority.bind fun a => URI.pointer a.hostport
  mHost := u.authority.bind fun a => URI.pointer a.host
  mPort := ((u.authority.bind fun a => a.port).map Int.ofNat).getD (-1)
  mPath := URI.pointer u.path
  mQuery := URI.pointer u.query
  mFragment := URI.pointer u.fragment

end UriParts

namespace URI

variable {u : URI} {s t : List Char}

/-- The indices behind the userinfo. -/
theorem scanAuthority_userinfo {a : Authority} (ha : a.WellFormed) (hinfo : a.userinfo ≠ []) :
    ∃ ncol1, scanAuthority a.userinfo ⟨2, 0, 0, 0⟩ =
        ⟨2 + a.userinfo.length, ncol1, 0, 1 + a.userinfo.length⟩ ∧
      (a.password = [] → ncol1 = 0) ∧ (a.password ≠ [] → ncol1 = 2 + a.user.length) := by
  have hat : ∀ st : AuthorityScan,
      scanAuthority ['@'] st = ⟨st.n + 1, st.ncol1, st.ncol2, st.n⟩ := by
    intro st
    have hends : endsAuthority '@' = false := by decide
    simp [scanAuthority, hends]
  have htext := Authority.userinfo_of_ne hinfo
  have huser : ∀ c ∈ a.user, endsAuthority c = false := fun c hc => (ha.user c hc).2.1
  by_cases hpassword : a.password = []
  · rw [if_pos hpassword, List.append_nil] at htext
    have hplain : ∀ c ∈ a.user, c ≠ '@' ∧ endsAuthority c = false ∧ c ≠ ':' := by
      intro c hc
      obtain ⟨hat, hends, hcolon⟩ := ha.user c hc
      exact ⟨hat, hends, fun h => hcolon h hpassword⟩
    refine ⟨0, ?_, fun _ => rfl, fun hne => absurd hpassword hne⟩
    rw [htext, scanAuthority_append huser, scanAuthority_plain hplain, hat]
    simp
    omega
  · rw [if_neg hpassword, List.append_assoc, List.cons_append] at htext
    obtain ⟨ncol1, ncol2, hscan, hzero, -⟩ := scanAuthority_colons
      (fun c hc => ⟨(ha.user c hc).1, huser c hc⟩) ⟨2, 0, 0, 0⟩
    have hcolon : ∀ st : AuthorityScan, st.nat = 0 →
        scanAuthority (':' :: (a.password ++ ['@'])) st =
          ⟨st.n + 1 + a.password.length + 1, st.n, st.ncol2, st.n + 1 + a.password.length⟩ := by
      intro st hst
      have hends : endsAuthority ':' = false := by decide
      rw [scanAuthority]
      simp only [hends, Bool.false_eq_true, if_false, if_true, hst]
      rw [scanAuthority_append fun c hc => (ha.password c hc).2.1,
        scanAuthority_plain ha.password, hat]
      simp
    refine ⟨2 + a.user.length, ?_, fun hnil => absurd hnil hpassword, fun _ => rfl⟩
    rw [htext, scanAuthority_append huser, hscan, hcolon _ rfl, hzero rfl]
    simp
    omega

theorem portText_of_some {a : Authority} {port : ℕ} (h : a.port = some port) :
    a.portText = ':' :: Nat.toDigits 10 port := by
  rw [Authority.portText, h]
  rfl

theorem digit_plain {port : ℕ} :
    ∀ c ∈ Nat.toDigits 10 port, c ≠ '@' ∧ endsAuthority c = false ∧ c ≠ ':' := by
  intro c hc
  have hdigit : c.isDigit = true := Nat.isDigit_of_mem_toDigits (by decide) (Nat.le_refl _) hc
  refine ⟨?_, ?_, ?_⟩
  · rintro rfl
    exact absurd hdigit (by decide)
  · by_contra hends
    simp only [endsAuthority, Bool.not_eq_false, Bool.or_eq_true, decide_eq_true_eq] at hends
    obtain (rfl | rfl) | rfl := hends <;> exact absurd hdigit (by decide)
  · rintro rfl
    exact absurd hdigit (by decide)

/-- The last colon of the hostport is that of the port, and noted by where the `@` is. -/
theorem scanAuthority_hostport {a : Authority} (ha : a.WellFormed) (st : AuthorityScan) :
    ∃ col, (a.port = none → col = if st.nat = 0 then st.ncol1 else st.ncol2) ∧
      (a.port ≠ none → col = st.n + a.host.length) ∧
      scanAuthority a.hostport st = ⟨st.n + a.hostport.length,
        if st.nat = 0 then col else st.ncol1, if st.nat = 0 then st.ncol2 else col, st.nat⟩ := by
  have hends : ∀ c ∈ a.host, endsAuthority c = false := fun c hc => (ha.host c hc).2.1
  cases hport : a.port with
  | none =>
    have hplain : ∀ c ∈ a.host, c ≠ '@' ∧ endsAuthority c = false ∧ c ≠ ':' := by
      intro c hc
      obtain ⟨hat, hends, hcolon⟩ := ha.host c hc
      exact ⟨hat, hends, fun h => hcolon h hport⟩
    have htext : a.hostport = a.host := by
      rw [Authority.hostport, Authority.portText, hport, List.append_nil]
    refine ⟨if st.nat = 0 then st.ncol1 else st.ncol2, fun _ => rfl, fun h => absurd rfl h, ?_⟩
    rw [htext, scanAuthority_plain hplain]
    split <;> simp [*]
  | some port =>
    obtain ⟨ncol1, ncol2, hscan, hzero, hone⟩ := scanAuthority_colons
      (fun c hc => ⟨(ha.host c hc).1, hends c hc⟩) st
    have hcolon : endsAuthority ':' = false := by decide
    refine ⟨st.n + a.host.length, fun h => (by cases h), fun _ => rfl, ?_⟩
    rw [Authority.hostport, portText_of_some hport, scanAuthority_append hends, hscan, scanAuthority]
    simp only [hcolon, Bool.false_eq_true, if_false, if_true]
    have hlen : st.n + a.host.length + 1 + (Nat.toDigits 10 port).length =
        st.n + (a.host ++ ':' :: Nat.toDigits 10 port).length := by
      simp
      omega
    by_cases hnat : st.nat = 0
    · simp only [hnat, if_true, hzero hnat, if_neg (by decide : ¬ ':' = '@')]
      rw [scanAuthority_plain digit_plain, ← hlen]
    · simp only [hnat, if_false, hone hnat, if_neg (by decide : ¬ ':' = '@')]
      rw [scanAuthority_plain digit_plain, ← hlen]

theorem not_ends_of_mem_userinfo {a : Authority} (ha : a.WellFormed) {c : Char}
    (hc : c ∈ a.userinfo) : endsAuthority c = false := by
  rw [Authority.userinfo] at hc
  split at hc
  · cases hc
  · obtain hc | hc := List.mem_append.mp hc
    · obtain hc | hc := List.mem_append.mp hc
      · exact (ha.user c hc).2.1
      · split at hc
        · cases hc
        · obtain rfl | hc := List.mem_cons.mp hc
          · decide
          · exact (ha.password c hc).2.1
    · rw [List.mem_singleton.mp hc]
      decide

theorem not_ends_of_mem_hostport {a : Authority} (ha : a.WellFormed) {c : Char}
    (hc : c ∈ a.hostport) : endsAuthority c = false := by
  obtain hc | hc := List.mem_append.mp hc
  · exact (ha.host c hc).2.1
  · cases hport : a.port with
    | none => simp [Authority.portText, hport] at hc
    | some port =>
      rw [portText_of_some hport] at hc
      obtain rfl | hc := List.mem_cons.mp hc
      · decide
      · exact (digit_plain c hc).2.1

/-- The indices behind the authority. -/
theorem scanAuthority_text {a : Authority} (ha : a.WellFormed)
    (ht : ∀ c, t[0]? = some c → endsAuthority c = true) :
    ∃ ncol1 ncol2 nat, scanAuthority (a.text ++ t) ⟨2, 0, 0, 0⟩ =
        ⟨2 + a.text.length, ncol1, ncol2, nat⟩ ∧
      (a.userinfo = [] → nat = 0 ∧ (if 2 ≤ ncol1 then ncol1 else ncol2) =
        if a.port = none then 0 else 2 + a.host.length) ∧
      (a.userinfo ≠ [] → nat = 1 + a.userinfo.length ∧
        (if ncol1 = 0 ∨ nat < ncol1 then nat else ncol1) = 2 + a.user.length ∧
        ncol2 = if a.port = none then 0 else 2 + a.userinfo.length + a.host.length) := by
  have hhost := fun c hc => not_ends_of_mem_hostport (c := c) ha hc
  by_cases hinfo : a.userinfo = []
  · obtain ⟨col, hnone, hsome, hscan⟩ := scanAuthority_hostport ha ⟨2, 0, 0, 0⟩
    have htext : a.text = a.hostport := by rw [Authority.text, hinfo, List.nil_append]
    refine ⟨col, 0, 0, ?_, fun _ => ⟨rfl, ?_⟩, fun hne => absurd hinfo hne⟩
    · rw [htext, scanAuthority_append hhost, hscan, scanAuthority_end ht]
      rfl
    · by_cases hport : a.port = none
      · rw [hnone hport, if_pos hport]
        rfl
      · rw [hsome hport, if_neg hport]
        exact if_pos (Nat.le_add_right 2 _)
  · obtain ⟨ncol1, huser, hzero, hone⟩ := scanAuthority_userinfo ha hinfo
    obtain ⟨col, hnone, hsome, hscan⟩ := scanAuthority_hostport ha
      ⟨2 + a.userinfo.length, ncol1, 0, 1 + a.userinfo.length⟩
    have hnat : ¬ 1 + a.userinfo.length = 0 := by omega
    simp only [if_neg hnat] at hnone hscan
    have hlen : 2 + a.userinfo.length + a.hostport.length = 2 + a.text.length := by
      rw [Authority.text, List.length_append]
      omega
    refine ⟨ncol1, col, 1 + a.userinfo.length, ?_, fun hnil => absurd hnil hinfo,
      fun _ => ⟨rfl, ?_, ?_⟩⟩
    · rw [Authority.text, List.append_assoc,
        scanAuthority_append fun c hc => not_ends_of_mem_userinfo ha hc, huser,
        scanAuthority_append hhost, hscan, scanAuthority_end ht, ← Authority.text, hlen]
    · have hlength : a.userinfo.length = a.user.length +
          (if a.password = [] then 0 else a.password.length + 1) + 1 := by
        rw [Authority.userinfo_of_ne hinfo, List.length_append, List.length_append]
        split <;> rfl
      by_cases hpassword : a.password = []
      · rw [hzero hpassword, if_pos (.inl rfl)]
        rw [if_pos hpassword] at hlength
        omega
      · rw [hone hpassword]
        rw [if_neg hpassword] at hlength
        exact if_neg (by omega)
    · by_cases hport : a.port = none
      · rw [hnone hport, if_pos hport]
      · rw [hsome hport, if_neg hport]

theorem text_length (a : Authority) :
    a.text.length = a.userinfo.length + (a.host.length + a.portText.length) := by
  rw [Authority.text, Authority.hostport, List.length_append, List.length_append]

theorem portText_of_none {a : Authority} (h : a.port = none) : a.portText = [] := by
  rw [Authority.portText, h]

/-- The indices of the loop, put right. -/
theorem authority_indices {a : Authority} (ha : a.WellFormed)
    (ht : ∀ c, t[0]? = some c → endsAuthority c = true) :
    ∃ ncol1 ncol2 nat ncol1' ncol2', scanAuthority (a.text ++ t) ⟨2, 0, 0, 0⟩ =
        ⟨2 + a.text.length, ncol1, ncol2, nat⟩ ∧
      (if nat = 0 then (0, if 2 ≤ ncol1 then ncol1 else ncol2)
        else (if ncol1 = 0 ∨ nat < ncol1 then nat else ncol1, ncol2)) = (ncol1', ncol2') ∧
      (if nat = 0 then 1 else nat) = 1 + a.userinfo.length ∧
      (if ncol2' = 0 then 2 + a.text.length else ncol2') = 2 + a.userinfo.length + a.host.length ∧
      ncol1' = if a.userinfo = [] then 0 else 2 + a.user.length := by
  obtain ⟨ncol1, ncol2, nat, hscan, hplain, hinfo⟩ := scanAuthority_text ha ht
  have hnone : a.port = none → 2 + a.text.length = 2 + a.userinfo.length + a.host.length := by
    intro hport
    rw [text_length, portText_of_none hport, List.length_nil]
    omega
  by_cases hnil : a.userinfo = []
  · obtain ⟨rfl, hcol⟩ := hplain hnil
    refine ⟨ncol1, ncol2, 0, 0, if a.port = none then 0 else 2 + a.host.length, hscan, ?_, ?_, ?_,
      ?_⟩
    · rw [if_pos rfl, hcol]
    · rw [hnil]
      rfl
    · by_cases hport : a.port = none
      · rw [if_pos hport, if_pos rfl, hnone hport]
      · rw [if_neg hport, if_neg (by omega), hnil, List.length_nil]
    · rw [if_pos hnil]
  · obtain ⟨hnat, hcol1, hcol2⟩ := hinfo hnil
    have hpos : ¬ nat = 0 := by omega
    refine ⟨ncol1, ncol2, nat, 2 + a.user.length,
      if a.port = none then 0 else 2 + a.userinfo.length + a.host.length, hscan, ?_, ?_, ?_, ?_⟩
    · rw [if_neg hpos, hcol1, hcol2]
    · rw [if_neg hpos, hnat]
    · by_cases hport : a.port = none
      · rw [if_pos hport, if_pos rfl, hnone hport]
      · rw [if_neg hport, if_neg (by omega)]
    · rw [if_neg hnil]

/-! The fields, from these indices. -/

section Fields

variable {a : Authority} {n : ℕ}

theorem copy_user (h : n = if a.userinfo = [] then 0 else 2 + a.user.length) :
    copy ('/' :: '/' :: (a.text ++ t)) 2 (n - 1 - 1) = pointer a.user := by
  by_cases hnil : a.userinfo = []
  · rw [h, if_pos hnil, (Authority.userinfo_eq_nil.mp hnil).1]
    rfl
  · rw [if_neg hnil] at h
    apply copy_of_eq ['/', '/']
    · rw [Authority.text, Authority.userinfo_of_ne hnil, List.append_assoc, List.append_assoc,
        List.append_assoc]
      rfl
    · rfl
    · omega

theorem copy_password (h : n = if a.userinfo = [] then 0 else 2 + a.user.length) :
    copy ('/' :: '/' :: (a.text ++ t)) (n + 1) (1 + a.userinfo.length - 1 - n) =
      pointer a.password := by
  by_cases hempty : a.password = []
  · have hcount : 1 + a.userinfo.length - 1 - n = 0 := by
      by_cases hnil : a.userinfo = []
      · rw [hnil, List.length_nil]
        omega
      · have hlength : a.userinfo.length = a.user.length + 1 := by
          rw [Authority.userinfo_of_ne hnil, if_pos hempty, List.append_nil, List.length_append,
            List.length_singleton]
        rw [h, if_neg hnil, hlength]
        omega
    rw [hcount, hempty]
    rfl
  · have hnil : a.userinfo ≠ [] := fun h => hempty (Authority.userinfo_eq_nil.mp h).2
    have hinfo := Authority.userinfo_of_ne hnil
    rw [if_neg hempty] at hinfo
    rw [if_neg hnil] at h
    apply copy_of_eq ('/' :: '/' :: (a.user ++ [':']))
    · rw [Authority.text, hinfo]
      simp only [List.append_assoc, List.cons_append, List.nil_append]
      rfl
    · simp [h]
      omega
    · rw [hinfo, h]
      simp
      omega

theorem copy_hostport :
    copy ('/' :: '/' :: (a.text ++ t)) (1 + a.userinfo.length + 1)
      (2 + a.text.length - 1 - (1 + a.userinfo.length)) = pointer a.hostport := by
  apply copy_of_eq ('/' :: '/' :: a.userinfo)
  · rw [Authority.text, List.append_assoc]
    rfl
  · simp
    omega
  · rw [Authority.text, List.length_append]
    omega

theorem copy_host :
    copy ('/' :: '/' :: (a.text ++ t)) (1 + a.userinfo.length + 1)
      (2 + a.userinfo.length + a.host.length - 1 - (1 + a.userinfo.length)) =
        pointer a.host := by
  apply copy_of_eq ('/' :: '/' :: a.userinfo)
  · rw [Authority.text, Authority.hostport, List.append_assoc, List.append_assoc]
    rfl
  · simp
    omega
  · omega

theorem port_of_text (ha : a.WellFormed) (mPort : ℤ) :
    portLoop mPort 0 ((('/' :: '/' :: (a.text ++ t)).drop
        (2 + a.userinfo.length + a.host.length + 1)).take
      (2 + a.text.length - 1 - (2 + a.userinfo.length + a.host.length))) =
        (a.port.map Int.ofNat).getD mPort := by
  have hlen := text_length a
  cases hport : a.port with
  | none =>
    have hcount : 2 + a.text.length - 1 - (2 + a.userinfo.length + a.host.length) = 0 := by
      rw [hlen, portText_of_none hport, List.length_nil]
      omega
    rw [hcount, List.take_zero]
    rfl
  | some port =>
    have hdigits := portText_of_some hport
    have hstr : '/' :: '/' :: (a.text ++ t) =
        ('/' :: '/' :: (a.userinfo ++ a.host ++ [':'])) ++ (Nat.toDigits 10 port ++ t) := by
      rw [Authority.text, Authority.hostport, hdigits]
      simp
    have hfront : 2 + a.userinfo.length + a.host.length + 1 =
        ('/' :: '/' :: (a.userinfo ++ a.host ++ [':'])).length := by
      simp
      omega
    have hcount : 2 + a.text.length - 1 - (2 + a.userinfo.length + a.host.length) =
        (Nat.toDigits 10 port).length := by
      rw [hlen, hdigits, List.length_cons]
      omega
    have hvalue : Nat.ofDigitChars 10 (Nat.toDigits 10 port) 0 < 2 ^ 31 := by
      rw [Nat.ofDigitChars_ten_toDigits]
      exact ha.port port hport
    have hdigit : ∀ c ∈ Nat.toDigits 10 port, c.isDigit = true :=
      fun c hc => Nat.isDigit_of_mem_toDigits (by decide) (Nat.le_refl _) hc
    have hloop := portLoop_of_digits hdigit mPort hvalue
    rw [if_neg Nat.toDigits_ne_nil, Nat.ofDigitChars_ten_toDigits] at hloop
    rw [hcount, hfront, hstr, List.drop_left, List.take_left]
    exact hloop

/-- An authority, and what does not belong to it behind. -/
theorem setAuthority_of_text (ha : a.WellFormed)
    (ht : ∀ c, t[0]? = some c → endsAuthority c = true) :
    u.setAuthority ('/' :: '/' :: (a.text ++ t)) =
      ({ u with
          mUser := pointer a.user
          mPassword := pointer a.password
          mHostport := pointer a.hostport
          mHost := pointer a.host
          mPort := (a.port.map Int.ofNat).getD u.mPort }, t) := by
  obtain ⟨ncol1, ncol2, nat, ncol1', ncol2', hscan, hpair, hnat, hcol2, hcol1⟩ :=
    authority_indices ha ht
  have hrest : ('/' :: '/' :: (a.text ++ t)).drop (2 + a.text.length) = t := by
    rw [Nat.add_comm]
    simp
  have hslash : ¬ (('/' :: '/' :: (a.text ++ t))[0]? ≠ some '/' ∨
      ('/' :: '/' :: (a.text ++ t))[1]? ≠ some '/') := by simp
  have hdrop : ('/' :: '/' :: (a.text ++ t)).drop 2 = a.text ++ t := rfl
  rw [setAuthority, if_neg hslash, hdrop, hscan]
  simp only [hpair, hnat, hcol2, copy_user hcol1, copy_password hcol1, copy_hostport, copy_host,
    port_of_text ha, hrest]

end Fields

end URI

namespace UriParts

variable {u : UriParts}

/-- What follows the path. -/
def tail (u : UriParts) : List Char :=
  (if u.query = [] then [] else '?' :: u.query) ++
    (if u.fragment = [] then [] else '#' :: u.fragment)

theorem tail_head {c : Char} (h : u.tail[0]? = some c) : c = '?' ∨ c = '#' := by
  rw [tail] at h
  by_cases hquery : u.query = []
  · by_cases hfragment : u.fragment = []
    · simp [hquery, hfragment] at h
    · simp only [hquery, hfragment, if_true, if_false, List.nil_append] at h
      exact .inr (Option.some.inj h).symm
  · simp only [hquery, if_false, List.cons_append] at h
    exact .inl (Option.some.inj h).symm

/-- What follows the scheme. -/
def behindScheme (u : UriParts) : List Char :=
  (match u.authority with
    | none => []
    | some a => '/' :: '/' :: a.text) ++ (u.path ++ u.tail)

theorem text_eq (u : UriParts) :
    u.text = (if u.scheme = [] then [] else u.scheme ++ [':']) ++ u.behindScheme := by
  simp only [text, behindScheme, tail, List.append_assoc]

/-- Without a scheme the URI does not start with one. -/
theorem not_isScheme (hu : u.WellFormed) (hscheme : u.scheme = []) {s t : List Char}
    (h : u.behindScheme = s ++ ':' :: t) : ¬ URI.IsScheme s := by
  intro hs
  have hchars := hs.isSchemeChar
  cases hauthority : u.authority with
  | some a =>
    obtain ⟨c, s', rfl, halpha, -⟩ := hs
    simp only [behindScheme, hauthority, List.cons_append, List.cons.injEq] at h
    rw [← h.1] at halpha
    exact absurd halpha (by decide)
  | none =>
    simp only [behindScheme, hauthority, List.nil_append] at h
    obtain ⟨x, hpath, hx⟩ | ⟨x, hpath, hx⟩ := List.append_eq_append_iff.mp h
    · -- the colon would stand behind the path, and what separates that in the scheme
      cases x with
      | nil =>
        rw [List.nil_append] at hx
        obtain hc | hc := tail_head (c := ':') (by rw [hx]; rfl) <;> cases hc
      | cons d x =>
        have hd := hchars d (by simp [hpath])
        obtain rfl | rfl := tail_head (c := d) (by rw [hx]; rfl) <;>
          exact absurd hd (by decide)
    · cases x with
      | nil =>
        rw [List.nil_append] at hx
        obtain hc | hc := tail_head (c := ':') (by rw [← hx]; rfl) <;> cases hc
      | cons d x =>
        rw [List.cons_append, List.cons.injEq] at hx
        rw [← hx.1] at hpath
        exact hu.relative hscheme hauthority s x hpath hs

theorem setScheme_text (hu : u.WellFormed) {v : URI} (hv : v.mScheme = none) :
    v.setScheme u.text = ({ v with mScheme := URI.pointer u.scheme }, u.behindScheme) := by
  rw [text_eq]
  by_cases hscheme : u.scheme = []
  · rw [if_pos hscheme, List.nil_append,
      URI.setScheme_of_not fun s t h => not_isScheme hu hscheme h, URI.pointer, if_pos hscheme,
      ← hv]
  · have hs := hu.scheme.resolve_left hscheme
    rw [if_neg hscheme, List.append_assoc, List.singleton_append, URI.setScheme_of_isScheme hs,
      URI.pointer, if_neg hscheme]

/-- Behind an authority follows what does not belong to it. -/
theorem ends_of_path_tail (hu : u.WellFormed) (h : u.authority ≠ none) {c : Char}
    (hc : (u.path ++ u.tail)[0]? = some c) : URI.endsAuthority c = true := by
  cases hpath : u.path with
  | nil =>
    rw [hpath, List.nil_append] at hc
    obtain rfl | rfl := tail_head hc <;> rfl
  | cons d path =>
    have hrooted := (hu.rooted h).resolve_left (by simp [hpath])
    rw [hpath] at hc hrooted
    rw [List.cons_append] at hc
    cases hc
    cases hrooted
    rfl

/-- Without an authority there are no two slashes in front. -/
theorem not_slashes (hu : u.WellFormed) (h : u.authority = none) :
    (u.path ++ u.tail)[0]? ≠ some '/' ∨ (u.path ++ u.tail)[1]? ≠ some '/' := by
  have htail : u.tail[0]? ≠ some '/' := by
    intro hslash
    obtain hc | hc := tail_head hslash <;> cases hc
  have hsingle := not_and_or.mp (hu.single h)
  match hpath : u.path, hsingle with
  | [], _ => exact .inl htail
  | [_], _ => exact .inr htail
  | _ :: _ :: _, hsingle => exact hsingle

theorem setAuthority_text (hu : u.WellFormed) {v : URI}
    (hv : v = ⟨URI.pointer u.scheme, none, none, none, none, -1, none, none, none⟩) :
    v.setAuthority u.behindScheme = ({ u.fields with
      mPath := none, mQuery := none, mFragment := none }, u.path ++ u.tail) := by
  rw [behindScheme, fields]
  cases hauthority : u.authority with
  | none =>
    have hslash := not_slashes hu hauthority
    rw [List.nil_append, URI.setAuthority, if_pos hslash, hv]
    rfl
  | some a =>
    have hends : ∀ c, (u.path ++ u.tail)[0]? = some c → URI.endsAuthority c = true :=
      fun c hc => ends_of_path_tail hu (by simp [hauthority]) hc
    have hset := URI.setAuthority_of_text (u := v) (hu.authority a hauthority) hends
    simp only [List.cons_append]
    rw [hset, hv]
    rfl

/-- A URI is parsed into the components that it was made of. -/
theorem parse_text (u : UriParts) (hu : u.WellFormed) : URI.parse u.text = u.fields := by
  have hquery : ∀ c, (if u.fragment = [] then [] else '#' :: u.fragment)[0]? = some c → c = '#' := by
    intro c hc
    by_cases hfragment : u.fragment = []
    · simp [hfragment] at hc
    · simp only [hfragment, if_false] at hc
      exact (Option.some.inj hc).symm
  rw [URI.parse]
  simp only [setScheme_text hu (v := ⟨none, none, none, none, none, -1, none, none, none⟩) rfl,
    setAuthority_text hu rfl]
  rw [URI.setPath_append hu.path (fun c hc => tail_head hc) rfl]
  simp only [tail]
  rw [URI.setQuery_append hu.query hquery rfl]
  simp only
  rw [URI.setFragment_of_text rfl]
  rfl

/-- Colons in the user, the host and the path do not count. -/
theorem parse_text_colons :
    URI.parse "//a:b:x@[::1]:80/c:d#f".toList =
      ⟨none, some "a:b".toList, some "x".toList, some "[::1]:80".toList, some "[::1]".toList, 80,
        some "/c:d".toList, none, some "f".toList⟩ := by
  apply parse_text
    ⟨[], some ⟨"a:b".toList, "x".toList, "[::1]".toList, some 80⟩, "/c:d".toList, [], "f".toList⟩
  constructor
  · exact .inl rfl
  · rintro a ⟨⟩
    constructor
    · simp [URI.endsAuthority]
    · simp [URI.endsAuthority]
    · simp [URI.endsAuthority]
    · rintro port ⟨⟩
      exact (by decide : 80 < 2 ^ 31)
  · simp
  · exact fun _ => .inr rfl
  · rintro ⟨⟩
  · rintro - ⟨⟩
  · simp

end UriParts

end LebStudy
