import LebStudy.Leb.Options
import Mathlib.Data.List.GetD
import Mathlib.Data.List.Induction

/-!
# What a command line of `leb` says

Options with values and at most one file name, in any order. The loop takes a command line
apart item by item, and what it leaves behind is the effect of the items one after the
other. That is what the command line says exactly if it has no `-b`, `-q` and `-n`, the
last port of each kind is one for `strtol` too, and the file name is no option.
-/

namespace LebStudy

open Numerals

/-- An option with a value. -/
inductive Flag
  | p
  | c
  | b
  | q
  | n
  deriving DecidableEq, Repr

namespace Flag

def word : Flag → Word
  | p => ['-', 'p']
  | c => ['-', 'c']
  | b => ['-', 'b']
  | q => ['-', 'q']
  | n => ['-', 'n']

end Flag

/-- A positive integer in digits. -/
def PositiveNumber : Type :=
  { w : Word // w ≠ [] ∧ w.all (· ∈ NodeList.decDigits) = true ∧ 0 < numeral 10 w }

/-- The name of a file has a character at least. -/
def FileName : Type := { w : Word // w ≠ [] }

/-- What stands in a command line. -/
inductive Item
  | flag (k : Flag) (value : PositiveNumber)
  | file (name : FileName)

namespace Item

def words : Item → List Word
  | flag k value => [k.word, value.1]
  | file name => [name.1]

def valueOf (k : Flag) : Item → Option Word
  | flag k' value => if k' = k then some value.1 else none
  | file _ => none

def name? : Item → Option Word
  | flag _ _ => none
  | file name => some name.1

end Item

/-- A command line of options with values and at most one file name. -/
structure CommandLine where
  program : Word
  items : List Item
  oneFile : (items.filterMap Item.name?).length ≤ 1

namespace CommandLine

def argv (l : CommandLine) : List Word := l.program :: l.items.flatMap Item.words

/-- The last value of the option. -/
def last (l : CommandLine) (k : Flag) : Option Word :=
  (l.items.filterMap (Item.valueOf k)).getLast?

def file (l : CommandLine) : Option Word := (l.items.filterMap Item.name?).getLast?

/-- The variables as the command line says. -/
def said (l : CommandLine) : Options where
  ebsrvEndpoint := (l.last .p).elim Options.initial.ebsrvEndpoint Options.endpoint
  comEndpoint := (l.last .c).elim Options.initial.comEndpoint Options.endpoint
  nodefile := l.file.getD Options.initial.nodefile
  bufSize := (l.last .b).elim 0 fun w => numeral 10 w
  quelen := (l.last .q).elim 0 fun w => numeral 10 w
  nspill := (l.last .n).elim 0 fun w => numeral 10 w

/-- The variables are what the command line says, and each task has what they say for it. -/
def Honoured (l : CommandLine) : Prop :=
  Options.parse l.argv = l.said ∧ ∀ nodes,
    TaskOptions.applyOptions (Options.parse l.argv) (TaskOptions.tasks nodes) =
      TaskOptions.tasksSaid (Options.parse l.argv) nodes

/-- What is written is what is read: no `-b`, `-q` and `-n`, ports that `strtol` reads as positive
numbers, and a file name that is not taken for an option. -/
def Readable (l : CommandLine) : Prop :=
  (l.last .b = none ∧ l.last .q = none ∧ l.last .n = none) ∧
    (∀ w ∈ l.last .p, 0 < Options.intOf w) ∧ (∀ w ∈ l.last .c, 0 < Options.intOf w) ∧
      ∀ name ∈ l.file, name.head? ≠ some '-'

end CommandLine

/-! ### The loop over the items -/

namespace Flag

/-- What the loop does with the option and the value behind it. -/
def effect (k : Flag) (value : Word) (o : Options) : Options :=
  match k with
  | p => { o with ebsrvEndpoint := Options.setPort value o.ebsrvEndpoint }
  | c => { o with comEndpoint := Options.setPort value o.comEndpoint }
  | b => { o with bufSize := 0 }
  | q => { o with quelen := 0 }
  | n => { o with nspill := 0 }

end Flag

namespace Item

/-- What the loop does with the item. -/
def effect (o : Options) : Item → Options
  | flag k value => k.effect value.1 o
  | file name => { o with nodefile := name.1 }

/-- The item is not taken for another. -/
def Plain (item : Item) : Prop := ∀ name ∈ item.name?, name.head? ≠ some '-'

end Item

namespace Options

section Loop

variable {argv : List Word} {i : ℕ}

/-- An option that reads itself reads no number. -/
theorem intOf_flag (k : Flag) : intOf k.word = 0 := by cases k <;> decide

theorem loopBody_flag {k : Flag} (hword : argv.getD i [] = k.word) (hlt : i + 1 < argv.length)
    (o : Options) : loopBody argv i o = (i + 1, k.effect (argv.getD (i + 1) []) o) := by
  have hself := intOf_flag k
  rw [loopBody, hword]
  cases k <;> simp_all [Flag.word, Flag.effect, takeNext, takeSelf]

/-- An argument that does not begin as an option is a file name. -/
theorem loopBody_file (hhead : (argv.getD i []).head? ≠ some '-') (o : Options) :
    loopBody argv i o = (i, { o with nodefile := argv.getD i [] }) := by
  have hne (c : Char) : argv.getD i [] ≠ ['-', c] := fun heq => hhead (by rw [heq]; rfl)
  simp only [loopBody, takeNext, takeSelf, hne, false_and, if_false, if_pos hhead]

theorem getD_of_drop {a : Word} {rest : List Word} (h : argv.drop i = a :: rest) :
    i < argv.length ∧ argv.getD i [] = a ∧ argv.drop (i + 1) = rest := by
  have hlt : i < argv.length := by
    by_contra hge
    rw [List.drop_eq_nil_of_le (by omega)] at h
    cases h
  rw [List.drop_eq_getElem_cons hlt] at h
  obtain ⟨hhead, htail⟩ := List.cons.inj h
  exact ⟨hlt, by rw [List.getD_eq_getElem _ _ hlt, hhead], htail⟩

/-- The loop does one item after the other. -/
theorem optionLoop_items {items : List Item} (hplain : ∀ item ∈ items, item.Plain) {turns : ℕ}
    (hdrop : argv.drop i = items.flatMap Item.words) (hturns : argv.length ≤ turns + i)
    (o : Options) : optionLoop argv turns i o = items.foldl Item.effect o := by
  induction items generalizing i turns o with
  | nil =>
    have hge : argv.length ≤ i := List.drop_eq_nil_iff.mp hdrop
    cases turns with
    | zero => rfl
    | succ turns =>
      rw [optionLoop, if_neg (by omega)]
      rfl
  | cons item items ih =>
    obtain ⟨hitem, hitems⟩ := List.forall_mem_cons.mp hplain
    rw [List.flatMap_cons] at hdrop
    cases item with
    | flag k value =>
      obtain ⟨hlt, hword, hdrop⟩ := getD_of_drop hdrop
      obtain ⟨hlt', hvalue, hdrop⟩ := getD_of_drop hdrop
      obtain ⟨turns, rfl⟩ : ∃ m, turns = m + 1 := ⟨turns - 1, by omega⟩
      rw [optionLoop, if_pos hlt, loopBody_flag hword hlt', hvalue]
      exact ih hitems hdrop (by omega) _
    | file name =>
      obtain ⟨hlt, hname, hdrop⟩ := getD_of_drop hdrop
      obtain ⟨turns, rfl⟩ : ∃ m, turns = m + 1 := ⟨turns - 1, by omega⟩
      have hhead : (argv.getD i []).head? ≠ some '-' := by
        rw [hname]
        exact hitem name.1 rfl
      rw [optionLoop, if_pos hlt, loopBody_file hhead, hname]
      exact ih hitems hdrop (by omega) _

theorem takeNext_nodefile {sargv flag : Word} {set : Word → Options → Options} {p : ℕ × Options}
    (hset : ∀ s o, (set s o).nodefile = o.nodefile) :
    (takeNext argv sargv flag set p).2.nodefile = p.2.nodefile := by
  rw [takeNext]
  split
  · exact hset _ _
  · rfl

theorem takeSelf_nodefile {sargv flag : Word} {set : Word → Options → Options} {p : ℕ × Options}
    (hset : ∀ s o, (set s o).nodefile = o.nodefile) :
    (takeSelf argv sargv flag set p).2.nodefile = p.2.nodefile := by
  rw [takeSelf]
  split
  · exact hset _ _
  · rfl

/-- An argument that begins as an option leaves the file name alone. -/
theorem loopBody_nodefile (hhead : (argv.getD i []).head? = some '-') (o : Options) :
    (loopBody argv i o).2.nodefile = o.nodefile := by
  rw [loopBody, if_neg (not_not.mpr hhead)]
  simp only [takeSelf_nodefile, takeNext_nodefile, implies_true]

/-- No file name that the loop leaves behind begins as an option. -/
theorem optionLoop_nodefile (turns : ℕ) (o : Options) (ho : o.nodefile.head? ≠ some '-') :
    (optionLoop argv turns i o).nodefile.head? ≠ some '-' := by
  induction turns generalizing i o with
  | zero => exact ho
  | succ turns ih =>
    have hbody : (loopBody argv i o).2.nodefile.head? ≠ some '-' := by
      by_cases hhead : (argv.getD i []).head? = some '-'
      · rwa [loopBody_nodefile hhead]
      · rw [loopBody_file hhead]
        exact hhead
    rw [optionLoop]
    split
    · exact ih _ hbody
    · exact ho

end Loop

/-! ### The effect of the items -/

theorem endpoint_injective {v w : Word} (h : endpoint v = endpoint w) : v = w :=
  List.append_cancel_left h

/-- An endpoint behind any number of ports is one of an accepted port. -/
theorem foldl_setPort_accepted (ws : List Word) {v : Word} (hv : 0 < intOf v) :
    ∃ w, ws.foldl (fun old w => setPort w old) (endpoint v) = endpoint w ∧ 0 < intOf w := by
  induction ws generalizing v with
  | nil => exact ⟨v, rfl, hv⟩
  | cons w ws ih =>
    rw [List.foldl_cons, setPort]
    split
    · next hw => exact ih hw
    · exact ih hv

/-- The endpoint is that of the last port exactly if the last port is accepted. -/
theorem foldl_setPort_iff (ws : List Word) {v : Word} (hv : 0 < intOf v) :
    ws.foldl (fun old w => setPort w old) (endpoint v) = ws.getLast?.elim (endpoint v) endpoint ↔
      ∀ w ∈ ws.getLast?, 0 < intOf w := by
  induction ws using List.reverseRecOn with
  | nil => simp
  | append_singleton ws w _ =>
    obtain ⟨u, hu, hpos⟩ := foldl_setPort_accepted ws hv
    rw [List.foldl_append, List.foldl_cons, List.foldl_nil, hu, List.getLast?_concat,
      Option.elim_some, setPort]
    by_cases hw : 0 < intOf w
    · rw [if_pos hw]
      simpa using hw
    · rw [if_neg hw]
      constructor
      · intro heq
        rw [endpoint_injective heq] at hpos
        exact absurd hpos hw
      · intro h
        exact absurd (h w rfl) hw

section Items

variable (items : List Item) (o : Options)

/-- A variable that the ports of one option set. -/
theorem foldl_endpoint (get : Options → Word) (k : Flag)
    (hget : ∀ o item, get (Item.effect o item) =
      (item.valueOf k).elim (get o) fun w => setPort w (get o)) :
    get (items.foldl Item.effect o) =
      (items.filterMap (Item.valueOf k)).foldl (fun old w => setPort w old) (get o) := by
  rw [List.foldl_filterMap]
  refine (List.foldl_hom get fun o item => ?_).symm
  rw [hget]
  cases item.valueOf k <;> rfl

theorem foldl_ebsrvEndpoint :
    (items.foldl Item.effect o).ebsrvEndpoint =
      (items.filterMap (Item.valueOf .p)).foldl (fun old w => setPort w old) o.ebsrvEndpoint := by
  refine foldl_endpoint items o Options.ebsrvEndpoint .p fun o item => ?_
  cases item with
  | flag k value => cases k <;> rfl
  | file name => rfl

theorem foldl_comEndpoint :
    (items.foldl Item.effect o).comEndpoint =
      (items.filterMap (Item.valueOf .c)).foldl (fun old w => setPort w old) o.comEndpoint := by
  refine foldl_endpoint items o Options.comEndpoint .c fun o item => ?_
  cases item with
  | flag k value => cases k <;> rfl
  | file name => rfl

theorem foldl_nodefile :
    (items.foldl Item.effect o).nodefile =
      (items.filterMap Item.name?).getLast?.getD o.nodefile := by
  induction items generalizing o with
  | nil => rfl
  | cons item items ih =>
    rw [List.foldl_cons, ih]
    rcases item with ⟨k, value⟩ | name
    · cases k <;> rfl
    · rw [List.filterMap_cons_some (show Item.name? (.file name) = some name.1 from rfl),
        List.getLast?_cons]
      rfl

/-- The options that read themselves stay 0. -/
theorem foldl_zero (hbuf : o.bufSize = 0) (hque : o.quelen = 0) (hspill : o.nspill = 0) :
    (items.foldl Item.effect o).bufSize = 0 ∧ (items.foldl Item.effect o).quelen = 0 ∧
      (items.foldl Item.effect o).nspill = 0 := by
  induction items generalizing o with
  | nil => exact ⟨hbuf, hque, hspill⟩
  | cons item items ih =>
    have hstep : (Item.effect o item).bufSize = 0 ∧ (Item.effect o item).quelen = 0 ∧
        (Item.effect o item).nspill = 0 := by
      rcases item with ⟨k, value⟩ | name
      · cases k <;> simp [Item.effect, Flag.effect, hbuf, hque, hspill]
      · exact ⟨hbuf, hque, hspill⟩
    exact ih _ hstep.1 hstep.2.1 hstep.2.2

end Items

end Options

namespace CommandLine

open Options

/-- A value of an option is a positive number. -/
theorem last_pos {l : CommandLine} {k : Flag} {w : Word} (h : l.last k = some w) :
    0 < numeral 10 w := by
  obtain ⟨item, -, hvalue⟩ := List.mem_filterMap.mp (List.mem_of_getLast? h)
  rcases item with ⟨k', value⟩ | name
  · rw [Item.valueOf, Option.ite_none_right_eq_some] at hvalue
    obtain ⟨-, hvalue⟩ := hvalue
    cases hvalue
    exact value.2.2.2
  · cases hvalue

theorem said_eq_zero_iff (l : CommandLine) (k : Flag) :
    (0 : ℤ) = (l.last k).elim 0 (fun w => (numeral 10 w : ℤ)) ↔ l.last k = none := by
  cases hlast : l.last k with
  | none => exact iff_of_true rfl rfl
  | some w =>
    have hpos := last_pos hlast
    refine iff_of_false (fun h => ?_) (by simp)
    rw [Option.elim_some] at h
    omega

theorem plain_of_file {l : CommandLine} (hfile : ∀ name ∈ l.file, name.head? ≠ some '-') :
    ∀ item ∈ l.items, item.Plain := by
  intro item hmem name hname
  have hin : name ∈ l.items.filterMap Item.name? := List.mem_filterMap.mpr ⟨item, hmem, hname⟩
  have hone := l.oneFile
  rw [file] at hfile
  obtain ⟨only, heq⟩ : ∃ only, l.items.filterMap Item.name? = [only] :=
    List.length_eq_one_iff.mp (le_antisymm hone (List.length_pos_of_mem hin))
  rw [heq] at hin hfile
  rw [List.mem_singleton.mp hin]
  exact hfile only rfl

/-- What the loop leaves behind, the file name being no option. -/
theorem parse_eq {l : CommandLine} (hfile : ∀ name ∈ l.file, name.head? ≠ some '-') :
    parse l.argv = l.items.foldl Item.effect initial :=
  optionLoop_items (plain_of_file hfile) rfl (Nat.le_add_right _ _) initial

theorem effect_eq_said_iff (l : CommandLine) :
    l.items.foldl Item.effect initial = l.said ↔
      (l.last .b = none ∧ l.last .q = none ∧ l.last .n = none) ∧
        (∀ w ∈ l.last .p, 0 < intOf w) ∧ ∀ w ∈ l.last .c, 0 < intOf w := by
  obtain ⟨hbuf, hque, hspill⟩ := foldl_zero l.items initial rfl rfl rfl
  have hebsrv := foldl_setPort_iff (l.items.filterMap (Item.valueOf .p)) (v := ['5', '5', '5', '9'])
    (by decide)
  have hcom := foldl_setPort_iff (l.items.filterMap (Item.valueOf .c)) (v := ['5', '5', '6', '0'])
    (by decide)
  rw [Options.ext_iff, hbuf, hque, hspill, foldl_ebsrvEndpoint, foldl_comEndpoint, foldl_nodefile]
  constructor
  · rintro ⟨hp, hc, -, hb, hq, hn⟩
    exact ⟨⟨(said_eq_zero_iff l .b).mp hb, (said_eq_zero_iff l .q).mp hq,
      (said_eq_zero_iff l .n).mp hn⟩, hebsrv.mp hp, hcom.mp hc⟩
  · rintro ⟨⟨hb, hq, hn⟩, hp, hc⟩
    exact ⟨hebsrv.mpr hp, hcom.mpr hc, rfl, (said_eq_zero_iff l .b).mpr hb,
      (said_eq_zero_iff l .q).mpr hq, (said_eq_zero_iff l .n).mpr hn⟩

/-- The file name is held only if it is not taken for an option. -/
theorem file_of_parse {l : CommandLine} (h : parse l.argv = l.said) :
    ∀ name ∈ l.file, name.head? ≠ some '-' := by
  intro name hname
  have hnodefile : l.said.nodefile = name := by
    change l.file.getD initial.nodefile = name
    rw [Option.mem_def.mp hname]
    rfl
  rw [← hnodefile, ← h]
  exact optionLoop_nodefile _ initial (by decide)

/-- The command line is honoured exactly if what is written in it is what is read. -/
theorem honoured_iff (l : CommandLine) : l.Honoured ↔ l.Readable := by
  constructor
  · rintro ⟨hsaid, -⟩
    have hfile := file_of_parse hsaid
    rw [parse_eq hfile, effect_eq_said_iff] at hsaid
    exact ⟨hsaid.1, hsaid.2.1, hsaid.2.2, hfile⟩
  · rintro ⟨hself, hp, hc, hfile⟩
    obtain ⟨hbuf, hque, -⟩ := foldl_zero l.items initial rfl rfl rfl
    have hsaid := (effect_eq_said_iff l).mpr ⟨hself, hp, hc⟩
    rw [Honoured, parse_eq hfile]
    refine ⟨hsaid, fun nodes => (TaskOptions.applyOptions_eq_iff _ nodes).mpr ?_⟩
    rw [hbuf, hque]
    exact ⟨Int.le_refl 0, Int.le_refl 0⟩

/-- `leb -b 4096`: the buffer size stays 0. -/
theorem bufsize_not_held : ¬ ∀ l : CommandLine, l.Honoured := by
  intro h
  obtain ⟨hsaid, -⟩ := h
    { program := ['l', 'e', 'b']
      items := [.flag .b ⟨['4', '0', '9', '6'], by decide⟩]
      oneFile := by decide }
  exact absurd hsaid (by decide)

end CommandLine

end LebStudy
