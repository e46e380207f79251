import LebStudy.Leb.NodeList

/-!
# The command line of `leb`

The option loop of `main` and what is done with the options. `-p` and `-c` step to their
value before they read it; `-b`, `-q` and `-n` read first and step then, so they read
themselves: their options stay 0, and the loops that would apply them to every task, the
event builder among them, are never entered.
-/

namespace LebStudy

open Numerals

/-- The variables of `main` that the options set. -/
@[ext] structure Options where
  ebsrvEndpoint : Word
  comEndpoint : Word
  nodefile : Word
  bufSize : ℤ
  quelen : ℤ
  nspill : ℤ
  deriving DecidableEq, Repr

namespace Options

/-- `"tcp://*:" + strport` -/
def endpoint (strport : Word) : Word := ['t', 'c', 'p', ':', '/', '/', '*', ':'] ++ strport

/-- `ebsrv_endpoint_default`, `com_endpoint_default`, `default_file` and zeros. -/
def initial : Options where
  ebsrvEndpoint := endpoint ['5', '5', '5', '9']
  comEndpoint := endpoint ['5', '5', '6', '0']
  nodefile := ['n', 'o', 'd', 'e', 's', '.', 't', 'x', 't']
  bufSize := 0
  quelen := 0
  nspill := 0

/-- `strtol(s, NULL, 0)`, put into an `int`. -/
def intOf (s : Word) : ℤ := wrapInt (strtol 0 s).value

/-- `if (port > 0) { .. }` -/
def setPort (s : Word) (old : Word) : Word := if 0 < intOf s then endpoint s else old

/-- `if ((sargv == flag) && (argc > i + 1)) { .. }`, with the value in `argv[++i]`. -/
def takeNext (argv : List Word) (sargv flag : Word) (set : Word → Options → Options)
    (p : ℕ × Options) : ℕ × Options :=
  if sargv = flag ∧ p.1 + 1 < argv.length then (p.1 + 1, set (argv.getD (p.1 + 1) []) p.2) else p

/-- The same with the value in `argv[i++]`, which is the option itself. -/
def takeSelf (argv : List Word) (sargv flag : Word) (set : Word → Options → Options)
    (p : ℕ × Options) : ℕ × Options :=
  if sargv = flag ∧ p.1 + 1 < argv.length then (p.1 + 1, set (argv.getD p.1 []) p.2) else p

/-- The body of the loop: where it leaves `i`, and the variables. The front of an argument
without characters is its terminating zero. -/
def loopBody (argv : List Word) (i : ℕ) (o : Options) : ℕ × Options :=
  let sargv := argv.getD i []
  let p := takeNext argv sargv ['-', 'p']
    (fun s o => { o with ebsrvEndpoint := setPort s o.ebsrvEndpoint }) (i, o)
  let p := takeNext argv sargv ['-', 'c']
    (fun s o => { o with comEndpoint := setPort s o.comEndpoint }) p
  let p := takeSelf argv sargv ['-', 'b'] (fun s o => { o with bufSize := intOf s }) p
  let p := takeSelf argv sargv ['-', 'q'] (fun s o => { o with quelen := intOf s }) p
  let p := takeSelf argv sargv ['-', 'n'] (fun s o => { o with nspill := intOf s }) p
  if sargv.head? ≠ some '-' then (p.1, { p.2 with nodefile := argv.getD p.1 [] }) else p

/-- `for (; i < argc ; i++) { .. }`, for so many turns at most. -/
def optionLoop (argv : List Word) : ℕ → ℕ → Options → Options
  | 0, _, o => o
  | turns + 1, i, o =>
    if i < argv.length then
      let p := loopBody argv i o
      optionLoop argv turns (p.1 + 1) p.2
    else o

/-- The variables behind the loop: each turn moves on, so `argc` turns are enough. -/
def parse (argv : List Word) : Options := optionLoop argv argv.length 1 initial

end Options

/-! ### The tasks -/

/-- What the options reach in a task. `foreign`: a member of another class was written there. -/
inductive TaskOptions
  | dtarecbe (mBufsize mQuelen : ℤ)
  | dteb (mNspill : ℤ) (foreign : Bool)
  deriving DecidableEq, Repr

namespace TaskOptions

/-- `reinterpret_cast<DTArecbe *>(i)->set_bufsize(size)` -/
def setBufsize (size : ℤ) : TaskOptions → TaskOptions
  | dtarecbe _ quelen => dtarecbe size quelen
  | dteb nspill _ => dteb nspill true

/-- `reinterpret_cast<DTArecbe *>(i)->set_quelen(len)` -/
def setQuelen (len : ℤ) : TaskOptions → TaskOptions
  | dtarecbe bufsize _ => dtarecbe bufsize len
  | dteb nspill _ => dteb nspill true

/-- `eb->set_nspill(i)` -/
def setNspill (i : ℤ) : TaskOptions → TaskOptions
  | dteb _ foreign => dteb i foreign
  | t => t

/-- The tasks of `main`, as they are made. -/
def tasks (nodes : List NodeProp) : List TaskOptions :=
  nodes.map (fun _ => dtarecbe 8192 10000) ++ [dteb 1 false]

/-- The options are applied. -/
def applyOptions (o : Options) (tasks : List TaskOptions) : List TaskOptions :=
  let tasks := if 0 < o.bufSize then tasks.map (setBufsize o.bufSize) else tasks
  let tasks := if 0 < o.quelen then tasks.map (setQuelen o.quelen) else tasks
  if 0 < o.nspill then tasks.map (setNspill o.nspill) else tasks

/-- The tasks with these options, the queue and the buffer size in those of the front-ends only. -/
def tasksSaid (o : Options) (nodes : List NodeProp) : List TaskOptions :=
  nodes.map (fun _ => dtarecbe (if 0 < o.bufSize then o.bufSize else 8192)
    (if 0 < o.quelen then o.quelen else 10000)) ++
    [dteb (if 0 < o.nspill then o.nspill else 1) false]

/-- The casts are right only where they are not reached. -/
theorem applyOptions_eq_iff (o : Options) (nodes : List NodeProp) :
    applyOptions o (tasks nodes) = tasksSaid o nodes ↔ o.bufSize ≤ 0 ∧ o.quelen ≤ 0 := by
  rw [← Int.not_lt, ← Int.not_lt, applyOptions, tasks, tasksSaid]
  by_cases hbuf : 0 < o.bufSize <;> by_cases hque : 0 < o.quelen <;>
    by_cases hspill : 0 < o.nspill <;>
    simp [hbuf, hque, hspill, setBufsize, setQuelen, setNspill]

end TaskOptions

end LebStudy
