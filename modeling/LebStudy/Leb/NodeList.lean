import LebStudy.Lib.Numerals

/-!
# The node file

`nodelist` reads the node file line by line and cuts a line into words at blanks. A line
is a comment, a line for `process_rbcp`, or it has a node; the rest is complained about
and skipped. The conversions of `process_rbcp` throw, and nothing catches them: such a
line ends the program, and so does one whose words are read behind the last.
-/

namespace LebStudy

open Numerals

abbrev Word := List Char

/-- `struct nodeprop` -/
structure NodeProp where
  id : ℤ
  host : Word
  port : ℤ
  isDummy : Bool
  deriving DecidableEq, Repr

/-- `struct rbcp_com` -/
structure RbcpCom where
  host : Word
  port : UInt32
  address : UInt32
  data : List UInt8
  deriving DecidableEq, Repr

/-- The `static` variables of `process_rbcp`. -/
structure RbcpTarget where
  host : Word
  port : UInt32
  deriving DecidableEq, Repr

namespace NodeList

/-- What ends the program: an exception that nothing catches, a word read behind the last, or a
loop that goes on for ever. -/
inductive Abort
  | invalidArgument
  | outOfRange
  | pastWords
  | noReturn
  deriving DecidableEq, Repr

/-- What `process_rbcp` has at its first call. -/
def defaultTarget : RbcpTarget := ⟨['b', 'c'], 4660⟩

/-! ### Characters and words -/

def decDigits : List Char := ['0', '1', '2', '3', '4', '5', '6', '7', '8', '9']

def hexDigits : List Char :=
  decDigits ++ ['a', 'b', 'c', 'd', 'e', 'f', 'A', 'B', 'C', 'D', 'E', 'F']

def isNumber (s : Word) : Bool :=
  s.all (· ∈ '.' :: decDigits) && s.head? ≠ some '.' && s.getLast? ≠ some '.'

def isHexNumber (s : Word) : Bool := s.all (· ∈ hexDigits)

/-- `s == "rbcp" || s == "RBCP"` -/
def isRbcp (s : Word) : Bool := s = ['r', 'b', 'c', 'p'] || s = ['R', 'B', 'C', 'P']

/-- `s == "dummy" || s == "DUMMY"` -/
def isDummy (s : Word) : Bool :=
  s = ['d', 'u', 'm', 'm', 'y'] || s = ['D', 'U', 'M', 'M', 'Y']

def hostWord : Word := ['h', 'o', 's', 't']

def portWord : Word := ['p', 'o', 'r', 't']

/-! ### The words of a line -/

/-- `line.find(SEPARATOR, offset)`: a negative `int` is a position behind every string. -/
def find (line : List Char) (offset : ℤ) : Option ℕ :=
  if 0 ≤ offset then ((line.drop offset.toNat).idxOf? ' ').map (offset.toNat + ·) else none

/-- `line.substr(offset, n)` -/
def substr (line : List Char) (offset : ℤ) (n : ℕ) : Except Abort (List Char) :=
  if 0 ≤ offset ∧ offset ≤ line.length then .ok ((line.drop offset.toNat).take n)
  else .error .outOfRange

/-- `if (word != "") words.push_back(word);` -/
def pushWord (words : List Word) (word : Word) : List Word :=
  if word ≠ [] then words ++ [word] else words

/-- `while (true) { .. }` from `offset` on, an `int`. -/
def wordsLoop (line : List Char) : ℕ → ℤ → List Word → Except Abort (List Word)
  | 0, _, _ => .error .noReturn
  | turns + 1, offset, words =>
    match find line offset with
    | none => (substr line offset line.length).map (pushWord words)
    | some pos =>
      match substr line offset (pos - offset.toNat) with
      | .error e => .error e
      | .ok oneword => wordsLoop line turns (wrapInt (pos + 1)) (pushWord words oneword)

/-- The words of a line. If the loop ends it does so within these turns: each begins behind a
blank. -/
def wordsOf (line : List Char) : Except Abort (List Word) := wordsLoop line (line.length + 2) 0 []

/-! ### The lines -/

/-- `std::stoi`, with the exceptions among the other ways to end. -/
def stoi (base : ℕ) (s : Word) : Except Abort ℤ :=
  (Numerals.stoi base s).mapError fun
    | .invalidArgument => .invalidArgument
    | .outOfRange => .outOfRange

/-- An `int` as an `unsigned int`. -/
def toUnsigned (i : ℤ) : UInt32 := UInt32.ofNat (i % 2 ^ 32).toNat

/-- `static_cast<char>(val & 0xff)` -/
def toByte (i : ℤ) : UInt8 := UInt8.ofNat (i % 2 ^ 8).toNat

/-- `process_rbcp`, the lines that set `host` and `port`. -/
def setTarget (words : List Word) (target : RbcpTarget) : Except Abort RbcpTarget :=
  let target :=
    if words.getD 1 [] = hostWord ∧ 2 < words.length then
      { target with host := words.getD 2 [] }
    else target
  if words.getD 1 [] = portWord ∧ 2 < words.length then
    (stoi 10 (words.getD 2 [])).map fun port => { target with port := toUnsigned port }
  else .ok target

/-- `process_rbcp`, the lines with a command. -/
def addCommand (words : List Word) (target : RbcpTarget) (com : List RbcpCom) :
    Except Abort (List RbcpCom) :=
  if 3 < words.length then
    if isHexNumber (words.getD 1 []) && isHexNumber (words.getD 2 []) then do
      let address ← stoi 16 (words.getD 1 [])
      let data ← (words.drop 2).mapM (stoi 16)
      .ok (com ++ [⟨target.host, target.port, toUnsigned address, data.map toByte⟩])
    else
      -- "wrong line :"
      .ok com
  else .ok com

/-- `process_rbcp`: the value, the static variables and the commands behind the call. -/
def processRbcp (words : List Word) (target : RbcpTarget) (com : List RbcpCom) :
    Except Abort (ℤ × RbcpTarget × List RbcpCom) :=
  if isRbcp (words.getD 0 []) then
    if words.length < 2 then .error .pastWords
    else do
      let target ← setTarget words target
      let com ← addCommand words target com
      .ok (0, target, com)
  else .ok (-1, target, com)

/-- The node of a line of three words and more, if its numbers are numbers. -/
def nodeOf (words : List Word) : Option NodeProp :=
  if isNumber (words.getD 0 []) then
    if isNumber (words.getD 2 []) then
      some ⟨extractInt (words.getD 0 []), words.getD 1 [], extractInt (words.getD 2 []),
        decide (3 < words.length) && isDummy (words.getD 3 [])⟩
    else none
  else none

/-- What `nodelist` fills, with the static variables of `process_rbcp`. -/
structure State where
  target : RbcpTarget
  nodes : List NodeProp
  rcoms : List RbcpCom
  deriving DecidableEq, Repr

/-- The body of the loop behind the words. -/
def processWords (s : State) (words : List Word) : Except Abort State :=
  if words.length < 1 then .ok s
  else if (words.getD 0 []).head? = some '#' then .ok s
  else if isRbcp (words.getD 0 []) then
    (processRbcp words s.target s.rcoms).map fun (_, target, rcoms) =>
      { s with target := target, rcoms := rcoms }
  else if 3 ≤ words.length then .ok { s with nodes := s.nodes ++ (nodeOf words).toList }
  else
    -- "Err. : "
    .ok s

def processLine (s : State) (line : List Char) : Except Abort State :=
  (wordsOf line).bind (processWords s)

/-- The lines that `getline` gives: the last only if there is something in it. -/
def lines (content : List Char) : List (List Char) :=
  if (content.splitOn '\n').getLast? = some [] then (content.splitOn '\n').dropLast
  else content.splitOn '\n'

/-- `while (getline(ifs, line)) { .. }` -/
def linesLoop (s : State) (ls : List (List Char)) : Except Abort State := ls.foldlM processLine s

/-- `nodelist` for a file with this content, or one that cannot be opened: the value it returns
and what it leaves behind. -/
def nodelist (file : Option (List Char)) (s : State) : Except Abort (ℤ × State) :=
  match file with
  | none => .ok (-1, s)
  | some content => (linesLoop s (lines content)).map fun s => (0, s)

end NodeList

end LebStudy
