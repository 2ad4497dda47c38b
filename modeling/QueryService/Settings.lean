import QueryService.Cache
import QueryService.Log
import QueryService.Theme

/-!
# Settings

Settings are read from lines of the form `key = value` under section headers in brackets. A line that
says nothing sensible is skipped, and of two lines for one setting the later one counts.
-/

namespace QueryService

/-- The delay is a 32-bit number of milliseconds. -/
structure Settings where
  debounce : UInt32 := 200
  cache : CachePolicy := {}
  theme : Theme := {}
  level : LogLevel := .off
  deriving DecidableEq, Repr

namespace Settings

/-- White space around keys and values also includes the vertical tab and the form feed. -/
def isMargin (c : UInt8) : Bool := Byte.isSpace c || c == 0x0B || c == 0x0C

def trim (text : Bytes) : Bytes := Bytes.trim isMargin text

/-- One past the largest 64-bit size. -/
def sizeLimit : Nat := 0x10000000000000000

def digitsValue (digits : Bytes) : Nat := digits.foldl (fun n c => 10 * n + (c.toNat - 0x30)) 0

/-- A number in decimal digits and nothing else, below the limit. -/
def parseSize? (text : Bytes) : Option Nat :=
  if !text.isEmpty && text.all Byte.isDigit && digitsValue text < sizeLimit then
    some (digitsValue text)
  else none

inductive Section where
  | editor | theme | log | other
  deriving DecidableEq, Repr

def Section.ofName (name : Bytes) : Section :=
  if name = ascii "editor" then .editor
  else if name = ascii "theme" then .theme
  else if name = ascii "log" then .log
  else .other

/-- A delay too large for its type loses its high bits. -/
def assignEditor (s : Settings) (key : Bytes) (size : Nat) : Settings :=
  if key = ascii "debounce_ms" then { s with debounce := size.toUInt32 }
  else if key = ascii "cache_max_entries" then { s with cache := { s.cache with maxEntries := size } }
  else if key = ascii "cache_max_bytes" then { s with cache := { s.cache with maxBytes := size } }
  else s

/-- Sets what a key of a section stands for, if the value can be read. -/
def assign (s : Settings) (within : Section) (key value : Bytes) : Settings :=
  match within with
  | .editor => ((parseSize? value).map (s.assignEditor key)).getD s
  | .theme =>
    (((Color.parse? value).bind (s.theme.set? key)).map fun theme => { s with theme }).getD s
  | .log =>
    if key = ascii "level" then
      ((LogLevel.parse? value).map fun level => { s with level }).getD s
    else s
  | .other => s

/-- The inside of a section header. -/
def header? (line : Bytes) : Option Bytes :=
  if line.head? = some Byte.bracketOpen ∧ line.getLast? = some Byte.bracketClose then
    some line.tail.dropLast
  else none

def isComment (line : Bytes) : Bool :=
  line.head? == some Byte.hash || line.head? == some Byte.semicolon

/-- Reads one line under the section header in force. -/
def readLine (state : Section × Settings) (line : Bytes) : Section × Settings :=
  let (within, s) := state
  let line := trim line
  if line.isEmpty || isComment line then (within, s)
  else match header? line with
    | some name => (Section.ofName (Bytes.toLower (trim name)), s)
    | none =>
      let key := line.takeWhile (· != Byte.equals)
      if key.length = line.length then (within, s)
      else
        let value := line.drop (key.length + 1)
        (within, s.assign within (Bytes.toLower (trim key)) (trim value))

/-- Reads a text over the settings. No header is in force at its beginning. -/
def load (s : Settings) (text : Bytes) : Settings :=
  ((Bytes.feedLines text).foldl readLine (.other, s)).2

/-- Reads a file over the settings, if there is one. -/
def loadFile? (s : Settings) (content : Option Bytes) : Option Settings := content.map s.load

end Settings
end QueryService
