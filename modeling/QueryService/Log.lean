import QueryService.Text.Bytes

/-!
# Logging

Messages have a level, and a log writes those that are no noisier than its own level.
-/

namespace QueryService

/-- From the quietest to the noisiest. -/
inductive LogLevel where
  | off | error | info | debug
  deriving DecidableEq, Repr

namespace LogLevel

def rank : LogLevel → Nat
  | .off => 0
  | .error => 1
  | .info => 2
  | .debug => 3

def name : LogLevel → Bytes
  | .off => ascii "off"
  | .error => ascii "error"
  | .info => ascii "info"
  | .debug => ascii "debug"

/-- The level with this name, in any case. -/
def parse? (name : Bytes) : Option LogLevel :=
  if Bytes.sameWord name (ascii "off") || Bytes.sameWord name (ascii "none") then some .off
  else if Bytes.sameWord name (ascii "error") then some .error
  else if Bytes.sameWord name (ascii "info") then some .info
  else if Bytes.sameWord name (ascii "debug") then some .debug
  else none

end LogLevel

/-- A log and what was written to it, the latest line first. -/
structure Log where
  level : LogLevel := .off
  written : List Bytes := []
  deriving DecidableEq, Repr

namespace Log

def enabled (l : Log) : Bool := l.level != .off

/-- A message of level off is never written. -/
def admits (l : Log) (level : LogLevel) : Bool :=
  l.enabled && level != .off && level.rank ≤ l.level.rank

def line (level : LogLevel) (component message : Bytes) : Bytes :=
  ascii "[syndrql:" ++ level.name ++ ascii "] " ++ component ++ ascii ": " ++ message ++ [Byte.lf]

def write (l : Log) (level : LogLevel) (component message : Bytes) : Log :=
  if l.admits level then { l with written := line level component message :: l.written } else l

def text (l : Log) : Bytes := l.written.reverse.flatten

end Log
end QueryService
