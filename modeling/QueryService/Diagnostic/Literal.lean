import QueryService.Diagnostic
import QueryService.Token.Lexer

/-!
# Faults of single tokens

The text of a string, number or comment token shows whether it is well formed.
-/

namespace QueryService
namespace Literal

/-- Whether a string lacks its closing quote. A quote after an odd number of backslashes is escaped and
closes nothing; the opening quote is not counted among them. -/
def isUnterminatedString : Bytes → Bool
  | quote :: next :: rest =>
    if !Byte.isQuote quote then false
    else if (next :: rest).getLast? != some quote then true
    else Bytes.run (· == Byte.backslash) (next :: rest).dropLast.reverse % 2 == 1
  | _ => true

/-- What follows one or more digits. -/
def afterDigits? (text : Bytes) : Option Bytes :=
  if Lexer.nextIs Byte.isDigit text then some (text.dropWhile Byte.isDigit) else none

def afterFraction? : Bytes → Option Bytes
  | Byte.dot :: rest => afterDigits? rest
  | text => some text

def afterExponent? : Bytes → Option Bytes
  | mark :: rest =>
    if !Byte.isExponentMark mark then some (mark :: rest)
    else if Lexer.nextIs Byte.isSign rest then afterDigits? rest.tail
    else afterDigits? rest
  | [] => some []

/-- Whether a number is not of the form digits, fraction, exponent, the last two optional. -/
def isInvalidNumber (text : Bytes) : Bool :=
  (afterDigits? text >>= afterFraction? >>= afterExponent?) != some []

/-- Whether a block comment lacks its end; the star of the opening is not part of it. -/
def isUnterminatedComment (text : Bytes) : Bool :=
  (ascii "/*").isPrefixOf text && (text.length < 4 || !(ascii "*/").isSuffixOf text)

/-- What is wrong with a token by itself. -/
def diagnose (t : Token) : Option Diagnostic :=
  match t.kind with
  | .unknown =>
    some <| .on t .invalidToken
      (ascii "Invalid token \"" ++ t.value ++ ascii "\". Contains invalid characters or format.")
      (ascii "Use only letters, numbers, and underscores for identifiers")
  | .string =>
    if isUnterminatedString t.value then
      some <| .on t .unterminatedString
        (ascii "Unterminated string literal. Missing closing quote.")
        (ascii "Add closing quote to complete the string")
    else none
  | .number =>
    if isInvalidNumber t.value then
      some <| .on t .invalidNumber (ascii "Invalid number format \"" ++ t.value ++ ascii "\".")
        (ascii "Use valid number format (e.g., 123, 123.45, 1.23e-4)")
    else none
  | .comment =>
    -- Only the opening is underlined.
    if isUnterminatedComment t.value then
      some { Diagnostic.on t .unterminatedComment
          (ascii "Unterminated block comment. Missing closing */.")
          (ascii "Add */ to close the comment") with length := 2 }
    else none
  | _ => none

end Literal

def literalDiagnostics (tokens : List Token) : List Diagnostic := tokens.filterMap Literal.diagnose

end QueryService
