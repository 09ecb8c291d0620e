import DocPatch.Json.Number
import DocPatch.Text.Quoted

/-! What can be wrong with a JSON text, where, and in which words it is reported. -/

namespace DocPatch

/-- What stood where a value of another kind was wanted. -/
inductive Found where
  | null
  | bool (value : Bool)
  | number (value : Number)
  | string (value : String)
  | sequence
  | map

/-- Why a text cannot be read. -/
inductive Cause where
  | endInValue
  | endInList
  | endInObject
  | endInString
  | noValue
  | brokenWord
  | noColon
  | noListSeparator
  | noObjectSeparator
  | trailingComma
  | trailingCharacters
  | keyNotString
  | invalidNumber
  | numberOutOfRange
  | invalidEscape
  | unpairedEscape
  | loneSurrogate
  | controlCharacter
  | tooDeep
  | wrongType (found : Found) (wanted : String)
  | wrongLength (count : Nat) (wanted : String)
  | repeatedField (name : String)
  | absentField (name : String)

/-- A cause, and how many bytes of the text had been read when it arose. -/
structure Fault where
  cause : Cause
  offset : Nat

namespace Found

/-- How a message names what was found. -/
def describe : Found → String
  | .null => "null"
  | .bool value => "boolean `" ++ toString value ++ "`"
  | .number (.int value) => "integer `" ++ toString value ++ "`"
  | .number (.float value) => "floating point `" ++ Number.doubleText value ++ "`"
  | .string value => "string " ++ Quoted.quote value
  | .sequence => "sequence"
  | .map => "map"

end Found

namespace Cause

/-- The words of a cause. -/
def message : Cause → String
  | .endInValue => "EOF while parsing a value"
  | .endInList => "EOF while parsing a list"
  | .endInObject => "EOF while parsing an object"
  | .endInString => "EOF while parsing a string"
  | .noValue => "expected value"
  | .brokenWord => "expected ident"
  | .noColon => "expected `:`"
  | .noListSeparator => "expected `,` or `]`"
  | .noObjectSeparator => "expected `,` or `\x7d`"
  | .trailingComma => "trailing comma"
  | .trailingCharacters => "trailing characters"
  | .keyNotString => "key must be a string"
  | .invalidNumber => "invalid number"
  | .numberOutOfRange => "number out of range"
  | .invalidEscape => "invalid escape"
  | .unpairedEscape => "unexpected end of hex escape"
  | .loneSurrogate => "lone leading surrogate in hex escape"
  | .controlCharacter => "control character (\\u0000-\\u001F) found while parsing a string"
  | .tooDeep => "recursion limit exceeded"
  | .wrongType found wanted => "invalid type: " ++ found.describe ++ ", expected " ++ wanted
  | .wrongLength count wanted => "invalid length " ++ toString count ++ ", expected " ++ wanted
  | .repeatedField name => "duplicate field `" ++ name ++ "`"
  | .absentField name => "missing field `" ++ name ++ "`"

end Cause

/-- A cause with its place: lines count from one, columns count the bytes read on the line. -/
structure ReadError where
  cause : Cause
  line : Nat
  column : Nat

namespace ReadError

/-- The text of the error, place included. -/
def message (error : ReadError) : String :=
  error.cause.message ++ " at line " ++ toString error.line ++ " column " ++ toString error.column

/-- The diagnostic form of the error. -/
def diagnostic (error : ReadError) : String :=
  "Error(" ++ Quoted.quote error.cause.message ++ ", line: " ++ toString error.line
    ++ ", column: " ++ toString error.column ++ ")"

end ReadError

/-- The place of a fault in its text. -/
def Fault.locate (text : String) (fault : Fault) : ReadError :=
  let read := text.toUTF8.toList.take fault.offset
  { cause := fault.cause
    -- Lines are counted from one, and columns in bytes behind the last break.
    line := 1 + read.count 10
    column := (read.reverse.takeWhile (· != 10)).length }

end DocPatch
