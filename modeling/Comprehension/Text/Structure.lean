/-
The layout of structural text.

Structural text spells out how a value is put together. A constructor with
positional arguments reads `Label(a, b)`, a record `Label { field: a }`, a list
`[a, b]`, a pair `(a, b)`; an absent optional value reads `None` and a present one
`Some(a)`. An open record ends in `..` to say that it holds more than is shown.

Text inside it is quoted, on one line, so that it can be read back: a quote and a
backslash are written after a backslash, newline, carriage return, tab and the null
character by a letter or digit after a backslash, and any other character that cannot be
shown as it is by its code point in hexadecimal.
-/

import Comprehension.Text.Printable

namespace Comprehension.Text

/-- One character inside quotes. -/
def quoteChar (c : Char) : String :=
  if c = '"' then "\\\""
  else if c = '\\' then "\\\\"
  else if c = '\n' then "\\n"
  else if c = '\r' then "\\r"
  else if c = '\t' then "\\t"
  else if c = '\x00' then "\\0"
  else if isPrintable c then c.toString
  else "\\u\x7b" ++ String.ofList (Nat.toDigits 16 c.toNat) ++ "\x7d"

/-- Text in double quotes. -/
def quoted (text : String) : String :=
  "\"" ++ "".intercalate (text.toList.map quoteChar) ++ "\""

/-- Items between brackets, separated by commas. -/
def bracketed (before : String) (items : List String) (after : String) : String :=
  before ++ ", ".intercalate items ++ after

/-- A constructor applied to positional arguments. -/
def application (label : String) (arguments : List String) : String :=
  bracketed (label ++ "(") arguments ")"

/-- The fields of a record. -/
def fieldTexts (fields : List (String × String)) : List String :=
  fields.map fun field => field.1 ++ ": " ++ field.2

/-- A record with all its fields. -/
def record (label : String) (fields : List (String × String)) : String :=
  bracketed (label ++ " \x7b ") (fieldTexts fields) " \x7d"

/-- A record that shows some of its fields. -/
def openRecord (label : String) (fields : List (String × String)) : String :=
  bracketed (label ++ " \x7b ") (fieldTexts fields ++ [".."]) " \x7d"

def sequence (items : List String) : String := bracketed "[" items "]"

def pair (a b : String) : String := bracketed "(" [a, b] ")"

def optional : Option String → String
  | none => "None"
  | some text => application "Some" [text]

end Comprehension.Text
