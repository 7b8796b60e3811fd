import Lineage.Text.Basic
import Lineage.Text.Pattern

/-!
# Tags

A tag says how the text of a scalar is to be read. A plain scalar without a tag receives one by
its form. Which forms are tried depends on the first character; where several match, the first one
wins, and a text of no form is a plain text. A line feed at the very end is not part of a form.
-/

namespace Lineage.Yaml.Tag

open Lineage.Text Lineage.Text.Pattern

/-- The tag of a standard type. -/
def standard (name : String) : String :=
  "tag:yaml.org,2002:" ++ name

/-- One of the given words. -/
def words (l : List String) : Pattern :=
  anyOf (l.map word)

/-- A sign or nothing. -/
def sign : Pattern :=
  optional (among ['-', '+'])

/-- A run of digits and underscores. -/
def digitsAndMarks : Pattern :=
  star (one fun c => c.isDigit || c == '_')

/-- A digit, then digits and underscores. -/
def number : Pattern :=
  join digit digitsAndMarks

/-- A number that does not start with a zero. -/
def positive : Pattern :=
  join (one fun c => c.isDigit && c != '0') digitsAndMarks

/-- Groups of sixty, each behind a colon. -/
def sixties : Pattern :=
  plus (all [word ":", optional (one fun c => '0' ≤ c && c ≤ '5'), digit])

/-- A signed exponent or nothing. -/
def exponent : Pattern :=
  optional (all [among ['e', 'E'], among ['-', '+'], plus digit])

/-- The truth values. -/
def truth : Pattern :=
  words ["yes", "Yes", "YES", "no", "No", "NO", "true", "True", "TRUE", "false", "False", "FALSE",
    "on", "On", "ON", "off", "Off", "OFF"]

/-- The decimals: with a point, to the base sixty, infinite, or no number. -/
def real : Pattern :=
  anyOf [
    all [sign, number, word ".", digitsAndMarks, exponent],
    all [word ".", number, exponent],
    all [sign, number, sixties, word ".", digitsAndMarks],
    all [sign, words [".inf", ".Inf", ".INF"]],
    words [".nan", ".NaN", ".NAN"]]

/-- The whole numbers: binary, octal, decimal, hexadecimal, or to the base sixty. -/
def whole : Pattern :=
  anyOf [
    all [sign, word "0b", plus (among ['0', '1', '_'])],
    all [sign, word "0", plus (one fun c => ('0' ≤ c && c ≤ '7') || c == '_')],
    all [sign, either (word "0") positive],
    all [sign, word "0x", plus (one fun c =>
      c.isDigit || ('a' ≤ c && c ≤ 'f') || ('A' ≤ c && c ≤ 'F') || c == '_')],
    all [sign, positive, sixties]]

/-- The words for nothing. -/
def null : Pattern :=
  words ["~", "null", "Null", "NULL", ""]

/-- One or two digits. -/
def upToTwo : Pattern :=
  join digit (optional digit)

/-- A run of spaces and tabs. -/
def spaces : Pattern :=
  star (among [' ', '\t'])

/-- The dates and the times. -/
def instant : Pattern :=
  either
    (all [digits 4, word "-", digits 2, word "-", digits 2])
    (all [
      digits 4, word "-", upToTwo, word "-", upToTwo,
      either (among ['T', 't']) (plus (among [' ', '\t'])),
      upToTwo, word ":", digits 2, word ":", digits 2,
      optional (join (word ".") (star digit)),
      optional (join spaces (either (word "Z")
        (all [among ['-', '+'], upToTwo, optional (join (word ":") (digits 2))])))])

/-- The forms with their tags and the first characters that call for them, in the order in which
they are tried; a text without a first character calls for the words for nothing. -/
def forms : List (String × Pattern × List Char) :=
  [(standard "bool", truth, "yYnNtTfFoO".toList),
    (standard "float", real, "-+0123456789.".toList),
    (standard "int", whole, "-+0123456789".toList),
    (standard "merge", word "<<", ['<']),
    (standard "null", null, ['~', 'n', 'N', '\x00']),
    (standard "timestamp", instant, "0123456789".toList),
    (standard "value", word "=", ['=']),
    (standard "yaml", words ["!", "&", "*"], ['!', '&', '*'])]

/-- Whether the text has the form, perhaps with a line feed behind it. -/
def hasForm (p : Pattern) (cs : List Char) : Bool :=
  p.accepts cs || (cs.getLast? == some '\n' && p.accepts cs.dropLast)

/-- The tag of some characters by their form. -/
def ofChars (cs : List Char) : String :=
  let first := cs.head?.getD '\x00'
  match forms.find? fun (_, p, starts) => starts.contains first && hasForm p cs with
  | some (tag, _) => tag
  | none => standard "str"

/-- The tag of a plain scalar by its form; no form holds a surrogate. -/
def ofPlain (text : Text) : String :=
  match text.toString? with
  | some s => ofChars s.toList
  | none => standard "str"

end Lineage.Yaml.Tag
