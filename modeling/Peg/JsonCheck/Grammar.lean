import Peg.Grammar.Written

namespace Peg.JsonCheck

open Peg.Expr

def digit : Expr := writtenRange "0" "9"

def hexDigit : Expr := choiceAll digit [writtenRange "a" "f", writtenRange "A" "F"]

/-- Parts between commas, or nothing, inside brackets. -/
def bracketed (opening closing : Expr) (part : Expr) : Expr :=
  choice (seq opening closing)
    (seqAll opening [part, zeroOrMore (seq (written ",") part), closing])

def char : Expr :=
  choiceAll
    (seq (look .negative (choice (written "\\\"") (written "\\\\")))
      (writtenRange "\\u\x7b20\x7d" "\\u\x7b10FFFF\x7d")) [
    seq (written "\\\\") (choiceAll (written "\\\"") [
      written "\\\\", written "/", written "b", written "f", written "n", written "r", written "t"]),
    seq (written "\\\\u") (repeated (.exactly 4) hexDigit)]

def number : Expr :=
  seqAll (optional (written "-")) [
    choice (written "0") (seq (writtenRange "1" "9") (zeroOrMore digit)),
    optional (seq (written ".") (oneOrMore digit)),
    optional (seqAll (writtenFolded "e") [optional (choice (written "+") (written "-")), oneOrMore digit])]

def rules : List Rule := [
  .written "whitespace" .silent
    (choiceAll (written " ") [written "\\t", written "\\r", written "\\n"]),
  .written "json" .silent (seqAll startOfInput [rule "value", endOfInput]),
  .written "value" .silent (choiceAll (rule "object") [
    rule "array", rule "string", rule "number", rule "boolean", rule "null"]),
  .written "object" .normal (bracketed (written "\x7b") (written "\x7d") (rule "member")),
  .written "member" .normal (seqAll (rule "string") [written ":", rule "value"]),
  .written "array" .normal (bracketed (written "[") (written "]") (rule "value")),
  .written "boolean" .normal (choice (written "true") (written "false")),
  .written "null" .normal (written "null"),
  .written "string" .compoundAtomic (seqAll (written "\\\"") [rule "text", written "\\\""]),
  .written "text" .atomic (zeroOrMore (rule "char")),
  .written "char" .silent char,
  .written "number" .atomic number]

/-- The interchange format for data: a value with blanks around its parts. -/
def grammar : Grammar where
  rules := rules
  names_ne_nil := by decide
  names_free := by decide
  names_nodup := by decide

end Peg.JsonCheck
