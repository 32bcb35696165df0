import Peg.Grammar.Written

namespace Peg.Calc

open Peg.Expr

def number : Expr :=
  let digits := oneOrMore (writtenRange "0" "9")
  seq digits (optional (seq (written ".") digits))

def rules : List Rule := [
  .written "whitespace" .silent (choice (written " ") (written "\\t")),
  .written "statement" .silent (seqAll startOfInput [
    choiceAll (rule "quit") [rule "assignment", rule "expr"], optional (rule "eol"), endOfInput]),
  .written "quit" .normal (choice (writtenFolded "exit") (writtenFolded "quit")),
  .written "assignment" .normal (seqAll (rule "ident") [written "=", rule "expr"]),
  .written "expr" .normal (seq (rule "term") (zeroOrMore (seq (rule "add_op") (rule "term")))),
  .written "term" .normal (seq (rule "factor") (zeroOrMore (seq (rule "mul_op") (rule "factor")))),
  .written "factor" .silent (choiceAll (rule "number") [
    seq (rule "ident") (look .negative (written "=")),
    seqAll (written "(") [rule "expr", written ")"]]),
  .written "add_op" .normal (choice (written "+") (written "-")),
  .written "mul_op" .normal (choice (written "*") (written "/")),
  .written "number" .atomic number,
  .written "ident" .atomic (choice (writtenRange "a" "z") (writtenRange "A" "Z")),
  .written "eol" .silent (choiceAll (written "\\n") [written "\\r\\n", written "\\r"])]

/-- Statements of a calculator: to quit, to assign a variable, or to value an expression. -/
def grammar : Grammar where
  rules := rules
  names_ne_nil := by decide
  names_free := by decide
  names_nodup := by decide

end Peg.Calc
