import Lunify.Tree.Basic

namespace Lunify

/-! ### Forms of nodes

Scoping and rendering look at a node's label. The labels with a rule of their own are listed here;
any other label stands for a node that is just the sequence of its children. -/

/-- The constructs with a rule of their own. -/
inductive Form where
  | function
  | conditional
  | alternative
  | whileLoop
  | forLoop
  | assignment
  | call
  | length
  | list
  | set
  | dict
  | pair
  | keywordArgument
  | inversion
  | factor
  | identifier
  | sequence
deriving DecidableEq, Repr, Inhabited

namespace Form

/-- The labels of the constructs. -/
def labels : List (Text × Form) :=
  [(utf8 "<function>", .function), (utf8 "<if>", .conditional), (utf8 "<else>", .alternative),
    (utf8 "<while>", .whileLoop), (utf8 "<for>", .forLoop), (utf8 "<assignment>", .assignment),
    (utf8 "<function_call>", .call), (utf8 "<len>", .length), (utf8 "<list>", .list),
    (utf8 "<set>", .set), (utf8 "<dict>", .dict), (utf8 "<pair>", .pair),
    (utf8 "<keyword_argument>", .keywordArgument), (utf8 "<inversion>", .inversion),
    (utf8 "<factor>", .factor), (identifierSymbol, .identifier)]

def ofLabel (label : Text) : Form :=
  (labels.lookup label).getD .sequence

end Form

def blockLabel : Text := utf8 "<block>"

def parametersLabel : Text := utf8 "<parameters>"

def argumentsLabel : Text := utf8 "<arguments>"

def itemsLabel : Text := utf8 "<items>"

def keywordsLabel : Text := utf8 "<keywords>"

def rangeLabel : Text := utf8 "<range>"

def expressionLabel : Text := utf8 "<expression>"

end Lunify
