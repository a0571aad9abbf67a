import Lunify.Grammar.Text

namespace Lunify

namespace Grammar

/-! ### The built-in grammar

The subset of Python that is read when no other rules are given: assignments, calls, printing,
conditionals, loops, function definitions and expressions over numbers, strings, lists, dicts and
sets. Lists are left recursive. -/

/-- The lines of the built-in rule text. -/
def builtinLines : List String :=
  [
    "# Python subset accepted by lupy.",
    "#",
    "# Rule-less symbols in angle brackets (<Identifier>, <Number>, <String>) are",
    "# token categories. Every other rule-less symbol matches the literal content",
    "# of a token, including the layout dividers newline, indent and dedent.",
    "# Lists are left recursive and no alternative may be empty.",
    "",
    "<program> -> <statements>",
    "",
    "<statements> -> <statement> | <statements> <statement>",
    "<statement> -> <simple_statement> newline | <compound_statement> | newline",
    "",
    "<simple_statement> -> <assignment> | <function_call> | <print> | <return> | break | continue | pass",
    "<compound_statement> -> <function> | <if> | <while> | <for>",
    "",
    "<block> -> <simple_statement> newline | <newlines> indent <statements> dedent",
    "<newlines> -> newline | <newlines> newline",
    "",
    "# statements",
    "<assignment> -> <Identifier> = <expression> | <subscript> = <expression>",
    "<function> -> def <Identifier> ( ) : <block> | def <Identifier> ( <parameters> ) : <block>",
    "<parameters> -> <Identifier> | <parameters> , <Identifier>",
    "<return> -> return | return <expression>",
    "<print> -> print ( ) | print ( <arguments> )",
    "<function_call> -> <Identifier> ( ) | <Identifier> ( <arguments> )",
    "<arguments> -> <expression> | <arguments> , <expression>",
    "",
    "<if> -> if <expression> : <block> | if <expression> : <block> <else>",
    "<else> -> elif <expression> : <block> | elif <expression> : <block> <else> | else : <block>",
    "<while> -> while <expression> : <block>",
    "<for> -> for <Identifier> in <range> : <block> | for <Identifier> in <expression> : <block>",
    "<range> -> range ( <expression> ) | range ( <expression> , <expression> ) | range ( <expression> , <expression> , <expression> )",
    "",
    "# expressions, loosest binding first",
    "<expression> -> <disjunction>",
    "<disjunction> -> <disjunction> or <conjunction> | <conjunction>",
    "<conjunction> -> <conjunction> and <inversion> | <inversion>",
    "<inversion> -> not <inversion> | <comparison>",
    "<comparison> -> <sum> <compare_op> <sum> | <sum>",
    "<compare_op> -> == | != | < | > | <= | >=",
    "<sum> -> <sum> <sum_op> <term> | <term>",
    "<sum_op> -> + | -",
    "<term> -> <term> <term_op> <factor> | <factor>",
    "<term_op> -> * | / | %",
    "<factor> -> - <factor> | + <factor> | <power>",
    "<power> -> <primary> ** <factor> | <primary>",
    "<primary> -> <atom> | <function_call> | <subscript> | <len> | ( <expression> )",
    "<subscript> -> <primary> [ <expression> ]",
    "<len> -> len ( <expression> )",
    "",
    "# literals",
    "<atom> -> <Identifier> | <Number> | <String> | True | False | None | <list> | <dict> | <set>",
    "<list> -> [ ] | [ <items> ] | [ <items> , ]",
    "<items> -> <expression> | <items> , <expression>",
    "<dict> -> \x7b \x7d | \x7b <pairs> \x7d | \x7b <pairs> , \x7d | dict ( ) | dict ( <keywords> )",
    "<pairs> -> <pair> | <pairs> , <pair>",
    "<pair> -> <expression> : <expression>",
    "<keywords> -> <keyword_argument> | <keywords> , <keyword_argument>",
    "<keyword_argument> -> <Identifier> = <expression>",
    "<set> -> \x7b <items> \x7d | \x7b <items> , \x7d"]

def builtinText : Text :=
  builtinLines.flatMap fun line => utf8 line ++ utf8 "\n"

def builtin : Grammar :=
  match load builtinText with
  | .ok g => g
  | .error _ => ⟨[⟨[], [[]], List.cons_ne_nil _ _⟩], List.cons_ne_nil _ _⟩

end Grammar

end Lunify
