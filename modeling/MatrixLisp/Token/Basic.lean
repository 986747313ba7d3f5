import MatrixLisp.Span

/-!
# Tokens

A token is a kind and the span it covers. Brackets come in three shapes, each with an opener and a
closer; a mark is a sigil that stands before one form and wraps it.
-/
namespace MatrixLisp

/-- The shape of a bracketed form. -/
inductive Bracket where
  | round
  | square
  | curly
  deriving DecidableEq

namespace Bracket

def openText : Bracket → String
  | round => "("
  | square => "["
  | curly => "\x7b"

def closeText : Bracket → String
  | round => ")"
  | square => "]"
  | curly => "\x7d"

/-- What a form in this bracket is called. -/
def noun : Bracket → String
  | round => "list"
  | square => "vector"
  | curly => "map"

end Bracket

/-- A sigil that stands before a form. -/
inductive Mark where
  | quote
  | quasiquote
  | unquote
  | spliceUnquote
  | deref
  deriving DecidableEq

namespace Mark

def text : Mark → String
  | quote => "'"
  | quasiquote => "`"
  | unquote => "~"
  | spliceUnquote => "~@"
  | deref => "@"

/-- The symbol that heads the list which a marked form stands for. -/
def symbol : Mark → String
  | quote => "quote"
  | quasiquote => "quasiquote"
  | unquote => "unquote"
  | spliceUnquote => "splice-unquote"
  | deref => "deref"

end Mark

/-- What a token is. Kinds without a fixed text carry the text they were read from. -/
inductive TokenKind where
  | opener (bracket : Bracket)
  | closer (bracket : Bracket)
  | mark (mark : Mark)
  | caret
  | semicolon
  /-- A complete string literal, its quotes included. -/
  | string (text : String)
  /-- A string literal whose closing quote is missing. -/
  | unterminated (text : String)
  /-- A number or a symbol. -/
  | atom (text : String)
  /-- Text that no pattern matches. -/
  | unmatched (text : String)
  deriving DecidableEq

namespace TokenKind

/-- The source text of a token of this kind. -/
def text : TokenKind → String
  | opener b => b.openText
  | closer b => b.closeText
  | mark m => m.text
  | caret => "^"
  | semicolon => ";"
  | string s => s
  | unterminated s => s
  | atom s => s
  | unmatched s => s

def symbol? : TokenKind → Option String
  | mark m => some m.symbol
  | _ => none

end TokenKind

structure Token where
  kind : TokenKind
  span : Span
  deriving DecidableEq

end MatrixLisp
