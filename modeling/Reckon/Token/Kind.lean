/-
Kinds of tokens.

The lexicon is larger than the grammar of expressions: it has the words and marks of a
small programming language, of which expressions use numbers, parentheses and the four
operators.
-/

namespace Reckon

/-- A reserved word. -/
inductive Keyword where
  | andWord
  | classWord
  | elseWord
  | falseWord
  | forWord
  | funWord
  | ifWord
  | nilWord
  | orWord
  | printWord
  | returnWord
  | superWord
  | thisWord
  | trueWord
  | varWord
  | whileWord
deriving DecidableEq, Repr

namespace Keyword

/-- All reserved words, in alphabetical order. -/
def all : List Keyword :=
  [andWord, classWord, elseWord, falseWord, forWord, funWord, ifWord, nilWord, orWord,
   printWord, returnWord, superWord, thisWord, trueWord, varWord, whileWord]

/-- How the word is written in a source. -/
def spelling : Keyword → String
  | andWord => "and"
  | classWord => "class"
  | elseWord => "else"
  | falseWord => "false"
  | forWord => "for"
  | funWord => "fun"
  | ifWord => "if"
  | nilWord => "nil"
  | orWord => "or"
  | printWord => "print"
  | returnWord => "return"
  | superWord => "super"
  | thisWord => "this"
  | trueWord => "true"
  | varWord => "var"
  | whileWord => "while"

/-- What a word can still be after a look at its first letters: a reserved word, of which
`settled` letters are found and the letters `ending` are to follow. -/
structure Prospect where
  word : Keyword
  settled : Nat
  ending : String
deriving DecidableEq, Repr

/-- The reserved word that a word begins like.  The first letter decides, but after `f` and
`t` the second one is needed. -/
def prospect? : List Char → Option Prospect
  | 'a' :: _ => some ⟨andWord, 1, "nd"⟩
  | 'c' :: _ => some ⟨classWord, 1, "lass"⟩
  | 'e' :: _ => some ⟨elseWord, 1, "lse"⟩
  | 'f' :: 'a' :: _ => some ⟨falseWord, 2, "lse"⟩
  | 'f' :: 'o' :: _ => some ⟨forWord, 2, "r"⟩
  | 'f' :: 'u' :: _ => some ⟨funWord, 2, "n"⟩
  | 'i' :: _ => some ⟨ifWord, 1, "f"⟩
  | 'n' :: _ => some ⟨nilWord, 1, "il"⟩
  | 'o' :: _ => some ⟨orWord, 1, "r"⟩
  | 'p' :: _ => some ⟨printWord, 1, "rint"⟩
  | 'r' :: _ => some ⟨returnWord, 1, "eturn"⟩
  | 's' :: _ => some ⟨superWord, 1, "uper"⟩
  | 't' :: 'h' :: _ => some ⟨thisWord, 2, "is"⟩
  | 't' :: 'r' :: _ => some ⟨trueWord, 2, "ue"⟩
  | 'v' :: _ => some ⟨varWord, 1, "ar"⟩
  | 'w' :: _ => some ⟨whileWord, 1, "hile"⟩
  | _ => none

/-- The reserved word with a given spelling: the one that it begins like, if nothing but the
ending of that word follows. -/
def ofSpelling? (s : String) : Option Keyword :=
  match prospect? s.toList with
  | some p => if s.toList.drop p.settled = p.ending.toList then some p.word else none
  | none => none

/-- The word's name in listings. -/
def name : Keyword → String
  | andWord => "AND"
  | classWord => "CLASS"
  | elseWord => "ELSE"
  | falseWord => "FALSE"
  | forWord => "FOR"
  | funWord => "FUN"
  | ifWord => "IF"
  | nilWord => "NIL"
  | orWord => "OR"
  | printWord => "PRINT"
  | returnWord => "RETURN"
  | superWord => "SUPER"
  | thisWord => "THIS"
  | trueWord => "TRUE"
  | varWord => "VAR"
  | whileWord => "WHILE"

/-- The word's name as a variant of its type. -/
def variant : Keyword → String
  | andWord => "And"
  | classWord => "Class"
  | elseWord => "Else"
  | falseWord => "False"
  | forWord => "For"
  | funWord => "Fun"
  | ifWord => "If"
  | nilWord => "Nil"
  | orWord => "Or"
  | printWord => "Print"
  | returnWord => "Return"
  | superWord => "Super"
  | thisWord => "This"
  | trueWord => "True"
  | varWord => "Var"
  | whileWord => "While"

end Keyword

/-- The kind of a token.  `fault` marks text that is no token, `eof` the end of the source. -/
inductive Kind where
  | leftParen
  | rightParen
  | leftBrace
  | rightBrace
  | comma
  | dot
  | minus
  | plus
  | semicolon
  | slash
  | star
  | bang
  | bangEqual
  | equal
  | equalEqual
  | greater
  | greaterEqual
  | less
  | lessEqual
  | identifier
  | string
  | number
  | keyword (word : Keyword)
  | fault
  | eof
deriving DecidableEq, Repr

namespace Kind

/-- All kinds, in the order in which they are numbered. -/
def all : List Kind :=
  [leftParen, rightParen, leftBrace, rightBrace, comma, dot, minus, plus, semicolon, slash,
   star, bang, bangEqual, equal, equalEqual, greater, greaterEqual, less, lessEqual,
   identifier, string, number] ++ Keyword.all.map keyword ++ [fault, eof]

/-- The kind's name in listings. -/
def name : Kind → String
  | leftParen => "LEFT_PAREN"
  | rightParen => "RIGHT_PAREN"
  | leftBrace => "LEFT_BRACE"
  | rightBrace => "RIGHT_BRACE"
  | comma => "COMMA"
  | dot => "DOT"
  | minus => "MINUS"
  | plus => "PLUS"
  | semicolon => "SEMICOLON"
  | slash => "SLASH"
  | star => "STAR"
  | bang => "BANG"
  | bangEqual => "BANG_EQUAL"
  | equal => "EQUAL"
  | equalEqual => "EQUAL_EQUAL"
  | greater => "GREATER"
  | greaterEqual => "GREATER_EQUAL"
  | less => "LESS"
  | lessEqual => "LESS_EQUAL"
  | identifier => "IDENTIFIER"
  | string => "STRING"
  | number => "NUMBER"
  | keyword word => word.name
  | fault => "ERROR"
  | eof => "EOF"

/-- The kind's name as a variant of its type. -/
def variant : Kind → String
  | leftParen => "LeftParen"
  | rightParen => "RightParen"
  | leftBrace => "LeftBrace"
  | rightBrace => "RightBrace"
  | comma => "Comma"
  | dot => "Dot"
  | minus => "Minus"
  | plus => "Plus"
  | semicolon => "Semicolon"
  | slash => "Slash"
  | star => "Star"
  | bang => "Bang"
  | bangEqual => "BangEqual"
  | equal => "Equal"
  | equalEqual => "EqualEqual"
  | greater => "Greater"
  | greaterEqual => "GreaterEqual"
  | less => "Less"
  | lessEqual => "LessEqual"
  | identifier => "Identifier"
  | string => "String"
  | number => "Number"
  | keyword word => word.variant
  | fault => "Error"
  | eof => "Eof"

end Kind

end Reckon
