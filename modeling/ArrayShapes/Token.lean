import ArrayShapes.Diagnostic

/-!
Tokens: a kind and the piece of source text it names. Every word is a `name`; keywords are told
apart by their text, whatever its case.
-/

namespace ArrayShapes

inductive TokenKind where
  | whitespace | comment | documentComment | inlineHtml | openTag | openTagWithEcho | closeTag
  | name | variableName | integerLiteral | floatingLiteral | stringLiteral | heredoc
  | castOperator | openBracket | closeBracket | openParen | closeParen | openBrace | closeBrace
  | semicolon | comma | colon | colonColon | arrow | nullsafeArrow | fatArrow | ellipsis | dollar
  | question | questionQuestion | equals | compoundAssignment | equalsEquals | equalsEqualsEquals
  | exclamationEquals | exclamationEqualsEquals | exclamation | lessThan | greaterThan
  | lessThanEquals | greaterThanEquals | spaceship | plus | minus | asterisk | asteriskAsterisk
  | slash | percent | dot | ampersand | ampersandAmpersand | bar | barBar | caret | tilde | at
  | plusPlus | minusMinus | lessThanLessThan | greaterThanGreaterThan | backtick | unknown
deriving DecidableEq, Repr, Inhabited

namespace TokenKind

/-- The kind as it is written in listings of a tree. -/
def label : TokenKind → String
  | .whitespace => "Whitespace"
  | .comment => "Comment"
  | .documentComment => "DocumentComment"
  | .inlineHtml => "InlineHtml"
  | .openTag => "OpenTag"
  | .openTagWithEcho => "OpenTagWithEcho"
  | .closeTag => "CloseTag"
  | .name => "Name"
  | .variableName => "VariableName"
  | .integerLiteral => "IntegerLiteral"
  | .floatingLiteral => "FloatingLiteral"
  | .stringLiteral => "StringLiteral"
  | .heredoc => "Heredoc"
  | .castOperator => "CastOperator"
  | .openBracket => "OpenBracket"
  | .closeBracket => "CloseBracket"
  | .openParen => "OpenParen"
  | .closeParen => "CloseParen"
  | .openBrace => "OpenBrace"
  | .closeBrace => "CloseBrace"
  | .semicolon => "Semicolon"
  | .comma => "Comma"
  | .colon => "Colon"
  | .colonColon => "ColonColon"
  | .arrow => "Arrow"
  | .nullsafeArrow => "NullsafeArrow"
  | .fatArrow => "FatArrow"
  | .ellipsis => "Ellipsis"
  | .dollar => "Dollar"
  | .question => "Question"
  | .questionQuestion => "QuestionQuestion"
  | .equals => "Equals"
  | .compoundAssignment => "CompoundAssignment"
  | .equalsEquals => "EqualsEquals"
  | .equalsEqualsEquals => "EqualsEqualsEquals"
  | .exclamationEquals => "ExclamationEquals"
  | .exclamationEqualsEquals => "ExclamationEqualsEquals"
  | .exclamation => "Exclamation"
  | .lessThan => "LessThan"
  | .greaterThan => "GreaterThan"
  | .lessThanEquals => "LessThanEquals"
  | .greaterThanEquals => "GreaterThanEquals"
  | .spaceship => "Spaceship"
  | .plus => "Plus"
  | .minus => "Minus"
  | .asterisk => "Asterisk"
  | .asteriskAsterisk => "AsteriskAsterisk"
  | .slash => "Slash"
  | .percent => "Percent"
  | .dot => "Dot"
  | .ampersand => "Ampersand"
  | .ampersandAmpersand => "AmpersandAmpersand"
  | .bar => "Bar"
  | .barBar => "BarBar"
  | .caret => "Caret"
  | .tilde => "Tilde"
  | .at => "At"
  | .plusPlus => "PlusPlus"
  | .minusMinus => "MinusMinus"
  | .lessThanLessThan => "LessThanLessThan"
  | .greaterThanGreaterThan => "GreaterThanGreaterThan"
  | .backtick => "Backtick"
  | .unknown => "Unknown"

def all : List TokenKind := [
  .whitespace, .comment, .documentComment, .inlineHtml, .openTag, .openTagWithEcho, .closeTag,
  .name, .variableName, .integerLiteral, .floatingLiteral, .stringLiteral, .heredoc,
  .castOperator, .openBracket, .closeBracket, .openParen, .closeParen, .openBrace, .closeBrace,
  .semicolon, .comma, .colon, .colonColon, .arrow, .nullsafeArrow, .fatArrow, .ellipsis, .dollar,
  .question, .questionQuestion, .equals, .compoundAssignment, .equalsEquals, .equalsEqualsEquals,
  .exclamationEquals, .exclamationEqualsEquals, .exclamation, .lessThan, .greaterThan,
  .lessThanEquals, .greaterThanEquals, .spaceship, .plus, .minus, .asterisk, .asteriskAsterisk,
  .slash, .percent, .dot, .ampersand, .ampersandAmpersand, .bar, .barBar, .caret, .tilde, .at,
  .plusPlus, .minusMinus, .lessThanLessThan, .greaterThanGreaterThan, .backtick, .unknown]

def ofLabel? (s : String) : Option TokenKind := all.find? (·.label == s)

/-- Blank text and comments: kept in the tree, passed over by the grammar. -/
def isTrivia : TokenKind → Bool
  | .whitespace | .comment | .documentComment => true
  | _ => false

/-- Tokens that are whole expressions. -/
def isLiteral : TokenKind → Bool
  | .integerLiteral | .floatingLiteral | .stringLiteral | .heredoc => true
  | _ => false

end TokenKind

/-- A piece of source text, `pos` bytes from the start. -/
structure Token where
  kind : TokenKind
  pos : Nat
  text : String
deriving DecidableEq, Repr, Inhabited

namespace Token

def size (t : Token) : Nat := t.text.utf8ByteSize

/-- The offset just after the token. -/
def stop (t : Token) : Nat := t.pos + t.size

def isTrivia (t : Token) : Bool := t.kind.isTrivia

end Token

end ArrayShapes
