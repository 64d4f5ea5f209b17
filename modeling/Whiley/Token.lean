namespace Whiley

inductive Kind
  | kwAll | kwAny | kwAssert | kwAssume | kwBool | kwBreak | kwByte | kwCase | kwContinue
  | kwDebug | kwDefault | kwDo | kwElse | kwEnsures | kwExport | kwFail | kwFalse | kwFunction
  | kwIf | kwImport | kwIn | kwInt | kwIs | kwMethod | kwNative | kwNew | kwNull | kwPackage
  | kwPrivate | kwProperty | kwPublic | kwRequires | kwReturn | kwSkip | kwSome | kwSwitch
  | kwThis | kwTrue | kwVoid | kwWhere | kwWhile | byteLit | charLit | intLit | stringLit | plus
  | minus | star | slash | percent | bang | tilde | ampersand | logicalAnd | bar | logicalOr
  | caret | less | lessEqual | shiftLeft | greater | greaterEqual | shiftRight | assign | equal
  | notEqual | arrow | implies | iff | subset | subsetEqual | superset | supersetEqual | lparen
  | rparen | lbracket | rbracket | lbrace | rbrace | comma | semicolon | colon | colonColon | dot
  | dotDot | dotDotDot | newline | indent | lineComment | blockComment | identifier
  deriving DecidableEq, Repr, Inhabited

def Kind.entry : Kind → String × String
  | .kwAll => ("ALL", "all")
  | .kwAny => ("ANY", "any")
  | .kwAssert => ("ASSERT", "assert")
  | .kwAssume => ("ASSUME", "assume")
  | .kwBool => ("BOOL", "bool")
  | .kwBreak => ("BREAK", "break")
  | .kwByte => ("BYTE", "byte")
  | .kwCase => ("CASE", "case")
  | .kwContinue => ("CONTINUE", "continue")
  | .kwDebug => ("DEBUG", "debug")
  | .kwDefault => ("DEFAULT", "default")
  | .kwDo => ("DO", "do")
  | .kwElse => ("ELSE", "else")
  | .kwEnsures => ("ENSURES", "ensures")
  | .kwExport => ("EXPORT", "export")
  | .kwFail => ("FAIL", "fail")
  | .kwFalse => ("FALSE", "false")
  | .kwFunction => ("FUNCTION", "function")
  | .kwIf => ("IF", "if")
  | .kwImport => ("IMPORT", "import")
  | .kwIn => ("IN", "in")
  | .kwInt => ("INT", "int")
  | .kwIs => ("IS", "is")
  | .kwMethod => ("METHOD", "method")
  | .kwNative => ("NATIVE", "native")
  | .kwNew => ("NEW", "new")
  | .kwNull => ("NULL", "null")
  | .kwPackage => ("PACKAGE", "package")
  | .kwPrivate => ("PRIVATE", "private")
  | .kwProperty => ("PROPERTY", "property")
  | .kwPublic => ("PUBLIC", "public")
  | .kwRequires => ("REQUIRES", "requires")
  | .kwReturn => ("RETURN", "return")
  | .kwSkip => ("SKIP", "skip")
  | .kwSome => ("SOME", "some")
  | .kwSwitch => ("SWITCH", "switch")
  | .kwThis => ("THIS", "this")
  | .kwTrue => ("TRUE", "true")
  | .kwVoid => ("VOID", "void")
  | .kwWhere => ("WHERE", "where")
  | .kwWhile => ("WHILE", "while")
  | .byteLit => ("BYTE_LIT", "byte literal")
  | .charLit => ("CHAR_LIT", "character literal")
  | .intLit => ("INT_LIT", "integer literal")
  | .stringLit => ("STRING_LIT", "string literal")
  | .plus => ("PLUS", "+")
  | .minus => ("MINUS", "-")
  | .star => ("STAR", "*")
  | .slash => ("SLASH", "/")
  | .percent => ("PERCENT", "%")
  | .bang => ("BANG", "!")
  | .tilde => ("TILDE", "~")
  | .ampersand => ("AMPERSAND", "&")
  | .logicalAnd => ("LOGICAL_AND", "&&")
  | .bar => ("BAR", "|")
  | .logicalOr => ("LOGICAL_OR", "||")
  | .caret => ("CARET", "^")
  | .less => ("LESS", "<")
  | .lessEqual => ("LESS_EQUAL", "<=")
  | .shiftLeft => ("SHIFT_LEFT", "<<")
  | .greater => ("GREATER", ">")
  | .greaterEqual => ("GREATER_EQUAL", ">=")
  | .shiftRight => ("SHIFT_RIGHT", ">>")
  | .assign => ("ASSIGN", "=")
  | .equal => ("EQUAL", "==")
  | .notEqual => ("NOT_EQUAL", "!=")
  | .arrow => ("ARROW", "->")
  | .implies => ("IMPLIES", "==>")
  | .iff => ("IFF", "<==>")
  | .subset => ("SUBSET", "⊂")
  | .subsetEqual => ("SUBSET_EQUAL", "⊆")
  | .superset => ("SUPERSET", "⊃")
  | .supersetEqual => ("SUPERSET_EQUAL", "⊇")
  | .lparen => ("LPAREN", "(")
  | .rparen => ("RPAREN", ")")
  | .lbracket => ("LBRACKET", "[")
  | .rbracket => ("RBRACKET", "]")
  | .lbrace => ("LBRACE", "\x7b")
  | .rbrace => ("RBRACE", "\x7d")
  | .comma => ("COMMA", ",")
  | .semicolon => ("SEMICOLON", ";")
  | .colon => ("COLON", ":")
  | .colonColon => ("COLON_COLON", "::")
  | .dot => ("DOT", ".")
  | .dotDot => ("DOT_DOT", "..")
  | .dotDotDot => ("DOT_DOT_DOT", "...")
  | .newline => ("NEWLINE", "end-of-line")
  | .indent => ("INDENT", "indentation")
  | .lineComment => ("LINE_COMMENT", "comment")
  | .blockComment => ("BLOCK_COMMENT", "comment")
  | .identifier => ("IDENTIFIER", "identifier")

def Kind.label (k : Kind) : String := k.entry.1

def Kind.spelling (k : Kind) : String := k.entry.2

namespace Kind

def keywords : List Kind :=
  [.kwAll, .kwAny, .kwAssert, .kwAssume, .kwBool, .kwBreak, .kwByte, .kwCase, .kwContinue,
  .kwDebug, .kwDefault, .kwDo, .kwElse, .kwEnsures, .kwExport, .kwFail, .kwFalse, .kwFunction,
  .kwIf, .kwImport, .kwIn, .kwInt, .kwIs, .kwMethod, .kwNative, .kwNew, .kwNull, .kwPackage,
  .kwPrivate, .kwProperty, .kwPublic, .kwRequires, .kwReturn, .kwSkip, .kwSome, .kwSwitch,
  .kwThis, .kwTrue, .kwVoid, .kwWhere, .kwWhile]

/-- Symbols in the order in which they are tried: no symbol comes after one that begins it. -/
def symbols : List Kind :=
  [.iff, .implies, .dotDotDot, .logicalAnd, .logicalOr, .shiftLeft, .shiftRight, .lessEqual,
  .greaterEqual, .equal, .notEqual, .arrow, .colonColon, .dotDot, .plus, .minus, .star, .slash,
  .percent, .bang, .tilde, .ampersand, .bar, .caret, .less, .greater, .assign, .lparen, .rparen,
  .lbracket, .rbracket, .lbrace, .rbrace, .comma, .semicolon, .colon, .dot, .subset, .subsetEqual,
  .superset, .supersetEqual]

def classes : List Kind :=
  [.byteLit, .charLit, .intLit, .stringLit, .newline, .indent, .lineComment, .blockComment,
    .identifier]

def all : List Kind :=
  keywords ++ classes ++ symbols

theorem mem_all (k : Kind) : k ∈ all := by
  cases k <;> decide

def ofWord (text : String) : Kind :=
  (keywords.find? (·.spelling = text)).getD .identifier

def isLineSpace (k : Kind) : Bool :=
  k = .indent || k = .lineComment || k = .blockComment

def isSpace (k : Kind) : Bool :=
  k.isLineSpace || k = .newline

def isComment (k : Kind) : Bool :=
  k = .lineComment || k = .blockComment

def startsTerm (k : Kind) : Bool :=
  k ∈ [.kwNull, .kwTrue, .kwFalse, .byteLit, .charLit, .intLit, .stringLit, .lbracket, .lbrace,
    .lparen, .bar, .bang, .identifier]

theorem isLineSpace_isSpace {k : Kind} (h : k.isLineSpace) : k.isSpace := by
  simp [isSpace, h]

end Kind

/-- Offsets count characters; `stop` is the first offset after the token. -/
structure Span where
  start : Nat
  stop : Nat
  deriving DecidableEq, Repr, Inhabited

structure Token where
  kind : Kind
  text : String
  span : Span
  deriving DecidableEq, Repr, Inhabited

def Token.start (t : Token) : Nat := t.span.start

def Token.stop (t : Token) : Nat := t.span.stop

end Whiley
