import FeParser.Span
import FeParser.Token
import FeParser.Ast
import FeParser.Nom
import FeParser.Parsers
import FeParser.Grammar
import FeParser.Soundness
import FeParser.Completeness
import FeParser.Agreement
import FeParser.ConstExpr
import FeParser.ConstGrammar
import FeParser.ConstSoundness
import FeParser.ConstCompleteness
import FeParser.ConstPanics
import FeParser.Hulls
import FeParser.Lexer.Text
import FeParser.Lexer.Pattern
import FeParser.Lexer.Tokenize
import FeParser.Lexer.Run
import FeParser.Lexer.Stream
import FeParser.Lexer.Invariant
import FeParser.Lexer.Indentation
import FeParser.Termination
import FeParser.Lexer.Relocation
import FeParser.Lexer.BlankLine
import FeParser.Lexer.Brackets
import FeParser.Lexer.Stops
import FeParser.Lexer.Spelling
import FeParser.Lexer.Resume
import FeParser.Lexer.Strings
import FeParser.Lexer.Layout
import FeParser.FrontEnd
