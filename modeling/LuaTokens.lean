import LuaTokens.Main
import LuaTokens.Proofs.Trace
import LuaTokens.Proofs.Position.LineBreak
import LuaTokens.Proofs.Lexeme.Form
import LuaTokens.Proofs.Lexeme.LongBracket
import LuaTokens.Proofs.Lexeme.Numeral
import LuaTokens.Proofs.Lexeme.Quoted
import LuaTokens.Proofs.Lexeme.Seam
import LuaTokens.Proofs.Place
import LuaTokens.Proofs.Coverage
import LuaTokens.Proofs.LineAccounting
import LuaTokens.Proofs.Token.Punctuator
import LuaTokens.Proofs.Lexeme.Lookahead
import LuaTokens.Proofs.Layout
import LuaTokens.Proofs.Scanner.Basic
import LuaTokens.Proofs.Scanner.Motion
import LuaTokens.Proofs.Scanner.Run
import LuaTokens.Proofs.Scanner.LongBracket
import LuaTokens.Proofs.Scanner.Escape
import LuaTokens.Proofs.Scanner.Quoted
import LuaTokens.Proofs.Scanner.Numeral
import LuaTokens.Proofs.Scanner.Token
import LuaTokens.Proofs.Scanner.Trivia
import LuaTokens.Proofs.Scanner.Session
import LuaTokens.Proofs.Position.Origin
import LuaTokens.Proofs.Division
import LuaTokens.Proofs.Lexeme.Failure
import LuaTokens.Proofs.Horizon
import LuaTokens.Proofs.Position.LineFeed
import LuaTokens.Proofs.Lexeme.LineFeed
import LuaTokens.Proofs.LineEnding
import LuaTokens.Proofs.Rendering
import LuaTokens.Proofs.Transcoding
import LuaTokens.Proofs.Withdrawal
import LuaTokens.Proofs.Conversation
import LuaTokens.Proofs.Lexeme.Fault
import LuaTokens.Proofs.Diagnosis
import LuaTokens.Proofs.Strictness
import LuaTokens.Proofs.Spelling
import LuaTokens.Proofs.Standing
import LuaTokens.Proofs.CommandLine.Arguments
import LuaTokens.Proofs.CommandLine.Files
import LuaTokens.Proofs.Capture
import LuaTokens.Proofs.Extension
import LuaTokens.Proofs.FirstCloser
import LuaTokens.Proofs.Lexeme.EscapeGrammar
import LuaTokens.Proofs.Quotation
import LuaTokens.Proofs.Lexeme.NumeralGrammar
import LuaTokens.Proofs.Numeration
import LuaTokens.Proofs.Token.Symbol
import LuaTokens.Proofs.LongestMatch
import LuaTokens.Proofs.Number.Rounding
import LuaTokens.Proofs.Number.Accumulation
import LuaTokens.Proofs.Number.Special
import LuaTokens.Proofs.HexadecimalValue
import LuaTokens.Proofs.Saturation
import LuaTokens.Proofs.Precedence
import LuaTokens.Proofs.Text.Slice
import LuaTokens.Proofs.CodePoints
import LuaTokens.Proofs.Respelling
import LuaTokens.Proofs.Text.UniqueDecoding
