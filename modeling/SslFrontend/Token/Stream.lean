import SslFrontend.Diagnostic.Queue
import SslFrontend.Source.FileTable
import SslFrontend.Token.Kind

/-! # Token streams

The tokens of a unit with its includes expanded.  The end of the primary file
is kept apart, so a stream has exactly one end.
-/

namespace SslFrontend

structure TokenStream where
  tokens : List Token
  /-- Where the primary file ends. -/
  eof : Position
  /-- Every file that has a part in the unit, the primary one first. -/
  files : FileTable
  /-- What was wrong with the texts and the includes, as it was found. -/
  problems : Queue

namespace TokenStream

/-- The tokens with the end of file behind them. -/
def allTokens (stream : TokenStream) : List Token :=
  stream.tokens ++ [⟨.eof, stream.eof⟩]

end TokenStream

end SslFrontend
