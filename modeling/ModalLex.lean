import ModalLex.Stream.Window
import ModalLex.Stream.Watched
import ModalLex.Engine.Playback
import ModalLex.Engine.Recorded
import ModalLex.View
import ModalLex.Main
import ModalLex.Lexer.Effectful
import ModalLex.Proofs.Stream.Reading
import ModalLex.Proofs.Stream.Window
import ModalLex.Proofs.Stream.Caller
import ModalLex.Proofs.Stream.Requests
import ModalLex.Proofs.Stream.Marks
import ModalLex.Proofs.Stream.Forgetting
import ModalLex.Proofs.Stream.Lookahead
import ModalLex.Proofs.Stream.Returning
import ModalLex.Proofs.Stream.Sight
import ModalLex.Proofs.CharSet.Reading
import ModalLex.Proofs.CharSet.Rendering
import ModalLex.Proofs.Pattern.Naming
import ModalLex.Proofs.Pattern.Possessive
import ModalLex.Proofs.Pattern.Matching
import ModalLex.Proofs.Pattern.Locality
import ModalLex.Proofs.Engine.Recognition
import ModalLex.Proofs.Engine.Deciding
import ModalLex.Proofs.Lexer.Calls
import ModalLex.Proofs.Lexer.Lockstep
import ModalLex.Proofs.Lexer.Fired
import ModalLex.Proofs.Lexer.Runs
import ModalLex.Proofs.Lexer.Session
import ModalLex.Proofs.Lexer.Handling
import ModalLex.Proofs.Lexer.Recording
import ModalLex.Proofs.Lexer.Progress
import ModalLex.Proofs.Lexer.Locality
import ModalLex.Proofs.Lexer.Reset
import ModalLex.Proofs.Lexer.Drains
import ModalLex.Proofs.Lexer.Leftovers
import ModalLex.Proofs.Lexer.Supplying
import ModalLex.Proofs.Lexer.Watching
import ModalLex.Proofs.Lexer.Pinning
import ModalLex.Proofs.Lexer.EndOfInput
import ModalLex.Proofs.Lexer.Hushed
import ModalLex.Proofs.Lexer.Listening
import ModalLex.Proofs.Lexer.Ascription
import ModalLex.Proofs.Grammar.Effects
import ModalLex.Proofs.Tokenization.Attempts
import ModalLex.Proofs.Tokenization.Course
import ModalLex.Proofs.Tokenization.Step
import ModalLex.Proofs.Tokenization.Run
import ModalLex.Proofs.Tokenization.Tiling
import ModalLex.Proofs.Tokenization.OpenEnd
import ModalLex.Proofs.Tokenization.Safety
import ModalLex.Proofs.Tokenization.Kinds
import ModalLex.Proofs.Tokenization.Places
import ModalLex.Proofs.Tokenization.Reports
import ModalLex.Proofs.Tokenization.Wide
import ModalLex.Proofs.Tokenization.Chains
import ModalLex.Proofs.Tokenization.LastMatch
import ModalLex.Proofs.Tokenization.EndColumn
import ModalLex.Proofs.Context.Nesting
import ModalLex.Proofs.Token.Display
import ModalLex.Proofs.Grammar.Validity
import ModalLex.Proofs.Grammar.KindNames
import ModalLex.Proofs.Json.Writing
import ModalLex.Proofs.Json.Lexing
import ModalLex.Proofs.Json.Reading
import ModalLex.Proofs.Grammar.Assembly
import ModalLex.Proofs.Grammar.Presentation
import ModalLex.Proofs.Command.FrontEnds
