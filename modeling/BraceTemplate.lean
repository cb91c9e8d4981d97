import BraceTemplate.Render.Evaluation
import BraceTemplate.Value.Conversion
import BraceTemplate.Value.Json
import BraceTemplate.Proofs.Grammar.Complete.Params
import BraceTemplate.Proofs.Grammar.Complete.Tags
import BraceTemplate.Proofs.Grammar.Soundness
import BraceTemplate.Proofs.Grammar.Complete.Blocks
import BraceTemplate.Proofs.Grammar.Print
import BraceTemplate.Proofs.Grammar.Limit
import BraceTemplate.Proofs.Grammar.Nesting
import BraceTemplate.Proofs.Render.Keeps
import BraceTemplate.Proofs.Render.Scripts
import BraceTemplate.Proofs.Render.Balance
import BraceTemplate.Proofs.Render.Isolation
import BraceTemplate.Proofs.Grammar.Append
import BraceTemplate.Proofs.Render.Conduct
import BraceTemplate.Proofs.Render.Contract
import BraceTemplate.Proofs.Render.Depth
import BraceTemplate.Proofs.Render.Concatenation
import BraceTemplate.Proofs.Render.Lockstep
import BraceTemplate.Proofs.Render.DepthLimit
import BraceTemplate.Proofs.Render.Termination
import BraceTemplate.Proofs.Render.Lookup
import BraceTemplate.Proofs.Grammar.Shape
import BraceTemplate.Proofs.Grammar.Misses
import BraceTemplate.Proofs.Grammar.Recorded
import BraceTemplate.Proofs.Grammar.Furthest
import BraceTemplate.Proofs.Grammar.ErrorPlace
import BraceTemplate.Proofs.Grammar.Inside
import BraceTemplate.Proofs.Grammar.TagMisses
import BraceTemplate.Proofs.Grammar.AppendError
import BraceTemplate.Proofs.Text.Html
import BraceTemplate.Proofs.Render.Escaping
import BraceTemplate.Proofs.Render.Simulation
import BraceTemplate.Proofs.Render.Alike
import BraceTemplate.Proofs.Render.History
import BraceTemplate.Proofs.Render.Inlining
import BraceTemplate.Proofs.Render.Names
import BraceTemplate.Proofs.Value.Path
import BraceTemplate.Proofs.Render.Sharing
import BraceTemplate.Proofs.Grammar.Pieces
import BraceTemplate.Proofs.Render.Braces
import BraceTemplate.Proofs.Render.Requests
import BraceTemplate.Proofs.Render.Layout
import BraceTemplate.Proofs.Render.Levels
import BraceTemplate.Proofs.Grammar.Enclosing
import BraceTemplate.Proofs.Grammar.PlainText
import BraceTemplate.Proofs.Grammar.Refusal
import BraceTemplate.Proofs.Grammar.Mismatch
import BraceTemplate.Proofs.Grammar.Binders
import BraceTemplate.Proofs.Value.Subvalue
import BraceTemplate.Proofs.Render.Arguments
import BraceTemplate.Proofs.Render.Markers
import BraceTemplate.Proofs.Grammar.ErrorLine
import BraceTemplate.Proofs.Render.Trimming
import BraceTemplate.Proofs.Grammar.Progress
import BraceTemplate.Proofs.Value.Integers
import BraceTemplate.Proofs.Grammar.Calls
import BraceTemplate.Proofs.Grammar.Expected
