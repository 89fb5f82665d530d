import Stencil.Command.Storage
import Stencil.Editor.LanguageRegion
import Stencil.Editor.SemanticToken
import Stencil.Main
import Stencil.Syntax.Walk
import Stencil.Proofs.Cursor
import Stencil.Proofs.Tiling
import Stencil.Proofs.Tracing
import Stencil.Proofs.Progress
import Stencil.Proofs.Lossless
import Stencil.Proofs.Alike
import Stencil.Proofs.Flattening
import Stencil.Proofs.Chunks
import Stencil.Proofs.SourceMaps
import Stencil.Proofs.Highlighting
import Stencil.Proofs.Languages
import Stencil.Proofs.Registration
import Stencil.Proofs.Matching
import Stencil.Proofs.Blocks
import Stencil.Proofs.LongestMatch
import Stencil.Proofs.Bookkeeping
import Stencil.Proofs.Injections
import Stencil.Proofs.RoundTrip
import Stencil.Proofs.Escaping
import Stencil.Proofs.Quiet
import Stencil.Proofs.Decoding
import Stencil.Proofs.Nesting
import Stencil.Proofs.Expressions
import Stencil.Proofs.Regrouping
import Stencil.Proofs.Recovery
import Stencil.Proofs.Limit
import Stencil.Proofs.Restoration
import Stencil.Proofs.Depth
import Stencil.Proofs.Balance
import Stencil.Proofs.EndTags
import Stencil.Proofs.Safety
import Stencil.Proofs.Chronicles
import Stencil.Proofs.Transitions
import Stencil.Proofs.Terminators
import Stencil.Proofs.RelativeTokens
import Stencil.Proofs.Spans
import Stencil.Proofs.ContentText
import Stencil.Proofs.Excerpts
import Stencil.Proofs.Trackers
