import Lunify.Http.Service
import Lunify.Log.Handler
import Lunify.Main
import Lunify.Proofs.Cache.Sharing
import Lunify.Proofs.Cache.Transparency
import Lunify.Proofs.Chart.Insertions
import Lunify.Proofs.Chart.Unexpected
import Lunify.Proofs.Chunk.Strings
import Lunify.Proofs.Grammar.LineEnds
import Lunify.Proofs.Log.Fields
import Lunify.Proofs.Pipeline.LineEndings
import Lunify.Proofs.Ranges.Visits
import Lunify.Proofs.Rendering.InPlace
import Lunify.Proofs.Token.Depth
import Lunify.Proofs.Token.Numerals
import Lunify.Proofs.Token.Respacing
