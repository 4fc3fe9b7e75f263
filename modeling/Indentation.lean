import Indentation.Check.Call
import Indentation.Linter
import Indentation.Log.Setup
import Indentation.Outline.Reading
import Indentation.Proofs.Reach
import Indentation.Proofs.Traversal
import Indentation.Proofs.CheckVisits
import Indentation.Proofs.Entries
import Indentation.Proofs.Totality
import Indentation.Proofs.Flattening
import Indentation.Proofs.Preorder
import Indentation.Proofs.Anchoring
import Indentation.Proofs.Required
import Indentation.Proofs.CheckedChildren
import Indentation.Proofs.LineStarts
import Indentation.Proofs.Growth
import Indentation.Proofs.Pass
import Indentation.Proofs.Agreement
import Indentation.Proofs.Relaying
import Indentation.Proofs.Faithful
import Indentation.Proofs.Shift
import Indentation.Proofs.Silence
import Indentation.Proofs.Cascade
import Indentation.Proofs.Containment
import Indentation.Proofs.Evenness
import Indentation.Proofs.Leading
import Indentation.Proofs.Calm
import Indentation.Proofs.Tidiness
import Indentation.Proofs.Formatting
import Indentation.Proofs.SearchLocality
import Indentation.Proofs.Entering
import Indentation.Proofs.Settling
import Indentation.Proofs.Repetition
import Indentation.Proofs.Partition
import Indentation.Proofs.Distinctness
import Indentation.Proofs.Grafting
import Indentation.Proofs.Separation
import Indentation.Proofs.Accounting
import Indentation.Proofs.Stretching
import Indentation.Proofs.Equivariance
import Indentation.Proofs.Reconstruction
import Indentation.Proofs.Conversion
import Indentation.Proofs.Transcription
import Indentation.Proofs.Pruning
import Indentation.Proofs.Lookup
import Indentation.Proofs.Requirements
import Indentation.Proofs.Loading
import Indentation.Proofs.Searching
import Indentation.Proofs.Succession
import Indentation.Proofs.Foremost
import Indentation.Proofs.Alignment
import Indentation.Proofs.Ascent
import Indentation.Proofs.Circling
import Indentation.Proofs.Listening
import Indentation.Proofs.Staging
import Indentation.Proofs.Encoding
import Indentation.Proofs.Excerpting
import Indentation.Proofs.Fallback
import Indentation.Proofs.Margin
import Indentation.Proofs.ParseFailure
import Indentation.Proofs.Discovery
import Indentation.Proofs.LogContext
import Indentation.Proofs.LogMemory
import Indentation.Proofs.Assembling
