import CodeClones.Detect.Pairwise
import CodeClones.Detect.Repeated
import CodeClones.Detect.Similar
import CodeClones.Detect.Windowed
import CodeClones.Engine.Run
import CodeClones.Graph.Race
import CodeClones.Script.Call
import CodeClones.Proofs.Order.Lexical
import CodeClones.Proofs.Order.Sorting
import CodeClones.Proofs.Suffix.Courses
import CodeClones.Suffix.Search
import CodeClones.Verify.Batch
import CodeClones.Proofs.Suffix.Bucket
import CodeClones.Proofs.Suffix.Valley
import CodeClones.Proofs.Suffix.Backward
import CodeClones.Proofs.Suffix.Induced
import CodeClones.Proofs.Suffix.Naming
import CodeClones.Proofs.Order.Table
import CodeClones.Proofs.Suffix.Reduction
import CodeClones.Proofs.Suffix.Array
import CodeClones.Proofs.Order.Boundary
import CodeClones.Proofs.Order.Distinct
import CodeClones.Proofs.Suffix.Alphabet
import CodeClones.Proofs.Repeat.CommonPrefix
import CodeClones.Proofs.Repeat.Region
import CodeClones.Proofs.Token.Stream
import CodeClones.Proofs.Clone.Assembly
import CodeClones.Proofs.Clone.Group
import CodeClones.Proofs.Detect.Repeated
import CodeClones.Proofs.Index.Agreement
import CodeClones.Proofs.Index.History
import CodeClones.Proofs.Clone.Key
import CodeClones.Proofs.Detect.Coverage
import CodeClones.Proofs.Graph.Basic
import CodeClones.Proofs.Graph.Classes
import CodeClones.Proofs.Graph.Components
import CodeClones.Proofs.Graph.Forest
import CodeClones.Proofs.Index.Candidates
import CodeClones.Proofs.Verify.Pair
import CodeClones.Proofs.Verify.Spread
import CodeClones.Proofs.Verify.Batch
import CodeClones.Proofs.Verify.Stream
import CodeClones.Proofs.Index.Recall
import CodeClones.Proofs.Index.Split
import CodeClones.Proofs.Shingle.Document
import CodeClones.Proofs.Sketch.Collection
import CodeClones.Proofs.Detect.Spread
import CodeClones.Proofs.Similarity.Double
import CodeClones.Proofs.Similarity.Overlap
import CodeClones.Proofs.Decimal.Double
import CodeClones.Proofs.Detect.Similar
import CodeClones.Proofs.Detect.Component
import CodeClones.Proofs.Shingle.Renaming
import CodeClones.Proofs.Detect.Renamed
import CodeClones.Proofs.Window.Bucket
import CodeClones.Proofs.Window.RollingHash
import CodeClones.Proofs.Detect.Source
import CodeClones.Proofs.Detect.Windowed
import CodeClones.Proofs.Detect.WindowCoverage
import CodeClones.Proofs.Detect.Comparison
import CodeClones.Proofs.Detect.Pairwise
import CodeClones.Proofs.Script.Batch
import CodeClones.Proofs.Detect.FileOrder
import CodeClones.Proofs.Suffix.Search
import CodeClones.Proofs.Window.Layer
import CodeClones.Proofs.Detect.WindowOrder
import CodeClones.Proofs.Graph.Renumbering
import CodeClones.Proofs.Detect.BlockOrder
import CodeClones.Proofs.Repeat.Word
import CodeClones.Proofs.Repeat.Covering
import CodeClones.Proofs.Token.Layout
import CodeClones.Proofs.Verify.Interrupted
import CodeClones.Proofs.Verify.DeliveryOrder
import CodeClones.Proofs.Verify.RisingFlag
import CodeClones.Proofs.Clone.Span
import CodeClones.Proofs.Window.Checked
import CodeClones.Proofs.Sketch.Coefficients
import CodeClones.Proofs.Sketch.Slot
import CodeClones.Proofs.Sketch.Matching
import CodeClones.Proofs.Shingle.Encoding
import CodeClones.Proofs.Shingle.Pattern
import CodeClones.Proofs.Shingle.Overlap
import CodeClones.Proofs.Similarity.Quotient
import CodeClones.Proofs.Text.Bytes
import CodeClones.Proofs.Text.Joined
import CodeClones.Proofs.Shingle.Window
import CodeClones.Proofs.Detect.Extremes
import CodeClones.Proofs.Shingle.Blocks
import CodeClones.Proofs.Index.Probing
import CodeClones.Proofs.Detect.Indexed
import CodeClones.Proofs.Script.Narrowed
import CodeClones.Proofs.Script.Buffer
import CodeClones.Proofs.Sketch.Weighted
import CodeClones.Proofs.Graph.Race
import CodeClones.Proofs.Suffix.Marked
import CodeClones.Proofs.Hash.Word
import CodeClones.Proofs.Index.Sharing
