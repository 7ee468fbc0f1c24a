import FixedNet.Conversion
import FixedNet.Dataset
import FixedNet.Network.DenseStack
import FixedNet.Parity
import FixedNet.Simulation.Basic
import FixedNet.Proofs.Inference.Agreement
import FixedNet.Proofs.Inference.Grid
import FixedNet.Proofs.Inference.Headroom
import FixedNet.Proofs.Binary64.Operations
import FixedNet.Proofs.Precision.Precedence
import FixedNet.Proofs.Quantizer.Activation
import FixedNet.Proofs.Inference.Layout
import FixedNet.Proofs.Inference.Filling
import FixedNet.Proofs.Precision.Built
import FixedNet.Proofs.Inference.Ready
import FixedNet.Proofs.Network.Passes
import FixedNet.Proofs.Network.Renaming
import FixedNet.Proofs.Precision.Renamed
import FixedNet.Proofs.Inference.Listing
import FixedNet.Proofs.Inference.Stages
import FixedNet.Proofs.Precision.Afresh
import FixedNet.Proofs.Precision.Exported
import FixedNet.Proofs.Inference.Codes
import FixedNet.Proofs.Numeric.Words
import FixedNet.Proofs.Inference.Exponents
import FixedNet.Proofs.Inference.Biases
import FixedNet.Proofs.Inference.Products
import FixedNet.Proofs.Inference.Reordering
import FixedNet.Proofs.Simulation.Listed
import FixedNet.Proofs.Precision.Rejected
import FixedNet.Proofs.Precision.InPlace
import FixedNet.Proofs.Numeric.Written
import FixedNet.Proofs.Precision.LastWrite
import FixedNet.Proofs.Quantizer.Shown
import FixedNet.Proofs.Numeric.Membership
import FixedNet.Proofs.Inference.Largest
import FixedNet.Proofs.Binary64.Distance
import FixedNet.Proofs.Parity
import FixedNet.Proofs.Network.Chain
import FixedNet.Proofs.Network.DenseStack
import FixedNet.Proofs.Numeric.Monotone
import FixedNet.Proofs.Precision.Entries
import FixedNet.Proofs.Precision.Spelled
