import Philox.Device.Invocation
import Philox.Engine.Direct
import Philox.Grid.Fill
import Philox.Proofs.Counter
import Philox.Proofs.Keystream
import Philox.Proofs.Engine.Block
import Philox.Proofs.Engine.Word
import Philox.Proofs.Engine.Checkpoint
import Philox.Proofs.Engine.Flatten
import Philox.Proofs.Engine.Period
import Philox.Proofs.Engine.Direct
import Philox.Proofs.Grid.Fill
import Philox.Proofs.Grid.Distinct
import Philox.Proofs.Device.Fill
import Philox.Proofs.Device.Invocation
import Philox.Proofs.Device.Agreement
import Philox.Proofs.Layouts
import Philox.Proofs.Grid.Reals
import Philox.Proofs.Grid.Workers
import Philox.Proofs.Device.Launch
import Philox.Proofs.Moves
import Philox.Proofs.Rounds
import Philox.Proofs.Grid.Total
import Philox.Proofs.Engine.Offset
import Philox.Proofs.Device.Blocks
import Philox.Proofs.Sizing
import Philox.Proofs.Threads
import Philox.Proofs.Engine.Cache
import Philox.Proofs.Fraction
import Philox.Proofs.Sampling
import Philox.Proofs.Uniform
