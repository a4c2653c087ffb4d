import Onion.Lib.Edwards
import Onion.Lib.Extended
import Onion.Crypto.Field25519
import Onion.Crypto.FeArith
import Onion.Crypto.Fe25519x4
import Onion.Crypto.Fe4Arith
import Onion.Crypto.Fe4Lanes
import Onion.Crypto.Ge25519
import Onion.Crypto.GeArith
import Onion.Crypto.Incremental
import Onion.Crypto.IncrementalX4
import Onion.Crypto.Stepper
import Onion.Crypto.StepperX4
import Onion.Cli.Main
import Onion.Cli.Once
import Onion.Engine.BatchSize
import Onion.Engine.Clamp
import Onion.Cli.Shutdown
import Onion.Io.TorKeyLeft
import Onion.Device.FieldBytes
import Onion.Device.BatchQuotients
import Onion.Device.Slots
import Onion.Engine.NoPipeline
import Onion.Tools.Accepted
import Onion.Cli.CommandLine
import Onion.Device.Xval
import Onion.Device.Agree
import Onion.Device.Fresh
import Onion.Cli.Tries
import Onion.Crypto.Unpack
import Onion.Cli.Footprint
import Onion.Cli.Steps
import Onion.Engine.PipelineEpochs
