import Snooping.Bus.Wires
import Snooping.Main
import Snooping.Proofs.Bus.Arbitration
import Snooping.Proofs.Cache.Ages
import Snooping.Proofs.Cache.Dirty
import Snooping.Proofs.Cache.Restarts
import Snooping.Proofs.CommandLine.Options
import Snooping.Proofs.Machine.Burst
import Snooping.Proofs.Machine.Bystander
import Snooping.Proofs.Machine.Limit
import Snooping.Proofs.Machine.Observation
import Snooping.Proofs.Machine.Order
import Snooping.Proofs.Machine.Pipeline
import Snooping.Proofs.Machine.Scheduler
import Snooping.Proofs.Machine.Statistics
import Snooping.Proofs.Machine.Termination
import Snooping.Proofs.Machine.Traffic
import Snooping.Proofs.Machine.Upgrades
import Snooping.Proofs.Machine.Values
import Snooping.Proofs.Machine.Writers
import Snooping.Proofs.Memory.Backing
import Snooping.Proofs.Solo.Exact
import Snooping.Proofs.Spec.Places
import Snooping.Proofs.Spec.Validation
import Snooping.Proofs.Trace.Directory
import Snooping.Proofs.Trace.Writing
import Snooping.Proofs.WakeQueue
