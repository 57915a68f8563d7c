import ScatterGather.Bench.Device
import ScatterGather.Bench.Drive
import ScatterGather.Bench.Fingerprint
import ScatterGather.Bench.Memory
import ScatterGather.Bench.Meters
import ScatterGather.Bench.PageTally
import ScatterGather.Bench.ScriptedHost
import ScatterGather.Bench.Session
import ScatterGather.BoundedQueue
import ScatterGather.Channel.Basic
import ScatterGather.Channel.Interrupt
import ScatterGather.Channel.Waiting
import ScatterGather.Descriptor.Chunks
import ScatterGather.Descriptor.Entry
import ScatterGather.Descriptor.Table
import ScatterGather.Direction
import ScatterGather.Failure
import ScatterGather.Geometry
import ScatterGather.GuardedCell
import ScatterGather.Machine
import ScatterGather.Memory.Page
import ScatterGather.Memory.Pinning
import ScatterGather.Memory.Pipeline
import ScatterGather.Memory.Region
import ScatterGather.Proofs.Acknowledgement
import ScatterGather.Proofs.Aims
import ScatterGather.Proofs.Attention
import ScatterGather.Proofs.Batches
import ScatterGather.Proofs.Besides
import ScatterGather.Proofs.Bytes
import ScatterGather.Proofs.Carvings
import ScatterGather.Proofs.Causes
import ScatterGather.Proofs.Codec
import ScatterGather.Proofs.Control
import ScatterGather.Proofs.Coverage
import ScatterGather.Proofs.Custody
import ScatterGather.Proofs.Cuts
import ScatterGather.Proofs.Deliveries
import ScatterGather.Proofs.Demands
import ScatterGather.Proofs.Devices
import ScatterGather.Proofs.Docket
import ScatterGather.Proofs.Drains
import ScatterGather.Proofs.Drives
import ScatterGather.Proofs.Effects
import ScatterGather.Proofs.Executions
import ScatterGather.Proofs.Fifo
import ScatterGather.Proofs.Flags
import ScatterGather.Proofs.Halts
import ScatterGather.Proofs.Holdings
import ScatterGather.Proofs.Hosts
import ScatterGather.Proofs.Images
import ScatterGather.Proofs.Inventory
import ScatterGather.Proofs.Items
import ScatterGather.Proofs.Junctures
import ScatterGather.Proofs.Laps
import ScatterGather.Proofs.Lengths
import ScatterGather.Proofs.Limits
import ScatterGather.Proofs.Lockers
import ScatterGather.Proofs.Looks
import ScatterGather.Proofs.Moments
import ScatterGather.Proofs.Pacing
import ScatterGather.Proofs.Pairs
import ScatterGather.Proofs.Partings
import ScatterGather.Proofs.Passages
import ScatterGather.Proofs.Pasts
import ScatterGather.Proofs.Paths
import ScatterGather.Proofs.Plans
import ScatterGather.Proofs.Positions
import ScatterGather.Proofs.Publications
import ScatterGather.Proofs.Queue
import ScatterGather.Proofs.Refusals
import ScatterGather.Proofs.Residues
import ScatterGather.Proofs.Rests
import ScatterGather.Proofs.Rounds
import ScatterGather.Proofs.Services
import ScatterGather.Proofs.Setups
import ScatterGather.Proofs.Stores
import ScatterGather.Proofs.Strandings
import ScatterGather.Proofs.Strides
import ScatterGather.Proofs.Surpluses
import ScatterGather.Proofs.Tables
import ScatterGather.Proofs.Tallies
import ScatterGather.Proofs.Tenures
import ScatterGather.Proofs.Tidiness
import ScatterGather.Proofs.Tilings
import ScatterGather.Proofs.Translations
import ScatterGather.Proofs.Turns
import ScatterGather.Proofs.Twins
import ScatterGather.Proofs.Validity
import ScatterGather.Proofs.Wakes
import ScatterGather.Proofs.Watches
import ScatterGather.Proofs.Widths
import ScatterGather.Proofs.Windows
import ScatterGather.Proofs.Zones
import ScatterGather.Registers
import ScatterGather.Ring
import ScatterGather.Settings
import ScatterGather.Waker
import ScatterGather.Worker.Account
import ScatterGather.Worker.Basic
import ScatterGather.Worker.Carving
import ScatterGather.Worker.Crew
import ScatterGather.Worker.Run
import ScatterGather.Worker.Task
