import DistFs.Arguments
import DistFs.Cluster
import DistFs.Command
import DistFs.Config
import DistFs.ConfigFile
import DistFs.Container
import DistFs.Error
import DistFs.Failure
import DistFs.HostFiles
import DistFs.Joining
import DistFs.Lock
import DistFs.Locking
import DistFs.Main
import DistFs.Network
import DistFs.Path
import DistFs.PathMap
import DistFs.Program
import DistFs.Replication
import DistFs.Servers
import DistFs.Session
import DistFs.Startup
import DistFs.Storage.Bytes
import DistFs.Storage.Memory
import DistFs.Storage.Mounted
import DistFs.Text.Decimal
import DistFs.Text.Json
import DistFs.Text.Yaml.Document
import DistFs.Text.Yaml.Lexeme
import DistFs.Text.Yaml.Meaning
import DistFs.Text.Yaml.Source
import DistFs.Text.Yaml.Token
import DistFs.Text.Yaml.Writing
import DistFs.Tree
import DistFs.Wire.Codec
import DistFs.Wire.Message
import DistFs.Proofs.Locking.Accounts
import DistFs.Proofs.Locking.Arrivals
import DistFs.Proofs.Locking.Calls
import DistFs.Proofs.Locking.Churn
import DistFs.Proofs.Locking.Course
import DistFs.Proofs.Locking.Deadlock
import DistFs.Proofs.Locking.Ledger
import DistFs.Proofs.Locking.Line
import DistFs.Proofs.Locking.Release
import DistFs.Proofs.Locking.Run
import DistFs.Proofs.Locking.Soundness
import DistFs.Proofs.Locking.Stray
import DistFs.Proofs.Locking.Table
import DistFs.Proofs.Keyed
import DistFs.Proofs.Path
import DistFs.Proofs.PathMap
import DistFs.Proofs.Service.Availability
import DistFs.Proofs.Service.Backing
import DistFs.Proofs.Service.Coherence
import DistFs.Proofs.Service.Failing
import DistFs.Proofs.Service.LockFree
import DistFs.Proofs.Service.Registration
import DistFs.Proofs.Service.Replicas
import DistFs.Proofs.Service.Requests
import DistFs.Proofs.Service.Run
import DistFs.Proofs.Service.Steady
import DistFs.Proofs.Storage.Contents
import DistFs.Proofs.Storage.Memory
import DistFs.Proofs.Tree.Containers
import DistFs.Proofs.Tree.Growth
import DistFs.Proofs.Tree.Listing
import DistFs.Proofs.Tree.Operations
import DistFs.Proofs.Tree.Refinement
import DistFs.Proofs.Tree.Shape
import DistFs.Proofs.Tree.Walk
import DistFs.Proofs.Service.Readers
import DistFs.Proofs.Locking.Closing
import DistFs.Proofs.Service.Stopping
import DistFs.Proofs.Service.Writers
import DistFs.Proofs.PathOrder
import DistFs.Proofs.PathSyntax
import DistFs.Proofs.PathText
import DistFs.Proofs.Text.Json
import DistFs.Proofs.Wire.Codec
import DistFs.Proofs.Storage.Alike
import DistFs.Proofs.Wire.Calls
import DistFs.Proofs.Storage.Shape
import DistFs.Proofs.Service.Offers
import DistFs.Proofs.Service.Joining
import DistFs.Proofs.Service.JoinFaults
import DistFs.Proofs.Service.Launching
import DistFs.Proofs.Storage.HostFiles
import DistFs.Proofs.Storage.HostChanges
import DistFs.Proofs.Storage.Entries
import DistFs.Proofs.Storage.Mirror
import DistFs.Proofs.Storage.Survey
import DistFs.Proofs.Storage.Pruning
import DistFs.Proofs.Service.Backends
import DistFs.Proofs.Locking.Admission
import DistFs.Proofs.Tree.Contents
import DistFs.Proofs.Service.Duplicates
import DistFs.Proofs.Service.RegistrationOrder
import DistFs.Proofs.Storage.Places
import DistFs.Proofs.Storage.Confinement
import DistFs.Proofs.Storage.Staying
import DistFs.Proofs.Service.Confinement
import DistFs.Proofs.Wire.Commands
import DistFs.Proofs.Tree.Pool
import DistFs.Proofs.Service.ReadCount
import DistFs.Proofs.Service.Creation
import DistFs.Proofs.Service.Founding
import DistFs.Proofs.Service.Removal
import DistFs.Proofs.Service.Rotation
import DistFs.Proofs.Tree.Preorder
import DistFs.Proofs.Tree.Search
import DistFs.Proofs.Storage.Ranges
import DistFs.Proofs.Service.InMemory
import DistFs.Proofs.Locking.Stalled
import DistFs.Proofs.Service.Reachable
import DistFs.Proofs.Service.Printing
import DistFs.Proofs.Service.CopyingOut
import DistFs.Proofs.Locking.Changes
import DistFs.Proofs.Locking.Restoring
import DistFs.Proofs.Service.Dropping
import DistFs.Proofs.Service.Restoring
import DistFs.Proofs.Locking.Ripple
