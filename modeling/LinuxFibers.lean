import LinuxFibers.Base.Run
import LinuxFibers.Base.Outcome
import LinuxFibers.Base.Local
import LinuxFibers.Base.Table
import LinuxFibers.Base.Log
import LinuxFibers.Base.Counter
import LinuxFibers.Base.Ledger
import LinuxFibers.Base.Bag
import LinuxFibers.Base.Storage
import LinuxFibers.Driver.Types
import LinuxFibers.Driver.Open
import LinuxFibers.Driver.Create
import LinuxFibers.Driver.Switch
import LinuxFibers.Driver.Fls
import LinuxFibers.Driver.Ioctl
import LinuxFibers.Driver.Run
import LinuxFibers.Driver.Files
import LinuxFibers.Driver.Proc
import LinuxFibers.Driver.Library
import LinuxFibers.Spec.Machine
import LinuxFibers.Spec.Accounts
import LinuxFibers.Proof.Entry
import LinuxFibers.Proof.Binding
import LinuxFibers.Proof.Reach
import LinuxFibers.Proof.FlsBounds
import LinuxFibers.Proof.Registry
import LinuxFibers.Proof.Refine
import LinuxFibers.Proof.Context
import LinuxFibers.Proof.Storage
import LinuxFibers.Proof.Directory
import LinuxFibers.Proof.Unregistered
import LinuxFibers.Proof.Commands
import LinuxFibers.Proof.Names
import LinuxFibers.Proof.Accounts
import LinuxFibers.Proof.Figures
import LinuxFibers.Proof.ExecTime
import LinuxFibers.Proof.Reuse
import LinuxFibers.Proof.Stack
import LinuxFibers.Proof.Ledger
import LinuxFibers.Proof.Fls
import LinuxFibers.Conc.Locks
import LinuxFibers.Conc.Cells
import LinuxFibers.Conc.Atomic
import LinuxFibers.Conc.Alone
import LinuxFibers.Conc.Underway
import LinuxFibers.Conc.Serial
import LinuxFibers.Conc.Deadlock
import LinuxFibers.Conc.Creation
import LinuxFibers.Conc.Apart
import LinuxFibers.Conc.Lost
import LinuxFibers.Simulation.Calqueue
import LinuxFibers.Simulation.Buckets
import LinuxFibers.Simulation.Resize
import LinuxFibers.Simulation.Operations
import LinuxFibers.Simulation.Order
import LinuxFibers.Simulation.Invariant
import LinuxFibers.Simulation.Width
import LinuxFibers.Base.Reader
import LinuxFibers.Driver.Read
import LinuxFibers.Proof.Hash
import LinuxFibers.Proof.Read
import LinuxFibers.Proof.Switch
import LinuxFibers.Driver.Exit
import LinuxFibers.Proof.Exit
import LinuxFibers.Lists.Fibers
import LinuxFibers.Lists.Fls
import LinuxFibers.Lists.Run
import LinuxFibers.Lists.Lock
import LinuxFibers.Base.Bitmap
import LinuxFibers.Base.Dlist
import LinuxFibers.Simulation.Channel
import LinuxFibers.Simulation.Model
import LinuxFibers.Simulation.Cell
import LinuxFibers.Base.Slot
import LinuxFibers.Conc.Links
import LinuxFibers.Base.Baton
import LinuxFibers.Base.Mwc
import LinuxFibers.Base.X86
import LinuxFibers.Simulation.Clock
import LinuxFibers.Simulation.Numerical
import LinuxFibers.Simulation.Testbed
import LinuxFibers.Userspace.Handover
import LinuxFibers.Userspace.Jmp
import LinuxFibers.Base.Cas
import LinuxFibers.Base.Private
import LinuxFibers.Userspace.Storage
import LinuxFibers.Userspace.Thread
import LinuxFibers.Lists.Calls
import LinuxFibers.Lists.Machine
import LinuxFibers.Lists.Nodes
import LinuxFibers.Lists.Operations
import LinuxFibers.Lists.Refine
import LinuxFibers.Lists.Exit
import LinuxFibers.Lists.Heads
import LinuxFibers.Lists.Directory
import LinuxFibers.Lists.Interface
import LinuxFibers.Lists.Library
import LinuxFibers.Driver.Interface
import LinuxFibers.Proof.Faults
import LinuxFibers.Proof.Library
import LinuxFibers.Userspace.Waiting
