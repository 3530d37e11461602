import Wrapfs.Foundations.Runs
import Wrapfs.Foundations.ByteStore
import Wrapfs.Foundations.CounterMode
import Wrapfs.Foundations.Ledger
import Wrapfs.Foundations.LedgerOp
import Wrapfs.Kernel
import Wrapfs.Crypto
import Wrapfs.AddressSpace.Operations
import Wrapfs.AddressSpace.Write
import Wrapfs.AddressSpace.Coherence
import Wrapfs.AddressSpace.Durability
import Wrapfs.AddressSpace.AlignedUse
import Wrapfs.AddressSpace.FileIo
import Wrapfs.Ioctl
import Wrapfs.Mount
import Wrapfs.AddressSpace.KeyGovernance
import Wrapfs.AddressSpace.Confidentiality
import Wrapfs.File.PassThrough
import Wrapfs.File.Setattr
import Wrapfs.AddressSpace.Gaps
import Wrapfs.File.Mapping
import Wrapfs.Namespace.Iget
import Wrapfs.Namespace.Operations
import Wrapfs.Namespace.Rules
import Wrapfs.Namespace.LowerTree
import Wrapfs.Namespace.MirrorInv
import Wrapfs.Namespace.Balance
import Wrapfs.Namespace.References
import Wrapfs.Namespace.Symlink
import Wrapfs.Namespace.FailedMake
import Wrapfs.Namespace.ParentAttrs
import Wrapfs.Namespace.Vfs
import Wrapfs.Namespace.MirrorLookup
import Wrapfs.Namespace.MirrorChange
import Wrapfs.AddressSpace.PageRead
import Wrapfs.AddressSpace.PageWrite
import Wrapfs.AddressSpace.PageLocks
import Wrapfs.AddressSpace.ScratchLedger
import Wrapfs.File.DirStream
import Wrapfs.Namespace.InodeRefs
import Wrapfs.Namespace.Mirror
import Wrapfs.Namespace.LinkCounts
import Wrapfs.AddressSpace.Volume
import Wrapfs.AddressSpace.ConcurrentReads
import Wrapfs.AddressSpace.LowerBytes
import Wrapfs.Namespace.CoreSteps
import Wrapfs.Namespace.LinkWalk
import Wrapfs.Namespace.LifeCycle
import Wrapfs.File.OpenFiles
import Wrapfs.TwoViews
