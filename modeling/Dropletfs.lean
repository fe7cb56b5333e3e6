import Dropletfs.CString
import Dropletfs.Library.Attempts
import Dropletfs.Library.Overlay
import Dropletfs.LocalFiles
import Dropletfs.Metadata
import Dropletfs.Remote
import Dropletfs.Timeout
import Dropletfs.Library.Exec
import Dropletfs.Transfer
import Dropletfs.Library.Streaming
import Dropletfs.Zip
import Dropletfs.Entry
import Dropletfs.Download
import Dropletfs.Open
import Dropletfs.Create
import Dropletfs.Release
import Dropletfs.Access
import Dropletfs.Lookup
import Dropletfs.Collect
import Dropletfs.Library.SlotRing
import Dropletfs.Objects
import Dropletfs.Rename
import Dropletfs.Library.GuardedRuns
import Dropletfs.Session
import Dropletfs.Pairing
import Dropletfs.LocalFrame
import Dropletfs.EntryFrame
import Dropletfs.Liveness
import Dropletfs.LocalCopy
import Dropletfs.Upload
import Dropletfs.Descriptors
import Dropletfs.WriteBack
import Dropletfs.CacheNames
import Dropletfs.Progress
import Dropletfs.RoundTrip
import Dropletfs.Attributes
import Dropletfs.Writable
import Dropletfs.Evolution
import Dropletfs.EntryStates
import Dropletfs.Sweeps
import Dropletfs.FileTypes
import Dropletfs.Listings
import Dropletfs.Removal
import Dropletfs.ScratchFiles
import Dropletfs.Accounting
import Dropletfs.OpenDescriptors
import Dropletfs.Library.Parties
import Dropletfs.Interleaving
import Dropletfs.SharedDirectory
import Dropletfs.Stored
import Dropletfs.Backing
import Dropletfs.Handles
import Dropletfs.Securing
import Dropletfs.Durability
import Dropletfs.ByPath
import Dropletfs.Leftovers
import Dropletfs.Creation
import Dropletfs.Links
import Dropletfs.Reporting
import Dropletfs.CompleteCopies
import Dropletfs.Labels
import Dropletfs.Ownership
import Dropletfs.Overtaking
import Dropletfs.Suspension
import Dropletfs.Configuration
import Dropletfs.Precedence
import Dropletfs.Assignments
import Dropletfs.Calls
import Dropletfs.Exclusion
import Dropletfs.SmartCache
import Dropletfs.FieldReads
import Dropletfs.FieldRecord
import Dropletfs.Codec
import Dropletfs.ConfLines
import Dropletfs.ConfNumbers
import Dropletfs.ConfFile
import Dropletfs.LinkTargets
import Dropletfs.PathBuffers
import Dropletfs.NegativeLookups
import Dropletfs.Dispatches
import Dropletfs.Library.Noted
import Dropletfs.Replacement
import Dropletfs.Retries
import Dropletfs.Limits
import Dropletfs.Profiling
import Dropletfs.Library.CellStore
import Dropletfs.Lists
import Dropletfs.TrailingSlashes
import Dropletfs.WriteLoops
import Dropletfs.NameLimits
import Dropletfs.DirectoryTree
import Dropletfs.Library.DirTree
import Dropletfs.Library.PathOrder
import Dropletfs.Trees
import Dropletfs.RightPaths
import Dropletfs.TreeRename
import Dropletfs.CompleteMoves
import Dropletfs.Library.FileMap
import Dropletfs.Shown
import Dropletfs.PlainFiles
import Dropletfs.PlainRuns
import Dropletfs.Unmount
import Dropletfs.Library.Leases
import Dropletfs.ThreadSafety
import Dropletfs.Threads
import Dropletfs.ThreadMoves
import Dropletfs.RetriedChanges
import Dropletfs.KeptFiles
import Dropletfs.DirentLists
import Dropletfs.Library.CellFamily
import Dropletfs.MovedPaths
import Dropletfs.RequestHistories
import Dropletfs.SoloRenames
