import ZippyFS.Lib.ByteOrder
import ZippyFS.Lib.TreeSplit
import ZippyFS.Lib.TreeContents
import ZippyFS.Lib.StructLayout
import ZippyFS.HexNames
import ZippyFS.Checksum
import ZippyFS.Index.LatestInode
import ZippyFS.Index.WriterFind
import ZippyFS.Index.SortedInsert
import ZippyFS.Index.MappedTires
import ZippyFS.Index.DescentBounds
import ZippyFS.Cache.ChangeFlag
import ZippyFS.Cache.ReadBack
import ZippyFS.Cache.Ownership
import ZippyFS.Cache.WriteOverlay
import ZippyFS.Cache.NullSafety
import ZippyFS.Cache.Links
import ZippyFS.Cache.Listing
import ZippyFS.Sync.Publication
import ZippyFS.Cache.Transparency
import ZippyFS.Cache.Loading
import ZippyFS.Cache.Attributes
import ZippyFS.Cache.Capacity
import ZippyFS.Cache.LoopAccount
import ZippyFS.Cache.ReadSlice
import ZippyFS.Cache.Truncation
import ZippyFS.Cache.LinkCounts
import ZippyFS.Cache.BlockSizes
import ZippyFS.Cache.OtherPaths
import ZippyFS.Cache.Namespace
import ZippyFS.Cache.Visibility
import ZippyFS.Cache.SuccessCodes
import ZippyFS.Cache.ListingLookup
import ZippyFS.Cache.DeletedData
import ZippyFS.Cache.FlushedData
import ZippyFS.Cache.Documents
import ZippyFS.Cache.FileStore
import ZippyFS.Cache.Remount
import ZippyFS.Index.Confined
import ZippyFS.Index.Lookups
import ZippyFS.Sync.Convergence
import ZippyFS.Sync.Fleet
import ZippyFS.Sync.PidFile
import ZippyFS.Sync.Delivery
