import MkfsExt4.Lib.Store
import MkfsExt4.Bytes
import MkfsExt4.Lib.Crc
import MkfsExt4.Csum
import MkfsExt4.Device
import MkfsExt4.Lib.Run
import MkfsExt4.Mmp.Block
import MkfsExt4.Mmp.Protocol
import MkfsExt4.Mmp.Race
import MkfsExt4.Mmp.Holder
import MkfsExt4.Cache.Model
import MkfsExt4.Cache.Invariant
import MkfsExt4.Cache.WriteBack
import MkfsExt4.Cache.Ops
import MkfsExt4.Cache.Refine
import MkfsExt4.Cache.Bounds
import MkfsExt4.Jbd2.Format
import MkfsExt4.Jbd2.Recovery
import MkfsExt4.Jbd2.Log
import MkfsExt4.Jbd2.Parse
import MkfsExt4.Jbd2.Scan
import MkfsExt4.Jbd2.Replay
import MkfsExt4.Features
import MkfsExt4.Lib.FirstFit
import MkfsExt4.Params
import MkfsExt4.Layout.Compute
import MkfsExt4.Layout.Placement
import MkfsExt4.Layout.Overlap
import MkfsExt4.Lib.Loop
import MkfsExt4.Layout.FlexGroup
import MkfsExt4.Structs.Dirent
import MkfsExt4.Structs.Extent
import MkfsExt4.Structs.GroupDesc
import MkfsExt4.Structs.GroupDescCodec
import MkfsExt4.Structs.Inode
import MkfsExt4.Fs.Filesystem
import MkfsExt4.Fs.BlockMap
import MkfsExt4.Lib.SortedMap
import MkfsExt4.Orphan
import MkfsExt4.Lib.Runs
import MkfsExt4.Fsck.BlockRuns
import MkfsExt4.Fsck.BlockSets
import MkfsExt4.Fsck.Passes
import MkfsExt4.Fsck.Added
import MkfsExt4.Fs.References
import MkfsExt4.Fsck.Check
import MkfsExt4.Fsck.Claims
import MkfsExt4.Fsck.ReadOnly
import MkfsExt4.Fsck.Preen
import MkfsExt4.Lib.Search
import MkfsExt4.Fsck.Connectivity
import MkfsExt4.Jbd2.Turns
import MkfsExt4.Jbd2.Ends
import MkfsExt4.Jbd2.Positions
import MkfsExt4.Jbd2.Crash
import MkfsExt4.Read.Ext4
import MkfsExt4.Read.Inodes
import MkfsExt4.Lib.Intervals
import MkfsExt4.Read.Files
import MkfsExt4.Fs.Descriptors
import MkfsExt4.Format.Allocator
import MkfsExt4.Format.Indirect
import MkfsExt4.Format.Plan
import MkfsExt4.Format.Contents
import MkfsExt4.Structs.SuperblockCodec
import MkfsExt4.Structs.InodeCodec
import MkfsExt4.Structs.InodeStamp
import MkfsExt4.Fs.Inodes
import MkfsExt4.Read.Dirs
import MkfsExt4.Layout.Loop
import MkfsExt4.Layout.Derived
import MkfsExt4.Format.Tiling
import MkfsExt4.Layout.Total
import MkfsExt4.Format.Write
import MkfsExt4.Format.InFlight
import MkfsExt4.Layout.Fronts
import MkfsExt4.Format.Places
import MkfsExt4.Format.Bounds
import MkfsExt4.Format.Torn
import MkfsExt4.Format.Cells
import MkfsExt4.Format.Schedule
import MkfsExt4.Lib.Descent
import MkfsExt4.Read.Resolve
import MkfsExt4.Format.Allocations
import MkfsExt4.Read.Walks
import MkfsExt4.Read.Pointers
import MkfsExt4.Format.Mapped
import MkfsExt4.Format.Planned
import MkfsExt4.Format.Advertised
import MkfsExt4.Format.Extents
import MkfsExt4.Format.Room
import MkfsExt4.Format.Kept
import MkfsExt4.Format.Mounted
import MkfsExt4.Structs.ExtentCodec
import MkfsExt4.Format.Leaves
import MkfsExt4.Format.Resize
import MkfsExt4.Format.DryRun
import MkfsExt4.Format.Bitmaps
import MkfsExt4.Lib.Routing
import MkfsExt4.Structs.Htree
import MkfsExt4.Fs.Lookup
import MkfsExt4.Read.Lookup
import MkfsExt4.Read.LookupDeep
import MkfsExt4.Read.Paths
import MkfsExt4.Fs.Touched
import MkfsExt4.Lib.Pruning
import MkfsExt4.Orphan.ExtentTree
import MkfsExt4.Orphan.Nodes
import MkfsExt4.Orphan.Truncate
import MkfsExt4.Orphan.IndirectTree
import MkfsExt4.Orphan.Indirect
import MkfsExt4.Orphan.Pointers
import MkfsExt4.Lib.Utf8
import MkfsExt4.Structs.Xattr
import MkfsExt4.Structs.XattrCodec
import MkfsExt4.Structs.XattrWriters
import MkfsExt4.Structs.DirentCodec
import MkfsExt4.Fsck.Parents
import MkfsExt4.Fsck.Links
import MkfsExt4.Lib.Collisions
import MkfsExt4.Fsck.Duplicates
import MkfsExt4.Fsck.BlockCounts
import MkfsExt4.Fsck.Identity
import MkfsExt4.Fsck.Verdict
import MkfsExt4.Fsck.Footprint
import MkfsExt4.Fsck.OrphanRecord
import MkfsExt4.Fsck.Reopen
import MkfsExt4.Fsck.DescCsum
import MkfsExt4.Compare.Report
import MkfsExt4.Compare.Superblock
import MkfsExt4.Compare.Images
import MkfsExt4.Lib.Walk
import MkfsExt4.Compare.Ends
import MkfsExt4.Compare.Trees
import MkfsExt4.Fs.Backups
import MkfsExt4.Features.Spec
import MkfsExt4.Lib.Detect
import MkfsExt4.Csum.Damage
import MkfsExt4.Format.Directories
import MkfsExt4.Structs.HtreeWriters
import MkfsExt4.Compare.Selection
import MkfsExt4.Format.DescTable
