import KoishiDB.Base.Exec
import KoishiDB.Base.Heap
import KoishiDB.Base.Machine
import KoishiDB.Base.Bytes
import KoishiDB.Base.Leb128
import KoishiDB.Base.Codec
import KoishiDB.Base.Order
import KoishiDB.Base.Versioned
import KoishiDB.Base.Layers
import KoishiDB.Base.Lock
import KoishiDB.Base.Population
import KoishiDB.Base.SharedLock
import KoishiDB.Base.Simulation
import KoishiDB.Common
import KoishiDB.Util.Encode
import KoishiDB.Util.StatusState
import KoishiDB.Util.Varint
import KoishiDB.Util.Bloom
import KoishiDB.Type.Key
import KoishiDB.Type.InternalKey
import KoishiDB.Memory.SkipList
import KoishiDB.Memory.SkipListInv
import KoishiDB.Memory.SkipListShape
import KoishiDB.Memory.Memtable
import KoishiDB.Memory.KeyFormat
import KoishiDB.Memory.WriteBatch
import KoishiDB.Memory.AnyBatch
import KoishiDB.Memory.BatchBytes
import KoishiDB.Disk.WritableFile
import KoishiDB.Disk.Block
import KoishiDB.Disk.BlockScan
import KoishiDB.Disk.FilterBlock
import KoishiDB.Disk.FilterReader
import KoishiDB.Disk.FilterBounds
import KoishiDB.Disk.FilterRanges
import KoishiDB.Disk.Format
import KoishiDB.Disk.TableBuilder
import KoishiDB.Disk.SSTable
import KoishiDB.Disk.ReadErrors
import KoishiDB.Disk.TableImage
import KoishiDB.Disk.RoundTrip
import KoishiDB.Disk.FileSize
import KoishiDB.Disk.Builder
import KoishiDB.Disk.Lookup
import KoishiDB.Disk.OrderCheck
import KoishiDB.Disk.Flushable
import KoishiDB.Disk.Layout
import KoishiDB.Disk.TwoLevel
import KoishiDB.Db.DBimpl
import KoishiDB.Db.Group
import KoishiDB.Db.InMemory
import KoishiDB.Db.Manifest
import KoishiDB.Db.Session
import KoishiDB.Db.Survival
import KoishiDB.Db.Room
import KoishiDB.Db.Numbers
import KoishiDB.Db.Sequence
import KoishiDB.Db.Flush
import KoishiDB.Db.Catalogue
import KoishiDB.Db.Forgetful
import KoishiDB.Db.Search
import KoishiDB.Db.Close
import KoishiDB.Db.Locks
import KoishiDB.Db.Scheduling
import KoishiDB.Db.Atomicity
import KoishiDB.Db.Readers
import KoishiDB.Db.History
import KoishiDB.Db.Linearization
import KoishiDB.Network.Server
import KoishiDB.Network.ThreadPool
import KoishiDB.Network.Service
