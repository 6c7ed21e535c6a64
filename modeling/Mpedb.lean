import Mpedb.Btree
import Mpedb.BtreePage
import Mpedb.BtreeRead
import Mpedb.Capture
import Mpedb.Collab
import Mpedb.ColumnSegment
import Mpedb.Columnar
import Mpedb.CommitHistory
import Mpedb.CommitMode
import Mpedb.Compaction
import Mpedb.Compare
import Mpedb.Dml
import Mpedb.Expression
import Mpedb.ExpressionCodec
import Mpedb.Footprint
import Mpedb.ForeignKey
import Mpedb.Freelist
import Mpedb.Guard
import Mpedb.Island
import Mpedb.KeyAccess
import Mpedb.KeyOrder
import Mpedb.Keycode
import Mpedb.Lib.BitMask
import Mpedb.Lib.BitPack
import Mpedb.Lib.ByteReader
import Mpedb.Lib.Bytes
import Mpedb.Lib.Checked
import Mpedb.Lib.Delimited
import Mpedb.Lib.DerivedIndex
import Mpedb.Lib.Fallible
import Mpedb.Lib.Interval
import Mpedb.Lib.OrderedCode
import Mpedb.Lib.Outcome
import Mpedb.Lib.Rekey
import Mpedb.Lib.Slotted
import Mpedb.Lib.SortedMap
import Mpedb.Lib.StableSort
import Mpedb.Lib.Stem
import Mpedb.Lib.Transition
import Mpedb.Lowering
import Mpedb.Notify
import Mpedb.NumericFilter
import Mpedb.Optimistic
import Mpedb.OrderBy
import Mpedb.PageStore
import Mpedb.Pages
import Mpedb.PartialIndex
import Mpedb.PrivatePins
import Mpedb.Proofs.BtreeFrame
import Mpedb.Proofs.Capture
import Mpedb.Proofs.Collab
import Mpedb.Proofs.ColumnSegment
import Mpedb.Proofs.Columnar
import Mpedb.Proofs.CommitHistory
import Mpedb.Proofs.CommitMode
import Mpedb.Proofs.Compaction
import Mpedb.Proofs.Compare
import Mpedb.Proofs.DecimalOrder
import Mpedb.Proofs.Dml
import Mpedb.Proofs.Effects
import Mpedb.Proofs.Expression
import Mpedb.Proofs.ExpressionCodec
import Mpedb.Proofs.FloatOrder
import Mpedb.Proofs.Freelist
import Mpedb.Proofs.GroupKey
import Mpedb.Proofs.History
import Mpedb.Proofs.Island
import Mpedb.Proofs.KeyOrder
import Mpedb.Proofs.Keycode
import Mpedb.Proofs.Lowering
import Mpedb.Proofs.Notify
import Mpedb.Proofs.NumberOrder
import Mpedb.Proofs.NumericFilter
import Mpedb.Proofs.NumericReading
import Mpedb.Proofs.Optimistic
import Mpedb.Proofs.OrderBy
import Mpedb.Proofs.Pages
import Mpedb.Proofs.PartialIndex
import Mpedb.Proofs.PrivatePins
import Mpedb.Proofs.Readers
import Mpedb.Proofs.Renumbering
import Mpedb.Proofs.Ring
import Mpedb.Proofs.RowCalls
import Mpedb.Proofs.RowCodec
import Mpedb.Proofs.RowCompare
import Mpedb.Proofs.SegmentScan
import Mpedb.Proofs.Session
import Mpedb.Proofs.Statement
import Mpedb.Proofs.Subedit
import Mpedb.Proofs.Table
import Mpedb.Proofs.ValueOrder
import Mpedb.Proofs.Wal
import Mpedb.Proofs.WalInv
import Mpedb.Proofs.WalRecover
import Mpedb.Proofs.WriteTxn
import Mpedb.Readers
import Mpedb.Ring
import Mpedb.RowCodec
import Mpedb.RowCompare
import Mpedb.ScalarFn
import Mpedb.SegmentScan
import Mpedb.Session
import Mpedb.Statement
import Mpedb.Subedit
import Mpedb.Table
import Mpedb.Value
import Mpedb.Wal
import Mpedb.WriteTxn
