import ISearch.TTree.PostOrder
import ISearch.Fence.System
import ISearch.CacheHash.Run
import ISearch.BoolQuery.Semantics
import ISearch.BufferProcess.Answers
import ISearch.IndexWrite.Mirror
import ISearch.Replication.Sync
import ISearch.Replication.Recovery
import ISearch.Replication.PacketStream
import ISearch.RocksProcess.KeyUpdate
import ISearch.DirectQuery.OrderBy
import ISearch.BinLog.Seek
import ISearch.BinLog.Stream
import ISearch.Cache.DataChunk
import ISearch.Cache.EmptyFilter
import ISearch.Cache.LruBit
import ISearch.Cache.NodePool
import ISearch.TreeData.Engines
import ISearch.TreeData.Reply
import ISearch.TreeData.Copy
import ISearch.TreeData.Once
import ISearch.KeyRoute.Migration
import ISearch.Task.Multiplexer
import ISearch.Task.PackedKey
import ISearch.RocksProcess.NumericKeys
import ISearch.RocksProcess.BitmapBytes
import ISearch.RocksProcess.RowUpdate
import ISearch.FieldValue.Compare
import ISearch.FieldValue.Saturate
import ISearch.Protocol.Safety
import ISearch.Protocol.TableDef
import ISearch.OrderOp.Paging
import ISearch.IndexSync.Delete
import ISearch.TTree.KeyCompare
import ISearch.IndexSync.RocksRange
import ISearch.IndexKey.Lookup
import ISearch.IndexSync.Follow
import ISearch.Intelligent.Polyphone
import ISearch.Intelligent.Shift
import ISearch.DocManager.GeoFilter
import ISearch.DocManager.ScoreMap
import ISearch.CacheList.Map
import ISearch.SkipList.Insert
import ISearch.GeoHash.Cover
import ISearch.Suggest.Ternary
import ISearch.Correction.Correct
import ISearch.RelateWord.Groups
import ISearch.Pinyin.Contents
import ISearch.DirectQuery.CondOrder
import ISearch.TerminalQuery.Paging
import ISearch.RawData.RowList
import ISearch.RawData.TreeExpire
import ISearch.RocksProcess.Replicate
import ISearch.PtMalloc.DestroySize
import ISearch.PtMalloc.Accounting
import ISearch.PtMalloc.HeapInvariant
import ISearch.SearchAgent.SendQueue
import ISearch.DirectQuery.Session
