import UnifyFramework.Text.Bytes
import UnifyFramework.Debugger.Chunking
import UnifyFramework.Duktape.Write
import UnifyFramework.Debugger.Decoding
import UnifyFramework.Debugger.Received
import UnifyFramework.Transition.Run
import UnifyFramework.Debugger.Accounting
import UnifyFramework.Debugger.Request
import UnifyFramework.Duktape.Answer
import UnifyFramework.Debugger.Client
import UnifyFramework.Debugger.Breakpoints
import UnifyFramework.Transition.Tickets
import UnifyFramework.Debugger.System
import UnifyFramework.Debugger.Matching
import UnifyFramework.Network.Delivery
import UnifyFramework.Timer.CETimerUtils
import UnifyFramework.Timer.View
import UnifyFramework.Timer.Lifetime
import UnifyFramework.Timer.Guarantees
import UnifyFramework.Timer.Table
import UnifyFramework.Duktape.Encoding
import UnifyFramework.Debugger.SingleMessage
import UnifyFramework.Debugger.Leftover
import UnifyFramework.Debugger.Pipe
import UnifyFramework.Notification.Erasing
import UnifyFramework.Notification.MethodsJni
import UnifyFramework.FileUtils.CCFileUtils
import UnifyFramework.FileUtils.FullPathCache
import UnifyFramework.Debugger.Dialogue
import UnifyFramework.Debugger.Removal
import UnifyFramework.Debugger.Uniqueness
import UnifyFramework.Notification.ObserverTable
import UnifyFramework.Notification.RemoveObservers
import UnifyFramework.Scripts.JsObject
import UnifyFramework.Scripts.Notification
import UnifyFramework.Scripts.Delivery
import UnifyFramework.Scripts.Registry
import UnifyFramework.FileUtils.ScriptPath
import UnifyFramework.Text.Lines
import UnifyFramework.Text.Decimal
import UnifyFramework.JsEngine.LocalsView
import UnifyFramework.Duktape.ValueStack
import UnifyFramework.JsEngine.NativeCall
import UnifyFramework.Transition.Locking
import UnifyFramework.Debugger.Locks
import UnifyFramework.Debugger.Uninterrupted
import UnifyFramework.Parsing.PrefixCode
import UnifyFramework.Debugger.PrefixCode
import UnifyFramework.Debugger.PutLoop
import UnifyFramework.Storage.StorageUtils
import UnifyFramework.Text.Format
import UnifyFramework.JsEngine.Print
import UnifyFramework.Network.ImageHttpUtils
import UnifyFramework.Network.QueueDownLoad
import UnifyFramework.Scripts.ModuleId
import UnifyFramework.FileUtils.FileData
import UnifyFramework.Scripts.Require
import UnifyFramework.Duktape.Stepping
import UnifyFramework.Duktape.PlainStepping
import UnifyFramework.Duktape.SteppingInvariant
import UnifyFramework.Duktape.SteppingRefinement
import UnifyFramework.Duktape.StepEnds
import UnifyFramework.Parsing.LittleEndian
import UnifyFramework.Versioned.Basic
import UnifyFramework.Versioned.Levels
import UnifyFramework.Versioned.Reads
import UnifyFramework.Search.Bisect
import UnifyFramework.Search.Ranges
import UnifyFramework.Transition.Trace
import UnifyFramework.Leveldb.Coding
import UnifyFramework.Leveldb.Log
import UnifyFramework.Leveldb.LogLayout
import UnifyFramework.Leveldb.LogReading
import UnifyFramework.Leveldb.Format
import UnifyFramework.Leveldb.WriteBatch
import UnifyFramework.Leveldb.MemTable
import UnifyFramework.Leveldb.Version
import UnifyFramework.Leveldb.VersionOrder
import UnifyFramework.Leveldb.VersionEdit
import UnifyFramework.Leveldb.Flush
import UnifyFramework.Leveldb.Compaction
import UnifyFramework.Leveldb.CompactionWork
import UnifyFramework.Leveldb.CompactionInputs
import UnifyFramework.Leveldb.CompactionOrder
import UnifyFramework.Leveldb.Db
import UnifyFramework.Leveldb.Store
import UnifyFramework.Leveldb.DbInvariant
import UnifyFramework.Leveldb.DbWrites
import UnifyFramework.Leveldb.DbBackground
import UnifyFramework.Leveldb.Recovery
import UnifyFramework.Leveldb.DbRefinement
import UnifyFramework.Leveldb.Scheduling
import UnifyFramework.Leveldb.Load
import UnifyFramework.Leveldb.DbProgress
