import GlobalsJs.Globalsd.Connections
import GlobalsJs.Globalsd.ClientReader
import GlobalsJs.Query.Conjunction
import GlobalsJs.Query.Completion
import GlobalsJs.Cache.Disk
import GlobalsJs.Collection.Count
import GlobalsJs.Collection.Exactness
import GlobalsJs.Collection.Clients
import GlobalsJs.Collection.Failures
import GlobalsJs.Query.Rows
import GlobalsJs.Collection.Maintenance
import GlobalsJs.Collection.Sessions
import GlobalsJs.Collection.Removal
import GlobalsJs.Query.Mixed
import GlobalsJs.Collection.AsyncFind
import GlobalsJs.Globalsd.Rejections
import GlobalsJs.Globalsd.LostLines
import GlobalsJs.Globalsd.Bytes
import GlobalsJs.Sql.Requests
import GlobalsJs.Collection.Parallel
import GlobalsJs.Collection.Reindex
import GlobalsJs.Collection.FirstObject
import GlobalsJs.Collection.SetUp
import GlobalsJs.Collection.Recorded
import GlobalsJs.Collection.OneCallback
import GlobalsJs.Sql.Passes
import GlobalsJs.Sql.Described
import GlobalsJs.Noble.Json
import GlobalsJs.Noble.FormalSpec
import GlobalsJs.Noble.Headers
import GlobalsJs.Noble.Bodies
import GlobalsJs.Gdbsession.Prompt
import GlobalsJs.Globalsd.SharedCollection
import GlobalsJs.Noble.ClassFile
import GlobalsJs.Gdbsession.Transcript
import GlobalsJs.Sql.HalfWritten
import GlobalsJs.Collection.SharedIndexes
