import Idgs.Actor.Delivery
import Idgs.Actor.Mailbox
import Idgs.Actor.Scheduler
import Idgs.Client.ClientPool
import Idgs.Client.CommandParser
import Idgs.Client.JavaMessage
import Idgs.Client.TcpClientPool
import Idgs.Cluster.BalanceRuns
import Idgs.Cluster.BalancerCounters
import Idgs.Cluster.FullReplication
import Idgs.Cluster.Leading
import Idgs.Cluster.MemberEvents
import Idgs.Cluster.MigrateActions
import Idgs.Cluster.PartitionStream
import Idgs.Expr.Dates
import Idgs.Expr.FieldPath
import Idgs.Expr.FieldText
import Idgs.Expr.FindInSet
import Idgs.Expr.JsonPath
import Idgs.Expr.Like
import Idgs.Expr.NullStatus
import Idgs.Expr.Numerals
import Idgs.Expr.Pad
import Idgs.Expr.ParseUrl
import Idgs.Expr.RegExpReplace
import Idgs.Expr.VariantLaws
import Idgs.Net.DaemonProcess
import Idgs.Net.HttpConnection
import Idgs.Net.HttpGrammar
import Idgs.Net.InnerTcpConnected
import Idgs.Net.Sender
import Idgs.Net.TcpBatches
import Idgs.Net.Terminated
import Idgs.Protobuf.Json
import Idgs.Protobuf.JsonReadBack
import Idgs.Rdd.ActionsAnswered
import Idgs.Rdd.ActionsPartitioned
import Idgs.Rdd.CoPartition
import Idgs.Rdd.DelegateStream
import Idgs.Rdd.ExactlyOnce
import Idgs.Rdd.ExprMapSound
import Idgs.Rdd.LocalCache
import Idgs.Rdd.LocalFile
import Idgs.Rdd.NamedRddsSound
import Idgs.Rdd.OneHome
import Idgs.Rdd.OuterJoin
import Idgs.Rdd.ReduceAgain
import Idgs.Rdd.Routing
import Idgs.Rdd.TopN
import Idgs.Rdd.TransformerContexts
import Idgs.Sql.InsertedResults
import Idgs.Sql.PlanPreserved
import Idgs.Sql.Predicate
import Idgs.Sql.ReuseKey
import Idgs.Sql.TransformerRequest
import Idgs.Store.Backup
import Idgs.Store.ListenerChain
import Idgs.Store.Migration
import Idgs.Store.MigrationBatches
import Idgs.Store.MigrationSource
import Idgs.Store.RedoReplay
import Idgs.Store.SchemaCreation
import Idgs.Store.Sync
import Idgs.Store.SyncTarget
