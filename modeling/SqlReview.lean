import SqlReview.ExplainDb
import SqlReview.FingerprintBuffer
import SqlReview.FingerprintLiteral
import SqlReview.FingerprintText
import SqlReview.SamplingBranches
import SqlReview.Intake
import SqlReview.InsertStatement
import SqlReview.LeveledQueue
import SqlReview.PriorityQueue
import SqlReview.FingerprintPending
import SqlReview.FingerprintRegular
import SqlReview.FingerprintNumber
import SqlReview.FingerprintNumberKept
import SqlReview.FingerprintComment
import SqlReview.FingerprintRows
import SqlReview.Explain
import SqlReview.ExplainScore
import SqlReview.ExplainReport
import SqlReview.Config
import SqlReview.FingerprintCase
import SqlReview.FingerprintQuotes
import SqlReview.GoUtf8
import SqlReview.FingerprintUtf8
import SqlReview.ListSwap
import SqlReview.Unescape
import SqlReview.FingerprintEscape
import SqlReview.FingerprintLag
import SqlReview.FingerprintResidue
import SqlReview.FingerprintOrder
import SqlReview.PriorityDelivery
import SqlReview.TextRewrite
import SqlReview.JsonRewrite
import SqlReview.KafkaMessage
import SqlReview.FingerprintOffsets
import SqlReview.FingerprintProvenance
import SqlReview.FingerprintSlack
import SqlReview.FingerprintGaps
import SqlReview.FingerprintTidy
import SqlReview.MysqlRows
import SqlReview.RedisLists
import SqlReview.ReviewDrain
import SqlReview.AgentBatches
import SqlReview.AgentDrain
import SqlReview.RedisPoolRuns
import SqlReview.RedisScripts
