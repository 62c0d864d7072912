import CloudWeb.Foundation.Execution
import CloudWeb.Foundation.Dispenser
import CloudWeb.Foundation.Program
import CloudWeb.Foundation.ExpiringStore
import CloudWeb.Foundation.ReentrantMutex
import CloudWeb.Foundation.Concatenation
import CloudWeb.Foundation.Paging
import CloudWeb.Foundation.Like
import CloudWeb.Foundation.DynamicSql
import CloudWeb.Java.Long
import CloudWeb.Java.LongBits
import CloudWeb.Sequence.RedisCounter
import CloudWeb.Sequence.RedisSequence
import CloudWeb.Sequence.NumberCacheSequence
import CloudWeb.Sequence.NumberCacheAlone
import CloudWeb.Sequence.NumberCacheWaste
import CloudWeb.Sequence.SharedCounter
import CloudWeb.Sequence.NumberSequence
import CloudWeb.Sequence.NumberSequenceOverlap
import CloudWeb.Sequence.MixedSequence
import CloudWeb.Sequence.MixedProcesses
import CloudWeb.Sequence.SnowFlake
import CloudWeb.Sequence.SnowFlakeSequence
import CloudWeb.Sequence.SnowFlakeOrder
import CloudWeb.Sequence.SnowFlakeMilliseconds
import CloudWeb.Sequence.SnowFlakeLayout
import CloudWeb.Sequence.SnowFlakeAutoSequence
import CloudWeb.Sequence.SnowFlakeRegistration
import CloudWeb.Sequence.SnowFlakeLease
import CloudWeb.Sequence.SnowFlakeSchedule
import CloudWeb.Sequence.SnowFlakeSuccession
import CloudWeb.Sequence.ZookeeperSequence
import CloudWeb.Sequence.ZookeeperCleanup
import CloudWeb.Sequence.ZookeeperSettling
import CloudWeb.Sequence.ZookeeperSequencePro
import CloudWeb.Sequence.ZookeeperMoves
import CloudWeb.Sequence.ZookeeperRetry
import CloudWeb.Sequence.ZookeeperSegments
import CloudWeb.Sequence.ZookeeperContention
import CloudWeb.Sequence.ZookeeperSoleUser
import CloudWeb.Sequence.ZookeeperPrefetch
import CloudWeb.Lock.IDistributedLock
import CloudWeb.Lock.ZookeeperLock
import CloudWeb.Lock.ZookeeperRelease
import CloudWeb.Lock.RedisLock
import CloudWeb.Lock.AutomaticRelease
import CloudWeb.Lock.Protection
import CloudWeb.Provider.AccountMapper
import CloudWeb.Provider.AccountService
import CloudWeb.Provider.AccountRequest
import CloudWeb.Provider.AccountPage
import CloudWeb.Consumer.AccountApi
