import S3Stream.Wal.Listing
import S3Stream.Wal.TrimRetry
import S3Stream.Wal.CrashRecovery
import S3Stream.Core.Turns
import S3Stream.Core.StreamClose
import S3Stream.Core.SnapshotReplay
import S3Stream.Core.CacheSpan
import S3Stream.Wal.ReadBack
import S3Stream.Wal.RangeRead
import S3Stream.Wal.Readahead
import S3Stream.Core.SnapshotCache
import S3Stream.Core.WalReplayOrder
import S3Stream.Core.RecoverIdempotent
import S3Stream.Compact.PlanBounds
import S3Stream.Compact.SanityCheck
import S3Stream.Compact.StreamGroups
import S3Stream.Compact.DataBlockWriter
import S3Stream.Object.IndexLookup
import S3Stream.Core.RangeIndexCache
import S3Stream.Object.WriteOrder
import S3Stream.Core.StreamClient
import S3Stream.Codec.Buffer
import S3Stream.Codec.Corruption
import S3Stream.Core.SizeLimiter
