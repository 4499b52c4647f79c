import IronBus.Spec.AckGateCorrect
import IronBus.Spec.BindingsCorrect
import IronBus.Spec.CursorCapCorrect
import IronBus.Spec.DeadLetterCorrect
import IronBus.Spec.DedupCorrect
import IronBus.Spec.DeliveryLimitCorrect
import IronBus.Spec.EpochCacheCorrect
import IronBus.Spec.EvictionCorrect
import IronBus.Spec.FailoverCorrect
import IronBus.Spec.FollowerIngestCorrect
import IronBus.Spec.GeoMirrorCorrect
import IronBus.Spec.GroupTokensCorrect
import IronBus.Spec.HealCorrect
import IronBus.Spec.KeySharedCorrect
import IronBus.Spec.LeaderLeaseCorrect
import IronBus.Spec.LeafPushCorrect
import IronBus.Spec.LeaseCountsCorrect
import IronBus.Spec.MetadataCodecCorrect
import IronBus.Spec.MetadataCorrect
import IronBus.Spec.MetadataGroupCorrect
import IronBus.Spec.PlacementCorrect
import IronBus.Spec.SegmentDurability
import IronBus.Spec.ServedSnapshot
import IronBus.Spec.SnapshotCorrect
import IronBus.Spec.StreamingConsumerCorrect
import IronBus.Spec.SubjectCover
import IronBus.Spec.TxnCorrect
import IronBus.Spec.VisibleDurable
