import Arcade.Propagation.Stranded
import Arcade.Propagation.HeldBehind
import Arcade.Propagation.Loop
import Arcade.Bump.BlockBinary
import Arcade.Store.Anchors
import Arcade.Store.Regress
import Arcade.Reconciler.Lease
import Arcade.Builder.Owed
import Arcade.Builder.Proved
import Arcade.Reconciler.FullScan
import Arcade.Propagation.Rejections
import Arcade.ApiServer.Queued
import Arcade.ApiServer.IntakeRejections
import Arcade.ApiServer.SeenCallbacks
import Arcade.Events.Subscribers
import Arcade.Sse.Resume
import Arcade.Sse.Midstream
import Arcade.Webhook.Claims
import Arcade.Webhook.Replicas
import Arcade.Pebble.Indexes
import Arcade.Aerospike.Bumps
import Arcade.MerkleService.Registered
import Arcade.BumpCache.Fresh
import Arcade.Mongo.Dangling
import Arcade.Propagation.OrderFree
import Arcade.Propagation.RejectionEvents
import Arcade.Propagation.Ancestors
import Arcade.Bump.Index
import Arcade.Bump.FullPath
import Arcade.Propagation.Plan
import Arcade.Sse.TokenIndex
import Arcade.MerkleService.Backoff
