import ZeroSdk.Lib.Broadcast
import ZeroSdk.Lib.Replicated
import ZeroSdk.Lib.Bytes
import ZeroSdk.Lib.Postcard
import ZeroSdk.Lib.Framing
import ZeroSdk.Lib.OrdMap
import ZeroSdk.Lib.Prog
import ZeroSdk.Lib.Cbor
import ZeroSdk.Lib.CborOrder
import ZeroSdk.Lib.Winner
import ZeroSdk.Lib.Paging
import ZeroSdk.Lib.Interleave
import ZeroSdk.Lib.Lru
import ZeroSdk.Lib.Fifo
import ZeroSdk.Storage.Db
import ZeroSdk.Storage.Outbox
import ZeroSdk.Storage.RetryQueue
import ZeroSdk.Storage.Sectors
import ZeroSdk.Storage.SectorKeys
import ZeroSdk.Storage.Threads
import ZeroSdk.Storage.Faults
import ZeroSdk.Storage.Dedupe
import ZeroSdk.Crypto.Aad
import ZeroSdk.Crypto.AadOrder
import ZeroSdk.Crypto.AadDecode
import ZeroSdk.Crypto.Hybrid
import ZeroSdk.Crypto.Envelope
import ZeroSdk.Crypto.RoundTrip
import ZeroSdk.Identity.MachineKey
import ZeroSdk.Identity.Keyring
import ZeroSdk.Contacts.Store
import ZeroSdk.Group.Types
import ZeroSdk.Group.Membership
import ZeroSdk.Group.Privilege
import ZeroSdk.Group.Invariant
import ZeroSdk.Group.Founding
import ZeroSdk.Group.Ownership
import ZeroSdk.Group.Merge
import ZeroSdk.Group.Messages
import ZeroSdk.Group.Log
import ZeroSdk.Group.Listing
import ZeroSdk.Group.Speakers
import ZeroSdk.Group.Concurrent
import ZeroSdk.Group.Replicas
import ZeroSdk.Group.Convergence
import ZeroSdk.Group.Settling
import ZeroSdk.Inbox.Service
import ZeroSdk.Inbox.Keys
import ZeroSdk.Inbox.Refine
import ZeroSdk.Inbox.Concurrent
import ZeroSdk.Inbox.Failures
import ZeroSdk.Network.Client
import ZeroSdk.Network.Subscriptions
import ZeroSdk.Network.Streams
import ZeroSdk.Network.Calls
import ZeroSdk.Network.Queues
import ZeroSdk.Network.Broker
import ZeroSdk.Network.BrokerRuns
import ZeroSdk.Network.Retry
import ZeroSdk.Network.Budget
import ZeroSdk.Network.Spacing
import ZeroSdk.Network.Loss
import ZeroSdk.Dm.Types
import ZeroSdk.Dm.Service
import ZeroSdk.Dm.Chains
import ZeroSdk.Dm.Monotone
import ZeroSdk.Dm.Increment
import ZeroSdk.Dm.History
import ZeroSdk.Dm.Wire
import ZeroSdk.Dm.Framing
import ZeroSdk.Dm.Concurrent
import ZeroSdk.Dm.Protocol
import ZeroSdk.Dm.Provenance
import ZeroSdk.Dm.Isolation
import ZeroSdk.Dm.Confinement
import ZeroSdk.Dm.Failures
import ZeroSdk.Dm.Paginate
import ZeroSdk.Dm.Order
import ZeroSdk.Dm.Receipts
import ZeroSdk.Dm.Propagation
import ZeroSdk.Dm.ReceiveLoop
import ZeroSdk.Dm.Redelivery
import ZeroSdk.Lib.Footprint
import ZeroSdk.Lib.Guarantee
import ZeroSdk.Storage.Shared
import ZeroSdk.Storage.Pinned
import ZeroSdk.Sdk.Calls
import ZeroSdk.Sdk.Isolation
import ZeroSdk.Sdk.Stored
import ZeroSdk.Sdk.Messages
import ZeroSdk.Sdk.Snapshots
import ZeroSdk.Sdk.Answers
import ZeroSdk.Sdk.Soundness
import ZeroSdk.Sdk.AddressBook
import ZeroSdk.Sdk.Races
import ZeroSdk.Sdk.Content
import ZeroSdk.Dm.Agreement
import ZeroSdk.Sdk.Delivery
