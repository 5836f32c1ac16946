import DnsRelay.Adapter.Allocation
import DnsRelay.Adapter.Locking
import DnsRelay.Hash.TableSize
import DnsRelay.HashMap
import DnsRelay.Lru.Accounting
import DnsRelay.Lru.Eviction
import DnsRelay.Lru.Expiry
import DnsRelay.Lru.Freshness
import DnsRelay.Lru.Memory
import DnsRelay.Lru.Refinement
import DnsRelay.Lru.Rejection
import DnsRelay.Lru.Room
import DnsRelay.Lru.SelfTest
import DnsRelay.Message.Limits
import DnsRelay.Message.NameRoom
import DnsRelay.Message.Pointers
import DnsRelay.Message.Queries
import DnsRelay.Message.Replies
import DnsRelay.Message.RoundTrip
import DnsRelay.Message.Walkers
import DnsRelay.Relay.Blacklist
import DnsRelay.Relay.Capacity
import DnsRelay.Relay.Cleanup
import DnsRelay.Relay.Delivery
import DnsRelay.Relay.Exits
import DnsRelay.Relay.Origins
import DnsRelay.Relay.Outcome
import DnsRelay.Relay.Parsing
import DnsRelay.Relay.Recollection
import DnsRelay.Relay.Transparency
import DnsRelay.Relay.Typed
import DnsRelay.Relay.Upstream
import DnsRelay.StaticMap.Contents
import DnsRelay.ThreadPool.Shutdown
