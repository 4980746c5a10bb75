import NamespaceService.Diagnostics
import NamespaceService.Json.Parser
import NamespaceService.Namespace.Operations
import NamespaceService.Session.Engine
import NamespaceService.Session.Locks
import NamespaceService.Session.Selector
import NamespaceService.Session.Transactions
import NamespaceService.Row.Encoding
import NamespaceService.Proofs.Store.LockedReads
import NamespaceService.Proofs.Transaction.Owners
import NamespaceService.Proofs.Concurrency.Guards
import NamespaceService.Proofs.Json.Codings
import NamespaceService.Proofs.Namespace.Agreement
import NamespaceService.Proofs.Namespace.Components
import NamespaceService.Proofs.Namespace.Cycles
import NamespaceService.Proofs.Namespace.Freshness
import NamespaceService.Proofs.Namespace.Leaves
import NamespaceService.Proofs.Namespace.Linearization
import NamespaceService.Proofs.Namespace.Listings
import NamespaceService.Proofs.Namespace.Transparency
import NamespaceService.Proofs.Namespace.Ownership
import NamespaceService.Proofs.Namespace.LockOrder
import NamespaceService.Proofs.Namespace.Counting
import NamespaceService.Proofs.Namespace.Spelling
import NamespaceService.Proofs.Namespace.Strays
import NamespaceService.Proofs.Selector.Closing
import NamespaceService.Proofs.Selector.Ordering
import NamespaceService.Proofs.Selector.Refreshes
import NamespaceService.Proofs.Selector.ServerLists
import NamespaceService.Proofs.Selector.Sessions
import NamespaceService.Proofs.Selector.Turns
import NamespaceService.Proofs.Transaction.Askings
import NamespaceService.Proofs.Transaction.Losses
import NamespaceService.Proofs.Transaction.OwnChanges
import NamespaceService.Proofs.Transaction.Readback
import NamespaceService.Proofs.Transaction.Refusals
import NamespaceService.Proofs.Transaction.Repeats
