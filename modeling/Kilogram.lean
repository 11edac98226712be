import Kilogram.Index.Authentic
import Kilogram.Index.Refinement
import Kilogram.History.Codecs
import Kilogram.Vault.Settlement
import Kilogram.Vault.Fence
import Kilogram.Vault.Serial
import Kilogram.Ratchet.Agreement
import Kilogram.Ratchet.Replay
import Kilogram.Store.Batches
import Kilogram.Store.Union
import Kilogram.Sync.Peers
import Kilogram.Sync.Resumption
import Kilogram.State.Overlay
import Kilogram.Mailbox.Accounting
import Kilogram.Mailbox.Idempotence
import Kilogram.Mailbox.Selection
import Kilogram.Identity.PolicyAgreement
import Kilogram.Identity.RootAuthority
import Kilogram.Tickets.Reads
import Kilogram.Scheduler.Progress
