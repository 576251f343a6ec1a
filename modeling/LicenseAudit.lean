import LicenseAudit.Audit
import LicenseAudit.Descriptor.Drafting
import LicenseAudit.Descriptor.Query
import LicenseAudit.Descriptor.Stops
import LicenseAudit.Disk.Populate
import LicenseAudit.Report.Json
import LicenseAudit.Proofs.Text.Utf8
import LicenseAudit.Proofs.Disk.Following
import LicenseAudit.Proofs.Disk.Asking
import LicenseAudit.Proofs.Disk.Leading
import LicenseAudit.Proofs.Scan.Coverage
import LicenseAudit.Proofs.Scan.Counts
import LicenseAudit.Proofs.Scan.Failures
import LicenseAudit.Proofs.Scan.Ignoring
import LicenseAudit.Proofs.Scan.Names
import LicenseAudit.Proofs.Scan.Order
import LicenseAudit.Proofs.Scan.Overlooked
import LicenseAudit.Proofs.Descriptor.Contents
import LicenseAudit.Proofs.Descriptor.Declarations
import LicenseAudit.Proofs.Descriptor.Inventory
import LicenseAudit.Proofs.Descriptor.Layers
import LicenseAudit.Proofs.Descriptor.Sharing
import LicenseAudit.Proofs.Descriptor.Notices
import LicenseAudit.Proofs.Descriptor.OnlyPrimary
import LicenseAudit.Proofs.Descriptor.Parameters
import LicenseAudit.Proofs.Descriptor.SourceRequired
import LicenseAudit.Proofs.Descriptor.Supply
import LicenseAudit.Proofs.Descriptor.Traversal
import LicenseAudit.Proofs.Descriptor.Declining
import LicenseAudit.Proofs.Descriptor.Drafting
import LicenseAudit.Proofs.Json.RoundTrip
import LicenseAudit.Proofs.License.Decomposition
import LicenseAudit.Proofs.License.Offsets
import LicenseAudit.Proofs.License.Rendering
import LicenseAudit.Proofs.Tally.DeclaredNames
import LicenseAudit.Proofs.Tally.Misuse
import LicenseAudit.Proofs.Tally.NoticeIndex
import LicenseAudit.Proofs.Tally.Parties
import LicenseAudit.Proofs.Tally.SourceLinks
import LicenseAudit.Proofs.Tally.Sourcing
import LicenseAudit.Proofs.Report
import LicenseAudit.Proofs.Report.Additions
import LicenseAudit.Proofs.Report.Json
import LicenseAudit.Proofs.Report.Presence
import LicenseAudit.Proofs.Review.Duplicates
import LicenseAudit.Proofs.Review.Findings
import LicenseAudit.Proofs.Review.Reconciliation
import LicenseAudit.Proofs.Review.Reordering
import LicenseAudit.Proofs.Audit
