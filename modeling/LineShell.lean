import LineShell.Main
import LineShell.Proofs.Printing
import LineShell.Proofs.Plumbing
import LineShell.Proofs.Script
import LineShell.Proofs.Lives
import LineShell.Proofs.Growth
import LineShell.Proofs.Scope
import LineShell.Proofs.Reaping
import LineShell.Proofs.Scan
import LineShell.Proofs.Outcomes
import LineShell.Proofs.Reports
import LineShell.Proofs.History
import LineShell.Proofs.Order
import LineShell.Proofs.Exports
import LineShell.Proofs.Doings
import LineShell.Proofs.Setup
import LineShell.Proofs.Directory
import LineShell.Proofs.Levels
import LineShell.Proofs.Strays
import LineShell.Proofs.Conveyance
import LineShell.Proofs.Covering
import LineShell.Proofs.Quoting
import LineShell.Proofs.Unhindered
import LineShell.Proofs.SharedFile
import LineShell.Proofs.Fates
import LineShell.Proofs.Placement
import LineShell.Proofs.Showing
import LineShell.Proofs.Binding
import LineShell.Proofs.Regrouping
import LineShell.Proofs.Sharing
import LineShell.Proofs.Assigning
import LineShell.Proofs.Whereabouts
import LineShell.Proofs.Separators
import LineShell.Proofs.Counting
