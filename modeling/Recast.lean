import Recast.Session
import Recast.Store.Listing
import Recast.Proofs.Grammar.Spans
import Recast.Proofs.Repair.Contract
import Recast.Proofs.Repair.Converge
import Recast.Proofs.Repair.Format
import Recast.Proofs.Repair.Fresh
import Recast.Proofs.Repair.Order
import Recast.Proofs.Repair.Locate
import Recast.Proofs.Repair.Monotone
import Recast.Proofs.Repair.Reprint
import Recast.Proofs.Types.Runs
import Recast.Proofs.Types.Decides
import Recast.Proofs.Grammar.Blame
import Recast.Proofs.Repair.Independent
import Recast.Proofs.Repair.Lookup
import Recast.Proofs.Repair.Repeat
import Recast.Proofs.Store.Spans
import Recast.Proofs.Guard.Fix
import Recast.Proofs.Repair.Misplaced
import Recast.Proofs.Repair.Balance
import Recast.Proofs.Grammar.Grouping
import Recast.Proofs.Printing.Spacing
import Recast.Proofs.Lexing.Lines
import Recast.Proofs.Rule.Reading
import Recast.Proofs.Types.Cascade
import Recast.Proofs.Store.History
import Recast.Proofs.Store.Names
