import SieveRules.Main
import SieveRules.Files.Tree
import SieveRules.Proofs.Joining
import SieveRules.Proofs.Nesting
import SieveRules.Proofs.FirstMatch
import SieveRules.Proofs.Storing
import SieveRules.Proofs.Accounting
import SieveRules.Proofs.StoredFilter
import SieveRules.Proofs.Partition
import SieveRules.Proofs.Undeclared
import SieveRules.Proofs.Convertible
import SieveRules.Proofs.Leniency
import SieveRules.Proofs.Spacing
import SieveRules.Proofs.Lookahead
import SieveRules.Proofs.FirstError
import SieveRules.Proofs.Requirements
import SieveRules.Proofs.Conflation
import SieveRules.Proofs.Repair
import SieveRules.Proofs.DamagedStore
import SieveRules.Proofs.Advice
import SieveRules.Proofs.Conditionless
import SieveRules.Proofs.Omission
import SieveRules.Proofs.Unread
import SieveRules.Proofs.Inactive
import SieveRules.Proofs.ArgumentOrder
import SieveRules.Proofs.Addressing
import SieveRules.Proofs.Reordering
import SieveRules.Proofs.DotStuffing
import SieveRules.Proofs.Spelling
