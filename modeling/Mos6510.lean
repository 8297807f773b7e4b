import Mos6510.Main
import Mos6510.Proofs.Convergence
import Mos6510.Proofs.FixedPoint
import Mos6510.Proofs.Reference
import Mos6510.Proofs.Simulation
import Mos6510.Proofs.Locals
import Mos6510.Proofs.Widths
import Mos6510.Proofs.Disassembly
import Mos6510.Proofs.Consistent
import Mos6510.Proofs.Hygiene
import Mos6510.Proofs.Clauses
import Mos6510.Proofs.Expansion
import Mos6510.Proofs.Internal
import Mos6510.Proofs.Discipline
import Mos6510.Proofs.Isolation
import Mos6510.Proofs.Nesting
import Mos6510.Proofs.Emissions
import Mos6510.Proofs.Images
import Mos6510.Proofs.Includes
import Mos6510.Proofs.Phrases
import Mos6510.Proofs.Readback
import Mos6510.Proofs.Mirror
import Mos6510.Proofs.Rebuild
import Mos6510.Proofs.Splice
import Mos6510.Proofs.Halting
import Mos6510.Proofs.Labels
import Mos6510.Proofs.Blame
import Mos6510.Proofs.Independence
import Mos6510.Proofs.Constants
import Mos6510.Proofs.Precedence
import Mos6510.Proofs.Printing
import Mos6510.Proofs.Reports
import Mos6510.Proofs.Pasting
import Mos6510.Proofs.Blocks
import Mos6510.Proofs.Joining
import Mos6510.Proofs.Refused
import Mos6510.Proofs.Roster
import Mos6510.Proofs.Declarations
import Mos6510.Proofs.Defines
import Mos6510.Proofs.Weaving
import Mos6510.Proofs.Naming
import Mos6510.Proofs.Columns
import Mos6510.Proofs.Budget
import Mos6510.Proofs.Literals
import Mos6510.Proofs.Progress
import Mos6510.Proofs.Tiling
import Mos6510.Proofs.TokenLines
import Mos6510.Proofs.RespelledBuilds
