import Correlation.FileTree
import Correlation.Main
import Correlation.Proofs.Account
import Correlation.Proofs.AddressTexts
import Correlation.Proofs.Construction
import Correlation.Proofs.DepthLimit
import Correlation.Proofs.LastAddress
import Correlation.Proofs.Layout
import Correlation.Proofs.Legibility
import Correlation.Proofs.Levels
import Correlation.Proofs.Locality
import Correlation.Proofs.Outline
import Correlation.Proofs.Overflow
import Correlation.Proofs.Padding
import Correlation.Proofs.Places
import Correlation.Proofs.Postfix
import Correlation.Proofs.Printing
import Correlation.Proofs.Relocation
import Correlation.Proofs.Resolution
import Correlation.Proofs.Sessions
import Correlation.Proofs.SinglePass
import Correlation.Proofs.SingleSlot
import Correlation.Proofs.Truncation
import Correlation.Proofs.WorkingDirectory
