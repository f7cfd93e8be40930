import Formulary.Main
import Formulary.Tree.Editors
import Formulary.Proofs.Matching
import Formulary.Proofs.Copying
import Formulary.Proofs.Faults
import Formulary.Proofs.Legibility
import Formulary.Proofs.Sessions
import Formulary.Proofs.Labels
import Formulary.Proofs.Rescanning
import Formulary.Proofs.Agreement
import Formulary.Proofs.Completeness
import Formulary.Proofs.Termination
import Formulary.Proofs.Idempotence
import Formulary.Proofs.Pairing
import Formulary.Proofs.Prospects
import Formulary.Proofs.Replicas
import Formulary.Proofs.SourceMap
import Formulary.Proofs.Substitution
import Formulary.Proofs.Trimming
import Formulary.Proofs.DirectoryRuns
import Formulary.Proofs.BlockNames
import Formulary.Proofs.Misuse
import Formulary.Proofs.Thinning
import Formulary.Proofs.TokenReading
import Formulary.Proofs.Pieces
