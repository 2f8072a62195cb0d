import Chomsky.Derivation
import Chomsky.Description.Comparison
import Chomsky.Session
import Chomsky.Showcase
import Chomsky.Main
import Chomsky.Proofs.Recognition
import Chomsky.Proofs.Stability
import Chomsky.Proofs.Arrangement
import Chomsky.Proofs.Session
import Chomsky.Proofs.Exchange.Reading
import Chomsky.Proofs.Exchange.RoundTrip
import Chomsky.Proofs.Idempotence
import Chomsky.Proofs.Exchange.Acceptance
import Chomsky.Proofs.Binary.Words
import Chomsky.Proofs.Binary.Unfolding
import Chomsky.Proofs.Binary.Layout
import Chomsky.Proofs.Binary.Creation
import Chomsky.Proofs.Chains
import Chomsky.Proofs.Shortening
import Chomsky.Proofs.Reach
import Chomsky.Proofs.Naming.Reading
import Chomsky.Proofs.Usefulness
import Chomsky.Proofs.Naming.Acceptance
import Chomsky.Proofs.Closing
import Chomsky.Proofs.Marking
import Chomsky.Proofs.Agreement
