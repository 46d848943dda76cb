import SszMerkle.Value
import SszMerkle.Session.Command
import SszMerkle.Json.Codec
import SszMerkle.Proofs.Address
import SszMerkle.Proofs.Siblings
import SszMerkle.Proofs.Padded
import SszMerkle.Proofs.Carry
import SszMerkle.Proofs.Frontier
import SszMerkle.Proofs.Opening
import SszMerkle.Proofs.Branch
import SszMerkle.Proofs.Graft
import SszMerkle.Proofs.Lists
import SszMerkle.Proofs.Value
import SszMerkle.Proofs.Collision
import SszMerkle.Proofs.Binding
import SszMerkle.Proofs.Descent
import SszMerkle.Proofs.Session
import SszMerkle.Proofs.Gathering
import SszMerkle.Proofs.Reopening
import SszMerkle.Proofs.Provers
import SszMerkle.Proofs.Refusal
import SszMerkle.Proofs.Given
import SszMerkle.Proofs.Replaced
import SszMerkle.Proofs.Hashers
import SszMerkle.Proofs.Unaddressed
import SszMerkle.Proofs.Chaining
import SszMerkle.Proofs.Composition
import SszMerkle.Proofs.Splicing
import SszMerkle.Proofs.LengthChunk
import SszMerkle.Proofs.Breach
import SszMerkle.Proofs.Capacity
import SszMerkle.Proofs.Filling
import SszMerkle.Proofs.Depths
import SszMerkle.Proofs.Unpacked
import SszMerkle.Proofs.Delimiter
import SszMerkle.Proofs.Ones
import SszMerkle.Proofs.StrayBits
import SszMerkle.Proofs.Slots
import SszMerkle.Proofs.BitChunks
import SszMerkle.Proofs.Serialized
import SszMerkle.Proofs.Reading
import SszMerkle.Proofs.BitCounts
import SszMerkle.Proofs.Visits
import SszMerkle.Proofs.InRange
