import SpectrumListing.Unfold
import SpectrumListing.Z80.Fields
import SpectrumListing.Z80.Sweep
import SpectrumListing.Tape.Entry
import SpectrumListing.Listing.Tape
import SpectrumListing.Text.Address
import SpectrumListing.Text.Pieces
import SpectrumListing.Text.Control
import SpectrumListing.Path
import SpectrumListing.Main
import SpectrumListing.Proofs.OpcodeSelection
import SpectrumListing.Proofs.Decoding
import SpectrumListing.Proofs.Mnemonic
import SpectrumListing.Proofs.Partition
import SpectrumListing.Proofs.Streaming
import SpectrumListing.Proofs.Assembler
import SpectrumListing.Proofs.IndexTransparency
import SpectrumListing.Proofs.Canonical
import SpectrumListing.Proofs.TapeFraming
import SpectrumListing.Proofs.TapeEntries
import SpectrumListing.Proofs.OperandText
import SpectrumListing.Proofs.IndexSubstitution
import SpectrumListing.Proofs.HexRow
import SpectrumListing.Proofs.ListingText
import SpectrumListing.Proofs.RawListing
import SpectrumListing.Proofs.BlockSelection
import SpectrumListing.Proofs.RunEffect
import SpectrumListing.Proofs.SweepRequests
import SpectrumListing.Proofs.TapeListing
import SpectrumListing.Proofs.InstructionLength
import SpectrumListing.Proofs.RelativeJumps
import SpectrumListing.Proofs.DataLines
import SpectrumListing.Proofs.IndexedBits
import SpectrumListing.Proofs.IndexSymmetry
import SpectrumListing.Proofs.TapeWarnings
import SpectrumListing.Proofs.TapeDamage
import SpectrumListing.Proofs.TapeLines
import SpectrumListing.Proofs.TapeHeader
import SpectrumListing.Proofs.DumpLayout
import SpectrumListing.Proofs.AddressGrammar
import SpectrumListing.Proofs.ListingPath
import SpectrumListing.Proofs.CursorRun
import SpectrumListing.Proofs.CheckedIndex
