import PSystem.CodeFile
import PSystem.Main
import PSystem.Proofs.Symmetry
import PSystem.Proofs.CallChain
import PSystem.Proofs.Traps
import PSystem.Proofs.Operands
import PSystem.Proofs.InstructionLength
import PSystem.Proofs.TrapResumption
import PSystem.Proofs.DecimalArithmetic
import PSystem.Proofs.DecimalDivision
import PSystem.Proofs.DecimalOperations
import PSystem.Proofs.DecimalText
import PSystem.Proofs.Assembly
import PSystem.Proofs.JumpTargets
import PSystem.Proofs.Disassembly
import PSystem.Proofs.AttributeTables
import PSystem.Proofs.SystemFile
import PSystem.Proofs.FlatDisk
import PSystem.Proofs.FailedWrites
import PSystem.Proofs.HeapBounds
import PSystem.Proofs.BaseFrames
import PSystem.Proofs.EvenAddresses
import PSystem.Proofs.FailedCalls
import PSystem.Proofs.ExtensionRelocation
import PSystem.Proofs.IoResult
import PSystem.Proofs.ExitUnwinding
import PSystem.Proofs.FinishedSteps
import PSystem.Proofs.SetAlgebra
import PSystem.Proofs.DictionaryRoundTrip
import PSystem.Proofs.BoundedStack
import PSystem.Proofs.SetInstructions
import PSystem.Proofs.DirectoryRoundTrip
import PSystem.Proofs.MountModes
import PSystem.Proofs.PackedArrays
import PSystem.Proofs.BlockMoves
import PSystem.Proofs.WordMoves
import PSystem.Proofs.Scanning
import PSystem.Proofs.ListingWindow
import PSystem.Proofs.MemoryHistory
import PSystem.Proofs.OrdinaryFaults
import PSystem.Proofs.RecordedHistory
import PSystem.Proofs.Browsing
