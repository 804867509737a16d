import ArmAssembly.File.Buffer
import ArmAssembly.File.Session
import ArmAssembly.Log
import ArmAssembly.Main
import ArmAssembly.Proofs.Calls
import ArmAssembly.Proofs.Decomposition
import ArmAssembly.Proofs.Disassembly
import ArmAssembly.Proofs.Faults
import ArmAssembly.Proofs.FieldConversions
import ArmAssembly.Proofs.Grammar
import ArmAssembly.Proofs.Locality
import ArmAssembly.Proofs.Notes
import ArmAssembly.Proofs.Offsets
import ArmAssembly.Proofs.OutputFile
import ArmAssembly.Proofs.Recased
import ArmAssembly.Proofs.Regrouped
import ArmAssembly.Proofs.Relocation
import ArmAssembly.Proofs.Renaming
import ArmAssembly.Proofs.Rescanned
import ArmAssembly.Proofs.WordInjective
import ArmAssembly.Proofs.SignedFields
import ArmAssembly.Proofs.ByteOrder
import ArmAssembly.Proofs.ListingLines
import ArmAssembly.Proofs.Progress
