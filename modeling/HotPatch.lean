import HotPatch.Attribute.Encode
import HotPatch.Body.Encode
import HotPatch.Body.StackDepth
import HotPatch.Bytes.Hex
import HotPatch.Code.Assembler
import HotPatch.Image.Write
import HotPatch.Module.Import
import HotPatch.Patch.Classification
import HotPatch.Patch.LookupTable
import HotPatch.Patch.Neutralize
import HotPatch.Patch.Provision
import HotPatch.Signature.Encode
import HotPatch.Signature.Substitute
import HotPatch.Proofs.Files.LawfulFileSystem
import HotPatch.Proofs.Files.PathNames
import HotPatch.Proofs.Files.PublishOutcome
import HotPatch.Proofs.Files.DiskLaws
import HotPatch.Proofs.Files.TracedFileSystem
import HotPatch.Proofs.Files.PublishObserved
import HotPatch.Proofs.Module.Extension
import HotPatch.Proofs.Module.Built
import HotPatch.Proofs.Module.StableNames
import HotPatch.Proofs.Module.StableImport
import HotPatch.Proofs.Patch.ClassifyFrame
import HotPatch.Proofs.Patch.WrapperRun
import HotPatch.Proofs.Patch.MarkRun
import HotPatch.Proofs.Code.Assembly
import HotPatch.Proofs.Patch.TableRun
import HotPatch.Proofs.Patch.Phases
import HotPatch.Proofs.Patch.Frame
import HotPatch.Proofs.Patch.Numbering
import HotPatch.Proofs.Patch.RunOutcome
import HotPatch.Proofs.Body.Encoding
import HotPatch.Proofs.Code.DepthCertificate
import HotPatch.Proofs.Body.LeadingReturn
import HotPatch.Proofs.Image.HeapSize
import HotPatch.Proofs.Signature.Encodable
import HotPatch.Proofs.Image.Contents
import HotPatch.Proofs.Image.Writable
import HotPatch.Proofs.Image.ReturningSymbols
import HotPatch.Proofs.Patch.SoundRun
import HotPatch.Proofs.Image.ImageRoundTrip
import HotPatch.Proofs.Patch.PipelineHistory
import HotPatch.Proofs.Module.ImportedRows
import HotPatch.Proofs.Module.Additions
import HotPatch.Proofs.Patch.SessionOrder
import HotPatch.Proofs.Code.ReachableDepths
import HotPatch.Proofs.Body.Insertion
import HotPatch.Proofs.Code.Disassembly
import HotPatch.Proofs.Body.BodyReader
import HotPatch.Proofs.Signature.TypeReader
import HotPatch.Proofs.Signature.SignatureBlobs
import HotPatch.Proofs.Attribute.AbsentArrays
import HotPatch.Proofs.Patch.WrapperForwarding
import HotPatch.Proofs.Patch.WrapperTypes
import HotPatch.Proofs.Module.PortableReferences
import HotPatch.Proofs.Patch.TableOutcome
import HotPatch.Proofs.Patch.Neutralization
import HotPatch.Proofs.Patch.MarksReadBack
import HotPatch.Proofs.Patch.SupportReferences
import HotPatch.Proofs.Patch.CallDistance
import HotPatch.Proofs.Module.ReflectionNames
import HotPatch.Proofs.Image.SymbolLayout
import HotPatch.Proofs.Image.HeapAdditions
import HotPatch.Proofs.Signature.SubstitutionLaws
import HotPatch.Proofs.Patch.PublishedNames
import HotPatch.Proofs.Patch.LockHistories
import HotPatch.Proofs.Patch.RecordedVerdicts
import HotPatch.Proofs.Image.WrittenNumbers
import HotPatch.Proofs.Bytes.SelfDelimiting
import HotPatch.Proofs.Module.FullNames
