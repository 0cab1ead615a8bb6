import ChunkAsm.Assemble
import ChunkAsm.Assembler.Draft
import ChunkAsm.Assembler.Error
import ChunkAsm.Assembler.Instruction
import ChunkAsm.Assembler.Line
import ChunkAsm.Assembler.Segment
import ChunkAsm.Assembler.State
import ChunkAsm.Binary64
import ChunkAsm.Binary64.Rounding
import ChunkAsm.Binary64.Shortest
import ChunkAsm.Bytes.Scalar
import ChunkAsm.Bytes.Sink
import ChunkAsm.Chunk.Format
import ChunkAsm.Chunk.Read
import ChunkAsm.Chunk.Write
import ChunkAsm.Command.Arguments
import ChunkAsm.Command.Directory
import ChunkAsm.Command.OutputPath
import ChunkAsm.Command.Run
import ChunkAsm.Command.Similarity
import ChunkAsm.Constant
import ChunkAsm.Cursor
import ChunkAsm.Keyword
import ChunkAsm.Labels
import ChunkAsm.Link
import ChunkAsm.Listing
import ChunkAsm.Log
import ChunkAsm.Main
import ChunkAsm.Opcode
import ChunkAsm.Opcode.Layout
import ChunkAsm.Operand
import ChunkAsm.Owners
import ChunkAsm.Patches
import ChunkAsm.Program
import ChunkAsm.Proofs.Derivation
import ChunkAsm.Proofs.Digits
import ChunkAsm.Proofs.Emission
import ChunkAsm.Proofs.Fields
import ChunkAsm.Proofs.Offsets
import ChunkAsm.Proofs.Operands
import ChunkAsm.Proofs.Patches
import ChunkAsm.Proofs.Pool
import ChunkAsm.Proofs.Tokens
import ChunkAsm.Proofs.Transcript
import ChunkAsm.Samples
import ChunkAsm.Scan
import ChunkAsm.Scan.LineMarker
import ChunkAsm.Scan.Literal
import ChunkAsm.Source
import ChunkAsm.Unfolding
import ChunkAsm.Word
import ChunkAsm.Proofs.Jumps
import ChunkAsm.Proofs.Codec
import ChunkAsm.Proofs.Linking
import ChunkAsm.Proofs.RoundTrip
import ChunkAsm.Proofs.ConstantOperands
import ChunkAsm.Proofs.Closures
import ChunkAsm.Proofs.InPlace
import ChunkAsm.Proofs.References
import ChunkAsm.Proofs.Rejection
import ChunkAsm.Proofs.Forest
import ChunkAsm.Proofs.WellLinked
import ChunkAsm.Proofs.Bookkeeping
import ChunkAsm.Proofs.Traversals
import ChunkAsm.Proofs.Sources
import ChunkAsm.Proofs.TwoPasses
import ChunkAsm.Proofs.Tables
import ChunkAsm.Proofs.Contexts
import ChunkAsm.Proofs.BlockOrder
import ChunkAsm.Proofs.Devices
import ChunkAsm.Proofs.FirstUses
import ChunkAsm.Proofs.Placement
import ChunkAsm.Proofs.RegisterOperands
import ChunkAsm.Proofs.Termination
import ChunkAsm.Proofs.PartialChunks
import ChunkAsm.Proofs.ListedOperands
import ChunkAsm.Proofs.Literals
import ChunkAsm.Proofs.PrintedOperands
import ChunkAsm.Proofs.Padding
import ChunkAsm.Proofs.TrailingBlanks
import ChunkAsm.Proofs.Repetitions
import ChunkAsm.Proofs.Deferrals
import ChunkAsm.Proofs.Masks
import ChunkAsm.Proofs.OutputNames
import ChunkAsm.Proofs.LineEndings
import ChunkAsm.Proofs.CursorReaders
import ChunkAsm.Proofs.CursorMoves
