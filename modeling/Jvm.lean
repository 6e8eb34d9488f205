import Jvm.Bytes.BigEndian
import Jvm.Bytes.Cursor
import Jvm.ClassFile.AccessFlags
import Jvm.ClassFile.Agreement
import Jvm.ClassFile.Attribute
import Jvm.ClassFile.Basic
import Jvm.ClassFile.Lookup
import Jvm.ClassFile.Member
import Jvm.Constant.Basic
import Jvm.Constant.Pool
import Jvm.Constant.Resolve
import Jvm.Constant.Tag
import Jvm.Decoder.Basic
import Jvm.Decoder.Error
import Jvm.Instruction.Basic
import Jvm.Instruction.CodeCursor
import Jvm.Instruction.Opcode
import Jvm.Launch.Basic
import Jvm.Launch.ClassPath
import Jvm.Launch.Error
import Jvm.Log.Event
import Jvm.Log.Record
import Jvm.Machine.Error
import Jvm.Machine.Frame
import Jvm.Machine.Run
import Jvm.Machine.Storage
import Jvm.Machine.Thread
import Jvm.Machine.Value
import Jvm.Numeric.Ieee
import Jvm.Proofs.BigEndian
import Jvm.Proofs.DecoderLaws
import Jvm.Proofs.Grammar
import Jvm.Text.CodePoint
import Jvm.Text.Hex
import Jvm.Text.ModifiedUtf8
import Jvm.Text.Utf8
import Jvm.Proofs.Nesting
import Jvm.Proofs.Reads
import Jvm.Proofs.Strings
import Jvm.Proofs.Acceptance
import Jvm.Proofs.Extension
import Jvm.Proofs.Places
import Jvm.Proofs.Faults
import Jvm.Proofs.Disassembly
import Jvm.Proofs.RunLaws
import Jvm.Proofs.ListSemantics
import Jvm.Proofs.Termination
import Jvm.Proofs.KindEquality
import Jvm.Proofs.MachineInvariant
import Jvm.Proofs.Assembly
import Jvm.Proofs.Assignments
import Jvm.Proofs.FrameStack
import Jvm.Proofs.Launching
import Jvm.Proofs.Resources
import Jvm.Proofs.TextEncoding
import Jvm.Proofs.PoolEncoding
import Jvm.Proofs.LongerForms
import Jvm.Proofs.Failures
import Jvm.Proofs.LaunchLog
import Jvm.Proofs.Records
import Jvm.Proofs.SlotLayout
import Jvm.Proofs.CodeWindows
import Jvm.Proofs.FailedEffects
import Jvm.Proofs.FailedFetches
import Jvm.Proofs.NestingDepth
import Jvm.Proofs.Reports
import Jvm.Proofs.Diagnosis
import Jvm.Proofs.UnreadWindows
import Jvm.Proofs.FailurePlaces
import Jvm.Proofs.InstructionStreams
import Jvm.Proofs.ReaderTrees
import Jvm.Proofs.TextConstants
import Jvm.Proofs.Resolution
import Jvm.Proofs.MethodSearch
import Jvm.Proofs.ClassPaths
import Jvm.Proofs.DecodeLog
import Jvm.Proofs.FloatEquality
import Jvm.Proofs.Agreement
