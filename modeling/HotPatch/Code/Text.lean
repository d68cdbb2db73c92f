import HotPatch.Code.Instruction
import HotPatch.Decimal.Notation

/-!
# The text of operands and opcode properties in messages
-/

namespace HotPatch.Code

def OperandKind.text : OperandKind → String
  | none => "None"
  | int8 => "Int8"
  | uint8 => "UInt8"
  | uint16 => "UInt16"
  | int32 => "Int32"
  | int64 => "Int64"
  | float64 => "Float64"
  | token => "Token"
  | shortTarget => "ShortTarget"
  | target => "Target"

def Immediate.text : Immediate → String
  | int8 value => "Int8(" ++ toString value.toInt ++ ")"
  | int32 value => "Int32(" ++ toString value.toInt ++ ")"
  | int64 value => "Int64(" ++ toString value.toInt ++ ")"
  | float64 bits => "Float64(" ++ Decimal.doubleText bits ++ ")"

def Operand.text : Operand → String
  | .none => "None"
  | .immediate value => "Immediate(" ++ value.text ++ ")"
  | .token value => "Token(" ++ value.detail ++ ")"
  | .target index => "Target(" ++ toString index ++ ")"
  | .variable index => "Variable(" ++ toString index.toNat ++ ")"

end HotPatch.Code
