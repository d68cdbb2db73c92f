import HotPatch.Body.Basic

/-!
# The text of a protected region in messages
-/

namespace HotPatch

/-- The names of the set bits, the bits without a name last in hexadecimal. -/
def HandlerFlags.parts (flags : HandlerFlags) : List String :=
  let named := [(HandlerFlags.filterBlock, "FILTER"), (.finallyBlock, "FINALLY"), (.faultBlock, "FAULT")].filterMap
    fun (part, name) => if flags.contains part then some name else none
  let rest := flags.bits &&& (0xFFF8 : UInt16)
  if rest = 0 then named else named ++ ["0x" ++ Text.shortHex rest.toNat]

def HandlerFlags.text (flags : HandlerFlags) : String :=
  "ExceptionHandlerFlags(" ++
    (if flags.bits = 0 then "0x0" else " | ".intercalate flags.parts) ++ ")"

def Handler.text (handler : Handler) : String :=
  "ExceptionHandler \x7b flags: " ++ handler.flags.text ++
    ", try_start: " ++ toString handler.tryStart ++
    ", try_end: " ++ toString handler.tryEnd ++
    ", handler_start: " ++ toString handler.handlerStart ++
    ", handler_end: " ++ toString handler.handlerEnd ++
    ", class_token: " ++ (match handler.classToken with
      | some token => "Some(" ++ token.detail ++ ")"
      | none => "None") ++
    ", filter_start: " ++ (match handler.filterStart with
      | some index => "Some(" ++ toString index ++ ")"
      | none => "None") ++ " \x7d"

end HotPatch
