import CppCan.Can.Frame
import CppCan.Cli.Json

/-!
# Frames as JSON texts

The reader of frames searches the text for each of the twelve keys, as the reader of
messages does. A member that is not found, or whose value is not understood, leaves its
field at the default; only the identifier has to be there.
-/

namespace CppCan.Cli

open CppCan.Core

def extractBool (s key : Text) : Option Bool := do
  let v ← valueOf s key
  if "true".toList.isPrefixOf v then some true
  else if "false".toList.isPrefixOf v then some false
  else none

def parseFrameJson (json : Text) : Except String Frame := do
  let id ← match extractU32 json "id".toList with
    | some id => .ok id
    | none => .error "ErrInvalidInput: missing or invalid 'id'"
  return {
    id := id
    ext := (extractBool json "ext".toList).getD false
    rtr := (extractBool json "rtr".toList).getD false
    fd := (extractBool json "fd".toList).getD false
    brs := (extractBool json "brs".toList).getD false
    data := (extractBytes json "data".toList).getD []
    esi := (extractBool json "esi".toList).getD false
    xl := (extractBool json "xl".toList).getD false
    sec := (extractBool json "sec".toList).getD false
    sdt := ((extractU32 json "sdt".toList).map (·.toUInt8)).getD 0
    vcid := ((extractU32 json "vcid".toList).map (·.toUInt8)).getD 0
    af := (extractU32 json "af".toList).getD 0 }

end CppCan.Cli
