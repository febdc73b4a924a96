import Limn.Error

/-! # Sources

A document as a caller hands it over: octets, or a wording that is encoded before it is used. Halves
of surrogate pairs have no octets.
-/

namespace Limn

def Wording.encoded : Wording → Except Error Bytes
  | .text s => .ok (Bytes.ofText s)
  | .halved _ => .error .unencodableText

/-- A document as a caller gives it. -/
inductive Source where
  | octets (bytes : Bytes)
  | text (wording : Wording)
deriving DecidableEq, Repr

namespace Source

def bytes : Source → Except Error Bytes
  | .octets bytes => .ok bytes
  | .text wording => wording.encoded

def bytes? : Option Source → Except Error (Option Bytes)
  | none => .ok none
  | some source => source.bytes.map some

end Source

end Limn
