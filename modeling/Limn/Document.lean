import Limn.Tree

/-! # Documents

A document as its two trees and its octets. The trees belong to whoever parsed the document, and
either may be missing.
-/

namespace Limn

structure Document where
  block : Option Node
  inline : Option Node
  source : Bytes := []
  /-- The regions of the block tree that the inline tree covers. -/
  regions : List Span := []
deriving Inhabited

end Limn
