import Ivygrep.Native.Str
import Mathlib.Data.Prod.Lex
import Mathlib.Order.OrderDual

/-!
# Ranked candidates

The chunks that a search ranks, as `search.rs` has them. Scores are of any ordered type, for
arithmetic without rounding.
-/

namespace Ivygrep.Native

/-- What searches set of an `IndexedChunk`. -/
structure IndexedChunk where
  filePath : Str
  startLine : Nat
  endLine : Nat
  language : Str
  kind : Str
  text : Str
  vectorKey : UInt64
  isIgnored : Bool
deriving DecidableEq

/-! ## Sources -/

abbrev SourceMask := UInt16

def sourceExactSymbol : SourceMask := (1 : SourceMask) <<< 0
def sourceLexical : SourceMask := (1 : SourceMask) <<< 2
def sourceLiteral : SourceMask := (1 : SourceMask) <<< 3
def sourcePath : SourceMask := (1 : SourceMask) <<< 5
def sourceInferredSymbol : SourceMask := (1 : SourceMask) <<< 8
def sourceBackfill : SourceMask := (1 : SourceMask) <<< 9

def hasLiteralSource (sources : SourceMask) : Bool := sources &&& sourceLiteral != 0

def hasPathSource (sources : SourceMask) : Bool := sources &&& sourcePath != 0

def hasDirectSource (sources : SourceMask) : Bool :=
  hasLiteralSource sources ||
    sources &&& (sourceLexical ||| sourcePath ||| sourceExactSymbol ||| sourceInferredSymbol) != 0

/-! ## Candidates -/

structure RankedCandidate (𝕜 : Type) where
  chunk : IndexedChunk
  score : 𝕜
  sources : SourceMask
deriving DecidableEq

namespace RankedCandidate

variable {𝕜 : Type} [LinearOrder 𝕜]

/-- The comparison of the sorts: the higher score first, then the lower key. -/
def order (item : RankedCandidate 𝕜) : 𝕜ᵒᵈ ×ₗ Nat :=
  toLex (OrderDual.toDual item.score, item.chunk.vectorKey.toNat)

def NotAfter (left right : RankedCandidate 𝕜) : Prop := left.order ≤ right.order

instance : DecidableRel (@NotAfter 𝕜 _) :=
  fun left right => inferInstanceAs (Decidable (left.order ≤ right.order))

instance : IsTrans (RankedCandidate 𝕜) NotAfter := ⟨fun _ _ _ => le_trans⟩

instance : Std.Total (@NotAfter 𝕜 _) := ⟨fun _ _ => le_total _ _⟩

end RankedCandidate

end Ivygrep.Native
