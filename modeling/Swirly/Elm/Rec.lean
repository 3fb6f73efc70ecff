import Swirly.Lib.KeySet
import Swirly.Ash.Types

/-!
# Swirly.Elm.Rec

**Reference data**: the assets and contracts that a service is loaded with and never
changes. What a contract works out of its fractions (`qtyInc`, `priceInc` and their decimal
places) is left out, as nothing reads it.
-/

namespace Swirly

open Lib (KeySet)

/-- `AssetType`: the kinds of assets. They are shown in the records, and nothing depends on
them. -/
inductive AssetType
  | commodity
  | corporate
  | currency
  | equity
  | government
  | index
  deriving DecidableEq, Repr

/-- `Asset`: what a contract is about, a currency for example. Orders know contracts only, so this
is a record to be shown. -/
structure Asset where
  mnem : Mnem
  display : Display
  type : AssetType
  deriving DecidableEq

/-- `Contr`: the terms that lots and ticks are in. A market names its contract; none of the
numbers here is looked at when an order is checked or matched. -/
structure Contr where
  mnem : Mnem
  display : Display
  asset : Mnem
  ccy : Mnem
  lotNumer : Int
  lotDenom : Int
  tickNumer : Int
  tickDenom : Int
  pipDp : Int
  minLots : Int
  maxLots : Int
  deriving DecidableEq

/-- `AssetSet`: the assets in the order of their mnemonics, at most one for each. -/
abbrev AssetSet := KeySet (fun a : Asset => a.mnem.buf)

/-- `ContrSet`: the contracts in the order of their mnemonics, at most one for each. -/
abbrev ContrSet := KeySet (fun c : Contr => c.mnem.buf)

end Swirly
