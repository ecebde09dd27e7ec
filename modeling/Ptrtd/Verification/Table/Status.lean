import Ptrtd.Model.HttpStatus
import Ptrtd.Verification.Rbtree.Balance
import Ptrtd.Verification.Rbtree.Traversal

/-! # The status report

The first client gets a row for each block, in the order of the table. The walk is at its end
then, so that those who are accepted after it get no rows, and the same total. -/

namespace Ptrtd.Table

open SearchTree

variable {m m₀ : RbMem TcbNode} {tree : TcbTree} {q : TcbMem} {s : Tcbs}
  {status : TcbNode → TcbStatus} {globals : Config.Globals} {before rest order : List TcbNode}
  {fuel height n count : ℕ}

end Ptrtd.Table
