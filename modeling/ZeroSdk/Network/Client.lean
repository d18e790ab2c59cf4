/-
The network as its clients see it: the errors, and the items of a
subscription of `RealGridClient`.
-/
import Mathlib.Tactic.Common

namespace ZeroSdk

/-- `NetworkError`; an I/O error by its text. -/
inductive NetworkError
  | io (text : String)
  | maxRetriesExceeded (sectorId : String) (attempts : UInt8)
  | subscriptionClosed
  | timeout
  | other (text : String)
  deriving DecidableEq

/-- `BroadcastStreamRecvError::Lagged`: the subscriber fell behind and this
many messages are lost to it. The stream goes on with the oldest one kept. -/
structure Lagged where
  skipped : Nat
  deriving DecidableEq

/-- The error's text. -/
def Lagged.text (e : Lagged) : String := "channel lagged by " ++ toString e.skipped

/-- An item of the stream `RealGridClient::subscribe` returns. -/
def subscribeItem {α : Type} : Except Lagged α → Except NetworkError α :=
  Except.mapError fun e => .other ("broadcast lag: " ++ e.text)

end ZeroSdk
