import ExecutionPlatform.Core.OrderBook

/-! The event that the internal clock deposits into the ring. -/
namespace ExecutionPlatform.External
open ExecutionPlatform.Core

inductive TelemetryEventType where
  | fill
  | cancel
  | ack
  deriving DecidableEq, Repr

/-- `orderId` is the subject of the event, `counterId` the maker of a fill and otherwise 0. -/
structure TelemetryEvent where
  type : TelemetryEventType
  side : Side
  sequence : Nat
  timestampNs : Nat
  orderId : OrderId
  counterId : OrderId
  price : Price
  qty : Quantity
  deriving DecidableEq, Repr

namespace TelemetryEvent

def fill (sequence timestampNs : Nat) (f : Fill) : TelemetryEvent :=
  ⟨.fill, f.takerSide, sequence, timestampNs, f.takerId, f.makerId, f.price, f.qty⟩

def cancel (sequence timestampNs : Nat) (id : OrderId) (side : Side) (price : Price)
    (residual : Quantity) : TelemetryEvent :=
  ⟨.cancel, side, sequence, timestampNs, id, 0, price, residual⟩

def ack (sequence timestampNs : Nat) (id : OrderId) (side : Side) (price : Price)
    (qty : Quantity) : TelemetryEvent :=
  ⟨.ack, side, sequence, timestampNs, id, 0, price, qty⟩

end TelemetryEvent

def telemetryEventTypeName : TelemetryEventType → String
  | .fill => "FILL"
  | .cancel => "CANCEL"
  | .ack => "ACK"

def sideName : Side → String
  | .buy => "BUY"
  | .sell => "SELL"

end ExecutionPlatform.External
