import GossipMesh.Engine.EagerWriter
import GossipMesh.Engine.Repair
import GossipMesh.Cluster.Cluster

/-!
# Dispatch of inbound traffic

The first byte of a datagram or a stream names its handler.  The gossip
handlers are fields of the transport; every other type is looked up in a
registry, one for each kind of traffic.  Handlers are values of a type `H`, and
dispatching answers which one is called, and with which bytes.
-/

namespace GossipMesh.Transport

open GossipMesh.Foundation GossipMesh.Engine GossipMesh.Cluster

structure Handlers (H : Type) where
  onEagerGossip : Option H
  onLazyBatch : Option H
  onRepair : Option H
  bidiHandlers : UInt8 → Option H
  uniHandlers : UInt8 → Option H
  datagramHandlers : UInt8 → Option H

inductive Registration (H : Type) where
  | setHandlers (eager lazy repair : Option H)
  | bidi (typeByte : UInt8) (h : H)
  | uni (typeByte : UInt8) (h : H)
  | datagram (typeByte : UInt8) (h : H)

structure Inbound where
  bytes : Bytes
  -- whether the bytes end in an end of file, and not in an error
  clean : Bool

namespace Handlers

variable {H : Type}

def none : Handlers H := ⟨.none, .none, .none, fun _ => .none, fun _ => .none, fun _ => .none⟩

def register (t : Handlers H) : Registration H → Handlers H
  | .setHandlers eager lazy repair =>
      { t with onEagerGossip := eager, onLazyBatch := lazy, onRepair := repair }
  | .bidi typeByte h =>
      { t with bidiHandlers := Function.update t.bidiHandlers typeByte (some h) }
  | .uni typeByte h =>
      { t with uniHandlers := Function.update t.uniHandlers typeByte (some h) }
  | .datagram typeByte h =>
      { t with datagramHandlers := Function.update t.datagramHandlers typeByte (some h) }

def registerAll (t : Handlers H) (registrations : List (Registration H)) : Handlers H :=
  registrations.foldl register t

def receiveDatagram (t : Handlers H) : Bytes → Option (H × Bytes)
  | [] => .none
  | msgType :: data =>
      if msgType = msgTypeEagerGossip then t.onEagerGossip.map fun h => (h, data)
      else (t.datagramHandlers msgType).map fun h => (h, data)

def dispatchBidiStream (t : Handlers H) (stream : Inbound) : Option (H × Bytes) :=
  -- the eager handler gets the whole stream, and only if it ends without an error
  match stream.bytes with
  | [] => .none
  | typeByte :: rest =>
      if typeByte = streamTypeRepair then t.onRepair.map fun h => (h, rest)
      else if typeByte = msgTypeEagerGossip then
        if stream.clean then t.onEagerGossip.map fun h => (h, rest) else .none
      else (t.bidiHandlers typeByte).map fun h => (h, rest)

def dispatchUniStream (t : Handlers H) : Bytes → Option (H × Bytes)
  | [] => .none
  | typeByte :: rest =>
      if typeByte = streamTypeLazyBatch then t.onLazyBatch.map fun h => (h, rest)
      else (t.uniHandlers typeByte).map fun h => (h, rest)

end Handlers

end GossipMesh.Transport
