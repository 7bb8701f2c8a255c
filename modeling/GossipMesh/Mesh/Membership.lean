import Mathlib.Data.Finmap
import GossipMesh.Foundation.Wire

/-!
# Membership

The peers a node knows through memberlist, and the event handlers that maintain
them.  Memberlist delivers its events one at a time; a handler in progress is a
`Handler`, cut where the source takes or releases a lock or calls out, so that
calls of other goroutines can come between its parts.

JSON and Vivaldi are parameters.  A distance estimate is read off the label of
its event, whatever the coordinates have become by then.
-/

namespace GossipMesh

open GossipMesh.Foundation

namespace Membership

structure NodeMeta (Coord : Type) where
  nodeID : String
  vivaldiCoord : Option Coord
  quicAddr : String
  quicPort : Int
  appData : Bytes

structure PeerInfo (Coord : Type) where
  nodeID : String
  addr : String
  nodeMeta : NodeMeta Coord
  rtt : Int64
  alive : Bool

structure MemberNode where
  name : String
  addr : String
  nodeMeta : Bytes

structure Codec (Coord : Type) where
  decodeMeta : Bytes → Option (NodeMeta Coord)
  isValid : Coord → Bool

/-- What an event handler has still to do, by its next operation. -/
inductive Handler (Coord : Type) where
  | store (info : PeerInfo Coord)
  | remove (name : String)
  | onLeave (name : String)
  | notifyChange
  | livePeers
  | onChange (peers : List (PeerInfo Coord))

end Membership

structure Membership (Coord : Type) where
  peers : Finmap fun _ : String => Membership.PeerInfo Coord
  -- whether the callbacks are set
  onChange : Bool
  onLeave : Bool
  handler : Option (Membership.Handler Coord)
  -- the calls of `onLeave`
  left : List String

namespace Membership

variable {Coord : Type}

def new : Membership Coord := ⟨∅, false, false, none, []⟩

def IterationOrder (m : Membership Coord) (order : List String) : Prop :=
  order.Nodup ∧ order.toFinset = m.peers.keys

instance decidableIterationOrder (m : Membership Coord) (order : List String) :
    Decidable (m.IterationOrder order) :=
  inferInstanceAs (Decidable (order.Nodup ∧ order.toFinset = m.peers.keys))

def livePeers (m : Membership Coord) (order : List String) :
    List (PeerInfo Coord) :=
  order.filterMap fun name =>
    (m.peers.lookup name).bind fun p => if p.alive then some p else none

def setOnChange (m : Membership Coord) : Membership Coord :=
  { m with onChange := true }

def setOnLeave (m : Membership Coord) : Membership Coord :=
  { m with onLeave := true }

/-! ## The handlers -/

/-- The common part of `NotifyJoin` and `NotifyUpdate`; `none` is an error. -/
def peerInfo (c : Codec Coord) (node : MemberNode) (distance : Int64) :
    Option (PeerInfo Coord) :=
  (c.decodeMeta node.nodeMeta).map fun nodeMeta =>
    { nodeID := node.name
      addr := node.addr
      nodeMeta := nodeMeta
      rtt := match nodeMeta.vivaldiCoord with
        | none => 0
        | some coord => if c.isValid coord then distance else 0
      alive := true }

def notifyJoin (c : Codec Coord) (node : MemberNode) (distance : Int64) :
    Option (Handler Coord) :=
  (peerInfo c node distance).map .store

def notifyUpdate (c : Codec Coord) (node : MemberNode) (distance : Int64) :
    Option (Handler Coord) :=
  (peerInfo c node distance).map .store

def notifyLeave (node : MemberNode) : Handler Coord := .remove node.name

/--
The next operation of the handler in progress, and the argument of `onChange`
when it is a call of it.  `order` is the order of the range loop in `LivePeers`.
-/
def advance (m : Membership Coord) (order : List String) :
    Option (Membership Coord × Option (List (PeerInfo Coord))) :=
  match m.handler with
  | none => none
  | some (.store info) =>
      some ({ m with
        peers := m.peers.insert info.nodeID info
        handler := some .notifyChange }, none)
  | some (.remove name) =>
      some ({ m with
        peers := m.peers.erase name
        handler := some (if m.onLeave then .onLeave name else .notifyChange) },
        none)
  | some (.onLeave name) =>
      some ({ m with
        left := m.left ++ [name]
        handler := some .notifyChange }, none)
  | some .notifyChange =>
      some ({ m with
        handler := if m.onChange then some .livePeers else none }, none)
  | some .livePeers =>
      if m.IterationOrder order then
        some ({ m with handler := some (.onChange (m.livePeers order)) }, none)
      else none
  | some (.onChange peers) => some ({ m with handler := none }, some peers)

inductive Advances (m : Membership Coord) :
    Membership Coord → Option (List (PeerInfo Coord)) → Prop
  | store (info : PeerInfo Coord) (hhandler : m.handler = some (.store info)) :
      Advances m { m with
        peers := m.peers.insert info.nodeID info
        handler := some .notifyChange } none
  | remove (name : String) (hhandler : m.handler = some (.remove name)) :
      Advances m { m with
        peers := m.peers.erase name
        handler := some (if m.onLeave then .onLeave name else .notifyChange) }
        none
  | onLeave (name : String) (hhandler : m.handler = some (.onLeave name)) :
      Advances m { m with
        left := m.left ++ [name]
        handler := some .notifyChange } none
  | notifyChange (hhandler : m.handler = some .notifyChange) :
      Advances m { m with
        handler := if m.onChange then some .livePeers else none } none
  | livePeers (order : List String) (hhandler : m.handler = some .livePeers)
      (horder : m.IterationOrder order) :
      Advances m { m with
        handler := some (.onChange (m.livePeers order)) } none
  | onChange (peers : List (PeerInfo Coord))
      (hhandler : m.handler = some (.onChange peers)) :
      Advances m { m with handler := none } (some peers)

theorem advances_of_advance {m m' : Membership Coord} {order : List String}
    {called : Option (List (PeerInfo Coord))}
    (h : m.advance order = some (m', called)) : m.Advances m' called := by
  unfold advance at h
  split at h
  · cases h
  · next info hhandler =>
      cases h
      exact .store info hhandler
  · next name hhandler =>
      cases h
      exact .remove name hhandler
  · next name hhandler =>
      cases h
      exact .onLeave name hhandler
  · next hhandler =>
      cases h
      exact .notifyChange hhandler
  · next hhandler =>
      split at h
      · next horder =>
          cases h
          exact .livePeers order hhandler horder
      · cases h
  · next peers hhandler =>
      cases h
      exact .onChange peers hhandler

/-! ## The invariant of the handlers -/

/--
Every stored peer is alive.  The callback is called only when it is set, and
with the peers as they are.
-/
structure Consistent (m : Membership Coord) : Prop where
  alive : ∀ name p, m.peers.lookup name = some p → p.alive = true
  storing : ∀ info, m.handler = some (.store info) → info.alive = true
  reading : m.handler = some .livePeers → m.onChange = true
  calling : ∀ peers, m.handler = some (.onChange peers) → m.onChange = true ∧
    ∃ order, m.IterationOrder order ∧ peers = m.livePeers order

theorem mem_livePeers {m : Membership Coord} (h : m.Consistent)
    {order : List String} (horder : m.IterationOrder order)
    {p : PeerInfo Coord} :
    p ∈ m.livePeers order ↔ ∃ name, m.peers.lookup name = some p := by
  have hkeys : ∀ name, name ∈ order ↔ name ∈ m.peers := by
    intro name
    rw [← List.mem_toFinset, horder.2, Finmap.mem_keys]
  simp only [livePeers, List.mem_filterMap, Option.bind_eq_some_iff]
  constructor
  · rintro ⟨name, -, q, hq, halive⟩
    rw [if_pos (h.alive name q hq)] at halive
    cases halive
    exact ⟨name, hq⟩
  · rintro ⟨name, hp⟩
    refine ⟨name, (hkeys name).mpr (Finmap.mem_of_lookup_eq_some hp), p, hp, ?_⟩
    rw [if_pos (h.alive name p hp)]

namespace Consistent

variable {m m' : Membership Coord} {called : Option (List (PeerInfo Coord))}

theorem of_quiet
    (halive : ∀ name p, m.peers.lookup name = some p → p.alive = true)
    (hstoring : ∀ info, m.handler ≠ some (.store info))
    (hreading : m.handler ≠ some .livePeers)
    (hcalling : ∀ peers, m.handler ≠ some (.onChange peers)) : m.Consistent where
  alive := halive
  storing info hstore := (hstoring info hstore).elim
  reading hread := (hreading hread).elim
  calling peers hcall := (hcalling peers hcall).elim

theorem new : Consistent (.new : Membership Coord) := by
  apply of_quiet <;> simp [Membership.new]

theorem setOnChange (h : m.Consistent) : m.setOnChange.Consistent :=
  ⟨h.alive, h.storing, fun _ => rfl, fun peers hcall =>
    ⟨rfl, (h.calling peers hcall).2⟩⟩

theorem setOnLeave (h : m.Consistent) : m.setOnLeave.Consistent :=
  ⟨h.alive, h.storing, h.reading, h.calling⟩

theorem store (h : m.Consistent) {info : PeerInfo Coord}
    (halive : info.alive = true) :
    Consistent { m with handler := some (.store info) } where
  alive := h.alive
  storing := by
    rintro info' ⟨⟩
    exact halive
  reading := by rintro ⟨⟩
  calling := by rintro peers ⟨⟩

theorem remove (h : m.Consistent) (name : String) :
    Consistent { m with handler := some (.remove name) } := by
  refine of_quiet h.alive ?_ ?_ ?_ <;> simp

theorem advance (h : m.Consistent) (hadvances : m.Advances m' called) :
    m'.Consistent := by
  cases hadvances with
  | store info hhandler =>
      apply of_quiet
      case halive =>
          intro name p hp
          by_cases hname : name = info.nodeID
          · subst hname
            rw [Finmap.lookup_insert] at hp
            cases hp
            exact h.storing info hhandler
          · rw [Finmap.lookup_insert_of_ne _ hname] at hp
            exact h.alive name p hp
      all_goals simp
  | remove name hhandler =>
      apply of_quiet
      case halive =>
          intro other p hp
          by_cases hname : other = name
          · subst hname
            simp at hp
          · rw [Finmap.lookup_erase_ne hname] at hp
            exact h.alive other p hp
      all_goals cases m.onLeave <;> simp
  | onLeave name hhandler => refine of_quiet h.alive ?_ ?_ ?_ <;> simp
  | notifyChange hhandler =>
      by_cases hset : m.onChange = true
      · exact ⟨h.alive, by simp [hset], fun _ => hset, by simp [hset]⟩
      · refine of_quiet h.alive ?_ ?_ ?_ <;> simp [hset]
  | livePeers order hhandler horder =>
      refine ⟨h.alive, by simp, by simp, ?_⟩
      rintro peers ⟨⟩
      exact ⟨h.reading hhandler, order, horder, rfl⟩
  | onChange peers hhandler => refine of_quiet h.alive ?_ ?_ ?_ <;> simp

end Consistent

theorem peerInfo_alive {c : Codec Coord} {node : MemberNode} {distance : Int64}
    {info : PeerInfo Coord} (h : peerInfo c node distance = some info) :
    info.alive = true := by
  obtain ⟨nodeMeta, -, rfl⟩ := Option.map_eq_some_iff.mp h
  rfl

end Membership

end GossipMesh
