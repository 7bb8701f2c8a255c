import GossipMesh.Foundation.Wire
import GossipMesh.Transport.Pool

/-!
# Relaying

A node that cannot reach another asks a relay for it, by a header with the
target's ID on a stream of its own.  The relay looks for a connection to the
target among its application connections, which are known by address; the
address of a node is not known to it yet.
-/

namespace GossipMesh.Relay

open GossipMesh.Foundation GossipMesh.Transport

def streamTypeRelay : UInt8 := 0x40

def relayHeader (id : Bytes) : Bytes :=
  -- the length is cut to a byte
  streamTypeRelay :: UInt8.ofNat id.length :: id

def readTarget : Bytes → Option (Bytes × Bytes)
  | [] => none
  | lenByte :: rest =>
      let idLen := lenByte.toNat
      if idLen = 0 ∨ 255 < idLen then none
      else if rest.length < idLen then none
      else some (rest.take idLen, rest.drop idLen)

def findAddrForNode (_nodeID : Bytes) : String := ""

def getConnection (m : Pool) (addr : String) : Option Nat :=
  (m.appConns.lookup addr).bind fun conn => if conn ∈ m.ended then none else some conn

def handleRelay (m : Pool) (sender : Bytes) (stream : Bytes) : Option (Nat × Bytes) :=
  -- the connection a request is forwarded on, and the bytes that go there first
  (readTarget stream).bind fun (target, rest) =>
    (getConnection m (findAddrForNode target)).map fun conn =>
      (conn, relayHeader sender ++ rest)

/-! ## The header -/

theorem readTarget_relayHeader {id rest : Bytes} (hpos : id ≠ []) (hlen : id.length ≤ 255) :
    readTarget ((relayHeader id).tail ++ rest) = some (id, rest) := by
  have hsize : (UInt8.ofNat id.length).toNat = id.length := by
    rw [UInt8.toNat_ofNat']
    omega
  simpa [relayHeader, readTarget, hsize] using And.intro hpos hlen

theorem readTarget_cut {id bytes : Bytes} (hlen : id.length ≤ 255)
    (hcut : bytes <+: (relayHeader id).tail) (hne : bytes ≠ (relayHeader id).tail) :
    readTarget bytes = none := by
  cases bytes with
  | nil => rfl
  | cons lenByte got =>
      change lenByte :: got <+: UInt8.ofNat id.length :: id at hcut
      change lenByte :: got ≠ UInt8.ofNat id.length :: id at hne
      obtain ⟨rfl, hgot⟩ := List.cons_prefix_cons.mp hcut
      have hsize : (UInt8.ofNat id.length).toNat = id.length := by
        rw [UInt8.toNat_ofNat']
        omega
      have hshort : got.length < id.length := by
        refine lt_of_le_of_ne hgot.length_le fun heq => hne ?_
        rw [hgot.eq_of_length heq]
      simp only [readTarget, hsize, if_pos hshort, ite_self]

/-! ## The addresses of the pool -/

def stores : PoolPoint → Option String
  | .load addr purpose | .inspect addr purpose _ | .evict addr purpose =>
      if purpose = .getConnection then none else some addr
  | .dial addr _ | .publish addr _ _ | .compare addr _ _ _ | .closeDuplicate addr _ _ _
  | .replace addr _ _ => some addr
  | .register addr _ _ => some addr
  | _ => none

/-- Nobody dials the address, and it is not that of an inbound connection. -/
def Unused (addr : String) (calls : List PoolCall) (labels : List (Nat × PoolChoice)) : Prop :=
  (∀ call ∈ calls, stores call.point ≠ some addr) ∧ ∀ l ∈ labels, l.2 ≠ .inbound addr

structure Absent (addr : String) (s : PoolThreads) : Prop where
  unpooled : s.memory.appConns.lookup addr = none
  unstored : ∀ p ∈ s.routines, stores p ≠ some addr

theorem lookup_store {m : Pool} {a addr : String} {conn : Nat}
    (hnone : m.appConns.lookup a = none) (hne : addr ≠ a) :
    (m.store addr conn).appConns.lookup a = none := by
  rw [Pool.store, Finmap.lookup_insert_of_ne _ (Ne.symm hne), hnone]

theorem lookup_delete {m : Pool} {a addr : String} (hnone : m.appConns.lookup a = none) :
    (m.delete addr).appConns.lookup a = none := by
  rw [Pool.delete]
  by_cases heq : a = addr
  · subst heq
    exact Finmap.lookup_erase a _
  · rw [Finmap.lookup_erase_ne heq, hnone]

private theorem lookup_startAcceptLoop (m : Pool) (conn : Nat) (a : String) :
    (m.startAcceptLoop conn).appConns.lookup a = m.appConns.lookup a := by
  unfold Pool.startAcceptLoop
  split <;> rfl

private theorem stores_missing {addr a : String} {purpose : Purpose}
    (h : stores (.load addr purpose) ≠ some a) : stores (Pool.missing addr purpose) ≠ some a := by
  cases purpose with
  | getConnection => exact nofun
  | _ => exact h

private theorem absent_moves {m m' : Pool} {p p' : PoolPoint} {c : PoolChoice} {a : String}
    (h : Moves m p c m' p') (hnone : m.appConns.lookup a = none) (hp : stores p ≠ some a)
    (hc : c ≠ .inbound a) : m'.appConns.lookup a = none ∧ stores p' ≠ some a := by
  cases h with
  | absent addr purpose => exact ⟨hnone, stores_missing hp⟩
  | evict addr purpose => exact ⟨lookup_delete hnone, stores_missing hp⟩
  | dialled addr purpose => exact ⟨hnone, hp⟩
  | publish addr purpose conn =>
      exact ⟨lookup_store hnone fun heq => hp (congrArg some heq), nofun⟩
  | replace addr purpose conn =>
      exact ⟨lookup_store hnone fun heq => hp (congrArg some heq), nofun⟩
  | register addr conn accepting =>
      exact ⟨lookup_store hnone fun heq => hp (congrArg some heq), nofun⟩
  | serve addr purpose conn => exact ⟨(lookup_startAcceptLoop m conn a).trans hnone, nofun⟩
  | serveInbound conn accepting =>
      refine ⟨(lookup_startAcceptLoop m conn a).trans hnone, ?_⟩
      split <;> exact nofun
  | accepted addr => exact ⟨hnone, fun heq => hc (by rw [Option.some.inj heq])⟩
  | added addr => exact ⟨hnone, fun heq => hc (by rw [Option.some.inj heq])⟩
  | unpool addr conn => exact ⟨lookup_delete hnone, nofun⟩
  | sweepDelete addr => exact ⟨lookup_delete hnone, nofun⟩
  | present | dead | raced | existingDead | existingAlive => exact ⟨hnone, hp⟩
  | _ => exact ⟨hnone, nofun⟩

private theorem absent_step {s t : PoolThreads} {a : String} {l : Nat × PoolChoice}
    (hs : Absent a s) (hl : l.2 ≠ .inbound a) (h : PoolThreads.step s l = some t) :
    Absent a t := by
  obtain ⟨before, p, after, p', hsplit, hmoves, ht⟩ := PoolThreads.moves_of_step h
  have hmoved := absent_moves hmoves hs.unpooled (hs.unstored p (by simp [hsplit])) hl
  refine ⟨hmoved.1, fun q hq => ?_⟩
  rw [ht] at hq
  rcases Threads.mem_of_move p hq with rfl | hq
  · exact hmoved.2
  · exact hs.unstored q (hsplit ▸ hq)

private theorem lookup_none_of_unused {s : PoolThreads} {a : String} {calls : List PoolCall}
    {labels : List (Nat × PoolChoice)} (hunused : Unused a calls labels)
    (hrun : exec PoolThreads.step (PoolThreads.start .new calls) labels = some s) :
    s.memory.appConns.lookup a = none := by
  have halong : Along PoolThreads.step (fun _ l => l.2 ≠ .inbound a)
      (PoolThreads.start .new calls) labels := along_of_forall hunused.2
  have hstart : Absent a (PoolThreads.start .new calls) := by
    refine ⟨rfl, fun p hp => ?_⟩
    obtain ⟨call, hcall, rfl⟩ := List.mem_map.mp hp
    exact hunused.1 call hcall
  have hs : Absent a s := exec_invariant_of_along (Absent a)
    (fun _ _ _ hs hl hstep => absent_step hs hl hstep) hstart halong hrun
  exact hs.unpooled

/--
A relay forwards nothing.  In whatever state the transport is, a request is
refused, for any target and from any node, since connections are looked up
under the empty address, which no remote end of a connection has and nobody
dials.
-/
theorem relay_refuses {s : PoolThreads} {calls : List PoolCall}
    {labels : List (Nat × PoolChoice)} (hunused : Unused "" calls labels)
    (hrun : exec PoolThreads.step (PoolThreads.start .new calls) labels = some s)
    (sender stream : Bytes) : handleRelay s.memory sender stream = none := by
  have hnone : getConnection s.memory "" = none := by
    rw [getConnection, lookup_none_of_unused hunused hrun]
    rfl
  unfold handleRelay
  cases readTarget stream with
  | none => rfl
  | some request => simp [findAddrForNode, hnone]

theorem relay_refuses_connected : ∃ s,
    exec PoolThreads.step (PoolThreads.start .new [.use "b:1" .openStream])
        [(0, .proceed), (0, .dialled), (0, .proceed), (0, .proceed), (0, .opens)] = some s ∧
      getConnection s.memory "b:1" = some 0 ∧
      readTarget (relayHeader [98]).tail = some ([98], []) ∧
      handleRelay s.memory [97] (relayHeader [98]).tail = none := by
  obtain ⟨s, hrun, hconn⟩ : ∃ s,
      exec PoolThreads.step (PoolThreads.start .new [.use "b:1" .openStream])
        [(0, .proceed), (0, .dialled), (0, .proceed), (0, .proceed), (0, .opens)] = some s ∧
      getConnection s.memory "b:1" = some 0 :=
    ⟨_, rfl, rfl⟩
  have hunused : Unused "" [.use "b:1" .openStream]
      [(0, .proceed), (0, .dialled), (0, .proceed), (0, .proceed), (0, .opens)] :=
    ⟨by decide, by decide⟩
  exact ⟨s, hrun, hconn, rfl, relay_refuses hunused hrun [97] _⟩

end GossipMesh.Relay
