import Mathlib.Data.Finmap
import Mathlib.Data.Multiset.UnionInter
import GossipMesh.Foundation.Interleaving

/-!
# The application connections

`Transport` keeps its connections in a concurrent map from addresses.  Any
number of goroutines look up, dial, add, accept and evict connections, and
`Shutdown` sweeps the map meanwhile; a goroutine is cut at every operation on
the map and on a connection.  QUIC is what it may answer: a dial succeeds or
fails, a stream opens or does not, a connection ends at any time.

Connections are numbered as the transport obtains them.
-/

namespace GossipMesh.Transport

open GossipMesh.Foundation

/--
`ended` are the connections whose context is done, `down` tells that the QUIC
transport is closed.  The logs list the connections that were dialled, accepted
or added, those that got accept loops, those closed as duplicates, those that
got no accept loops because the transport was closed, and the connections
`getOrDial` and `GetConnection` returned.
-/
structure Pool where
  appConns : Finmap (fun _ : String => Nat)
  closed : Bool
  down : Bool
  ended : Finset Nat
  nextConn : Nat
  served : List Nat
  duplicates : List Nat
  refused : List Nat
  returned : List (String × Nat)

inductive Purpose where
  | getConnection
  | sendDatagram
  -- also `OpenUniStream`
  | openStream
  deriving DecidableEq

/-- Where a goroutine is, named by its next operation. -/
inductive PoolPoint where
  | load (addr : String) (purpose : Purpose)
  | inspect (addr : String) (purpose : Purpose) (conn : Nat)
  | evict (addr : String) (purpose : Purpose)
  | dial (addr : String) (purpose : Purpose)
  | publish (addr : String) (purpose : Purpose) (conn : Nat)
  | compare (addr : String) (purpose : Purpose) (conn existing : Nat)
  | closeDuplicate (addr : String) (purpose : Purpose) (conn existing : Nat)
  | replace (addr : String) (purpose : Purpose) (conn : Nat)
  | serve (addr : String) (purpose : Purpose) (conn : Nat)
  | use (addr : String) (purpose : Purpose) (conn : Nat)
  | unpool (addr : String) (conn : Nat)
  | closeFailed (conn : Nat)
  | acceptLoop
  | addConnection
  | register (addr : String) (conn : Nat) (accepting : Bool)
  | serveInbound (conn : Nat) (accepting : Bool)
  | network
  | shutdown
  | sweep
  | sweepDelete (addr : String)
  | closeTransport
  | done
  deriving DecidableEq

inductive PoolChoice where
  | proceed
  | dialled
  | dialFails
  | opens
  | openFails
  | inbound (addr : String)
  | ends (conn : Nat)
  | visit (addr : String)
  | finish
  deriving DecidableEq

namespace Pool

def new : Pool := ⟨∅, false, false, ∅, 0, [], [], [], []⟩

def close (m : Pool) (conn : Nat) : Pool := { m with ended := insert conn m.ended }

def store (m : Pool) (addr : String) (conn : Nat) : Pool :=
  { m with appConns := m.appConns.insert addr conn }

def delete (m : Pool) (addr : String) : Pool :=
  { m with appConns := m.appConns.erase addr }

def answer (m : Pool) (addr : String) (conn : Nat) : Pool :=
  { m with returned := m.returned ++ [(addr, conn)] }

/-- The transport gets hold of a connection, whose number is `nextConn`. -/
def obtain (m : Pool) : Pool := { m with nextConn := m.nextConn + 1 }

def startAcceptLoop (m : Pool) (conn : Nat) : Pool :=
  if m.closed then { m with refused := m.refused ++ [conn] }
  else { m with served := m.served ++ [conn] }

def missing (addr : String) : Purpose → PoolPoint
  | .getConnection => .done
  | purpose => .dial addr purpose

/-- `GetConnection`, `getOrDial` and what its callers do with the connection. -/
def callStep (m : Pool) : PoolPoint → PoolChoice → Option (Pool × PoolPoint)
  | .load addr purpose, .proceed =>
      match m.appConns.lookup addr with
      | none => some (m, missing addr purpose)
      | some conn => some (m, .inspect addr purpose conn)
  | .inspect addr purpose conn, .proceed =>
      if conn ∈ m.ended then some (m, .evict addr purpose)
      else some (m.answer addr conn, .use addr purpose conn)
  | .evict addr purpose, .proceed => some (m.delete addr, missing addr purpose)
  | .dial addr purpose, .dialled =>
      if m.down then none else some (m.obtain, .publish addr purpose m.nextConn)
  | .dial _ _, .dialFails => some (m, .done)
  | .publish addr purpose conn, .proceed =>
      match m.appConns.lookup addr with
      | none => some (m.store addr conn, .serve addr purpose conn)
      | some existing => some (m, .compare addr purpose conn existing)
  | .compare addr purpose conn existing, .proceed =>
      if existing ∈ m.ended then some (m, .replace addr purpose conn)
      else some (m, .closeDuplicate addr purpose conn existing)
  | .closeDuplicate addr purpose conn existing, .proceed =>
      some ({ (m.close conn).answer addr existing with duplicates := m.duplicates ++ [conn] },
        .use addr purpose existing)
  | .replace addr purpose conn, .proceed =>
      some (m.store addr conn, .serve addr purpose conn)
  | .serve addr purpose conn, .proceed =>
      some ((m.startAcceptLoop conn).answer addr conn, .use addr purpose conn)
  | .use _ .getConnection _, .proceed | .use _ .sendDatagram _, .proceed => some (m, .done)
  | .use _ .openStream _, .opens => some (m, .done)
  | .use addr .openStream conn, .openFails => some (m, .unpool addr conn)
  | .unpool addr conn, .proceed =>
      some (if m.appConns.lookup addr = some conn then m.delete addr else m, .closeFailed conn)
  | .closeFailed conn, .proceed => some (m.close conn, .done)
  | _, _ => none

/-- `acceptLoop`, `AddConnection`, `Shutdown` and the network. -/
def inboundStep (m : Pool) : PoolPoint → PoolChoice → Option (Pool × PoolPoint)
  | .acceptLoop, .inbound addr =>
      if m.down then none else some (m.obtain, .register addr m.nextConn true)
  | .acceptLoop, .finish => if m.closed then some (m, .done) else none
  | .addConnection, .inbound addr => some (m.obtain, .register addr m.nextConn false)
  | .register addr conn accepting, .proceed =>
      some (m.store addr conn, .serveInbound conn accepting)
  | .serveInbound conn accepting, .proceed =>
      some (m.startAcceptLoop conn, if accepting then .acceptLoop else .done)
  | .network, .ends conn =>
      if conn < m.nextConn then some (m.close conn, .network) else none
  | .shutdown, .proceed => some ({ m with closed := true }, .sweep)
  | .sweep, .visit addr =>
      (m.appConns.lookup addr).map fun conn => (m.close conn, .sweepDelete addr)
  | .sweep, .finish => some (m, .closeTransport)
  | .sweepDelete addr, .proceed => some (m.delete addr, .sweep)
  | .closeTransport, .proceed =>
      some ({ m with ended := m.ended ∪ Finset.range m.nextConn, down := true }, .done)
  | _, _ => none

def operate (m : Pool) (p : PoolPoint) (c : PoolChoice) :
    Option (Pool × PoolPoint × List PoolPoint) :=
  ((m.callStep p c).or (m.inboundStep p c)).map fun next => (next.1, next.2, [])

end Pool

inductive PoolCall where
  | use (addr : String) (purpose : Purpose)
  | acceptLoop
  | addConnection
  | network
  | shutdown
  deriving DecidableEq

def PoolCall.point : PoolCall → PoolPoint
  | .use addr purpose => .load addr purpose
  | .acceptLoop => .acceptLoop
  | .addConnection => .addConnection
  | .network => .network
  | .shutdown => .shutdown

abbrev PoolThreads := Threads Pool PoolPoint

namespace PoolThreads

def start (m : Pool) (calls : List PoolCall) : PoolThreads := ⟨m, calls.map PoolCall.point⟩

def step : PoolThreads → Nat × PoolChoice → Option PoolThreads := Threads.step Pool.operate

end PoolThreads

/-! ## Operations -/

inductive Moves (m : Pool) : PoolPoint → PoolChoice → Pool → PoolPoint → Prop
  | absent (addr : String) (purpose : Purpose) (hnone : m.appConns.lookup addr = none) :
      Moves m (.load addr purpose) .proceed m (Pool.missing addr purpose)
  | present (addr : String) (purpose : Purpose) (conn : Nat)
      (hsome : m.appConns.lookup addr = some conn) :
      Moves m (.load addr purpose) .proceed m (.inspect addr purpose conn)
  | dead (addr : String) (purpose : Purpose) (conn : Nat) (hended : conn ∈ m.ended) :
      Moves m (.inspect addr purpose conn) .proceed m (.evict addr purpose)
  | alive (addr : String) (purpose : Purpose) (conn : Nat) (halive : conn ∉ m.ended) :
      Moves m (.inspect addr purpose conn) .proceed (m.answer addr conn)
        (.use addr purpose conn)
  | evict (addr : String) (purpose : Purpose) :
      Moves m (.evict addr purpose) .proceed (m.delete addr) (Pool.missing addr purpose)
  | dialled (addr : String) (purpose : Purpose) (hup : m.down = false) :
      Moves m (.dial addr purpose) .dialled m.obtain (.publish addr purpose m.nextConn)
  | dialFails (addr : String) (purpose : Purpose) :
      Moves m (.dial addr purpose) .dialFails m .done
  | publish (addr : String) (purpose : Purpose) (conn : Nat)
      (hnone : m.appConns.lookup addr = none) :
      Moves m (.publish addr purpose conn) .proceed (m.store addr conn)
        (.serve addr purpose conn)
  | raced (addr : String) (purpose : Purpose) (conn existing : Nat)
      (hsome : m.appConns.lookup addr = some existing) :
      Moves m (.publish addr purpose conn) .proceed m (.compare addr purpose conn existing)
  | existingDead (addr : String) (purpose : Purpose) (conn existing : Nat)
      (hended : existing ∈ m.ended) :
      Moves m (.compare addr purpose conn existing) .proceed m (.replace addr purpose conn)
  | existingAlive (addr : String) (purpose : Purpose) (conn existing : Nat)
      (halive : existing ∉ m.ended) :
      Moves m (.compare addr purpose conn existing) .proceed m
        (.closeDuplicate addr purpose conn existing)
  | closeDuplicate (addr : String) (purpose : Purpose) (conn existing : Nat) :
      Moves m (.closeDuplicate addr purpose conn existing) .proceed
        { (m.close conn).answer addr existing with duplicates := m.duplicates ++ [conn] }
        (.use addr purpose existing)
  | replace (addr : String) (purpose : Purpose) (conn : Nat) :
      Moves m (.replace addr purpose conn) .proceed (m.store addr conn)
        (.serve addr purpose conn)
  | serve (addr : String) (purpose : Purpose) (conn : Nat) :
      Moves m (.serve addr purpose conn) .proceed
        ((m.startAcceptLoop conn).answer addr conn) (.use addr purpose conn)
  | used (addr : String) (purpose : Purpose) (conn : Nat) (c : PoolChoice) :
      Moves m (.use addr purpose conn) c m .done
  | openFails (addr : String) (conn : Nat) :
      Moves m (.use addr .openStream conn) .openFails m (.unpool addr conn)
  | unpool (addr : String) (conn : Nat) (hsome : m.appConns.lookup addr = some conn) :
      Moves m (.unpool addr conn) .proceed (m.delete addr) (.closeFailed conn)
  | unpoolOther (addr : String) (conn : Nat) (hother : m.appConns.lookup addr ≠ some conn) :
      Moves m (.unpool addr conn) .proceed m (.closeFailed conn)
  | closeFailed (conn : Nat) : Moves m (.closeFailed conn) .proceed (m.close conn) .done
  | accepted (addr : String) (hup : m.down = false) :
      Moves m .acceptLoop (.inbound addr) m.obtain (.register addr m.nextConn true)
  | acceptEnds (hclosed : m.closed = true) : Moves m .acceptLoop .finish m .done
  | added (addr : String) :
      Moves m .addConnection (.inbound addr) m.obtain (.register addr m.nextConn false)
  | register (addr : String) (conn : Nat) (accepting : Bool) :
      Moves m (.register addr conn accepting) .proceed (m.store addr conn)
        (.serveInbound conn accepting)
  | serveInbound (conn : Nat) (accepting : Bool) :
      Moves m (.serveInbound conn accepting) .proceed (m.startAcceptLoop conn)
        (if accepting then .acceptLoop else .done)
  | ends (conn : Nat) (hconn : conn < m.nextConn) :
      Moves m .network (.ends conn) (m.close conn) .network
  | shutdown : Moves m .shutdown .proceed { m with closed := true } .sweep
  | visit (addr : String) (conn : Nat) (hsome : m.appConns.lookup addr = some conn) :
      Moves m .sweep (.visit addr) (m.close conn) (.sweepDelete addr)
  | sweepEnds : Moves m .sweep .finish m .closeTransport
  | sweepDelete (addr : String) : Moves m (.sweepDelete addr) .proceed (m.delete addr) .sweep
  | closeTransport :
      Moves m .closeTransport .proceed
        { m with ended := m.ended ∪ Finset.range m.nextConn, down := true } .done

section Inversion

variable {m m' : Pool} {p p' : PoolPoint} {c : PoolChoice}

private theorem moves_of_callStep (h : m.callStep p c = some (m', p')) : Moves m p c m' p' := by
  unfold Pool.callStep at h
  split at h
  case h_1 addr purpose =>
      split at h
      · next hnone =>
          cases h
          exact .absent addr purpose hnone
      · next conn hsome =>
          cases h
          exact .present addr purpose conn hsome
  case h_2 addr purpose conn =>
      split at h
      · next hended =>
          cases h
          exact .dead addr purpose conn hended
      · next halive =>
          cases h
          exact .alive addr purpose conn halive
  case h_4 addr purpose =>
      split at h
      · cases h
      · next hup =>
          cases h
          exact .dialled addr purpose (by simpa using hup)
  case h_6 addr purpose conn =>
      split at h
      · next hnone =>
          cases h
          exact .publish addr purpose conn hnone
      · next existing hsome =>
          cases h
          exact .raced addr purpose conn existing hsome
  case h_7 addr purpose conn existing =>
      split at h
      · next hended =>
          cases h
          exact .existingDead addr purpose conn existing hended
      · next halive =>
          cases h
          exact .existingAlive addr purpose conn existing halive
  case h_15 addr conn =>
      cases h
      split
      · next hsome => exact .unpool addr conn hsome
      · next hother => exact .unpoolOther addr conn hother
  case h_17 => cases h
  all_goals
    cases h
    constructor

private theorem moves_of_inboundStep (h : m.inboundStep p c = some (m', p')) : Moves m p c m' p' := by
  unfold Pool.inboundStep at h
  split at h
  case h_1 addr =>
      split at h
      · cases h
      · next hup =>
          cases h
          exact .accepted addr (by simpa using hup)
  case h_2 =>
      split at h
      · next hclosed =>
          cases h
          exact .acceptEnds hclosed
      · cases h
  case h_6 conn =>
      split at h
      · next hconn =>
          cases h
          exact .ends conn hconn
      · cases h
  case h_8 addr =>
      obtain ⟨conn, hsome, hmoved⟩ := Option.map_eq_some_iff.mp h
      cases hmoved
      exact .visit addr conn hsome
  case h_12 => cases h
  all_goals
    cases h
    constructor

theorem moves_of_operate {new : List PoolPoint} (h : m.operate p c = some (m', p', new)) :
    new = [] ∧ Moves m p c m' p' := by
  obtain ⟨⟨next, point⟩, hnext, hmoved⟩ := Option.map_eq_some_iff.mp h
  cases hmoved
  refine ⟨rfl, ?_⟩
  rcases Option.or_eq_some_iff.mp hnext with hcall | ⟨-, hinbound⟩
  · exact moves_of_callStep hcall
  · exact moves_of_inboundStep hinbound

end Inversion

theorem PoolThreads.moves_of_step {s t : PoolThreads} {i : Nat} {c : PoolChoice}
    (h : s.step (i, c) = some t) :
    ∃ before p after p', s.routines = before ++ p :: after ∧ Moves s.memory p c t.memory p' ∧
      t.routines = before ++ p' :: after := by
  obtain ⟨before, p, after, p', new, -, hbefore, hop, hafter⟩ := Threads.step_eq_some h
  obtain ⟨rfl, hmoves⟩ := moves_of_operate hop
  exact ⟨before, p, after, p', hbefore, hmoves, by simpa using hafter⟩

/-! ## What becomes of a connection -/

/-- The connection a goroutine has obtained and not yet passed to `startAcceptLoop` or closed. -/
def PoolPoint.carried : PoolPoint → Multiset Nat
  | .publish _ _ conn | .compare _ _ conn _ | .closeDuplicate _ _ conn _ | .replace _ _ conn
  | .serve _ _ conn | .register _ conn _ | .serveInbound conn _ => {conn}
  | _ => 0

def Pool.settled (m : Pool) : Multiset Nat := m.served + m.duplicates + m.refused

theorem carried_missing (addr : String) (purpose : Purpose) :
    (Pool.missing addr purpose).carried = 0 := by
  cases purpose <;> rfl

private theorem settled_startAcceptLoop (m : Pool) (conn : Nat) :
    (m.startAcceptLoop conn).settled = m.settled + {conn} := by
  unfold Pool.startAcceptLoop Pool.settled
  split
  · simp only [← Multiset.coe_add, Multiset.coe_singleton]
    abel
  · simp only [← Multiset.coe_add, Multiset.coe_singleton]
    abel

@[simp] theorem startAcceptLoop_nextConn (m : Pool) (conn : Nat) :
    (m.startAcceptLoop conn).nextConn = m.nextConn := by
  unfold Pool.startAcceptLoop
  split <;> rfl

theorem Moves.balance {m m' : Pool} {p p' : PoolPoint} {c : PoolChoice}
    (h : Moves m p c m' p') :
    ∃ d, Multiset.range m'.nextConn = Multiset.range m.nextConn + d ∧
      m'.settled + p'.carried = m.settled + p.carried + d := by
  cases h with
  | dialled | accepted | added =>
      refine ⟨{m.nextConn}, ?_, by simp [Pool.settled, Pool.obtain, PoolPoint.carried]⟩
      rw [Pool.obtain, Multiset.range_succ, ← Multiset.singleton_add, add_comm]
  | closeDuplicate addr purpose conn existing =>
      refine ⟨0, by simp [Pool.close, Pool.answer], ?_⟩
      simp only [Pool.settled, Pool.close, Pool.answer, PoolPoint.carried, ← Multiset.coe_add,
        Multiset.coe_singleton, add_zero]
      abel
  | serve addr purpose conn =>
      refine ⟨0, by simp [Pool.answer], ?_⟩
      change (m.startAcceptLoop conn).settled + 0 = m.settled + {conn} + 0
      rw [settled_startAcceptLoop]
  | serveInbound conn accepting =>
      refine ⟨0, by simp, ?_⟩
      have hlater : (if accepting then PoolPoint.acceptLoop else .done).carried = 0 := by
        cases accepting <;> rfl
      rw [hlater, settled_startAcceptLoop]
      rfl
  | absent addr purpose | evict addr purpose =>
      refine ⟨0, by simp [Pool.delete], ?_⟩
      rw [carried_missing]
      simp [Pool.settled, Pool.delete, PoolPoint.carried]
  | _ => exact ⟨0, by simp [Pool.close, Pool.answer, Pool.store, Pool.delete],
      by simp [Pool.settled, Pool.close, Pool.answer, Pool.store, Pool.delete,
        PoolPoint.carried]⟩

/-- What is recorded of the connections is true of them. -/
structure Pool.Recorded (m : Pool) : Prop where
  duplicates : ∀ conn ∈ m.duplicates, conn ∈ m.ended
  refused : m.refused ≠ [] → m.closed = true

theorem Moves.recorded {m m' : Pool} {p p' : PoolPoint} {c : PoolChoice}
    (h : Moves m p c m' p') (hm : m.Recorded) : m'.Recorded := by
  cases h with
  | closeDuplicate addr purpose conn existing =>
      refine ⟨fun other hother => ?_, hm.refused⟩
      rcases List.mem_append.mp hother with hother | hother
      · exact Finset.mem_insert_of_mem (hm.duplicates other hother)
      · exact Finset.mem_insert.mpr (.inl (List.mem_singleton.mp hother))
  | serve addr purpose conn | serveInbound conn accepting =>
      unfold Pool.startAcceptLoop
      split
      · next hclosed => exact ⟨hm.duplicates, fun _ => hclosed⟩
      · exact ⟨hm.duplicates, hm.refused⟩
  | closeFailed conn | ends conn hconn | visit addr conn hsome =>
      exact ⟨fun other hother => Finset.mem_insert_of_mem (hm.duplicates other hother),
        hm.refused⟩
  | shutdown => exact ⟨hm.duplicates, fun _ => rfl⟩
  | closeTransport =>
      exact ⟨fun other hother => Finset.mem_union_left _ (hm.duplicates other hother),
        hm.refused⟩
  | _ => exact ⟨hm.duplicates, hm.refused⟩

namespace PoolThreads

variable {calls : List PoolCall} {labels : List (Nat × PoolChoice)} {s : PoolThreads}

private theorem carried_start (calls : List PoolCall) :
    Threads.total PoolPoint.carried (calls.map PoolCall.point) = 0 := by
  induction calls with
  | nil => rfl
  | cons call calls ih =>
      rw [List.map_cons, Threads.total_cons, ih]
      cases call <;> rfl

theorem settled_run (hrun : exec step (start .new calls) labels = some s) :
    Multiset.range s.memory.nextConn =
      s.memory.settled + Threads.total PoolPoint.carried s.routines := by
  refine exec_invariant (fun s : PoolThreads => Multiset.range s.memory.nextConn =
    s.memory.settled + Threads.total PoolPoint.carried s.routines) ?_ ?_ hrun
  · rintro u l v hu hstep
    refine Threads.conservation_step (fun m : Pool => Multiset.range m.nextConn) Pool.settled
      PoolPoint.carried ?_ hu hstep
    intro m p c m' p' new hop
    obtain ⟨rfl, hmoves⟩ := moves_of_operate hop
    simpa using hmoves.balance
  · simp [start, Pool.new, Pool.settled, carried_start]

theorem recorded_run (hrun : exec step (start .new calls) labels = some s) :
    s.memory.Recorded := by
  refine exec_invariant (fun s : PoolThreads => s.memory.Recorded) ?_ ?_ hrun
  · rintro u ⟨i, c⟩ v hu hstep
    obtain ⟨before, p, after, p', -, hmoves, -⟩ := moves_of_step hstep
    exact hmoves.recorded hu
  · exact ⟨by simp [start, Pool.new], by simp [start, Pool.new]⟩

private theorem count_carried (conn : Nat) (p : PoolPoint) :
    p.carried.count conn = if conn ∈ p.carried then 1 else 0 := by
  have hnodup : p.carried.Nodup := by
    cases p <;> simp [PoolPoint.carried]
  split
  · next hmem => exact Multiset.count_eq_one_of_mem hnodup hmem
  · next hnot => exact Multiset.count_eq_zero_of_notMem hnot

private theorem count_total_carried (conn : Nat) (routines : List PoolPoint) :
    (Threads.total PoolPoint.carried routines).count conn =
      routines.countP fun p => conn ∈ p.carried := by
  induction routines with
  | nil => rfl
  | cons p routines ih =>
      rw [Threads.total_cons, Multiset.count_add, ih, count_carried, List.countP_cons,
        Nat.add_comm]
      simp only [decide_eq_true_eq]

/--
However dials, inbound connections, evictions, failures and a shutdown
interleave, every connection the transport obtains is settled once: it gets its
accept loops, or is closed as a duplicate, or the transport was closed when it
came; until then exactly one goroutine has it in hand, and none afterwards.
-/
theorem connections_settled_once (hrun : exec step (start .new calls) labels = some s) :
    (s.memory.served ++ s.memory.duplicates ++ s.memory.refused).Nodup ∧
      (∀ conn, conn < s.memory.nextConn ↔ conn ∈ s.memory.served ∨ conn ∈ s.memory.duplicates ∨
        conn ∈ s.memory.refused ∨ ∃ p ∈ s.routines, conn ∈ p.carried) ∧
      (∀ conn < s.memory.nextConn,
        (s.memory.served ++ s.memory.duplicates ++ s.memory.refused).count conn +
          s.routines.countP (fun p => conn ∈ p.carried) = 1) ∧
      (∀ conn ∈ s.memory.duplicates, conn ∈ s.memory.ended) ∧
      (s.memory.refused ≠ [] → s.memory.closed = true) := by
  have hsettled := settled_run hrun
  obtain ⟨hduplicates, hrefused⟩ := recorded_run hrun
  refine ⟨?_, fun conn => ?_, fun conn hconn => ?_, hduplicates, hrefused⟩
  · have hnodup := Multiset.nodup_range s.memory.nextConn
    rw [hsettled] at hnodup
    exact Multiset.coe_nodup.mp (Multiset.nodup_of_le (Multiset.le_add_right _ _) hnodup)
  · rw [← Multiset.mem_range, hsettled]
    simp only [Pool.settled, Multiset.mem_add, Multiset.mem_coe, Threads.mem_total, or_assoc]
  · have hone := Multiset.count_eq_one_of_mem (Multiset.nodup_range s.memory.nextConn)
      (Multiset.mem_range.mpr hconn)
    rw [hsettled, Multiset.count_add, count_total_carried] at hone
    simpa only [Pool.settled, Multiset.coe_add, Multiset.coe_count] using hone

theorem connections_settled_once_of_race :
    ∃ s, exec step (start .new [.use "b:1" .sendDatagram, .use "b:1" .openStream,
          .use "c:1" .sendDatagram, .network])
        [(0, .proceed), (1, .proceed), (0, .dialled), (1, .dialled), (0, .proceed),
          (1, .proceed), (0, .proceed), (1, .proceed), (3, .ends 0), (1, .proceed),
          (1, .openFails), (1, .proceed), (2, .proceed), (2, .dialled)] = some s ∧
      (s.memory.served ++ s.memory.duplicates ++ s.memory.refused).Nodup ∧
      s.memory.served = [0] ∧ s.memory.duplicates = [1] ∧ s.memory.refused = [] ∧
      s.memory.nextConn = 3 ∧ s.routines.countP (fun p => 2 ∈ p.carried) = 1 := by
  obtain ⟨s, hrun, hserved, hduplicates, hrefused, hnext⟩ : ∃ s, exec step
      (start .new [.use "b:1" .sendDatagram, .use "b:1" .openStream,
          .use "c:1" .sendDatagram, .network])
        [(0, .proceed), (1, .proceed), (0, .dialled), (1, .dialled), (0, .proceed),
          (1, .proceed), (0, .proceed), (1, .proceed), (3, .ends 0), (1, .proceed),
          (1, .openFails), (1, .proceed), (2, .proceed), (2, .dialled)] = some s ∧
      s.memory.served = [0] ∧ s.memory.duplicates = [1] ∧ s.memory.refused = [] ∧
      s.memory.nextConn = 3 := ⟨_, rfl, rfl, rfl, rfl, rfl⟩
  obtain ⟨hnodup, -, hone, -, -⟩ := connections_settled_once hrun
  have hheld := hone 2 (by omega)
  rw [hserved, hduplicates, hrefused] at hheld
  exact ⟨s, hrun, hnodup, hserved, hduplicates, hrefused, hnext, by simpa using hheld⟩

end PoolThreads

end GossipMesh.Transport
