import GossipMesh.Objstore.Scan

/-!
# Hole-punch signals

Two nodes that want to reach each other write a signal each, under keys that
begin with the pair in ascending order and end with the writer.  Reading and
cleaning up go over all keys of the pair.  JSON is a parameter.
-/

namespace GossipMesh.Holepunch

open GossipMesh.Foundation GossipMesh.Objstore

structure Signal where
  nodeID : String
  addr : String
  nonce : String
  time : Nat
  deriving DecidableEq

def signalPrefix (id1 id2 : String) : String :=
  if id2 < id1 then "signal/" ++ id2 ++ "/" ++ id1 ++ "/"
  else "signal/" ++ id1 ++ "/" ++ id2 ++ "/"

def signalKey (id1 id2 writerID : String) : String :=
  if id2 < id1 then "signal/" ++ id2 ++ "/" ++ id1 ++ "/" ++ writerID
  else "signal/" ++ id1 ++ "/" ++ id2 ++ "/" ++ writerID

def writeSignalForPeer (j : Marshaller Signal) (now : Nat) (store : MemoryObjectStore)
    (selfID targetID : String) (sig : Signal) : Option MemoryObjectStore :=
  -- `none` is an error, before anything is stored
  (j.marshal { sig with time := now }).map fun data =>
    (store.put (signalKey selfID targetID selfID) data noOptions).2

structure Signals where
  self : Option Signal
  peer : Option Signal
  deriving DecidableEq

def addSignal (j : Marshaller Signal) (selfID targetID : String) (found : Signals)
    (data : Bytes) : Signals :=
  match j.unmarshal data with
  | none => found
  | some sig =>
      if sig.nodeID = selfID then { found with self := some sig }
      else if sig.nodeID = targetID then { found with peer := some sig }
      else found

def readSignals (store : MemoryObjectStore) (selfID targetID : String) : Scan Signals :=
  .start store (signalPrefix selfID targetID) ⟨none, none⟩

/-! ## Keys of a pair -/

theorem signalKey_eq (id1 id2 writerID : String) :
    signalKey id1 id2 writerID = signalPrefix id1 id2 ++ writerID := by
  unfold signalKey signalPrefix
  split <;> rfl

theorem signalPrefix_comm (id1 id2 : String) : signalPrefix id1 id2 = signalPrefix id2 id1 := by
  unfold signalPrefix
  rcases lt_trichotomy id1 id2 with h | rfl | h
  · rw [if_neg (lt_asymm h), if_pos h]
  · rfl
  · rw [if_pos h, if_neg (lt_asymm h)]

theorem signalKey_comm (id1 id2 writerID : String) :
    signalKey id1 id2 writerID = signalKey id2 id1 writerID := by
  rw [signalKey_eq, signalKey_eq, signalPrefix_comm]

theorem signalKey_inj {id1 id2 writer other : String} :
    signalKey id1 id2 writer = signalKey id1 id2 other ↔ writer = other := by
  simp [signalKey_eq]

theorem signalPrefix_signalKey (id1 id2 writerID : String) :
    (signalPrefix id1 id2).toList <+: (signalKey id1 id2 writerID).toList := by
  simp [signalKey_eq]

/-! ## What is read -/

/-- The object tells of a signal the node has written. -/
def SignalOf (j : Marshaller Signal) (nodeID : String) (data : Bytes) : Prop :=
  ∃ sig, j.unmarshal data = some sig ∧ sig.nodeID = nodeID

def FoundPeer (targetID : String) (found : Signals) : Prop :=
  ∃ sig, found.peer = some sig ∧ sig.nodeID = targetID

variable {j : Marshaller Signal} {selfID targetID : String}

theorem peer_addSignal (found : Signals) (data : Bytes) :
    (addSignal j selfID targetID found data).peer = found.peer ∨
      FoundPeer targetID (addSignal j selfID targetID found data) := by
  unfold addSignal
  split
  · exact .inl rfl
  · next sig hsig =>
      split
      · exact .inl rfl
      · split
        · next htarget => exact .inr ⟨sig, rfl, htarget⟩
        · exact .inl rfl

theorem FoundPeer.addSignal {found : Signals} (h : FoundPeer targetID found) (data : Bytes) :
    FoundPeer targetID (addSignal j selfID targetID found data) := by
  rcases peer_addSignal found data with heq | hfound
  · rw [FoundPeer, heq]
    exact h
  · exact hfound

theorem foundPeer_of_signalOf {data : Bytes} (hne : targetID ≠ selfID)
    (h : SignalOf j targetID data) (found : Signals) :
    FoundPeer targetID (addSignal j selfID targetID found data) := by
  obtain ⟨sig, hsig, htarget⟩ := h
  unfold addSignal
  rw [hsig]
  simp only [htarget, if_neg hne, if_pos trivial]
  exact ⟨sig, rfl, htarget⟩

theorem peer_next {store : MemoryObjectStore} {scan scan' : Scan Signals}
    (h : scan.next (addSignal j selfID targetID) store = some scan') :
    scan'.found.peer = scan.found.peer ∨ FoundPeer targetID scan'.found := by
  obtain ⟨key, todo, -, -, hfound⟩ := Scan.next_cases h
  rw [hfound]
  cases store.contents key with
  | none => exact .inl rfl
  | some data => exact peer_addSignal scan.found data

theorem contents_writeSignalForPeer {store store' : MemoryObjectStore} {now : Nat}
    {sig : Signal} (h : writeSignalForPeer j now store selfID targetID sig = some store')
    (hself : sig.nodeID = selfID) :
    (∃ data, store'.contents (signalKey selfID targetID selfID) = some data ∧
      SignalOf j selfID data) ∧
    ∀ key, key ≠ signalKey selfID targetID selfID → store'.contents key = store.contents key := by
  obtain ⟨data, hdata, rfl⟩ := Option.map_eq_some_iff.mp h
  rw [MemoryObjectStore.put_noOptions]
  refine ⟨⟨data, ?_, _, j.lossless _ _ hdata, hself⟩, fun key hkey => ?_⟩
  · rw [MemoryObjectStore.contents_write, if_pos rfl]
  · rw [MemoryObjectStore.contents_write, if_neg hkey]

end GossipMesh.Holepunch
