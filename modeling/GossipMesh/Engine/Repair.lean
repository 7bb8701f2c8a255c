import Mathlib.Data.Finmap
import GossipMesh.Engine.Batch

/-!
# Repair

A node keeps recent entries in a bounded cache and serves them to peers whose
gap timer has expired.  Deleting "one arbitrary entry" is the first turn of a
range loop over the map; which key that is is a parameter of `cacheEntry`.
-/

namespace GossipMesh.Engine

open GossipMesh.Foundation

def maxRepairCache : Nat := 1024

abbrev Cache := Finmap (fun _ : TopicSeq => Payload)

/-- The key a range loop over a non-empty map visits first. -/
structure RangeFirst where
  key : Cache → TopicSeq
  mem : ∀ cache : Cache, cache.keys.Nonempty → key cache ∈ cache

noncomputable def RangeFirst.any : RangeFirst where
  key cache := open Classical in
    if h : ∃ k, k ∈ cache.keys then h.choose else ⟨0, 0⟩
  mem cache h := by
    have hsome : ∃ k, k ∈ cache.keys := h
    rw [dif_pos hsome]
    exact Finmap.mem_keys.mp hsome.choose_spec

def GossipEntry.key (entry : GossipEntry) : TopicSeq := ⟨entry.topic, entry.seq⟩

def evictOne (first : RangeFirst) (cache : Cache) : Cache :=
  if maxRepairCache ≤ cache.keys.card then cache.erase (first.key cache)
  else cache

def cacheEntry (first : RangeFirst) (cache : Cache) (entry : GossipEntry) :
    Cache :=
  (evictOne first cache).insert entry.key entry.payload

private theorem evictOne_lookup {first : RangeFirst} {cache : Cache} {k : TopicSeq}
    {p : Payload} (h : (evictOne first cache).lookup k = some p) :
    cache.lookup k = some p := by
  unfold evictOne at h
  split at h
  · by_cases hkey : k = first.key cache
    · subst hkey
      simp at h
    · rwa [Finmap.lookup_erase_ne hkey] at h
  · exact h

theorem cacheEntry_lookup {first : RangeFirst} {cache : Cache}
    {entry : GossipEntry} {k : TopicSeq} {p : Payload}
    (h : (cacheEntry first cache entry).lookup k = some p) :
    (k = entry.key ∧ p = entry.payload) ∨ cache.lookup k = some p := by
  unfold cacheEntry at h
  by_cases hkey : k = entry.key
  · subst hkey
    rw [Finmap.lookup_insert] at h
    cases h
    exact .inl ⟨rfl, rfl⟩
  · rw [Finmap.lookup_insert_of_ne _ hkey] at h
    exact .inr (evictOne_lookup h)

theorem cacheEntry_of_room (first : RangeFirst) {cache : Cache}
    (hroom : cache.keys.card < maxRepairCache) (entry : GossipEntry) :
    cacheEntry first cache entry = cache.insert entry.key entry.payload := by
  rw [cacheEntry, evictOne, if_neg (not_le.mpr hroom)]

/-! ## Requests and replies -/

def streamTypeRepair : UInt8 := 0x16

def repairRequest (topic : UInt16) (seq : UInt64) : Bytes :=
  streamTypeRepair :: (putUint16 topic ++ putUint64 seq)

def dispatchRepair : Bytes → Option Bytes
  | [] => none
  | streamType :: rest =>
      if streamType = streamTypeRepair then some rest else none

def handleRequest (cache : Cache) (stream : Bytes) : Bytes :=
  if stream.length < 10 then []
  else
    match cache.lookup ⟨uint16 stream, uint64 (stream.drop 2)⟩ with
    | none => [0x00]
    | some payload => 0x01 :: payload

inductive Pull where
  | error
  | miss
  | hit (entry : GossipEntry)
  deriving DecidableEq

def readReply (topic : UInt16) (seq : UInt64) : Bytes → Pull
  | [] => .error
  | status :: payload =>
      if status = 0x00 then .miss else .hit ⟨topic, seq, payload⟩

theorem readReply_hit {topic : UInt16} {seq : UInt64} {reply : Bytes}
    {entry : GossipEntry} (h : readReply topic seq reply = .hit entry) :
    entry.topic = topic ∧ entry.seq = seq := by
  unfold readReply at h
  split at h
  · cases h
  · split at h
    · cases h
    · cases h
      exact ⟨rfl, rfl⟩

theorem handleRequest_dispatchRepair (cache : Cache) {topic : UInt16}
    {seq : UInt64} {stream : Bytes}
    (hdispatch : dispatchRepair (repairRequest topic seq) = some stream) :
    handleRequest cache stream =
      (cache.lookup ⟨topic, seq⟩).elim [0x00] fun payload => 0x01 :: payload := by
  have hstream : stream = putUint16 topic ++ putUint64 seq := by
    simpa [dispatchRepair, repairRequest, eq_comm] using hdispatch
  have hseq : stream.drop 2 = putUint64 seq := by
    rw [hstream]
    exact List.drop_left' (putUint16_length _)
  unfold handleRequest
  rw [if_neg (by simp [hstream]), hseq, hstream, uint16_append]
  rw [show uint64 (putUint64 seq) = seq by simpa using uint64_append seq []]
  cases cache.lookup ⟨topic, seq⟩ <;> rfl

theorem readReply_handleRequest {cache : Cache} {topic : UInt16} {seq : UInt64}
    {stream : Bytes} {entry : GossipEntry}
    (hdispatch : dispatchRepair (repairRequest topic seq) = some stream)
    (h : readReply topic seq (handleRequest cache stream) = .hit entry) :
    entry.key = ⟨topic, seq⟩ ∧ cache.lookup ⟨topic, seq⟩ = some entry.payload := by
  rw [handleRequest_dispatchRepair cache hdispatch] at h
  cases hcached : cache.lookup ⟨topic, seq⟩ with
  | none => simp [hcached, readReply] at h
  | some payload =>
      rw [hcached] at h
      simp only [Option.elim, readReply] at h
      rw [if_neg (by decide)] at h
      cases h
      exact ⟨rfl, rfl⟩

end GossipMesh.Engine
