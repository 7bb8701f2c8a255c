import GossipMesh.Engine.Repair

/-!
# The repair cache over a run

A run of `CacheEntry` calls evicts whatever the range loop visits first, which
may differ from call to call.  The cache stays within its bound and never holds
anything but the latest payload of a key; a request and its answer, as the two
ends write and read them, report exactly what is cached.
-/

namespace GossipMesh.Engine

open GossipMesh.Foundation

structure CacheCall where
  first : RangeFirst
  entry : GossipEntry

def cacheRun (calls : List CacheCall) : Cache :=
  calls.foldl (fun cache call => cacheEntry call.first cache call.entry) ∅

theorem cacheRun_snoc (calls : List CacheCall) (call : CacheCall) :
    cacheRun (calls ++ [call]) = cacheEntry call.first (cacheRun calls) call.entry := by
  simp [cacheRun]

def lastCached (calls : List CacheCall) (key : TopicSeq) : Option Payload :=
  (calls.reverse.find? fun call => call.entry.key = key).map fun call => call.entry.payload

theorem lastCached_snoc (calls : List CacheCall) (call : CacheCall) (key : TopicSeq) :
    lastCached (calls ++ [call]) key =
      if call.entry.key = key then some call.entry.payload else lastCached calls key := by
  unfold lastCached
  rw [List.reverse_append, List.reverse_singleton, List.singleton_append, List.find?_cons]
  by_cases hkey : call.entry.key = key <;> simp [hkey]

/-! ## One call -/

private theorem evictOne_card (first : RangeFirst) {cache : Cache}
    (h : cache.keys.card ≤ maxRepairCache) :
    (evictOne first cache).keys.card < maxRepairCache := by
  unfold evictOne
  split
  · next hfull =>
      have hpos : 0 < cache.keys.card := lt_of_lt_of_le (by decide) hfull
      have hmem := Finmap.mem_keys.mpr (first.mem cache (Finset.card_pos.mp hpos))
      rw [Finmap.keys_erase, Finset.card_erase_of_mem hmem]
      omega
  · next hroom => exact not_le.mp hroom

private theorem cacheEntry_keys (first : RangeFirst) (cache : Cache) (entry : GossipEntry) :
    (cacheEntry first cache entry).keys = insert entry.key (evictOne first cache).keys := by
  ext key
  simp [cacheEntry, Finmap.mem_keys, Finmap.mem_insert]

private theorem cacheEntry_card (first : RangeFirst) {cache : Cache}
    (h : cache.keys.card ≤ maxRepairCache) (entry : GossipEntry) :
    (cacheEntry first cache entry).keys.card ≤ maxRepairCache := by
  rw [cacheEntry_keys]
  exact (Finset.card_insert_le _ _).trans (evictOne_card first h)

theorem cacheEntry_lookup_self (first : RangeFirst) (cache : Cache) (entry : GossipEntry) :
    (cacheEntry first cache entry).lookup entry.key = some entry.payload :=
  Finmap.lookup_insert _

/-! ## Runs -/

theorem cacheRun_card (calls : List CacheCall) :
    (cacheRun calls).keys.card ≤ maxRepairCache := by
  induction calls using List.reverseRecOn with
  | nil => exact Nat.zero_le _
  | append_singleton calls call ih =>
      rw [cacheRun_snoc]
      exact cacheEntry_card call.first ih call.entry

theorem cacheRun_lookup {calls : List CacheCall} {key : TopicSeq} {payload : Payload}
    (h : (cacheRun calls).lookup key = some payload) : lastCached calls key = some payload := by
  induction calls using List.reverseRecOn with
  | nil => cases h
  | append_singleton calls call ih =>
      rw [cacheRun_snoc] at h
      rw [lastCached_snoc]
      by_cases hkey : call.entry.key = key
      · subst hkey
        rw [cacheEntry_lookup_self] at h
        rw [if_pos rfl, h]
      · rw [if_neg hkey]
        rcases cacheEntry_lookup h with ⟨heq, -⟩ | hold
        · exact absurd heq.symm hkey
        · exact ih hold

/-! ## Both ends of a request -/

def pullFromPeer (cache : Cache) (topic : UInt16) (seq : UInt64) : Pull :=
  -- `pullFromPeer` against a peer with the cache: the request goes through
  -- `dispatchBidiStream`, and the stream ends with what the handler has written
  match dispatchRepair (repairRequest topic seq) with
  | none => readReply topic seq []
  | some stream => readReply topic seq (handleRequest cache stream)

private theorem pullFromPeer_eq (cache : Cache) (topic : UInt16) (seq : UInt64) :
    pullFromPeer cache topic seq =
      (cache.lookup ⟨topic, seq⟩).elim .miss fun payload => .hit ⟨topic, seq, payload⟩ := by
  have hdispatch : dispatchRepair (repairRequest topic seq) =
      some (putUint16 topic ++ putUint64 seq) := by
    simp [dispatchRepair, repairRequest]
  unfold pullFromPeer
  rw [hdispatch]
  dsimp only
  rw [handleRequest_dispatchRepair cache hdispatch]
  cases cache.lookup ⟨topic, seq⟩ <;> rfl

/--
After every run of `CacheEntry` calls the cache is within its bound, holds the
entry cached last, and holds of no key but the payload cached last for it.  A
pull for any topic and number yields the cached payload, or a miss.
-/
theorem repair_truthful (calls : List CacheCall) :
    (cacheRun calls).keys.card ≤ 1024 ∧
    (∀ call, calls.getLast? = some call →
      (cacheRun calls).lookup call.entry.key = some call.entry.payload) ∧
    (∀ key payload, (cacheRun calls).lookup key = some payload →
      lastCached calls key = some payload) ∧
    ∀ topic seq, pullFromPeer (cacheRun calls) topic seq =
      match (cacheRun calls).lookup ⟨topic, seq⟩ with
      | some payload => .hit ⟨topic, seq, payload⟩
      | none => .miss := by
  refine ⟨cacheRun_card calls, ?_, fun key payload => cacheRun_lookup, ?_⟩
  · intro call hlast
    obtain ⟨before, rfl⟩ := List.getLast?_eq_some_iff.mp hlast
    rw [cacheRun_snoc]
    exact cacheEntry_lookup_self _ _ _
  · intro topic seq
    rw [pullFromPeer_eq]
    cases (cacheRun calls).lookup ⟨topic, seq⟩ <;> rfl

noncomputable def recached : List CacheCall :=
  [⟨.any, ⟨1, 1, [7]⟩⟩, ⟨.any, ⟨1, 2, []⟩⟩, ⟨.any, ⟨1, 1, [8]⟩⟩]

theorem repair_truthful_recached :
    (cacheRun recached).lookup ⟨1, 1⟩ = some [8] ∧
    pullFromPeer (cacheRun recached) 1 2 = .hit ⟨1, 2, []⟩ ∧
    pullFromPeer (cacheRun recached) 1 3 = .miss := by
  obtain ⟨-, hlast, -, hpull⟩ := repair_truthful recached
  refine ⟨hlast ⟨.any, ⟨1, 1, [8]⟩⟩ rfl, ?_, ?_⟩
  · rw [hpull, show (cacheRun recached).lookup ⟨1, 2⟩ = some [] by decide]
  · rw [hpull, show (cacheRun recached).lookup ⟨1, 3⟩ = none by decide]

end GossipMesh.Engine
