import GossipMesh.Engine.RepairCache
import GossipMesh.Engine.SeqRange
import GossipMesh.Overlay.Reclassify

/-!
# Pulling a missing entry

`RequestRepair` asks up to three peers, one after the other, each over a stream
of its own, and passes the first entry it gets to `Receive`.  Streams may fail
to open, and writes may fail, at either end; what was written may arrive only in
part, and the stream may end in an error.
-/

namespace GossipMesh.Engine

open GossipMesh.Foundation

/--
What happens to one stream: the writes as in `write`, and how much of what was
written arrives, where `none` is all of it.  `clean` tells an end of file from an
error at the end of the answer.
-/
structure Exchange where
  opened : Bool
  request : Option Nat
  requestArrives : Option Nat
  status : Option Nat
  body : Option Nat
  answerArrives : Option Nat
  clean : Bool

def arrived (part : Option Nat) (written : Bytes) : Bytes :=
  match part with
  | none => written
  | some n => written.take n

def serveRequest (cache : Cache) (x : Exchange) (stream : Bytes) : Bytes :=
  -- the writes of `HandleRequest`; the last of them is not checked
  if stream.length < 10 then []
  else
    match cache.lookup ⟨uint16 stream, uint64 (stream.drop 2)⟩ with
    | none => (write x.status [0x00]).1
    | some payload =>
        let status := write x.status [0x01]
        if status.2 then status.1 ++ (write x.body payload).1 else status.1

def readAnswer (topic : UInt16) (seq : UInt64) (clean : Bool) : Bytes → Pull
  | [] => .error
  | status :: payload =>
      if status = 0x00 then .miss
      else if clean then .hit ⟨topic, seq, payload⟩
      else .error

def pullOver (cache : Cache) (topic : UInt16) (seq : UInt64) (x : Exchange) : Pull :=
  if x.opened then
    let request := write x.request (repairRequest topic seq)
    if request.2 then
      let answer :=
        match dispatchRepair (arrived x.requestArrives request.1) with
        | none => []
        | some stream => serveRequest cache x stream
      readAnswer topic seq x.clean (arrived x.answerArrives answer)
    else .error
  else .error

def requestRepair (topic : UInt16) (seq : UInt64) : List (Cache × Exchange) → Option GossipEntry
  | [] => none
  | (cache, x) :: rest =>
      match pullOver cache topic seq x with
      | .hit entry => some entry
      | .error | .miss => requestRepair topic seq rest

def askedPeers (o : Overlay) (caches : String → Cache) (exchanges : Nat → Exchange) :
    List (Cache × Exchange) :=
  (o.randomPeers 3).zipIdx.map fun p => (caches p.1.addr, exchanges p.2)

/-! ## One stream -/

/-- A stream does not end cleanly unless all of it was written and has arrived. -/
def Exchange.Reliable (x : Exchange) : Prop :=
  x.clean = true → x.status = none ∧ x.body = none ∧ x.answerArrives = none

structure Exchange.Faultless (x : Exchange) : Prop where
  opened : x.opened = true
  request : x.request = none
  requestArrives : x.requestArrives = none
  reliable : x.Reliable
  clean : x.clean = true

variable {cache : Cache} {topic : UInt16} {seq : UInt64} {x : Exchange}

theorem serveRequest_whole (hstatus : x.status = none) (hbody : x.body = none)
    (stream : Bytes) : serveRequest cache x stream = handleRequest cache stream := by
  unfold serveRequest handleRequest
  rw [hstatus, hbody]
  split
  · rfl
  · cases cache.lookup ⟨uint16 stream, uint64 (stream.drop 2)⟩ <;> rfl

theorem arrived_initial (part : Option Nat) (written : Bytes) :
    arrived part written <+: written := by
  cases part with
  | none => exact List.prefix_rfl
  | some n => exact List.take_prefix n written

private theorem handleRequest_of_cut {stream bytes : Bytes} (hbytes : bytes <+: repairRequest topic seq)
    (hdispatch : dispatchRepair bytes = some stream) (hanswer : handleRequest cache stream ≠ []) :
    dispatchRepair (repairRequest topic seq) = some stream := by
  cases bytes with
  | nil => cases hdispatch
  | cons typeByte rest =>
      obtain ⟨rfl, hrest⟩ := List.cons_prefix_cons.mp hbytes
      have hstream : rest = stream := by simpa [dispatchRepair] using hdispatch
      subst hstream
      have hlong : 10 ≤ rest.length := by
        by_contra hshort
        exact hanswer (if_pos (by omega))
      have hwhole : rest = putUint16 topic ++ putUint64 seq := by
        refine hrest.eq_of_length (le_antisymm hrest.length_le ?_)
        simpa using hlong
      simp [dispatchRepair, repairRequest, hwhole]

private theorem readAnswer_hit {clean : Bool} {answer : Bytes} {entry : GossipEntry}
    (h : readAnswer topic seq clean answer = .hit entry) :
    clean = true ∧ readReply topic seq answer = .hit entry := by
  cases answer with
  | nil => cases h
  | cons status payload =>
      rw [readAnswer] at h
      rw [readReply]
      split at h
      · cases h
      · next hstatus =>
          rw [if_neg hstatus]
          cases clean with
          | true => exact ⟨rfl, h⟩
          | false => cases h

private theorem pullOver_hit {entry : GossipEntry} (hx : x.Reliable)
    (h : pullOver cache topic seq x = .hit entry) :
    entry.key = ⟨topic, seq⟩ ∧ cache.lookup ⟨topic, seq⟩ = some entry.payload := by
  unfold pullOver at h
  split at h
  · dsimp only at h
    split at h
    · next hsent =>
        obtain ⟨hclean, hread⟩ := readAnswer_hit h
        obtain ⟨hstatus, hbody, hall⟩ := hx hclean
        rw [hall, write_of_ok hsent] at hread
        change readReply topic seq
          (match dispatchRepair (arrived x.requestArrives (repairRequest topic seq)) with
            | none => []
            | some stream => serveRequest cache x stream) = .hit entry at hread
        split at hread
        · cases hread
        · next stream hdispatch =>
            rw [serveRequest_whole hstatus hbody] at hread
            have hanswer : handleRequest cache stream ≠ [] := by
              intro hempty
              rw [hempty] at hread
              cases hread
            exact readReply_handleRequest
              (handleRequest_of_cut (arrived_initial _ _) hdispatch hanswer) hread
    · cases h
  · cases h

private theorem pullOver_of_cached {payload : Payload} (hx : x.Faultless)
    (hcached : cache.lookup ⟨topic, seq⟩ = some payload) :
    pullOver cache topic seq x = .hit ⟨topic, seq, payload⟩ := by
  obtain ⟨hstatus, hbody, hall⟩ := hx.reliable hx.clean
  have hdispatch : dispatchRepair (repairRequest topic seq) =
      some (putUint16 topic ++ putUint64 seq) := by
    simp [dispatchRepair, repairRequest]
  have hanswer := handleRequest_dispatchRepair cache hdispatch
  rw [hcached] at hanswer
  unfold pullOver
  rw [if_pos hx.opened, hx.request, hx.requestArrives, hall, hx.clean]
  simp only [write, arrived, hdispatch, serveRequest_whole hstatus hbody, hanswer]
  rfl

/-! ## The loop -/

theorem requestRepair_eq_some {asked : List (Cache × Exchange)} {entry : GossipEntry}
    (hreliable : ∀ a ∈ asked, a.2.Reliable) (h : requestRepair topic seq asked = some entry) :
    entry.key = ⟨topic, seq⟩ ∧
      ∃ a ∈ asked, a.1.lookup ⟨topic, seq⟩ = some entry.payload := by
  induction asked with
  | nil => cases h
  | cons a asked ih =>
      rw [requestRepair] at h
      split at h
      · next found hpull =>
          cases h
          obtain ⟨hkey, hcached⟩ := pullOver_hit (hreliable a (by simp)) hpull
          exact ⟨hkey, a, by simp, hcached⟩
      · obtain ⟨hkey, b, hb, hcached⟩ := ih (fun b hb => hreliable b (by simp [hb])) h
        exact ⟨hkey, b, by simp [hb], hcached⟩
      · obtain ⟨hkey, b, hb, hcached⟩ := ih (fun b hb => hreliable b (by simp [hb])) h
        exact ⟨hkey, b, by simp [hb], hcached⟩

theorem requestRepair_isSome {asked : List (Cache × Exchange)} {a : Cache × Exchange}
    (ha : a ∈ asked) (hx : a.2.Faultless) {payload : Payload}
    (hcached : a.1.lookup ⟨topic, seq⟩ = some payload) :
    (requestRepair topic seq asked).isSome := by
  induction asked with
  | nil => cases ha
  | cons b asked ih =>
      rw [requestRepair]
      rcases List.mem_cons.mp ha with rfl | ha
      · rw [pullOver_of_cached hx hcached]
        rfl
      · split
        · rfl
        · exact ih ha
        · exact ih ha

/-! ## The gap -/

theorem Slot.afterRepair_delivers {s : Slot} {maxGapBuffer : Nat} (hzero : 0 ∉ s.pending)
    (payload : Payload) :
    let s' := s.afterRepair maxGapBuffer s.nextSeq (some payload)
    DeliversRun (s.nextSeq + 1) (s.deliver s.nextSeq payload) s' ∧
      s'.nextSeq ∉ s'.pending ∧ ∃ rest count,
        s'.delivered = s.delivered ++ (s.nextSeq, payload) :: rest ∧
        rest.map Prod.fst = wordsFrom (s.nextSeq + 1) count ∧
        (∀ e ∈ rest, s.pending.lookup e.1 = some e.2) ∧
        s'.nextSeq = s.nextSeq + 1 + UInt64.ofNat count := by
  have hbody : s.afterRepair maxGapBuffer s.nextSeq (some payload) =
      Slot.drainPending { s.deliver s.nextSeq payload with
        repairs := s.repairs.erase s.nextSeq
        nextSeq := s.nextSeq + 1 } := by
    simp [afterRepair, receive, deliver]
  dsimp only
  rw [hbody]
  have hrun := deliversRun_drainPending (s := { s.deliver s.nextSeq payload with
    repairs := s.repairs.erase s.nextSeq
    nextSeq := s.nextSeq + 1 }) hzero
  obtain ⟨count, hdrained⟩ := drainPending_drained (s := { s.deliver s.nextSeq payload with
    repairs := s.repairs.erase s.nextSeq
    nextSeq := s.nextSeq + 1 }) hzero
  obtain ⟨rest, hlog, hwords, hpayload⟩ := hdrained.log
  refine ⟨⟨hrun.log, hrun.removed, hrun.kept⟩, drainPending_nextSeq_notMem _, rest, count, ?_,
    hwords, hpayload, hdrained.nextSeq⟩
  rw [hlog, deliver, List.append_assoc]
  rfl

private theorem Slot.afterRepair_late {s : Slot} {maxGapBuffer : Nat} {missing : UInt64}
    (h : missing < s.nextSeq) (payload : Payload) :
    (s.afterRepair maxGapBuffer missing (some payload)).delivered = s.delivered := by
  simp [afterRepair, receive, h]

private theorem mem_askedPeers {o : Overlay} {caches : String → Cache} {exchanges : Nat → Exchange}
    {a : Cache × Exchange} :
    a ∈ askedPeers o caches exchanges ↔
      ∃ i peer, (o.randomPeers 3)[i]? = some peer ∧ a = (caches peer.addr, exchanges i) := by
  simp only [askedPeers, List.mem_map, Prod.exists, List.mem_zipIdx_iff_getElem?]
  exact ⟨fun ⟨peer, i, hi, ha⟩ => ⟨i, peer, hi, ha.symm⟩,
    fun ⟨i, peer, hi, ha⟩ => ⟨peer, i, hi, ha.symm⟩⟩

/--
Whatever happens on the streams, an entry `RequestRepair` finds is the missing
one, as one of the three peers has it cached, and it finds one if a peer it can
talk to has it.  If the slot still waits for it, it is delivered next, and after
it the whole run of buffered numbers that follow, and `nextSeq` ends behind the
run; if it has come meanwhile, nothing is delivered.
-/
theorem repair_fills_gap {n : UInt64} {maxGapBuffer : Nat} {acts : List Action} {s : Slot}
    (hrun : exec (Slot.step maxGapBuffer) (Slot.fresh n) acts = some s)
    {exchanges : Nat → Exchange} (hreliable : ∀ i, (exchanges i).Reliable)
    (o : Overlay) (caches : String → Cache) (topic : UInt16) (missing : UInt64) :
    let found := requestRepair topic missing (askedPeers o caches exchanges)
    let s' := s.afterRepair maxGapBuffer missing (found.map GossipEntry.payload)
    (∀ i peer, (o.randomPeers 3)[i]? = some peer → (exchanges i).Faultless →
      ⟨topic, missing⟩ ∈ caches peer.addr → found.isSome) ∧
    ∀ entry, found = some entry →
      entry.key = ⟨topic, missing⟩ ∧
      (∃ peer ∈ o.randomPeers 3,
        (caches peer.addr).lookup ⟨topic, missing⟩ = some entry.payload) ∧
      (missing < s.nextSeq → s'.delivered = s.delivered) ∧
      (missing = s.nextSeq →
        Slot.DeliversRun (missing + 1) (s.deliver missing entry.payload) s' ∧
        s'.nextSeq ∉ s'.pending ∧ ∃ rest count,
          s'.delivered = s.delivered ++ (missing, entry.payload) :: rest ∧
          rest.map Prod.fst = wordsFrom (missing + 1) count ∧
          (∀ e ∈ rest, s.pending.lookup e.1 = some e.2) ∧
          s'.nextSeq = missing + 1 + UInt64.ofNat count) := by
  intro found s'
  refine ⟨fun i peer hpeer hx hmem => ?_, fun entry hfound => ?_⟩
  · obtain ⟨payload, hcached⟩ := Finmap.mem_iff.mp hmem
    exact requestRepair_isSome (mem_askedPeers.mpr ⟨i, peer, hpeer, rfl⟩) hx hcached
  · have hall : ∀ a ∈ askedPeers o caches exchanges, a.2.Reliable := by
      intro a ha
      obtain ⟨i, peer, -, rfl⟩ := mem_askedPeers.mp ha
      exact hreliable i
    obtain ⟨hkey, a, ha, hcached⟩ := requestRepair_eq_some hall hfound
    obtain ⟨i, peer, hpeer, rfl⟩ := mem_askedPeers.mp ha
    have hs' : s' = s.afterRepair maxGapBuffer missing (some entry.payload) := by
      simp only [s', hfound, Option.map_some]
    refine ⟨hkey, ⟨peer, List.mem_of_getElem? hpeer, hcached⟩, fun hlate => ?_, ?_⟩
    · rw [hs']
      exact Slot.afterRepair_late hlate entry.payload
    · rintro rfl
      rw [hs']
      exact Slot.afterRepair_delivers (Slot.zero_notMem_run hrun) entry.payload

def thirdAnswers : Overlay :=
  -- of three peers one cannot be reached, one never gets the whole request and one has the
  -- entry
  ⟨⟨0, 0, 0, 0⟩, "a", [⟨"b", "b:1", 1, true⟩], [⟨"c", "c:1", 2, false⟩, ⟨"d", "d:1", 3, false⟩]⟩

def thirdCaches (addr : String) : Cache :=
  if addr = "d:1" then (∅ : Cache).insert ⟨1, 5⟩ [9] else ∅

def thirdExchanges : Nat → Exchange
  | 0 => ⟨false, none, none, none, none, none, false⟩
  | 1 => ⟨true, none, some 4, none, none, none, true⟩
  | _ => ⟨true, none, none, none, none, none, true⟩

private theorem thirdExchanges_reliable (i : Nat) : (thirdExchanges i).Reliable := by
  intro _
  unfold thirdExchanges
  split <;> exact ⟨rfl, rfl, rfl⟩

theorem repair_fills_gap_third :
    ∃ s, exec (Slot.step 10) (Slot.fresh 5) [.receive 6 [1], .receive 8 [2], .expire 5] = some s ∧
      ∃ entry, requestRepair 1 5 (askedPeers thirdAnswers thirdCaches thirdExchanges) =
          some entry ∧
        Slot.DeliversRun 6 (s.deliver 5 entry.payload) (s.afterRepair 10 5 (some entry.payload)) ∧
        (6, [1]) ∈ (s.afterRepair 10 5 (some entry.payload)).delivered := by
  obtain ⟨s, hrun, hnext, hsix⟩ : ∃ s, exec (Slot.step 10) (Slot.fresh 5)
      [.receive 6 [1], .receive 8 [2], .expire 5] = some s ∧ s.nextSeq = 5 ∧
      s.pending.lookup 6 = some [1] :=
    ⟨_, rfl, rfl, rfl⟩
  obtain ⟨hfinds, hentry⟩ := repair_fills_gap hrun thirdExchanges_reliable thirdAnswers
    thirdCaches 1 5
  have hcached : ⟨1, 5⟩ ∈ thirdCaches "d:1" := Finmap.mem_of_lookup_eq_some rfl
  obtain ⟨entry, hfound⟩ := Option.isSome_iff_exists.mp
    (hfinds 2 ⟨"d", "d:1", 3, false⟩ rfl ⟨rfl, rfl, rfl, thirdExchanges_reliable 2, rfl⟩ hcached)
  obtain ⟨-, -, -, hgap⟩ := hentry entry hfound
  obtain ⟨hdelivers, -, -⟩ := hgap hnext.symm
  rw [hfound, Option.map_some] at hdelivers
  refine ⟨s, hrun, entry, hfound, hdelivers, ?_⟩
  obtain ⟨out, hout, -, hmem⟩ := hdelivers.log
  have hrunSix : (s.deliver 5 entry.payload).InRun (5 + 1) 6 := by
    refine ⟨le_refl _, fun m hlow hhigh => ?_⟩
    rw [le_antisymm hhigh hlow]
    exact Finmap.mem_of_lookup_eq_some hsix
  rw [hout]
  exact List.mem_append_right _ ((hmem 6 [1]).mpr ⟨hrunSix, hsix⟩)

end GossipMesh.Engine
