import GossipMesh.Engine.Arrival

/-!
# Echo to the sender

Both forwarding paths skip the peer whose node ID equals the `from` argument of
the handler.  The transport passes the remote address there, so for a peer
whose address is not its node ID nothing is skipped.  What then keeps an entry
from travelling back is that it was seen already or, on the lazy path, that the
peer has advertised a mark at or above it.
-/

namespace GossipMesh.Engine

open GossipMesh.Foundation

namespace GossipEngine

def lazyEntries (g : GossipEngine) (peer : OverlayPeer) : List GossipEntry :=
  (bufferOf g.lazyBuffers peer.nodeID).entries

def knownSeq (g : GossipEngine) (peer : OverlayPeer) (topic : UInt16) : UInt64 :=
  (bufferOf g.lazyBuffers peer.nodeID).peerSeqs topic

def Withheld (g : GossipEngine) (peer : OverlayPeer) (entry : GossipEntry) :
    Prop :=
  (∀ q ∈ g.overlay.eagerPeers, q.addr = peer.addr → q.nodeID = peer.addr) ∧
    ((∀ q ∈ g.overlay.lazyPeers, q.nodeID ≠ peer.nodeID) ∨
      entry.seq ≤ g.knownSeq peer entry.topic)

/-- The entry was seen before, or its acceptance passes the peer by. -/
def Quiet (g : GossipEngine) (peer : OverlayPeer) (entry : GossipEntry) : Prop :=
  entry.seq ≤ g.seen.slotSeqs entry.topic ∨ g.Withheld peer entry

instance (g : GossipEngine) (peer : OverlayPeer) (entry : GossipEntry) :
    Decidable (g.Withheld peer entry) :=
  inferInstanceAs (Decidable (_ ∧ _))

instance (g : GossipEngine) (peer : OverlayPeer) (entry : GossipEntry) :
    Decidable (g.Quiet peer entry) :=
  inferInstanceAs (Decidable (_ ∨ _))

section Process

variable (first : RangeFirst) (g : GossipEngine) (peer : OverlayPeer)

theorem mem_process_sends (sender : String) (entry : GossipEntry)
    (s : EagerSend) :
    s ∈ (g.process first sender entry).2 ↔
      g.seen.slotSeqs entry.topic < entry.seq ∧ s.entry = entry ∧
        ∃ q ∈ g.overlay.eagerPeers, q.nodeID ≠ sender ∧ q.addr = s.addr := by
  rw [process_sends]
  split
  · next hlt =>
      simp only [eagerForward, List.mem_map, List.mem_filter, hlt, true_and,
        decide_eq_true_eq]
      constructor
      · rintro ⟨q, ⟨hq, hne⟩, rfl⟩
        exact ⟨rfl, q, hq, hne, rfl⟩
      · rintro ⟨rfl, q, hq, hne, haddr⟩
        exact ⟨q, ⟨hq, hne⟩, by rw [haddr]⟩
  · next hge => simp [hge]

theorem process_knownSeq (sender : String) (entry : GossipEntry)
    (topic : UInt16) :
    (g.process first sender entry).1.knownSeq peer topic =
      g.knownSeq peer topic := by
  unfold knownSeq
  rw [process_lazyBuffers]
  split
  · exact congrFun (foldl_addLazy_peerSeqs _ _ _ _) topic
  · rfl

def copies (sender : String) (entry : GossipEntry) : Nat :=
  if g.seen.slotSeqs entry.topic < entry.seq ∧
      g.knownSeq peer entry.topic < entry.seq then
    (g.overlay.lazyPeers.filter fun q => q.nodeID ≠ sender).countP
      fun q => q.nodeID = peer.nodeID
  else 0

theorem process_lazyEntries (sender : String) (entry : GossipEntry) :
    (g.process first sender entry).1.lazyEntries peer =
      g.lazyEntries peer ++
        List.replicate (g.copies peer sender entry) entry := by
  unfold lazyEntries copies knownSeq
  rw [process_lazyBuffers]
  by_cases hlt : g.seen.slotSeqs entry.topic < entry.seq
  · rw [if_pos hlt]
    simp only [hlt, true_and]
    exact foldl_addLazy_entries _ _ _ _
  · simp [hlt]

private theorem copies_eq_zero_iff (entry : GossipEntry)
    (hne : peer.nodeID ≠ peer.addr) :
    g.copies peer peer.addr entry = 0 ↔
      entry.seq ≤ g.seen.slotSeqs entry.topic ∨
        (∀ q ∈ g.overlay.lazyPeers, q.nodeID ≠ peer.nodeID) ∨
        entry.seq ≤ g.knownSeq peer entry.topic := by
  unfold copies
  by_cases hlt : g.seen.slotSeqs entry.topic < entry.seq
  · by_cases hknown : g.knownSeq peer entry.topic < entry.seq
    · rw [if_pos ⟨hlt, hknown⟩, List.countP_eq_zero]
      simp only [List.mem_filter, decide_eq_true_eq, and_imp, not_le.mpr hlt,
        not_le.mpr hknown, false_or, or_false]
      constructor
      · intro h q hq hid
        exact h q hq (hid ▸ hne) hid
      · intro h q hq _
        exact h q hq
    · rw [if_neg fun h => hknown h.2]
      simp [not_lt.mp hknown]
  · rw [if_neg fun h => hlt h.1]
    simp [not_lt.mp hlt]

theorem process_quiet_iff (entry : GossipEntry)
    (hne : peer.nodeID ≠ peer.addr) :
    ((∀ s ∈ (g.process first peer.addr entry).2, s.addr ≠ peer.addr) ∧
      (g.process first peer.addr entry).1.lazyEntries peer =
        g.lazyEntries peer) ↔ g.Quiet peer entry := by
  have hlazy : (g.process first peer.addr entry).1.lazyEntries peer =
      g.lazyEntries peer ↔ g.copies peer peer.addr entry = 0 := by
    rw [process_lazyEntries]
    simp
  rw [hlazy, copies_eq_zero_iff g peer entry hne]
  unfold Quiet Withheld
  by_cases hseen : entry.seq ≤ g.seen.slotSeqs entry.topic
  · simp [hseen, mem_process_sends, not_lt.mpr hseen]
  · simp only [hseen, false_or]
    apply and_congr_left'
    constructor
    · intro h q hq haddr
      by_contra hid
      exact h ⟨peer.addr, entry⟩ ((mem_process_sends ..).mpr
        ⟨not_le.mp hseen, rfl, q, hq, hid, haddr⟩) rfl
    · intro h s hs haddr
      obtain ⟨-, -, q, hq, hid, hq'⟩ := (mem_process_sends ..).mp hs
      exact hid (h q hq (hq'.trans haddr))

theorem quiet_process_iff (entry other : GossipEntry)
    (hquiet : g.Quiet peer entry) :
    (g.process first peer.addr entry).1.Quiet peer other ↔
      g.Quiet peer other := by
  unfold Quiet Withheld at *
  rw [process_slotSeqs, process_overlay, process_knownSeq]
  by_cases htopic : other.topic = entry.topic
  · rw [htopic, Function.update_self, le_max_iff, or_assoc]
    constructor
    · rintro (hold | hle | hwithheld)
      · exact .inl hold
      · -- the mark grew to the entry, which itself was withheld
        rcases hquiet with hseen | ⟨heager, hlazy⟩
        · exact .inl (hle.trans hseen)
        · exact .inr ⟨heager, hlazy.imp id hle.trans⟩
      · exact .inr hwithheld
    · rintro (hold | hwithheld)
      · exact .inl hold
      · exact .inr (.inr hwithheld)
  · rw [Function.update_of_ne htopic]

end Process

/-! ## Whole messages -/

theorem processAll_sends_entry (first : RangeFirst) (g : GossipEngine)
    (sender : String) (entries : List GossipEntry) :
    ∀ s ∈ (g.processAll first sender entries).2, s.entry ∈ entries := by
  induction entries generalizing g with
  | nil => simp [processAll]
  | cons entry entries ih =>
      intro s hs
      rw [processAll] at hs
      rcases List.mem_append.mp hs with hs | hs
      · have := ((mem_process_sends ..).mp hs).2.1
        simp [this]
      · exact List.mem_cons_of_mem _ (ih _ s hs)

theorem processAll_lazyEntries (first : RangeFirst) (g : GossipEngine)
    (sender : String) (entries : List GossipEntry) (peer : OverlayPeer) :
    ∃ added, (g.processAll first sender entries).1.lazyEntries peer =
      g.lazyEntries peer ++ added ∧ ∀ e ∈ added, e ∈ entries := by
  induction entries generalizing g with
  | nil => exact ⟨[], by simp [processAll], by simp⟩
  | cons entry entries ih =>
      obtain ⟨added, heq, hmem⟩ := ih (g.process first sender entry).1
      refine ⟨List.replicate (g.copies peer sender entry) entry ++ added, ?_, ?_⟩
      · rw [processAll, ← List.append_assoc, ← process_lazyEntries first]
        exact heq
      · intro e he
        rcases List.mem_append.mp he with he | he
        · simp [List.eq_of_mem_replicate he]
        · exact List.mem_cons_of_mem _ (hmem e he)

theorem processAll_quiet_iff (first : RangeFirst) (g : GossipEngine)
    (peer : OverlayPeer) (hne : peer.nodeID ≠ peer.addr)
    (entries : List GossipEntry) :
    ((∀ s ∈ (g.processAll first peer.addr entries).2, s.addr ≠ peer.addr) ∧
      (g.processAll first peer.addr entries).1.lazyEntries peer =
        g.lazyEntries peer) ↔ ∀ e ∈ entries, g.Quiet peer e := by
  induction entries generalizing g with
  | nil => simp [processAll]
  | cons entry entries ih =>
      have hhead := process_quiet_iff first g peer entry hne
      have htail := ih (g.process first peer.addr entry).1
      obtain ⟨added, hadded, -⟩ := processAll_lazyEntries first
        (g.process first peer.addr entry).1 peer.addr entries peer
      rw [processAll]
      simp only [List.mem_append, List.forall_mem_cons]
      constructor
      · rintro ⟨hsends, hbuffer⟩
        -- buffers only grow, so neither part of the message added anything
        rw [hadded, process_lazyEntries, List.append_assoc] at hbuffer
        have hnone := List.append_eq_nil_iff.mp
          (List.append_right_eq_self.mp hbuffer)
        have hquiet := hhead.mp ⟨fun s hs => hsends s (.inl hs), by
          rw [process_lazyEntries, hnone.1, List.append_nil]⟩
        refine ⟨hquiet, fun e he => ?_⟩
        refine (quiet_process_iff first g peer entry e hquiet).mp ?_
        exact htail.mp ⟨fun s hs => hsends s (.inr hs), by
          rw [hadded, hnone.2, List.append_nil]⟩ e he
      · rintro ⟨hquiet, hrest⟩
        obtain ⟨hsends, hbuffer⟩ := hhead.mpr hquiet
        obtain ⟨hmore, hlast⟩ := htail.mpr fun e he =>
          (quiet_process_iff first g peer entry e hquiet).mpr (hrest e he)
        exact ⟨fun s hs => hs.elim (hsends s) (hmore s), hlast.trans hbuffer⟩

structure NoEcho (z : Zstd) (first : RangeFirst) (g : GossipEngine)
    (peer : OverlayPeer) (a : Arrival) : Prop where
  eager : ∀ e ∈ a.entries z, ⟨peer.addr, e⟩ ∉ (g.handle z first a).2
  lazy : ∀ e ∈ a.entries z,
    ((g.handle z first a).1.lazyEntries peer).count e =
      (g.lazyEntries peer).count e

private theorem noEcho_iff_processAll {z : Zstd} {first : RangeFirst}
    {g g₀ : GossipEngine} {peer : OverlayPeer} {a : Arrival}
    (hhandle : g.handle z first a =
      g₀.processAll first a.sender (a.entries z))
    (hbuffer : g₀.lazyEntries peer = g.lazyEntries peer) :
    g.NoEcho z first peer a ↔
      (∀ s ∈ (g₀.processAll first a.sender (a.entries z)).2,
        s.addr ≠ peer.addr) ∧
      (g₀.processAll first a.sender (a.entries z)).1.lazyEntries peer =
        g₀.lazyEntries peer := by
  obtain ⟨added, hadded, hmem⟩ := processAll_lazyEntries first g₀ a.sender
    (a.entries z) peer
  constructor
  · rintro ⟨heager, hlazy⟩
    rw [hhandle] at heager hlazy
    constructor
    · intro s hs haddr
      have hentry := processAll_sends_entry first g₀ a.sender _ s hs
      exact heager s.entry hentry (haddr ▸ hs)
    · have hnone : added = [] := by
        apply List.eq_nil_iff_forall_not_mem.mpr
        intro e he
        have hcount := hlazy e (hmem e he)
        rw [hadded, hbuffer, List.count_append] at hcount
        have := List.count_pos_iff.mpr he
        omega
      rw [hadded, hnone, List.append_nil]
  · rintro ⟨heager, hlazy⟩
    constructor
    · rw [hhandle]
      exact fun e _ hs => heager _ hs rfl
    · intro e _
      rw [hhandle, hlazy, hbuffer]

/--
A message that arrives over the connection of a peer, `from` being the peer's
address, echoes nothing to the peer exactly when each of its entries is quiet.
-/
theorem noEcho_iff_quiet (z : Zstd) (first : RangeFirst) (g : GossipEngine)
    (peer : OverlayPeer) (hne : peer.nodeID ≠ peer.addr) (a : Arrival)
    (hsender : a.sender = peer.addr) :
    g.NoEcho z first peer a ↔ ∀ e ∈ a.entries z, g.Quiet peer e := by
  rcases g.handle_eq_processAll z first a with h | ⟨marks, h⟩
  · rw [noEcho_iff_processAll h rfl, hsender]
    exact processAll_quiet_iff first g peer hne _
  · have hbuf := (g.bufferOf_updateSender a.sender peer.nodeID marks).resolve_right
      fun hown => hne (hown.1.trans hsender)
    have hquiet : ∀ e, (g.updateSender a.sender marks).Quiet peer e ↔
        g.Quiet peer e := by
      intro e
      unfold Quiet Withheld knownSeq
      rw [hbuf, updateSender_seen, updateSender_overlay]
    have hentries : (g.updateSender a.sender marks).lazyEntries peer =
        g.lazyEntries peer := by
      unfold lazyEntries
      rw [hbuf]
    rw [noEcho_iff_processAll h hentries]
    simp only [← hquiet]
    rw [hsender]
    exact processAll_quiet_iff first _ peer hne _

def echoEngine : GossipEngine :=
  GossipEngine.setInitialSeq
    (.new ⟨(OverlayConfig.mk 0 0 0 0).withDefaults, "node",
      [⟨"a", "10.0.0.1:7946", 1000000, true⟩],
      [⟨"b", "10.0.0.2:7946", 80000000, false⟩]⟩ 0) 1 5

theorem noEcho_iff_quiet_seen :
    echoEngine.NoEcho .stored .any ⟨"a", "10.0.0.1:7946", 1000000, true⟩
      (.eager "10.0.0.1:7946" (encodeEagerMessage ⟨1, 5, [7]⟩).tail) :=
  (noEcho_iff_quiet .stored .any echoEngine
    ⟨"a", "10.0.0.1:7946", 1000000, true⟩ (by decide) _ rfl).mpr (by decide)

/-- A new entry goes straight back to the eager peer it came from. -/
theorem echoEngine_sends_back :
    ⟨"a", "10.0.0.1:7946", 1000000, true⟩ ∈ echoEngine.overlay.eagerPeers ∧
    ¬ echoEngine.NoEcho .stored .any ⟨"a", "10.0.0.1:7946", 1000000, true⟩
      (.eager "10.0.0.1:7946" (encodeEagerMessage ⟨1, 6, [7]⟩).tail) := by
  refine ⟨by decide, fun h => ?_⟩
  exact absurd (h.eager ⟨1, 6, [7]⟩ (by decide)) (by decide)

end GossipEngine

end GossipMesh.Engine
