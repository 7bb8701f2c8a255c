import GossipMesh.Engine.BatchCodec

/-!
# Eager messages

An eager message travels as one datagram, or, above `maxDatagramPayload`, as
a length-prefixed frame of a long-lived stream.  The transport strips the type
byte of a datagram and `receiveEagerStream` that of a framed message, so both
paths hand the same bytes to `onEagerReceive`.
-/

namespace GossipMesh.Engine

open GossipMesh.Foundation

def msgTypeEagerGossip : UInt8 := 0x02

def streamTypeEagerStream : UInt8 := 0x12

def maxDatagramPayload : Nat := 1100

def encodeEagerMessage (entry : GossipEntry) : Bytes :=
  msgTypeEagerGossip ::
    (putUint16 entry.topic ++ putUint64 entry.seq ++ entry.payload)

def decodeEagerMessage (data : Bytes) : Option GossipEntry :=
  -- the only error is `io.ErrUnexpectedEOF`
  if data.length < 10 then none
  else some ⟨uint16 data, uint64 (data.drop 2), data.drop 10⟩

theorem encodeEagerMessage_length (entry : GossipEntry) :
    (encodeEagerMessage entry).length = 11 + entry.payload.length := by
  simp [encodeEagerMessage]
  omega

theorem decodeEagerMessage_encode (entry : GossipEntry) :
    decodeEagerMessage (encodeEagerMessage entry).tail = some entry := by
  have hseq : (putUint16 entry.topic ++
      (putUint64 entry.seq ++ entry.payload)).drop 2 =
      putUint64 entry.seq ++ entry.payload :=
    List.drop_left' (putUint16_length _)
  have hpayload : (putUint16 entry.topic ++
      (putUint64 entry.seq ++ entry.payload)).drop 10 = entry.payload := by
    rw [← List.append_assoc]
    exact List.drop_left' (by simp)
  simp only [encodeEagerMessage, List.tail_cons, List.append_assoc,
    decodeEagerMessage, hseq, hpayload, uint16_append, uint64_append]
  rw [if_neg (by simp; omega)]

/-! ## Datagrams -/

def receiveDatagram : Bytes → Option Bytes
  | [] => none
  | msgType :: data => if msgType = msgTypeEagerGossip then some data else none

theorem receiveDatagram_encode (entry : GossipEntry) :
    receiveDatagram (encodeEagerMessage entry) =
      some (encodeEagerMessage entry).tail := by
  simp [receiveDatagram, encodeEagerMessage]

/-! ## Stream frames -/

def eagerFrame (msg : Bytes) : Bytes :=
  putUint32 (UInt32.ofNat msg.length) ++ msg

def stripType : Bytes → Bytes
  | [] => []
  | b :: msg => if b = msgTypeEagerGossip then msg else b :: msg

@[simp] theorem stripType_encode (entry : GossipEntry) :
    stripType (encodeEagerMessage entry) = (encodeEagerMessage entry).tail := by
  simp [stripType, encodeEagerMessage]

def receiveLoop : Nat → Bytes → List Bytes
  -- the loop of `receiveEagerStream` on the bytes the stream yields before it ends, as the
  -- list of its handler calls; every turn consumes a header, so as many turns as there are
  -- bytes exhaust it
  | 0, _ => []
  | fuel + 1, r =>
      if r.length < 4 then []
      else
        let msgLen := (uint32 r).toNat
        if maxFrame < msgLen then []
        else
          let rest := r.drop 4
          if rest.length < msgLen then []
          else stripType (rest.take msgLen) ::
            receiveLoop fuel (rest.drop msgLen)

def receiveEagerStream (r : Bytes) : List Bytes := receiveLoop r.length r

private theorem receiveLoop_fuel (fuel fuel' : Nat) {r : Bytes}
    (h : r.length ≤ fuel) (h' : r.length ≤ fuel') :
    receiveLoop fuel r = receiveLoop fuel' r := by
  -- the loop ends for want of bytes, not for want of fuel
  induction fuel generalizing fuel' r with
  | zero =>
      have hempty : r.length < 4 := by omega
      cases fuel' <;> simp [receiveLoop, hempty]
  | succ fuel ih =>
      cases fuel' with
      | zero =>
          have hempty : r.length < 4 := by omega
          simp [receiveLoop, hempty]
      | succ fuel' =>
          simp only [receiveLoop]
          split
          · rfl
          · have hrest : ∀ m, ((r.drop 4).drop m).length + 1 ≤ r.length := by
              intro m
              simp
              omega
            have hm := hrest (uint32 r).toNat
            rw [ih fuel' (by omega) (by omega)]

theorem receiveEagerStream_frame (msg rest : Bytes) (hlen : msg.length < 2 ^ 32) :
    receiveEagerStream (eagerFrame msg ++ rest) =
      if maxFrame < msg.length then []
      else stripType msg :: receiveEagerStream rest := by
  have hsize : (UInt32.ofNat msg.length).toNat = msg.length := by
    rw [UInt32.toNat_ofNat']
    exact Nat.mod_eq_of_lt hlen
  have hbytes : (eagerFrame msg ++ rest).length =
      msg.length + rest.length + 3 + 1 := by
    simp [eagerFrame]
    omega
  unfold receiveEagerStream
  rw [hbytes, receiveLoop, if_neg (by omega)]
  simp only [eagerFrame, List.append_assoc, uint32_append, hsize,
    List.drop_left' (putUint32_length _), List.take_left' rfl]
  split
  · rfl
  · rw [List.drop_left' rfl, if_neg (by simp),
      receiveLoop_fuel _ rest.length (by omega) (le_refl _)]

theorem receiveEagerStream_cut (msg : Bytes) (cut : Nat)
    (hlen : msg.length < 2 ^ 32) (hcut : cut < (eagerFrame msg).length) :
    receiveEagerStream ((eagerFrame msg).take cut) = [] := by
  have hsize : (UInt32.ofNat msg.length).toNat = msg.length := by
    rw [UInt32.toNat_ofNat']
    exact Nat.mod_eq_of_lt hlen
  have hbytes : ((eagerFrame msg).take cut).length = cut :=
    List.length_take_of_le (le_of_lt hcut)
  have htotal : (eagerFrame msg).length = 4 + msg.length := by simp [eagerFrame]
  unfold receiveEagerStream
  rw [hbytes]
  cases cut with
  | zero => rfl
  | succ n =>
      rw [receiveLoop]
      split
      · rfl
      · next hheader =>
          -- the header is complete, so the cut is inside the message
          rw [hbytes] at hheader
          have htake : (eagerFrame msg).take (n + 1) =
              putUint32 (UInt32.ofNat msg.length) ++ msg.take (n + 1 - 4) := by
            rw [eagerFrame, List.take_append, List.take_of_length_le (by simp; omega),
              putUint32_length]
          rw [htake]
          simp only [uint32_append, hsize, List.drop_left' (putUint32_length _)]
          split
          · rfl
          · rw [if_pos (by simp; omega)]

/--
The first `m` messages stand whole in the first `n` bytes of the frames and
under the limit; the next one, if there is one, does not.
-/
structure InitialRun (msgs : List Bytes) (n m : Nat) : Prop where
  le : m ≤ msgs.length
  whole : ((msgs.take m).flatMap eagerFrame).length ≤ n
  small : ∀ msg ∈ msgs.take m, msg.length ≤ maxFrame
  cut : ∀ msg, msgs[m]? = some msg →
    maxFrame < msg.length ∨ n < ((msgs.take (m + 1)).flatMap eagerFrame).length

theorem InitialRun.length_le {msgs : List Bytes} {n m : Nat} (h : InitialRun msgs n m)
    (hsmall : ∀ msg ∈ msgs, msg.length ≤ maxFrame)
    (hall : (msgs.flatMap eagerFrame).length ≤ n) : msgs.length ≤ m := by
  by_contra hlt
  have hlt : m < msgs.length := not_le.mp hlt
  rcases h.cut _ (List.getElem?_eq_getElem hlt) with hlarge | hlate
  · exact absurd hlarge (not_lt.mpr (hsmall _ (List.getElem_mem hlt)))
  · have hsplit := List.take_append_drop (m + 1) msgs
    have hlength := congrArg (fun msgs => (msgs.flatMap eagerFrame).length) hsplit
    simp only [List.flatMap_append, List.length_append] at hlength
    omega

private theorem InitialRun.zero {msg : Bytes} {msgs : List Bytes} {n : Nat}
    (h : maxFrame < msg.length ∨ n < (eagerFrame msg).length) :
    InitialRun (msg :: msgs) n 0 where
  le := Nat.zero_le _
  whole := by simp
  small := by simp
  cut := by simpa using h

private theorem InitialRun.cons {msg : Bytes} {msgs : List Bytes} {n m : Nat}
    (hsmall : msg.length ≤ maxFrame)
    (h : InitialRun msgs n m) :
    InitialRun (msg :: msgs) ((eagerFrame msg).length + n) (m + 1) where
  le := by simpa using h.le
  whole := by simpa using h.whole
  small := by
    intro msg' hmsg'
    rcases List.mem_cons.mp (by simpa using hmsg') with rfl | hmsg'
    · exact hsmall
    · exact h.small msg' hmsg'
  cut := by
    intro msg' hmsg'
    rcases h.cut msg' (by simpa using hmsg') with hlarge | hlate
    · exact .inl hlarge
    · exact .inr (by simpa using hlate)

/--
Whatever prefix of a sequence of frames arrives, the handler sees exactly the
messages that are whole in it, in order, up to the first one above the limit.
-/
theorem receiveEagerStream_take (msgs : List Bytes) (cut : Nat)
    (hlen : ∀ msg ∈ msgs, msg.length < 2 ^ 32) :
    ∃ m, InitialRun msgs cut m ∧
      receiveEagerStream ((msgs.flatMap eagerFrame).take cut) =
        (msgs.take m).map stripType := by
  induction msgs generalizing cut with
  | nil => exact ⟨0, ⟨by simp, by simp, by simp, by simp⟩, by
      simp [receiveEagerStream, receiveLoop]⟩
  | cons msg msgs ih =>
      have hmsg := hlen msg (by simp)
      rw [List.flatMap_cons, List.take_append]
      by_cases hcut : cut < (eagerFrame msg).length
      · refine ⟨0, .zero (.inr hcut), ?_⟩
        rw [Nat.sub_eq_zero_of_le (le_of_lt hcut), List.take_zero,
          List.append_nil, receiveEagerStream_cut msg cut hmsg hcut]
        rfl
      · rw [List.take_of_length_le (not_lt.mp hcut),
          receiveEagerStream_frame _ _ hmsg]
        split
        · next hlarge => exact ⟨0, .zero (.inl hlarge), rfl⟩
        · next hsmall =>
            obtain ⟨m, hrun, hcalls⟩ := ih (cut - (eagerFrame msg).length)
              fun m hm => hlen m (by simp [hm])
            refine ⟨m + 1, ?_, by rw [hcalls]; rfl⟩
            have hnext := hrun.cons (not_lt.mp hsmall)
            rwa [Nat.add_sub_of_le (not_lt.mp hcut)] at hnext

theorem receiveEagerStream_isPrefix (msgs : List Bytes) (cut : Nat)
    (hlen : ∀ msg ∈ msgs, msg.length < 2 ^ 32) :
    receiveEagerStream ((msgs.flatMap eagerFrame).take cut) <+:
      msgs.map stripType := by
  obtain ⟨m, -, hcalls⟩ := receiveEagerStream_take msgs cut hlen
  rw [hcalls, List.map_take]
  exact List.take_prefix m _

end GossipMesh.Engine
