import GossipMesh.Transport.Dispatch

/-!
# Address reflection

A node learns its public address by asking a peer under which address the
peer sees it.  Requests and responses are datagrams of one type, and the caller
of `RequestReflection` replaces the node's handler of that type by one that
hands responses to it.

The system is any number of nodes.  The network delivers a datagram that was
sent any number of times, at any time, in any order, or never.  The transport
looks its handler up and calls it later, so a handler may be replaced in
between.  `observed b a`
is the address under which `b` sees `a`, and `route b addr` is the node that a
datagram of `b` to `addr` goes to.
-/

namespace GossipMesh.Natutil

open GossipMesh.Foundation GossipMesh.Transport

def msgTypeAddrReflect : UInt8 := 0x30

def reflectRequest : UInt8 := 0x00

def reflectResponse : UInt8 := 0x01

inductive ReflectHandler where
  | reflector
  | capture (call : Nat)
  deriving DecidableEq

structure Datagram (ν : Type) where
  src : ν
  dst : ν
  bytes : Bytes
  deriving DecidableEq

inductive ReflectPhase where
  | send
  | wait
  -- `none` is an error
  | returned (answer : Option Bytes)
  deriving DecidableEq

structure ReflectCall (ν : Type) where
  node : ν
  peerAddr : Bytes
  -- a channel with one place
  resultCh : Option Bytes
  phase : ReflectPhase
  deriving DecidableEq

structure Dispatch (ν : Type) where
  datagram : Datagram ν
  handler : ReflectHandler
  data : Bytes
  deriving DecidableEq

structure Reflection (ν : Type) where
  transports : ν → Handlers ReflectHandler
  calls : List (ReflectCall ν)
  sent : List (Datagram ν)
  -- the handlers looked up and not yet called
  dispatched : List (Dispatch ν)

structure Net (ν : Type) where
  observed : ν → ν → Bytes
  route : ν → Bytes → Option ν

inductive ReflectLabel (ν : Type) where
  | register (node : ν)
  | request (node : ν) (peerAddr : Bytes)
  | send (call : Nat)
  | deliver (datagram : Nat)
  | handle (dispatch : Nat)
  | receive (call : Nat)
  | timeout (call : Nat)

inductive Reaction where
  | ignore
  | respond
  | result (call : Nat) (addr : Bytes)

def ReflectHandler.handle : ReflectHandler → Bytes → Reaction
  | _, [] => .ignore
  | .reflector, kind :: _ => if kind = reflectRequest then .respond else .ignore
  | .capture call, kind :: rest =>
      if kind = reflectRequest then .respond
      else if kind = reflectResponse then .result call rest
      else .ignore

def requestBytes : Bytes := [msgTypeAddrReflect, reflectRequest]

def responseBytes (addr : Bytes) : Bytes := msgTypeAddrReflect :: reflectResponse :: addr

def ReflectCall.offer {ν : Type} (addr : Bytes) (call : ReflectCall ν) : ReflectCall ν :=
  { call with resultCh := call.resultCh.or (some addr) }

namespace Reflection

variable {ν : Type} [DecidableEq ν]

def initial : Reflection ν := ⟨fun _ => .none, [], [], []⟩

def setHandler (s : Reflection ν) (node : ν) (h : ReflectHandler) : Reflection ν :=
  { s with
    transports := Function.update s.transports node
      ((s.transports node).register (.datagram msgTypeAddrReflect h)) }

def sendDatagram (net : Net ν) (s : Reflection ν) (node : ν) (addr bytes : Bytes) :
    Reflection ν :=
  -- `SendDatagram`; without a route nothing is sent
  match net.route node addr with
  | none => s
  | some dst => { s with sent := s.sent ++ [⟨node, dst, bytes⟩] }

def react (net : Net ν) (s : Reflection ν) (node : ν) (sender : Bytes) :
    Reaction → Reflection ν
  | .ignore => s
  | .respond => s.sendDatagram net node sender (responseBytes sender)
  | .result call addr => { s with calls := s.calls.modify call (ReflectCall.offer addr) }

def step (net : Net ν) (s : Reflection ν) : ReflectLabel ν → Option (Reflection ν)
  | .register node => some (s.setHandler node .reflector)
  | .request node peerAddr =>
      some { s.setHandler node (.capture s.calls.length) with
        calls := s.calls ++ [⟨node, peerAddr, none, .send⟩] }
  | .send i =>
      s.calls[i]?.bind fun call =>
        if call.phase = .send then
          let phase := if (net.route call.node call.peerAddr).isSome then .wait else .returned none
          some { s.sendDatagram net call.node call.peerAddr requestBytes with
            calls := s.calls.set i { call with phase := phase } }
        else none
  | .deliver k =>
      s.sent[k]?.map fun datagram =>
        match (s.transports datagram.dst).receiveDatagram datagram.bytes with
        | none => s
        | some (handler, data) =>
            { s with dispatched := s.dispatched ++ [⟨datagram, handler, data⟩] }
  | .handle j =>
      s.dispatched[j]?.map fun c =>
        { s with dispatched := s.dispatched.eraseIdx j }.react net c.datagram.dst
          (net.observed c.datagram.dst c.datagram.src) (c.handler.handle c.data)
  | .receive i =>
      s.calls[i]?.bind fun call =>
        if call.phase = .wait then
          call.resultCh.map fun addr =>
            { s with
              calls := s.calls.set i
                { call with resultCh := none, phase := .returned (some addr) } }
        else none
  | .timeout i =>
      s.calls[i]?.bind fun call =>
        if call.phase = .wait then
          some { s with calls := s.calls.set i { call with phase := .returned none } }
        else none

end Reflection

/-! ## Steps -/

variable {ν : Type}

def Datagram.WellFormed (d : Datagram ν) : Prop :=
  d.bytes = requestBytes ∨ ∃ addr, d.bytes = responseBytes addr

inductive Reflects [DecidableEq ν] (net : Net ν) (s : Reflection ν) : Reflection ν → Prop
  | unchanged : Reflects net s s
  | register (node : ν) : Reflects net s (s.setHandler node .reflector)
  | request (node : ν) (peerAddr : Bytes) :
      Reflects net s
        { s.setHandler node (.capture s.calls.length) with
          calls := s.calls ++ [⟨node, peerAddr, none, .send⟩] }
  | send (i : Nat) (call : ReflectCall ν) (phase : ReflectPhase) (hcall : s.calls[i]? = some call)
      (hphase : phase = .wait ∨ phase = .returned none) :
      Reflects net s
        { s.sendDatagram net call.node call.peerAddr requestBytes with
          calls := s.calls.set i { call with phase := phase } }
  | lookUp (c : Dispatch ν) (hmem : c.datagram ∈ s.sent)
      (hbytes : c.datagram.bytes = msgTypeAddrReflect :: c.data)
      (hhandler : (s.transports c.datagram.dst).datagramHandlers msgTypeAddrReflect =
        some c.handler) :
      Reflects net s { s with dispatched := s.dispatched ++ [c] }
  | ignored (j : Nat) : Reflects net s { s with dispatched := s.dispatched.eraseIdx j }
  | respond (j : Nat) (c : Dispatch ν) (rest : Bytes) (hmem : c ∈ s.dispatched)
      (hdata : c.data = reflectRequest :: rest) :
      Reflects net s ({ s with dispatched := s.dispatched.eraseIdx j }.sendDatagram net
        c.datagram.dst (net.observed c.datagram.dst c.datagram.src)
        (responseBytes (net.observed c.datagram.dst c.datagram.src)))
  | result (j : Nat) (c : Dispatch ν) (addr : Bytes) (i : Nat) (hmem : c ∈ s.dispatched)
      (hdata : c.data = reflectResponse :: addr) (hhandler : c.handler = .capture i) :
      Reflects net s
        { s with
          dispatched := s.dispatched.eraseIdx j
          calls := s.calls.modify i (ReflectCall.offer addr) }
  | receive (i : Nat) (call : ReflectCall ν) (addr : Bytes) (hcall : s.calls[i]? = some call)
      (haddr : call.resultCh = some addr) :
      Reflects net s
        { s with
          calls := s.calls.set i
            { call with resultCh := none, phase := .returned (some addr) } }
  | timeout (i : Nat) (call : ReflectCall ν) (hcall : s.calls[i]? = some call) :
      Reflects net s { s with calls := s.calls.set i { call with phase := .returned none } }

variable {net : Net ν} {s t : Reflection ν}

theorem sendDatagram_frame (net : Net ν) (s : Reflection ν) (node : ν) (addr bytes : Bytes) :
    (s.sendDatagram net node addr bytes).transports = s.transports ∧
      (s.sendDatagram net node addr bytes).calls = s.calls ∧
      (s.sendDatagram net node addr bytes).dispatched = s.dispatched := by
  unfold Reflection.sendDatagram
  split <;> exact ⟨rfl, rfl, rfl⟩

theorem mem_sendDatagram {node : ν} {addr bytes : Bytes} {d : Datagram ν} :
    d ∈ (s.sendDatagram net node addr bytes).sent ↔
      d ∈ s.sent ∨ (d.src = node ∧ net.route node addr = some d.dst ∧ d.bytes = bytes) := by
  unfold Reflection.sendDatagram
  split
  · next hroute => simp [hroute]
  · next dst hroute =>
      rw [List.mem_append, List.mem_singleton, hroute, Option.some.injEq]
      refine or_congr_right ⟨?_, ?_⟩
      · rintro rfl
        exact ⟨rfl, rfl, rfl⟩
      · rintro ⟨rfl, rfl, rfl⟩
        rfl

def Reflection.Owns (s : Reflection ν) (node : ν) (handler : ReflectHandler) : Prop :=
  ∀ i, handler = .capture i → ∃ call, s.calls[i]? = some call ∧ call.node = node

/-- Handlers serve calls of their own nodes, also those looked up before. -/
structure Linked (s : Reflection ν) : Prop where
  wellFormed : ∀ d ∈ s.sent, d.WellFormed
  handlers : ∀ node handler,
    (s.transports node).datagramHandlers msgTypeAddrReflect = some handler → s.Owns node handler
  dispatched : ∀ c ∈ s.dispatched, c.datagram ∈ s.sent ∧
    c.datagram.bytes = msgTypeAddrReflect :: c.data ∧ s.Owns c.datagram.dst c.handler

theorem linked_initial : Linked (.initial : Reflection ν) := by
  refine ⟨fun d hd => ?_, fun node handler hhandler => ?_, fun c hc => ?_⟩
  · cases hd
  · cases hhandler
  · cases hc

theorem wellFormed_sendDatagram (hs : ∀ d ∈ s.sent, d.WellFormed) {node : ν} {addr bytes : Bytes}
    (hbytes : bytes = requestBytes ∨ ∃ addr, bytes = responseBytes addr) :
    ∀ d ∈ (s.sendDatagram net node addr bytes).sent, d.WellFormed := by
  intro d hd
  rcases mem_sendDatagram.mp hd with hd | ⟨-, -, rfl⟩
  · exact hs d hd
  · exact hbytes

theorem call_set {i j : Nat} {call call' c : ReflectCall ν} {calls : List (ReflectCall ν)}
    (hcall : calls[i]? = some call) (hnode : call'.node = call.node) (hc : calls[j]? = some c) :
    ∃ c', (calls.set i call')[j]? = some c' ∧ c'.node = c.node := by
  by_cases hij : i = j
  · subst hij
    rw [hcall] at hc
    cases hc
    have hlt : i < calls.length := (List.getElem?_eq_some_iff.mp hcall).1
    exact ⟨call', List.getElem?_set_self hlt, hnode⟩
  · exact ⟨c, (List.getElem?_set_ne hij).trans hc, rfl⟩

def ReflectCall.Holds (call : ReflectCall ν) (addr : Bytes) : Prop :=
  call.resultCh = some addr ∨ call.phase = .returned (some addr)

theorem ReflectCall.Holds.of_offer {call : ReflectCall ν} {addr other : Bytes}
    (h : (call.offer addr).Holds other) : other = addr ∨ call.Holds other := by
  rcases h with hch | hreturned
  · cases hold : call.resultCh with
    | none =>
        simp only [ReflectCall.offer, hold, Option.none_or, Option.some.injEq] at hch
        exact .inl hch.symm
    | some first =>
        simp only [ReflectCall.offer, hold, Option.some_or, Option.some.injEq] at hch
        exact .inr (.inl (hch ▸ hold))
  · exact .inr (.inr hreturned)

private theorem holds_of_set {i j : Nat} {call before after : ReflectCall ν} {addr : Bytes}
    (hbefore : s.calls[j]? = some before) (hcall : (s.calls.set j after)[i]? = some call)
    (haddr : call.Holds addr) (hnode : after.node = before.node)
    (hholds : after.Holds addr → before.Holds addr) :
    ∃ before, s.calls[i]? = some before ∧ before.node = call.node ∧ before.Holds addr := by
  by_cases hji : j = i
  · subst hji
    have hlt : j < s.calls.length := (List.getElem?_eq_some_iff.mp hbefore).1
    cases (List.getElem?_set_self hlt).symm.trans hcall
    exact ⟨before, hbefore, hnode.symm, hholds haddr⟩
  · exact ⟨call, (List.getElem?_set_ne hji).symm.trans hcall, rfl, haddr⟩

theorem Linked.request_bytes (hs : Linked s) {c : Dispatch ν} (hc : c ∈ s.dispatched) {rest : Bytes}
    (hdata : c.data = reflectRequest :: rest) : c.datagram.bytes = requestBytes := by
  obtain ⟨hmem, hbytes, -⟩ := hs.dispatched c hc
  rcases hs.wellFormed c.datagram hmem with hrequest | ⟨addr, hresponse⟩
  · exact hrequest
  · rw [hbytes, hdata] at hresponse
    cases hresponse

variable [DecidableEq ν]

private theorem receiveDatagram_reflect (handlers : Handlers ReflectHandler) (data : Bytes) :
    handlers.receiveDatagram (msgTypeAddrReflect :: data) =
      (handlers.datagramHandlers msgTypeAddrReflect).map fun h => (h, data) := by
  rw [Handlers.receiveDatagram, if_neg (by decide)]

private theorem reflects_of_deliver {d : Datagram ν} (hmem : d ∈ s.sent) (hformed : d.WellFormed) :
    Reflects net s
      (match (s.transports d.dst).receiveDatagram d.bytes with
        | none => s
        | some (handler, data) => { s with dispatched := s.dispatched ++ [⟨d, handler, data⟩] }) := by
  obtain ⟨data, hbytes⟩ : ∃ data, d.bytes = msgTypeAddrReflect :: data := by
    rcases hformed with hbytes | ⟨addr, hbytes⟩
    · exact ⟨_, hbytes⟩
    · exact ⟨_, hbytes⟩
  rw [hbytes, receiveDatagram_reflect]
  cases hhandler : (s.transports d.dst).datagramHandlers msgTypeAddrReflect with
  | none => exact .unchanged
  | some handler => exact .lookUp ⟨d, handler, data⟩ hmem hbytes hhandler

private theorem reflects_of_handle {j : Nat} {c : Dispatch ν} (hmem : c ∈ s.dispatched) :
    Reflects net s
      ({ s with dispatched := s.dispatched.eraseIdx j }.react net c.datagram.dst
        (net.observed c.datagram.dst c.datagram.src) (c.handler.handle c.data)) := by
  rcases hdata : c.data with _ | ⟨kind, rest⟩
  · cases hhandler : c.handler <;> exact .ignored j
  cases hhandler : c.handler with
  | reflector =>
      simp only [ReflectHandler.handle]
      split
      · next hkind => exact .respond j c rest hmem (hkind ▸ hdata)
      · exact .ignored j
  | capture i =>
      simp only [ReflectHandler.handle]
      split
      · next hkind => exact .respond j c rest hmem (hkind ▸ hdata)
      · split
        · next hkind => exact .result j c rest i hmem (hkind ▸ hdata) hhandler
        · exact .ignored j

theorem reflects_of_step {l : ReflectLabel ν} (hformed : ∀ d ∈ s.sent, d.WellFormed)
    (h : s.step net l = some t) : Reflects net s t := by
  cases l with
  | register node =>
      cases h
      exact .register node
  | request node peerAddr =>
      cases h
      exact .request node peerAddr
  | send i =>
      obtain ⟨call, hcall, h⟩ := Option.bind_eq_some_iff.mp h
      split at h
      · cases h
        refine .send i call _ hcall ?_
        split
        · exact .inl rfl
        · exact .inr rfl
      · cases h
  | deliver k =>
      obtain ⟨d, hd, rfl⟩ := Option.map_eq_some_iff.mp h
      have hmem : d ∈ s.sent := List.mem_of_getElem? hd
      exact reflects_of_deliver hmem (hformed d hmem)
  | handle j =>
      obtain ⟨c, hc, rfl⟩ := Option.map_eq_some_iff.mp h
      exact reflects_of_handle (List.mem_of_getElem? hc)
  | receive i =>
      obtain ⟨call, hcall, h⟩ := Option.bind_eq_some_iff.mp h
      split at h
      · obtain ⟨addr, haddr, rfl⟩ := Option.map_eq_some_iff.mp h
        exact .receive i call addr hcall haddr
      · cases h
  | timeout i =>
      obtain ⟨call, hcall, h⟩ := Option.bind_eq_some_iff.mp h
      split at h
      · cases h
        exact .timeout i call hcall
      · cases h

/-! ## Registries, calls and the log -/

theorem handler_setHandler {node other : ν} {h h' : ReflectHandler}
    (hh : ((s.setHandler node h).transports other).datagramHandlers msgTypeAddrReflect =
      some h') :
    (other = node ∧ h' = h) ∨
      (s.transports other).datagramHandlers msgTypeAddrReflect = some h' := by
  by_cases heq : other = node
  · subst heq
    simp only [Reflection.setHandler, Function.update_self, Handlers.register,
      Option.some.injEq] at hh
    exact .inl ⟨rfl, hh.symm⟩
  · simp only [Reflection.setHandler, Function.update_of_ne heq] at hh
    exact .inr hh

/-! ## Which call a handler serves -/

namespace Reflects

theorem calls_kept (h : Reflects net s t) {i : Nat} {call : ReflectCall ν}
    (hcall : s.calls[i]? = some call) :
    ∃ call', t.calls[i]? = some call' ∧ call'.node = call.node := by
  have hsame : s.calls[i]? = some call → ∃ call', s.calls[i]? = some call' ∧
      call'.node = call.node := fun h => ⟨call, h, rfl⟩
  cases h with
  | unchanged | register | lookUp | ignored => exact hsame hcall
  | request node peerAddr =>
      have hlt : i < s.calls.length := (List.getElem?_eq_some_iff.mp hcall).1
      exact ⟨call, (List.getElem?_append_left hlt).trans hcall, rfl⟩
  | send j before phase hbefore hphase => exact call_set hbefore rfl hcall
  | respond j c rest hmem hdata =>
      rw [(sendDatagram_frame ..).2.1]
      exact hsame hcall
  | result j c addr k hmem hdata hhandler =>
      simp only [List.getElem?_modify, hcall]
      split
      · exact ⟨_, rfl, rfl⟩
      · exact ⟨_, rfl, rfl⟩
  | receive j before addr hbefore haddr => exact call_set hbefore rfl hcall
  | timeout j before hbefore => exact call_set hbefore rfl hcall

theorem sent_kept (h : Reflects net s t) {d : Datagram ν} (hd : d ∈ s.sent) : d ∈ t.sent := by
  cases h with
  | send | respond => exact mem_sendDatagram.mpr (.inl hd)
  | _ => exact hd

theorem owns_kept (h : Reflects net s t) {node : ν} {handler : ReflectHandler}
    (hs : s.Owns node handler) : t.Owns node handler := by
  intro i hi
  obtain ⟨call, hcall, hnode⟩ := hs i hi
  obtain ⟨call', hcall', hnode'⟩ := h.calls_kept hcall
  exact ⟨call', hcall', hnode'.trans hnode⟩

theorem dispatched_cases (h : Reflects net s t) {c : Dispatch ν} (hc : c ∈ t.dispatched) :
    c ∈ s.dispatched ∨ (c.datagram ∈ s.sent ∧
      c.datagram.bytes = msgTypeAddrReflect :: c.data ∧
      (s.transports c.datagram.dst).datagramHandlers msgTypeAddrReflect = some c.handler) := by
  cases h with
  | unchanged | register | request | receive | timeout => exact .inl hc
  | send => exact .inl ((sendDatagram_frame net s ..).2.2 ▸ hc)
  | lookUp c' hmem hbytes hhandler =>
      rcases List.mem_append.mp hc with hc | hc
      · exact .inl hc
      · cases List.mem_singleton.mp hc
        exact .inr ⟨hmem, hbytes, hhandler⟩
  | ignored | result => exact .inl ((List.eraseIdx_sublist _ _).subset hc)
  | respond =>
      rw [(sendDatagram_frame ..).2.2] at hc
      exact .inl ((List.eraseIdx_sublist _ _).subset hc)

theorem holds_cases (h : Reflects net s t) {i : Nat} {call : ReflectCall ν}
    (hcall : t.calls[i]? = some call) {addr : Bytes} (haddr : call.Holds addr) :
    (∃ before, s.calls[i]? = some before ∧ before.node = call.node ∧ before.Holds addr) ∨
      ∃ c ∈ s.dispatched, c.handler = .capture i ∧ c.data = reflectResponse :: addr := by
  cases h with
  | unchanged | register | lookUp | ignored => exact .inl ⟨call, hcall, rfl, haddr⟩
  | request node peerAddr =>
      rcases lt_or_ge i s.calls.length with hlt | hge
      · exact .inl ⟨call, (List.getElem?_append_left hlt).symm.trans hcall, rfl, haddr⟩
      · rw [List.getElem?_append_right hge] at hcall
        cases List.mem_singleton.mp (List.mem_of_getElem? hcall)
        rcases haddr with haddr | haddr <;> cases haddr
  | send j before phase hbefore hphase =>
      refine .inl (holds_of_set hbefore hcall haddr rfl fun hholds => ?_)
      rcases hholds with hch | hreturned
      · exact .inl hch
      · rcases hphase with rfl | rfl <;> cases hreturned
  | respond =>
      rw [(sendDatagram_frame ..).2.1] at hcall
      exact .inl ⟨call, hcall, rfl, haddr⟩
  | result j c captured k hc hdata hhandler =>
      simp only [List.getElem?_modify] at hcall
      obtain ⟨before, hbefore, hoffered⟩ := Option.map_eq_some_iff.mp hcall
      split at hoffered
      · next hki =>
          subst hki hoffered
          rcases haddr.of_offer with rfl | hheld
          · exact .inr ⟨c, hc, hhandler, hdata⟩
          · exact .inl ⟨before, hbefore, rfl, hheld⟩
      · cases hoffered
        exact .inl ⟨call, hbefore, rfl, haddr⟩
  | receive j before received hbefore hreceived =>
      refine .inl (holds_of_set hbefore hcall haddr rfl fun hholds => ?_)
      rcases hholds with hch | hreturned
      · cases hch
      · cases hreturned
        exact .inl hreceived
  | timeout j before hbefore =>
      refine .inl (holds_of_set hbefore hcall haddr rfl fun hholds => ?_)
      rcases hholds with hch | hreturned
      · exact .inl hch
      · cases hreturned

theorem handler_cases (h : Reflects net s t) {node : ν} {handler : ReflectHandler}
    (hh : (t.transports node).datagramHandlers msgTypeAddrReflect = some handler) :
    (s.transports node).datagramHandlers msgTypeAddrReflect = some handler ∨
      handler = .reflector ∨ (handler = .capture s.calls.length ∧
        ∃ call, t.calls[s.calls.length]? = some call ∧ call.node = node) := by
  cases h with
  | register other =>
      rcases handler_setHandler hh with ⟨-, rfl⟩ | hh
      · exact .inr (.inl rfl)
      · exact .inl hh
  | request other peerAddr =>
      rcases handler_setHandler hh with ⟨rfl, rfl⟩ | hh
      · exact .inr (.inr ⟨rfl, _, List.getElem?_concat_length, rfl⟩)
      · exact .inl hh
  | send | respond =>
      rw [(sendDatagram_frame ..).1] at hh
      exact .inl hh
  | _ => exact .inl hh

end Reflects

namespace Linked

theorem reflects (hs : Linked s) (h : Reflects net s t) : Linked t where
  wellFormed := by
    cases h with
    | send => exact wellFormed_sendDatagram hs.wellFormed (.inl rfl)
    | respond =>
        refine wellFormed_sendDatagram ?_ (.inr ⟨_, rfl⟩)
        exact hs.wellFormed
    | _ => exact hs.wellFormed
  handlers := by
    intro node handler hh
    rcases h.handler_cases hh with hold | rfl | ⟨rfl, hcall⟩
    · exact h.owns_kept (hs.handlers node handler hold)
    · intro i hi
      cases hi
    · intro i hi
      cases hi
      exact hcall
  dispatched := by
    intro c hc
    rcases h.dispatched_cases hc with hold | ⟨hmem, hbytes, hhandler⟩
    · obtain ⟨hmem, hbytes, howns⟩ := hs.dispatched c hold
      exact ⟨h.sent_kept hmem, hbytes, h.owns_kept howns⟩
    · exact ⟨h.sent_kept hmem, hbytes, h.owns_kept (hs.handlers _ _ hhandler)⟩

theorem step (hs : Linked s) {l : ReflectLabel ν} (h : s.step net l = some t) : Linked t :=
  hs.reflects (reflects_of_step hs.wellFormed h)

end Linked

/-! ## Results are observations -/

def Reflection.Asked (s : Reflection ν) (a b : ν) : Prop := ⟨a, b, requestBytes⟩ ∈ s.sent

/-- The address is one under which a node that was asked sees the caller. -/
def Reflection.Observes (net : Net ν) (s : Reflection ν) (node : ν) (addr : Bytes) : Prop :=
  ∃ b, addr = net.observed b node ∧ s.Asked node b

/-- Every response answers a request, and every result comes from a response. -/
structure Truthful (net : Net ν) (s : Reflection ν) : Prop where
  linked : Linked s
  sent : ∀ d ∈ s.sent, d.bytes = requestBytes ∨
    (d.bytes = responseBytes (net.observed d.src d.dst) ∧ s.Asked d.dst d.src)
  results : ∀ call ∈ s.calls, ∀ addr, call.Holds addr → s.Observes net call.node addr

namespace Truthful

private theorem sent_step (hroute : ∀ a b, net.route b (net.observed b a) = some a)
    (hs : Truthful net s) (h : Reflects net s t) :
    ∀ d ∈ t.sent, d.bytes = requestBytes ∨
      (d.bytes = responseBytes (net.observed d.src d.dst) ∧ t.Asked d.dst d.src) := by
  cases h with
  | send i call phase hcall hphase =>
      intro d hd
      rcases mem_sendDatagram.mp hd with hd | ⟨-, -, hbytes⟩
      · exact (hs.sent d hd).imp_right fun h => ⟨h.1, mem_sendDatagram.mpr (.inl h.2)⟩
      · exact .inl hbytes
  | respond j c rest hc hdata =>
      obtain ⟨hmem, -, -⟩ := hs.linked.dispatched c hc
      have hbytes := hs.linked.request_bytes hc hdata
      intro d hd
      rcases mem_sendDatagram.mp hd with hd | ⟨hsrc, hdst, hresponse⟩
      · exact (hs.sent d hd).imp_right fun h => ⟨h.1, mem_sendDatagram.mpr (.inl h.2)⟩
      · rw [hroute, Option.some.injEq] at hdst
        rw [hsrc, ← hdst]
        refine .inr ⟨hresponse, mem_sendDatagram.mpr (.inl ?_)⟩
        rw [← hbytes]
        exact hmem
  | _ => exact hs.sent

private theorem holds_step (hs : Truthful net s) (h : Reflects net s t) {call : ReflectCall ν}
    (hcall : call ∈ t.calls) {addr : Bytes} (haddr : call.Holds addr) :
    s.Observes net call.node addr := by
  obtain ⟨i, hi⟩ := List.getElem?_of_mem hcall
  rcases h.holds_cases hi haddr with ⟨before, hbefore, hnode, hheld⟩ | ⟨c, hc, hhandler, hdata⟩
  · rw [← hnode]
    exact hs.results before (List.mem_of_getElem? hbefore) addr hheld
  · obtain ⟨hmem, hbytes, howns⟩ := hs.linked.dispatched c hc
    obtain ⟨call', hcall', hnode⟩ := h.owns_kept howns i hhandler
    cases hi.symm.trans hcall'
    rw [hdata] at hbytes
    rcases hs.sent c.datagram hmem with hrequest | ⟨hresponse, hasked⟩
    · rw [hbytes] at hrequest
      cases hrequest
    · rw [hbytes] at hresponse
      refine ⟨c.datagram.src, ?_, hnode ▸ hasked⟩
      rw [hnode]
      exact (List.cons.inj (List.cons.inj hresponse).2).2

theorem step (hroute : ∀ a b, net.route b (net.observed b a) = some a) (hs : Truthful net s)
    {l : ReflectLabel ν} (h : s.step net l = some t) : Truthful net t := by
  have hreflects := reflects_of_step hs.linked.wellFormed h
  refine ⟨hs.linked.reflects hreflects, hs.sent_step hroute hreflects, ?_⟩
  intro call hcall addr haddr
  obtain ⟨b, heq, hasked⟩ := hs.holds_step hreflects hcall haddr
  exact ⟨b, heq, hreflects.sent_kept hasked⟩

end Truthful

/--
An address that `RequestReflection` returns is one under which a node sees the
caller, and the caller has asked that node.  Datagrams may be lost, repeated and
reordered, and any number of calls may run on any nodes; they only have to reach
the node that is seen under their address.
-/
theorem reflection_truthful (hroute : ∀ a b, net.route b (net.observed b a) = some a)
    {labels : List (ReflectLabel ν)}
    (hrun : exec (Reflection.step net) .initial labels = some s) {call : ReflectCall ν}
    (hcall : call ∈ s.calls) {addr : Bytes} (hreturned : call.phase = .returned (some addr)) :
    ∃ b, addr = net.observed b call.node ∧ ⟨call.node, b, requestBytes⟩ ∈ s.sent := by
  have hinit : Truthful net (.initial : Reflection ν) :=
    ⟨linked_initial, by simp [Reflection.initial], by simp [Reflection.initial]⟩
  have hs : Truthful net s := exec_invariant (Truthful net)
    (fun _ _ _ hs hstep => hs.step hroute hstep) hinit hrun
  exact hs.results call hcall addr (.inr hreturned)

def twoNodes : Net Bool where
  observed _ a := [if a then 1 else 0]
  route _ addr := if addr = [1] then some true else if addr = [0] then some false else none

private theorem twoNodes_route (a b : Bool) : twoNodes.route b (twoNodes.observed b a) = some a := by
  cases a <;> rfl

def askedOnce : List (ReflectLabel Bool) :=
  -- the answer comes twice and late
  [.register true, .request false [1], .send 0, .deliver 0, .deliver 0, .handle 1, .handle 0,
    .deliver 2, .handle 0, .receive 0, .deliver 1, .handle 0]

theorem reflection_truthful_askedOnce : ∃ s call,
    exec (Reflection.step twoNodes) .initial askedOnce = some s ∧ call ∈ s.calls ∧
      call.phase = .returned (some [0]) ∧
      ∃ b, [0] = twoNodes.observed b call.node ∧ ⟨call.node, b, requestBytes⟩ ∈ s.sent := by
  obtain ⟨s, call, hrun, hcall, hreturned⟩ : ∃ s call,
      exec (Reflection.step twoNodes) .initial askedOnce = some s ∧ s.calls[0]? = some call ∧
      call.phase = .returned (some [0]) :=
    ⟨_, _, rfl, rfl, rfl⟩
  have hmem : call ∈ s.calls := List.mem_of_getElem? hcall
  exact ⟨s, call, hrun, hmem, hreturned, reflection_truthful twoNodes_route hrun hmem hreturned⟩

/-! ## Calls that overlap -/

/--
No handler captures responses for the call any more, but those of `late` that
were looked up before; whatever address it has comes from one of them.
-/
structure Displaced (i : Nat) (late : List (Dispatch ν)) (s : Reflection ν) : Prop where
  calls : ∃ call, s.calls[i]? = some call ∧ ∀ addr, call.Holds addr →
    ∃ c ∈ late, c.handler = .capture i ∧ c.data = reflectResponse :: addr
  unserved : ∀ node,
    (s.transports node).datagramHandlers msgTypeAddrReflect ≠ some (.capture i)
  dispatched : ∀ c ∈ s.dispatched, c.handler = .capture i → c ∈ late

namespace Displaced

variable {i : Nat} {late : List (Dispatch ν)}

theorem step (hs : Displaced i late s) (h : Reflects net s t) : Displaced i late t where
  calls := by
    obtain ⟨call, hcall, hheld⟩ := hs.calls
    obtain ⟨call', hcall', -⟩ := h.calls_kept hcall
    refine ⟨call', hcall', fun addr haddr => ?_⟩
    rcases h.holds_cases hcall' haddr with ⟨before, hbefore, -, hbefore'⟩ | ⟨c, hc, hhandler, hdata⟩
    · cases hcall.symm.trans hbefore
      exact hheld addr hbefore'
    · exact ⟨c, hs.dispatched c hc hhandler, hhandler, hdata⟩
  unserved := by
    intro node hhandler
    obtain ⟨call, hcall, -⟩ := hs.calls
    rcases h.handler_cases hhandler with hold | heq | ⟨heq, -⟩
    · exact hs.unserved node hold
    · cases heq
    · cases heq
      simp at hcall
  dispatched := by
    intro c hc hhandler
    rcases h.dispatched_cases hc with hold | ⟨-, -, hregistered⟩
    · exact hs.dispatched c hold hhandler
    · exact absurd (hhandler ▸ hregistered) (hs.unserved _)

private theorem request {call : ReflectCall ν} (hs : Linked s) (hcall : s.calls[i]? = some call)
    (hempty : ∀ addr, ¬ call.Holds addr) {peerAddr : Bytes}
    (h : s.step net (.request call.node peerAddr) = some t) : Displaced i s.dispatched t := by
  cases h
  have hlt : i < s.calls.length := (List.getElem?_eq_some_iff.mp hcall).1
  refine ⟨⟨call, (List.getElem?_append_left hlt).trans hcall, fun addr haddr =>
    absurd haddr (hempty addr)⟩, fun node hhandler => ?_, fun c hc _ => hc⟩
  by_cases hnode : node = call.node
  · subst hnode
    simp only [Reflection.setHandler, Function.update_self, Handlers.register,
      Option.some.injEq, ReflectHandler.capture.injEq] at hhandler
    omega
  · simp only [Reflection.setHandler, Function.update_of_ne hnode] at hhandler
    obtain ⟨call', hcall', hnode'⟩ := hs.handlers node _ hhandler i rfl
    cases hcall.symm.trans hcall'
    exact hnode hnode'.symm

end Displaced

/--
Of two calls that overlap on one node the earlier gets no answer that arrives
later.  A call that has no address when another one starts on its node can
return only what a handler brings that was looked up for a datagram before.
-/
theorem overtaken_call_unanswered {labels more : List (ReflectLabel ν)} {u : Reflection ν}
    (hrun : exec (Reflection.step net) .initial labels = some s) {i : Nat}
    {call : ReflectCall ν} (hcall : s.calls[i]? = some call)
    (hempty : ∀ addr, ¬ call.Holds addr) {peerAddr : Bytes}
    (hrequest : s.step net (.request call.node peerAddr) = some t)
    (hmore : exec (Reflection.step net) t more = some u) :
    ∃ call', u.calls[i]? = some call' ∧ ∀ addr, call'.phase = .returned (some addr) →
      ∃ c ∈ s.dispatched, c.handler = .capture i ∧ c.data = reflectResponse :: addr := by
  have hlinked : Linked s := exec_invariant Linked (fun _ _ _ hs hstep => hs.step hstep)
    linked_initial hrun
  have hdisplaced : Linked u ∧ Displaced i s.dispatched u := by
    refine exec_invariant (fun v => Linked v ∧ Displaced i s.dispatched v)
      (fun v _ w hv hstep => ?_)
      ⟨hlinked.step hrequest, .request hlinked hcall hempty hrequest⟩ hmore
    have hreflects := reflects_of_step hv.1.wellFormed hstep
    exact ⟨hv.1.reflects hreflects, hv.2.step hreflects⟩
  obtain ⟨call', hcall', hheld⟩ := hdisplaced.2.calls
  exact ⟨call', hcall', fun addr hreturned => hheld addr (.inr hreturned)⟩

theorem overtaken_call_unanswered_late : ∃ s t u call,
    exec (Reflection.step twoNodes) .initial [.register true, .request false [1], .send 0] =
        some s ∧ s.calls[0]? = some call ∧ s.dispatched = [] ∧
      s.step twoNodes (.request call.node [1]) = some t ∧
      exec (Reflection.step twoNodes) t
        [.deliver 0, .handle 0, .deliver 1, .send 1, .handle 0, .receive 1] = some u ∧
      ∃ call', u.calls[0]? = some call' ∧ ∀ addr, call'.phase ≠ .returned (some addr) := by
  obtain ⟨s, t, u, call, hrun, hcall, hnone, hch, hphase, hrequest, hmore⟩ : ∃ s t u call,
      exec (Reflection.step twoNodes) .initial [.register true, .request false [1], .send 0] =
        some s ∧ s.calls[0]? = some call ∧ s.dispatched = [] ∧ call.resultCh = none ∧
      call.phase = .wait ∧ s.step twoNodes (.request call.node [1]) = some t ∧
      exec (Reflection.step twoNodes) t
        [.deliver 0, .handle 0, .deliver 1, .send 1, .handle 0, .receive 1] = some u :=
    ⟨_, _, _, _, rfl, rfl, rfl, rfl, rfl, rfl, rfl⟩
  have hempty : ∀ addr, ¬ call.Holds addr := by
    intro addr haddr
    rcases haddr with haddr | haddr
    · rw [hch] at haddr
      cases haddr
    · rw [hphase] at haddr
      cases haddr
  obtain ⟨call', hcall', hlate⟩ := overtaken_call_unanswered hrun hcall hempty hrequest hmore
  refine ⟨s, t, u, call, hrun, hcall, hnone, hrequest, hmore, call', hcall', fun addr haddr => ?_⟩
  obtain ⟨c, hc, -⟩ := hlate addr haddr
  rw [hnone] at hc
  cases hc

/-- The handler of the first call was looked up just before the second starts. -/
example : ((exec (Reflection.step twoNodes) .initial
    [.register true, .request false [1], .send 0, .deliver 0, .handle 0, .deliver 1,
      .request false [1], .handle 0, .receive 0]).map fun s => s.calls.map ReflectCall.phase) =
    some [.returned (some [0]), .send] := rfl

end GossipMesh.Natutil
