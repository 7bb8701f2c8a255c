import Mathlib.Data.List.Basic

/-!
# Buffered channels

A channel carries the log of what was sent and of what was received on it, and
that it is a bounded queue: the values accepted are those received and, in
order, those in the buffer.
-/

namespace GossipMesh.Foundation

structure Channel (α : Type*) where
  capacity : Nat
  buffer : List α
  accepted : List α
  received : List α
  bounded : buffer.length ≤ capacity
  fifo : accepted = received ++ buffer

namespace Channel

variable {α : Type*} {c d : Channel α} {x : α}

def new (capacity : Nat) : Channel α := ⟨capacity, [], [], [], Nat.zero_le _, rfl⟩

def send (c : Channel α) (x : α) : Option (Channel α) :=
  if h : c.buffer.length < c.capacity then
    some ⟨c.capacity, c.buffer ++ [x], c.accepted ++ [x], c.received,
      by simpa using Nat.succ_le_of_lt h, by rw [c.fifo, List.append_assoc]⟩
  else none

def receive (c : Channel α) : Option (Channel α) :=
  match h : c.buffer with
  | [] => none
  | x :: rest =>
      some ⟨c.capacity, rest, c.accepted, c.received ++ [x], by
        have hbound := c.bounded
        rw [h] at hbound
        exact Nat.le_of_succ_le hbound, by
        rw [c.fifo, h, List.append_assoc]
        rfl⟩

theorem send_eq_some (h : c.send x = some d) :
    d.capacity = c.capacity ∧ d.accepted = c.accepted ++ [x] ∧ d.received = c.received := by
  unfold send at h
  split at h
  · cases h
    exact ⟨rfl, rfl, rfl⟩
  · cases h

theorem send_of_room (h : c.buffer.length < c.capacity) : (c.send x).isSome := by
  simp [send, h]

theorem receive_eq_some (h : c.receive = some d) :
    d.capacity = c.capacity ∧ d.accepted = c.accepted := by
  unfold receive at h
  split at h
  · cases h
  · cases h
    exact ⟨rfl, rfl⟩

end Channel

end GossipMesh.Foundation
