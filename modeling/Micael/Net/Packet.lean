import Micael.Foundation.Memory
import Micael.Kernel.Machine

/-!
# Packets

A packet (`packet_t`) is one allocation that holds a frame, with a view into it for the network,
transport and application layers.  A view is an offset into the allocation and a length; both are
what the layers computed, not what the allocation really has.  Pointers to packets are numbers;
the packets that are allocated at a moment are a partial map.
-/

namespace Micael
namespace Net

open Foundation

/-- One of the views of a packet: `proto`, `size` and `packet`, the last as an offset from
`link`. -/
structure Layer where
  proto : Nat
  size : Nat
  packet : Nat
deriving DecidableEq, Repr

/-- `packet_t`: `size` is a `short`, and `link` the contents of memory from `pkt->link` on. -/
structure Packet where
  size : Int
  link : Memory
  net : Layer
  transport : Layer
  app : Layer

/-- The `n` bytes from offset `off` of a view on. -/
def Packet.view (pkt : Packet) (layer : Layer) (off n : Nat) : List UInt8 :=
  pkt.link.bytes (layer.packet + off) n

/-- The packets that are allocated, by their address, and how often `netdev_dealloc_pkt` was called for
each address. -/
structure PktHeap where
  pkts : Nat → Option Packet
  frees : Nat → Nat

instance : CoeFun PktHeap fun _ => Nat → Option Packet := ⟨PktHeap.pkts⟩

/-- The heap before the first packet. -/
def PktHeap.empty : PktHeap := ⟨fun _ => none, fun _ => 0⟩

/-- The heap after the allocator has returned `ptr` for a packet. -/
def PktHeap.alloc (heap : PktHeap) (ptr : Nat) (pkt : Packet) : PktHeap :=
  { heap with pkts := Function.update heap.pkts ptr (some pkt) }

/-- The heap after the packet at `ptr` was freed. -/
def PktHeap.free (heap : PktHeap) (ptr : Nat) : PktHeap where
  pkts := Function.update heap.pkts ptr none
  frees := Function.update heap.frees ptr (heap.frees ptr + 1)

/-- An access through a packet pointer: a null pointer and a packet that was freed fault. -/
def PktHeap.deref (heap : PktHeap) (ptr : Option Nat) : Except Halt Packet :=
  match ptr.bind heap with
  | some pkt => .ok pkt
  | none => .error .fault

/-- `netdev_dealloc_pkt`: the packet is asserted not to be null.  One that was freed before is freed
again. -/
def netdevDeallocPkt (heap : PktHeap) (ptr : Option Nat) : Except Halt PktHeap :=
  match ptr with
  | none => .error .kassert
  | some ptr => .ok (heap.free ptr)

theorem PktHeap.deref_some {heap : PktHeap} {ptr : Nat} {pkt : Packet} (h : heap ptr = some pkt) :
    heap.deref (some ptr) = .ok pkt := by
  simp [PktHeap.deref, h]

theorem netdevDeallocPkt_some (heap : PktHeap) (ptr : Nat) :
    netdevDeallocPkt heap (some ptr) = .ok (heap.free ptr) :=
  rfl

theorem PktHeap.alloc_self (heap : PktHeap) (ptr : Nat) (pkt : Packet) :
    heap.alloc ptr pkt ptr = some pkt :=
  Function.update_self ptr _ heap.pkts

theorem PktHeap.alloc_of_ne {heap : PktHeap} {ptr other : Nat} {pkt : Packet} (h : other ≠ ptr) :
    heap.alloc ptr pkt other = heap other :=
  Function.update_of_ne h _ heap.pkts

theorem PktHeap.free_self (heap : PktHeap) (ptr : Nat) : heap.free ptr ptr = none :=
  Function.update_self ptr _ heap.pkts

theorem PktHeap.free_of_ne {heap : PktHeap} {ptr other : Nat} (h : other ≠ ptr) :
    heap.free ptr other = heap other :=
  Function.update_of_ne h _ heap.pkts

theorem PktHeap.frees_free_of_ne {heap : PktHeap} {ptr other : Nat} (h : other ≠ ptr) :
    (heap.free ptr).frees other = heap.frees other :=
  Function.update_of_ne h _ heap.frees

end Net
end Micael
