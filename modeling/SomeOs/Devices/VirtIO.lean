import SomeOs.Base.Transition

/-! # The request queue of a VirtIO block device

Descriptors are filled in a circle, one for the header of a request, one for every part of its
buffer and one for its status. The indices of the two rings are 16-bit counters. The device
takes the requests in the order of the available ring and completes them in any order.
-/
namespace SomeOs.Devices
open Transition

/-- `VIRTIO_RING_SIZE` -/
abbrev ringSize : ℕ := 128
/-- `BLOCK_SECTOR_SIZE` -/
abbrev blockSectorSize : ℕ := 512
/-- `VIRTIO_DESC_NEXT` -/
abbrev descNext : ℕ := 1
/-- `VIRTIO_DESC_WRITE` -/
abbrev descWrite : ℕ := 2

structure BufferPart where
  address : ℕ
  length : ℕ
  deriving DecidableEq

structure VirtIODescriptor where
  address : ℕ := 0
  length : ℕ := 0
  flags : ℕ := 0
  next : ℕ := 0
  deriving DecidableEq

structure VirtIODevice where
  descriptors : ℕ → VirtIODescriptor
  availableRing : ℕ → ℕ
  availableIndex : ℕ
  usedRing : ℕ → ℕ
  usedIndex : ℕ
  descIndex : ℕ
  ackIndex : ℕ

namespace VirtIODevice

def fillNextDescriptor (d : VirtIODevice) (descriptor : VirtIODescriptor) : VirtIODevice :=
  let i := (d.descIndex + 1) % ringSize
  { d with
    descIndex := i
    descriptors := Function.update d.descriptors i
      (if descriptor.flags &&& descNext ≠ 0 then { descriptor with next := (i + 1) % ringSize } else descriptor) }

/-- All parts but the last have a next one. The length of a descriptor has 32 bits. -/
def addDescriptorsFor (flags : ℕ) : List BufferPart → VirtIODevice → VirtIODevice
  | [], d => d
  | part :: rest, d => addDescriptorsFor flags rest (d.fillNextDescriptor
      { address := part.address, length := part.length % 2 ^ 32,
        flags := flags ||| (if rest = [] then 0 else descNext) })

def nextHead (d : VirtIODevice) : ℕ := (d.descIndex + 1) % ringSize

def sendRequestAt (d : VirtIODevice) (descriptor : ℕ) : VirtIODevice :=
  { d with
    availableRing := Function.update d.availableRing (d.availableIndex % ringSize) descriptor
    availableIndex := (d.availableIndex + 1) % 2 ^ 16 }

end VirtIODevice

/-- A request with the parts of its buffer, as `getVirtPtrParts` returns them. The header has 16
bytes and the status is one byte. -/
structure VirtIOBlockRequest where
  header : ℕ
  data : List BufferPart
  status : ℕ
  size : ℕ
  write : Bool
  head : ℕ

/-- Requests are at addresses that are counted up. The counts of requests that have been accepted,
sent and taken, the requests that the device works on with the descriptors it was given, and what
has been completed and which request was found for it are not in the memory of the driver. -/
structure BlockDevice where
  virtio : VirtIODevice
  request : ℕ → VirtIOBlockRequest
  requests : List ℕ
  readOnly : Bool
  /-- The request that the holder of the lock is about to send. -/
  sending : Option ℕ
  accepted : ℕ
  sent : ℕ
  taken : ℕ
  busy : List (ℕ × ℕ)
  completed : List ℕ
  finished : List (ℕ × Option ℕ)

namespace BlockDevice

/-- The request is prepared under the lock of the device. The indices are subtracted as integers. -/
def virtIOBlockDeviceOperation (d : BlockDevice) (header status : ℕ) (data : List BufferPart)
    (offset size : ℕ) (write : Bool) : BlockDevice :=
  if write ∧ d.readOnly then d
  else if size % blockSectorSize ≠ 0 ∨ offset % blockSectorSize ≠ 0 then d
  else if (d.virtio.availableIndex : ℤ) - d.virtio.ackIndex ≥ ringSize then d
  else
    let head := d.virtio.nextHead
    let virtio := VirtIODevice.addDescriptorsFor descNext [⟨header, 16⟩] d.virtio
    let virtio := VirtIODevice.addDescriptorsFor (descNext ||| (if write then 0 else descWrite)) data virtio
    let virtio := VirtIODevice.addDescriptorsFor descWrite [⟨status, 1⟩] virtio
    { d with
      virtio := virtio
      request := Function.update d.request d.accepted ⟨header, data, status, size, write, head⟩
      requests := d.accepted :: d.requests
      sending := some d.accepted
      accepted := d.accepted + 1 }

/-- `waitForBlockOperation` -/
def send (d : BlockDevice) (r : ℕ) : BlockDevice :=
  { d with virtio := d.virtio.sendRequestAt (d.request r).head, sending := none, sent := d.sent + 1 }

/-- The loop of `virtIOBlockFreePendingRequests`, for a number of used elements. -/
def freePending : ℕ → BlockDevice → BlockDevice
  | 0, d => d
  | n + 1, d =>
    let id := d.virtio.usedRing (d.virtio.ackIndex % ringSize)
    let found := d.requests.find? fun r => (d.request r).head = id
    freePending n { d with
      virtio := { d.virtio with ackIndex := (d.virtio.ackIndex + 1) % 2 ^ 16 }
      requests := d.requests.eraseP fun r => (d.request r).head = id
      finished := d.finished ++ [(d.completed.getD d.finished.length 0, found)] }

def virtIOBlockFreePendingRequests (d : BlockDevice) : BlockDevice :=
  freePending ((d.virtio.usedIndex + 2 ^ 16 - d.virtio.ackIndex) % 2 ^ 16) d

end BlockDevice

inductive BlockAction where
  | operation (header status : ℕ) (data : List BufferPart) (offset size : ℕ) (write : Bool)
  | send
  | take
  | complete (r : ℕ)
  | freePending

/-- The driver works under its lock. The device takes what it has not taken from the available ring,
and writes the descriptor of what it has completed to the used ring. -/
def blockStep (d : BlockDevice) : BlockAction → Option BlockDevice
  | .operation header status data offset size write =>
    if d.sending = none then some (d.virtIOBlockDeviceOperation header status data offset size write) else none
  | .send => d.sending.map d.send
  | .take =>
    if d.taken % 2 ^ 16 ≠ d.virtio.availableIndex then
      some { d with
        busy := d.busy ++ [(d.taken, d.virtio.availableRing (d.taken % ringSize))]
        taken := d.taken + 1 }
    else none
  | .complete r => (d.busy.find? (·.1 = r)).map fun (r, head) =>
    { d with
      virtio := { d.virtio with
        usedRing := Function.update d.virtio.usedRing (d.virtio.usedIndex % ringSize) head
        usedIndex := (d.virtio.usedIndex + 1) % 2 ^ 16 }
      busy := d.busy.filter (·.1 ≠ r)
      completed := d.completed ++ [r] }
  | .freePending => if d.sending = none then some d.virtIOBlockFreePendingRequests else none

/-- The device after its setup, with empty rings. -/
def freshDevice (readOnly : Bool) : BlockDevice where
  virtio := ⟨fun _ => {}, fun _ => 0, 0, fun _ => 0, 0, 0, 0⟩
  request _ := ⟨0, [], 0, 0, false, 0⟩
  requests := []
  readOnly := readOnly
  sending := none
  accepted := 0
  sent := 0
  taken := 0
  busy := []
  completed := []
  finished := []

def VirtIODevice.chain (d : VirtIODevice) : ℕ → ℕ → List (BufferPart × ℕ)
  | 0, _ => []
  | n + 1, i =>
    let e := d.descriptors i
    (⟨e.address, e.length⟩, e.flags) :: if e.flags &&& descNext ≠ 0 then d.chain n e.next else []

/-- The descriptors of a request with their flags: header, data and status. -/
def VirtIOBlockRequest.parts (r : VirtIOBlockRequest) : List (BufferPart × ℕ) :=
  (⟨r.header, 16⟩, descNext) :: (r.data.map (·, descNext ||| (if r.write then 0 else descWrite)) ++
    [(⟨r.status, 1⟩, descWrite)])

/-- The descriptors of `n` parts from `head` on. -/
def slots (head n : ℕ) : List ℕ := (List.range n).map fun i => (head + i) % ringSize

def VirtIOBlockRequest.slots (r : VirtIOBlockRequest) : List ℕ := Devices.slots r.head r.parts.length

def Outstanding (d : BlockDevice) (r : ℕ) : Prop := r < d.accepted ∧ r ∉ d.completed

/-- The chain of every outstanding request is header, data and status, and the data has the size of
the request; the available ring has room for what it holds, and for every completion the request was
found that it is for. -/
structure Intact (d : BlockDevice) : Prop where
  chains : ∀ r, Outstanding d r → d.virtio.chain ringSize (d.request r).head = (d.request r).parts ∧
    ((d.request r).data.map (·.length)).sum = (d.request r).size
  room : d.sent - d.taken ≤ ringSize
  matched : ∀ p ∈ d.finished, p.2 = some p.1

def Undisturbed (d d' : BlockDevice) : Prop :=
  ∀ r, Outstanding d r → ∀ i ∈ (d.request r).slots, d'.virtio.descriptors i = d.virtio.descriptors i

/-- The descriptors that a request takes are not of outstanding ones, and its first one is not the first
of a request that is not freed; there are fewer of those than the ring has entries, and the parts of
the buffer are all of it, in lengths that descriptors have. -/
def BlockGuarded (d : BlockDevice) : BlockAction → Prop
  | .operation _ _ data _ size _ =>
    data.length + 2 ≤ ringSize ∧
    (∀ r, Outstanding d r → ∀ i ∈ (d.request r).slots, i ∉ slots d.virtio.nextHead (data.length + 2)) ∧
    (∀ r ∈ d.requests, (d.request r).head ≠ d.virtio.nextHead) ∧
    d.requests.length < ringSize ∧
    (data.map (·.length)).sum = size ∧ ∀ part ∈ data, part.length < 2 ^ 32
  | _ => True

end SomeOs.Devices
