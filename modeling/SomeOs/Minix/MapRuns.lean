import SomeOs.Base.LeastFree
import SomeOs.Minix.Maps

/-! # Runs of the bitmap allocator

The bits of a map are followed over any sequence of allocations and releases, as
the numbers in use of an allocator of the least free number.
-/
namespace SomeOs.Minix
open ByteStore LeastFree

inductive MapCall where
  | getBitMap
  | clearBitMap (position : ℕ)

/-- The result of a call, with the device after it. An allocation that finds no
clear bit returns `ENOSPC`. -/
def mapCall (offset size : ℕ) (disk : Store) : MapCall → Except Errno ℕ × Store
  | .getBitMap =>
    match genericMinixGetBitMap disk offset size with
    | some (position, disk') => (.ok position, disk')
    | none => (.error .ENOSPC, disk)
  | .clearBitMap position => (.ok position, genericMinixClearBitMap disk offset position)

def MapCall.event : MapCall → Except Errno ℕ → Event
  | .getBitMap, .ok position => .take position
  | .getBitMap, .error _ => .full
  | .clearBitMap position, _ => .drop position

def mapCalls (offset size : ℕ) : Store → List MapCall → List Event × Store
  | disk, [] => ([], disk)
  | disk, call :: calls =>
    let (result, disk') := mapCall offset size disk call
    let (events, disk'') := mapCalls offset size disk' calls
    (call.event result :: events, disk'')

def setBits (disk : Store) (offset : ℕ) : Set ℕ := {k | mapBit disk offset k = true}

/-- The result of a call and its effect on the device, bit by bit: bit `b` of byte
`a` has the position `8 * a + b`. -/
def CallRight (offset size : ℕ) (disk disk' : Store) : MapCall → Except Errno ℕ → Prop
  | .getBitMap, .ok k => IsLeast {m | m < size ∧ mapBit disk offset m = false} k ∧
      ∀ p, mapBit disk' 0 p = (decide (p = 8 * offset + k) || mapBit disk 0 p)
  | .getBitMap, .error e => e = .ENOSPC ∧ (∀ m < size, mapBit disk offset m = true) ∧ disk' = disk
  | .clearBitMap k, _ => ∀ p, mapBit disk' 0 p = (decide (p ≠ 8 * offset + k) && mapBit disk 0 p)

section Calls
variable {offset size k : ℕ} {disk disk' : Store}

theorem mapBit_device (disk : Store) (offset k : ℕ) : mapBit disk offset k = mapBit disk 0 (8 * offset + k) := by
  simpa using mapBit_add disk 0 offset k

theorem setMapBit_device (disk : Store) (offset k : ℕ) :
    setMapBit disk offset k = setMapBit disk 0 (8 * offset + k) := by
  have h1 : (8 * offset + k) / 8 = offset + k / 8 := by omega
  have h2 : (8 * offset + k) % 8 = k % 8 := by omega
  simp only [setMapBit, h1, h2, Nat.zero_add]

theorem clearMapBit_device (disk : Store) (offset k : ℕ) :
    genericMinixClearBitMap disk offset k = genericMinixClearBitMap disk 0 (8 * offset + k) := by
  have h1 : (8 * offset + k) / 8 = offset + k / 8 := by omega
  have h2 : (8 * offset + k) % 8 = k % 8 := by omega
  simp only [genericMinixClearBitMap, h1, h2, Nat.zero_add]

theorem mapCall_right (offset size : ℕ) (disk : Store) (call : MapCall) :
    CallRight offset size disk (mapCall offset size disk call).2 call (mapCall offset size disk call).1 := by
  cases call with
  | getBitMap =>
    rcases genericMinixGetBitMap_spec disk offset size with ⟨k, hk, he, hclear, hbefore⟩ | ⟨he, hall⟩
    · simp only [mapCall, he]
      refine ⟨⟨⟨hk, hclear⟩, ?_⟩, fun p => ?_⟩
      · rintro m ⟨-, hm⟩
        by_contra hlt
        simp [hbefore m (not_le.mp hlt)] at hm
      · simp only [setMapBit_device disk offset k, mapBit_setMapBit]
    · simp only [mapCall, he]
      exact ⟨rfl, hall, rfl⟩
  | clearBitMap position =>
    intro p
    simp only [mapCall, clearMapBit_device disk offset position, mapBit_clear]

/-- A right call is an event of the allocator, with the set bits as the numbers in use. -/
theorem CallRight.allowed {call : MapCall} {result : Except Errno ℕ}
    (h : CallRight offset size disk disk' call result) :
    (call.event result).Allowed size (setBits disk offset) ∧
      setBits disk' offset = (call.event result).after (setBits disk offset) := by
  have hdev : ∀ m, m ∈ setBits disk' offset ↔ mapBit disk' 0 (8 * offset + m) = true :=
    fun m => by rw [← mapBit_device]; rfl
  cases call with
  | getBitMap =>
    cases result with
    | ok k =>
      refine ⟨by simpa [MapCall.event, Event.Allowed, setBits] using h.1, ?_⟩
      ext m
      rw [hdev, h.2]
      simp [MapCall.event, Event.after, setBits, mapBit_device disk offset m]
    | error e =>
      obtain ⟨-, hall, rfl⟩ := h
      exact ⟨hall, rfl⟩
  | clearBitMap k =>
    refine ⟨trivial, ?_⟩
    ext m
    rw [hdev, h]
    simp [MapCall.event, Event.after, setBits, mapBit_device disk offset m, and_comm]

theorem mapCalls_append (offset size : ℕ) (disk : Store) (xs ys : List MapCall) :
    mapCalls offset size disk (xs ++ ys) =
      ((mapCalls offset size disk xs).1 ++ (mapCalls offset size (mapCalls offset size disk xs).2 ys).1,
        (mapCalls offset size (mapCalls offset size disk xs).2 ys).2) := by
  induction xs generalizing disk with
  | nil => rfl
  | cons x xs ih => simp [mapCalls, ih]

theorem mapCalls_allowed (offset size : ℕ) (disk : Store) (calls : List MapCall) :
    Allowed size (setBits disk offset) (mapCalls offset size disk calls).1 ∧
      setBits (mapCalls offset size disk calls).2 offset =
        (mapCalls offset size disk calls).1.foldl Event.after (setBits disk offset) := by
  induction calls generalizing disk with
  | nil => exact ⟨trivial, rfl⟩
  | cons call calls ih =>
    obtain ⟨hallowed, hafter⟩ := (mapCall_right offset size disk call).allowed
    have hrest := ih (mapCall offset size disk call).2
    rw [hafter] at hrest
    exact ⟨⟨hallowed, hrest.1⟩, hrest.2⟩

/-- Every call of a sequence has its effect on the one bit it names, an allocation
takes the lowest clear bit below the size or finds all of them set, and a position
is taken again only after it was cleared. -/
theorem mapCalls_lowest_free (offset size : ℕ) (disk : Store) (calls : List MapCall) :
    (∀ before call, before ++ [call] <+: calls →
      CallRight offset size (mapCalls offset size disk before).2
        (mapCalls offset size disk (before ++ [call])).2 call
        (mapCall offset size (mapCalls offset size disk before).2 call).1) ∧
    setBits (mapCalls offset size disk calls).2 offset =
      (mapCalls offset size disk calls).1.foldl Event.after (setBits disk offset) ∧
    ∀ xs k ys zs, (mapCalls offset size disk calls).1 = xs ++ .take k :: (ys ++ .take k :: zs) →
      Event.drop k ∈ ys := by
  obtain ⟨hallowed, hafter⟩ := mapCalls_allowed offset size disk calls
  refine ⟨fun before call _ => ?_, hafter, fun xs k ys zs he => ?_⟩
  · rw [mapCalls_append]
    exact mapCall_right offset size (mapCalls offset size disk before).2 call
  · rw [he] at hallowed
    exact drop_mem_of_taken_again hallowed

end Calls

end SomeOs.Minix
