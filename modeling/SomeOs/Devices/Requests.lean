import SomeOs.Devices.VirtIO

/-! # Requests in flight

The descriptors of a request stay as they were filled until it is completed, and the rings hold
the requests that have not been taken or freed, as long as new requests only take descriptors
that are not in use.
-/
namespace SomeOs.Devices
open Transition VirtIODevice

def descriptorFor (part : BufferPart × ℕ) (i : ℕ) : VirtIODescriptor where
  address := part.1.address
  length := part.1.length % 2 ^ 32
  flags := part.2
  next := if part.2 &&& descNext ≠ 0 then (i + 1) % ringSize else 0

/-- The next descriptor is filled for a part. -/
def fill (d : VirtIODevice) (part : BufferPart × ℕ) : VirtIODevice where
  descriptors := Function.update d.descriptors d.nextHead (descriptorFor part d.nextHead)
  availableRing := d.availableRing
  availableIndex := d.availableIndex
  usedRing := d.usedRing
  usedIndex := d.usedIndex
  descIndex := d.nextHead
  ackIndex := d.ackIndex

def fillAll (l : List (BufferPart × ℕ)) (d : VirtIODevice) : VirtIODevice := l.foldl fill d

section Fill
variable {d : VirtIODevice} {l : List (BufferPart × ℕ)} {parts : List BufferPart} {flags : ℕ}

theorem fillNextDescriptor_eq (part : BufferPart) :
    d.fillNextDescriptor { address := part.address, length := part.length % 2 ^ 32, flags := flags } =
      fill d (part, flags) := by
  unfold fillNextDescriptor fill descriptorFor nextHead
  dsimp only
  split_ifs <;> rfl

theorem addDescriptorsFor_next (hflags : flags ||| descNext = flags) :
    addDescriptorsFor flags parts d = fillAll (parts.map (·, flags)) d := by
  induction parts generalizing d with
  | nil => rfl
  | cons part rest ih =>
    have hor : flags ||| (if rest = [] then 0 else descNext) = flags := by
      split_ifs
      · exact Nat.or_zero flags
      · exact hflags
    rw [addDescriptorsFor, ih, hor, fillNextDescriptor_eq]
    rfl

theorem addDescriptorsFor_single (part : BufferPart) : addDescriptorsFor flags [part] d = fill d (part, flags) := by
  rw [addDescriptorsFor, addDescriptorsFor, if_pos rfl, Nat.or_zero, fillNextDescriptor_eq]

theorem fillAll_rings : (fillAll l d).availableRing = d.availableRing ∧ (fillAll l d).availableIndex = d.availableIndex ∧
    (fillAll l d).usedRing = d.usedRing ∧ (fillAll l d).usedIndex = d.usedIndex ∧
    (fillAll l d).ackIndex = d.ackIndex := by
  induction l generalizing d with
  | nil => exact ⟨rfl, rfl, rfl, rfl, rfl⟩
  | cons part l ih => exact ih

theorem fillAll_nextHead : (fillAll l d).nextHead = (d.nextHead + l.length) % ringSize := by
  induction l generalizing d with
  | nil => exact (Nat.mod_mod _ _).symm
  | cons part l ih =>
    rw [show fillAll (part :: l) d = fillAll l (fill d part) from rfl, ih, List.length_cons]
    show ((d.nextHead + 1) % ringSize + l.length) % ringSize = _
    simp only [ringSize]
    omega

/-- The parts fill the descriptors after the last one, in their order, and others stay. -/
theorem fillAll_descriptors (hl : l.length ≤ ringSize) :
    (∀ k (hk : k < l.length), (fillAll l d).descriptors ((d.nextHead + k) % ringSize) =
      descriptorFor (l.get ⟨k, hk⟩) ((d.nextHead + k) % ringSize)) ∧
    ∀ i, i ∉ slots d.nextHead l.length → (fillAll l d).descriptors i = d.descriptors i := by
  induction l generalizing d with
  | nil => exact ⟨fun k hk => absurd hk (Nat.not_lt_zero k), fun _ _ => rfl⟩
  | cons part l ih =>
    rw [List.length_cons] at hl
    obtain ⟨ih₁, ih₂⟩ := ih (d := fill d part) (by omega)
    rw [show fillAll (part :: l) d = fillAll l (fill d part) from rfl]
    have hhead : d.nextHead < ringSize := Nat.mod_lt _ (by decide)
    have hnext : ∀ k, ((fill d part).nextHead + k) % ringSize = (d.nextHead + (k + 1)) % ringSize := by
      intro k
      show ((d.nextHead + 1) % ringSize + k) % ringSize = _
      simp only [ringSize]
      omega
    constructor
    · intro k hk
      cases k with
      | zero =>
        rw [Nat.add_zero, Nat.mod_eq_of_lt hhead, ih₂]
        · exact Function.update_self ..
        · intro hmem
          obtain ⟨j, hj, heq⟩ := List.mem_map.mp hmem
          rw [List.mem_range] at hj
          rw [hnext] at heq
          simp only [ringSize] at *
          omega
      | succ k =>
        have hk' : k < l.length := by simpa using hk
        rw [← hnext, ih₁ k hk']
        rfl
    · intro i hi
      rw [ih₂]
      · refine Function.update_of_ne ?_ ..
        rintro rfl
        refine hi (List.mem_map.mpr ⟨0, by simp, ?_⟩)
        rw [Nat.add_zero, Nat.mod_eq_of_lt hhead]
      · intro hmem
        obtain ⟨j, hj, heq⟩ := List.mem_map.mp hmem
        rw [hnext] at heq
        refine hi (List.mem_map.mpr ⟨j + 1, ?_, heq⟩)
        rw [List.mem_range] at hj ⊢
        rw [List.length_cons]
        omega

end Fill

def Chained : List (BufferPart × ℕ) → Prop
  | [] => False
  | [part] => part.2 &&& descNext = 0
  | part :: rest => part.2 &&& descNext ≠ 0 ∧ Chained rest

/-- The parts are in the descriptors from `head` on. -/
def Laid (d : VirtIODevice) (head : ℕ) (l : List (BufferPart × ℕ)) : Prop :=
  ∀ k (hk : k < l.length), d.descriptors ((head + k) % ringSize) =
    descriptorFor (l.get ⟨k, hk⟩) ((head + k) % ringSize)

section Chain
variable {d : VirtIODevice} {l : List (BufferPart × ℕ)} {head n : ℕ} {r : VirtIOBlockRequest}

theorem chain_eq (hl : Chained l) (hlen : ∀ part ∈ l, part.1.length < 2 ^ 32) (hlaid : Laid d head l)
    (hhead : head < ringSize) (hn : l.length ≤ n) : d.chain n head = l := by
  induction l generalizing head n with
  | nil => exact absurd hl id
  | cons part rest ih =>
    obtain ⟨n, rfl⟩ : ∃ m, n = m + 1 := ⟨n - 1, by rw [List.length_cons] at hn; omega⟩
    have hzero := hlaid 0 (by simp)
    rw [Nat.add_zero, Nat.mod_eq_of_lt hhead] at hzero
    have hpart : (⟨(d.descriptors head).address, (d.descriptors head).length⟩ : BufferPart) = part.1 := by
      rw [hzero]
      unfold descriptorFor
      simp only [List.get_eq_getElem, List.getElem_cons_zero]
      rw [Nat.mod_eq_of_lt (hlen part List.mem_cons_self)]
    have hflags : (d.descriptors head).flags = part.2 := by
      rw [hzero]
      rfl
    unfold chain
    dsimp only
    rw [hpart, hflags]
    cases rest with
    | nil =>
      have hend : part.2 &&& descNext = 0 := hl
      rw [if_neg (not_not.mpr hend)]
    | cons part' rest =>
      rw [if_pos hl.1]
      have hnext : (d.descriptors head).next = (head + 1) % ringSize := by
        rw [hzero]
        exact if_pos hl.1
      rw [hnext, ih hl.2 (fun p hp => hlen p (List.mem_cons_of_mem _ hp)) ?_ (Nat.mod_lt _ (by decide))
        (by rw [List.length_cons] at hn; omega)]
      intro k hk
      have hstep := hlaid (k + 1) (by rw [List.length_cons]; omega)
      have hslot : ((head + 1) % ringSize + k) % ringSize = (head + (k + 1)) % ringSize := by
        simp only [ringSize]
        omega
      rw [hslot]
      exact hstep

theorem chain_head? (hn : n ≠ 0) : (d.chain n head).head? =
    some (⟨(d.descriptors head).address, (d.descriptors head).length⟩, (d.descriptors head).flags) := by
  obtain ⟨m, rfl⟩ := Nat.exists_eq_succ_of_ne_zero hn
  rfl

theorem parts_length : r.parts.length = r.data.length + 2 := by
  simp [VirtIOBlockRequest.parts]

theorem chained_append {f : ℕ} (hf : f &&& descNext ≠ 0) (parts : List BufferPart) (last : BufferPart) :
    Chained (parts.map (·, f) ++ [(last, descWrite)]) := by
  induction parts with
  | nil => exact (by decide : descWrite &&& descNext = 0)
  | cons part rest ih =>
    cases rest with
    | nil => exact ⟨hf, ih⟩
    | cons part' rest => exact ⟨hf, ih⟩

theorem parts_chained : Chained r.parts := by
  have hf : (descNext ||| (if r.write then 0 else descWrite)) &&& descNext ≠ 0 := by
    cases r.write <;> decide
  have hrest := chained_append hf r.data ⟨r.status, 1⟩
  have hne : r.data.map (·, descNext ||| (if r.write then 0 else descWrite)) ++ [(⟨r.status, 1⟩, descWrite)] ≠ [] :=
    List.append_ne_nil_of_right_ne_nil _ (by simp)
  unfold VirtIOBlockRequest.parts
  cases hl : r.data.map (·, descNext ||| (if r.write then 0 else descWrite)) ++ [(⟨r.status, 1⟩, descWrite)] with
  | nil => exact absurd hl hne
  | cons part rest =>
    rw [hl] at hrest
    exact ⟨show descNext &&& descNext ≠ 0 by decide, hrest⟩

theorem parts_lengths (hdata : ∀ part ∈ r.data, part.length < 2 ^ 32) : ∀ part ∈ r.parts, part.1.length < 2 ^ 32 := by
  intro part hpart
  simp only [VirtIOBlockRequest.parts, List.mem_cons, List.mem_append, List.mem_map, List.not_mem_nil, or_false] at hpart
  rcases hpart with rfl | ⟨p, hp, rfl⟩ | rfl
  · show 16 < 2 ^ 32
    decide
  · exact hdata p hp
  · show 1 < 2 ^ 32
    decide

theorem fillAll_parts :
    addDescriptorsFor descWrite [⟨r.status, 1⟩] (addDescriptorsFor (descNext ||| (if r.write then 0 else descWrite))
      r.data (addDescriptorsFor descNext [⟨r.header, 16⟩] d)) = fillAll r.parts d := by
  have hflags : (descNext ||| (if r.write then 0 else descWrite)) ||| descNext =
      descNext ||| (if r.write then 0 else descWrite) := by
    cases r.write <;> decide
  rw [addDescriptorsFor_single, addDescriptorsFor_single, addDescriptorsFor_next hflags]
  unfold fillAll VirtIOBlockRequest.parts
  rw [List.foldl_cons, List.foldl_append]
  rfl

end Chain

end SomeOs.Devices
