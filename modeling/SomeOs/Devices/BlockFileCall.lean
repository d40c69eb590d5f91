import SomeOs.Devices.BlockFile

/-! # One call on a block device file

The loop of `genericBlockFileFunction` when no other task uses the device. An operation on the device that is
not one on whole blocks of it fails. The buffer of the caller is in a memory of its own.
-/
namespace SomeOs.BlockFile
variable {B : Type}

structure BlockDevice (B : Type) where
  block_size : ℕ
  size : ℕ
  bytes : ℕ → B

structure Operation where
  write : Bool
  offset : ℕ
  size : ℕ
  deriving DecidableEq

/-- The operation is one on whole blocks, none of which is behind the end of the device. -/
def Operation.Aligned (block_size size : ℕ) (op : Operation) : Prop :=
  op.offset % block_size = 0 ∧ op.size % block_size = 0 ∧
    op.offset + op.size ≤ (size + (block_size - 1)) / block_size * block_size

instance (block_size size : ℕ) (op : Operation) : Decidable (op.Aligned block_size size) :=
  inferInstanceAs (Decidable (_ ∧ _))

/-- The device, the memory of the caller, the temporary buffer, and the operations so far. -/
structure CallState (B : Type) where
  device : BlockDevice B
  user : ℕ → B
  tmp_buffer : ℕ → B
  operations : List Operation

/-- `x & -block_size` -/
def maskDown (block_size x : ℕ) : ℕ := x &&& (2 ^ 64 - block_size)

def blockOperation (device : BlockDevice B) (op : Operation) (memory : ℕ → B) (buffer : ℕ) : Option (BlockDevice B × (ℕ → B)) :=
  if op.Aligned device.block_size device.size then
    if op.write then some ({ device with bytes := copyTo device.bytes op.offset op.size fun k => memory (buffer + k) }, memory)
    else some (device, copyTo memory buffer op.size fun k => device.bytes (op.offset + k))
  else none

def CallState.operate (s : CallState B) (op : Operation) (buffer : ℕ) : Option (CallState B) :=
  (blockOperation s.device op s.user buffer).map fun r =>
    { s with device := r.1, user := r.2, operations := s.operations ++ [op] }

def CallState.operateTmp (s : CallState B) (op : Operation) : Option (CallState B) :=
  (blockOperation s.device op s.tmp_buffer 0).map fun r =>
    { s with device := r.1, tmp_buffer := r.2, operations := s.operations ++ [op] }

/-- One round of the loop, with `size_diff`. -/
def CallState.round (s : CallState B) (write : Bool) (buffer offset left : ℕ) : Option (CallState B × ℕ) :=
  let block_size := s.device.block_size
  if offset % block_size = 0 ∧ block_size < left then
    let size_diff := maskDown block_size left
    (s.operate ⟨write, offset, size_diff⟩ buffer).map fun s => (s, size_diff)
  else
    let size_diff := min left (block_size - offset % block_size)
    let tmp_start := maskDown block_size offset
    (s.operateTmp ⟨false, tmp_start, block_size⟩).bind fun s =>
    if write then
      (CallState.operateTmp
        { s with tmp_buffer := copyTo s.tmp_buffer (offset % block_size) size_diff fun k => s.user (buffer + k) }
        ⟨true, tmp_start, block_size⟩).map fun s => (s, size_diff)
    else
      some ({ s with user := copyTo s.user buffer size_diff fun k => s.tmp_buffer (offset % block_size + k) }, size_diff)

/-- The loop, with what is left at its end. -/
def CallState.loop (write : Bool) : ℕ → CallState B → (buffer offset left : ℕ) → Option (CallState B × ℕ)
  | 0, _, _, _, _ => none
  | fuel + 1, s, buffer, offset, left =>
    if 0 < left then
      (s.round write buffer offset left).bind fun r =>
      CallState.loop write fuel r.1 (buffer + r.2) (offset + r.2) (left - r.2)
    else some (s, left)

def genericBlockFileFunction (device : BlockDevice B) (write : Bool) (user tmp_buffer : ℕ → B) (buffer offset size : ℕ) :
    Option (CallState B × ℕ) :=
  (CallState.loop write (size + 1) ⟨device, user, tmp_buffer, []⟩ buffer offset size).map fun r => (r.1, size - r.2)

section Mask
variable {k x : ℕ}

theorem maskDown_eq (hk : k < 64) (hx : x < 2 ^ 64) : maskDown (2 ^ k) x = alignDown (2 ^ k) x := by
  have hmask : 2 ^ 64 - 2 ^ k = (2 ^ (64 - k) - 1) * 2 ^ k := by
    rw [Nat.sub_mul, ← pow_add, Nat.sub_add_cancel hk.le, Nat.one_mul]
  apply Nat.eq_of_testBit_eq
  intro i
  rw [maskDown, alignDown, hmask, Nat.testBit_and, Nat.testBit_mul_two_pow, Nat.testBit_mul_two_pow, Nat.testBit_div_two_pow,
    Nat.testBit_two_pow_sub_one]
  by_cases hi : k ≤ i
  · by_cases hi' : i < 64
    · simp [hi, show i - k < 64 - k by omega]
    · have hbit : x.testBit i = false := Nat.testBit_lt_two_pow (hx.trans_le (Nat.pow_le_pow_right (by omega) (by omega)))
      simp [hi, hbit]
  · simp [hi]

end Mask

section Round
variable {s : CallState B} {write : Bool} {buffer offset left : ℕ}

structure BlockDevice.Wf (device : BlockDevice B) : Prop where
  pow : ∃ k < 64, device.block_size = 2 ^ k
  size : device.size < 2 ^ 64

structure Transferred (write : Bool) (s s' : CallState B) (buffer offset n : ℕ) : Prop where
  block_size : s'.device.block_size = s.device.block_size
  size : s'.device.size = s.device.size
  device : s'.device.bytes = if write then copyTo s.device.bytes offset n fun k => s.user (buffer + k) else s.device.bytes
  user : s'.user = if write then s.user else copyTo s.user buffer n fun k => s.device.bytes (offset + k)
  operations : ∀ op ∈ s'.operations, op ∈ s.operations ∨ op.Aligned s.device.block_size s.device.size

theorem le_blocks {block_size size : ℕ} (h : 0 < block_size) : size ≤ (size + (block_size - 1)) / block_size * block_size := by
  have hdiv := Nat.div_add_mod' (size + (block_size - 1)) block_size
  have hlt := Nat.mod_lt (size + (block_size - 1)) h
  omega

theorem block_le_blocks {block_size size : ℕ} (h : 0 < block_size) (hoffset : offset < size) :
    alignDown block_size offset + block_size ≤ (size + (block_size - 1)) / block_size * block_size := by
  have hle : (offset + block_size) / block_size ≤ (size + (block_size - 1)) / block_size := Nat.div_le_div_right (by omega)
  rw [Nat.add_div_right _ h] at hle
  calc alignDown block_size offset + block_size =
    (offset / block_size + 1) * block_size := by rw [alignDown, Nat.add_mul, Nat.one_mul]
    _ ≤ (size + (block_size - 1)) / block_size * block_size := Nat.mul_le_mul_right _ hle

theorem blockOperation_write {device : BlockDevice B} {memory : ℕ → B} {size : ℕ}
    (h : (Operation.mk true offset size).Aligned device.block_size device.size) :
    blockOperation device ⟨true, offset, size⟩ memory buffer =
      some ({ device with bytes := copyTo device.bytes offset size fun k => memory (buffer + k) }, memory) := by
  rw [blockOperation, if_pos h, if_pos rfl]

theorem blockOperation_read {device : BlockDevice B} {memory : ℕ → B} {size : ℕ}
    (h : (Operation.mk false offset size).Aligned device.block_size device.size) :
    blockOperation device ⟨false, offset, size⟩ memory buffer =
      some (device, copyTo memory buffer size fun k => device.bytes (offset + k)) := by
  rw [blockOperation, if_pos h]
  rfl

/-- A run of whole blocks is transferred directly. -/
theorem round_direct (h : s.device.Wf) (hin : offset + left ≤ s.device.size)
    (hdirect : offset % s.device.block_size = 0 ∧ s.device.block_size < left) :
    ∃ s' n, s.round write buffer offset left = some (s', n) ∧ 0 < n ∧ n ≤ left ∧ Transferred write s s' buffer offset n := by
  obtain ⟨k, hk, hbs⟩ := h.pow
  have hpos : 0 < s.device.block_size := by
    rw [hbs]
    positivity
  have hsize := h.size
  have hmask : maskDown s.device.block_size left = alignDown s.device.block_size left := by
    rw [hbs]
    exact maskDown_eq hk (by omega)
  have hadd := alignDown_add_mod s.device.block_size left
  have hlt := Nat.mod_lt left hpos
  have hop : (Operation.mk write offset (alignDown s.device.block_size left)).Aligned s.device.block_size s.device.size :=
    ⟨hdirect.1, Nat.mul_mod_left _ _, (show offset + alignDown _ left ≤ s.device.size by omega).trans (le_blocks hpos)⟩
  have hops : ∀ op ∈ s.operations ++ [Operation.mk write offset (alignDown s.device.block_size left)],
      op ∈ s.operations ∨ op.Aligned s.device.block_size s.device.size := by
    intro op hmem
    rcases List.mem_append.mp hmem with hmem | hmem
    · exact Or.inl hmem
    · rw [List.mem_singleton.mp hmem]
      exact Or.inr hop
  unfold CallState.round
  rw [if_pos hdirect]
  cases write with
  | true =>
    simp only [hmask, CallState.operate, blockOperation_write hop, Option.map_some]
    exact ⟨_, _, rfl, by omega, by omega, rfl, rfl, rfl, rfl, hops⟩
  | false =>
    simp only [hmask, CallState.operate, blockOperation_read hop, Option.map_some]
    exact ⟨_, _, rfl, by omega, by omega, rfl, rfl, rfl, rfl, hops⟩

/-- A part of a block is transferred by way of the temporary buffer. -/
theorem round_part (h : s.device.Wf) (hleft : 0 < left) (hin : offset + left ≤ s.device.size)
    (hpart : ¬(offset % s.device.block_size = 0 ∧ s.device.block_size < left)) :
    ∃ s' n, s.round write buffer offset left = some (s', n) ∧ 0 < n ∧ n ≤ left ∧ Transferred write s s' buffer offset n := by
  obtain ⟨k, hk, hbs⟩ := h.pow
  have hpos : 0 < s.device.block_size := by
    rw [hbs]
    positivity
  have hsize := h.size
  have hmask : maskDown s.device.block_size offset = alignDown s.device.block_size offset := by
    rw [hbs]
    exact maskDown_eq hk (by omega)
  have hadd := alignDown_add_mod s.device.block_size offset
  have hlt := Nat.mod_lt offset hpos
  have hstart : alignDown s.device.block_size offset % s.device.block_size = 0 := Nat.mul_mod_left _ _
  have hblock := block_le_blocks hpos (show offset < s.device.size by omega)
  have hop : ∀ write, (Operation.mk write (alignDown s.device.block_size offset) s.device.block_size).Aligned
    s.device.block_size s.device.size :=
    fun _ => ⟨hstart, Nat.mod_self _, hblock⟩
  have hin_block : min left (s.device.block_size - offset % s.device.block_size) ≤
    s.device.block_size - offset % s.device.block_size :=
    Nat.min_le_right _ _
  have htmp : ∀ k < s.device.block_size, copyTo s.tmp_buffer 0 s.device.block_size
      (fun k => s.device.bytes (alignDown s.device.block_size offset + k)) k =
        s.device.bytes (alignDown s.device.block_size offset + k) :=
    fun k hk => copyTo_inside (Nat.zero_le k) (by omega)
  unfold CallState.round
  rw [if_neg hpart]
  simp only [hmask, CallState.operateTmp, blockOperation_read (hop false), Option.map_some, Option.bind_some]
  cases write with
  | true =>
    simp only [if_true, blockOperation_write (hop true), Option.map_some, Nat.zero_add]
    refine ⟨_, _, rfl, by omega, by omega, rfl, rfl, ?_, rfl, fun op hmem => ?_⟩
    · exact writeBack_copy hin_block htmp
    · simp only [List.append_assoc, List.mem_append, List.cons_append, List.nil_append, List.mem_cons, List.not_mem_nil,
        or_false] at hmem
      rcases hmem with hmem | rfl | rfl
      · exact Or.inl hmem
      · exact Or.inr (hop false)
      · exact Or.inr (hop true)
  | false =>
    simp only [Bool.false_eq_true, if_false]
    refine ⟨_, _, rfl, by omega, by omega, rfl, rfl, rfl, ?_, fun op hmem => ?_⟩
    · rw [if_neg (by decide)]
      dsimp only
      refine copyTo_congr fun k hk => ?_
      rw [htmp _ (by omega)]
      congr 1
      omega
    · rcases List.mem_append.mp hmem with hmem | hmem
      · exact Or.inl hmem
      · rw [List.mem_singleton.mp hmem]
        exact Or.inr (hop false)

theorem round_spec (h : s.device.Wf) (hleft : 0 < left) (hin : offset + left ≤ s.device.size) :
    ∃ s' n, s.round write buffer offset left = some (s', n) ∧ 0 < n ∧ n ≤ left ∧ Transferred write s s' buffer offset n := by
  by_cases hdirect : offset % s.device.block_size = 0 ∧ s.device.block_size < left
  · exact round_direct h hin hdirect
  · exact round_part h hleft hin hdirect

end Round

section Loop
variable {s s₁ s₂ : CallState B} {write : Bool} {buffer offset left n n' : ℕ}

theorem Transferred.wf (h : Transferred write s s₁ buffer offset n) (hw : s.device.Wf) : s₁.device.Wf := by
  constructor
  · rw [h.block_size]
    exact hw.pow
  · rw [h.size]
    exact hw.size

theorem Transferred.trans (h₁ : Transferred write s s₁ buffer offset n)
    (h₂ : Transferred write s₁ s₂ (buffer + n) (offset + n) n') :
    Transferred write s s₂ buffer offset (n + n') := by
  refine ⟨h₂.block_size.trans h₁.block_size, h₂.size.trans h₁.size, ?_, ?_, fun op hop => ?_⟩
  · rw [h₂.device, h₁.device, h₁.user]
    cases write with
    | true =>
      simp only [if_true, Nat.add_assoc]
      exact copyTo_append
    | false => rfl
  · rw [h₂.user, h₁.user, h₁.device]
    cases write with
    | true => rfl
    | false =>
      simp only [Bool.false_eq_true, if_false, Nat.add_assoc]
      exact copyTo_append
  · rcases h₂.operations op hop with hop | hop
    · exact h₁.operations op hop
    · rw [h₁.block_size, h₁.size] at hop
      exact Or.inr hop

theorem Transferred.zero (write : Bool) (s : CallState B) (buffer offset : ℕ) : Transferred write s s buffer offset 0 := by
  refine ⟨rfl, rfl, ?_, ?_, fun op hop => Or.inl hop⟩
  · rw [copyTo_zero, ite_self]
  · rw [copyTo_zero, ite_self]

theorem loop_spec {fuel : ℕ} (h : s.device.Wf) (hin : offset + left ≤ s.device.size) (hfuel : left < fuel) :
    ∃ s', s.loop write fuel buffer offset left = some (s', 0) ∧ Transferred write s s' buffer offset left := by
  induction fuel generalizing s buffer offset left with
  | zero => omega
  | succ fuel ih =>
    unfold CallState.loop
    split
    · next hleft =>
      obtain ⟨s₁, n, hround, hn, hle, htrans⟩ := @round_spec B s write buffer offset left h hleft hin
      obtain ⟨s', hloop, htrans'⟩ := @ih s₁ (buffer + n) (offset + n) (left - n) (htrans.wf h) (by rw [htrans.size]; omega)
        (by omega)
      refine ⟨s', ?_, ?_⟩
      · rw [hround, Option.bind_some, hloop]
      · have hall := htrans.trans htrans'
        rwa [Nat.add_sub_cancel' hle] at hall
    · next hdone =>
      obtain rfl : left = 0 := by omega
      exact ⟨s, rfl, Transferred.zero write s buffer offset⟩

/-- A call inside of the device reads the bytes of its range, or writes them and no others. It reports the whole length, and all
its operations are on whole blocks. -/
theorem genericBlockFileFunction_refines (device : BlockDevice B) (user tmp_buffer : ℕ → B) (buffer offset size : ℕ)
    (hw : device.Wf) (hin : offset + size ≤ device.size) :
    (∃ s, genericBlockFileFunction device false user tmp_buffer buffer offset size = some (s, size) ∧
      (s.user = copyTo user buffer size fun k => device.bytes (offset + k)) ∧ s.device = device ∧
      ∀ op ∈ s.operations, op.Aligned device.block_size device.size) ∧
    ∃ s, genericBlockFileFunction device true user tmp_buffer buffer offset size = some (s, size) ∧
      s.user = user ∧ (s.device = { device with bytes := copyTo device.bytes offset size fun k => user (buffer + k) }) ∧
      ∀ op ∈ s.operations, op.Aligned device.block_size device.size := by
  have hcall : ∀ write, ∃ s, genericBlockFileFunction device write user tmp_buffer buffer offset size = some (s, size) ∧
      Transferred write ⟨device, user, tmp_buffer, []⟩ s buffer offset size := by
    intro write
    obtain ⟨s, hloop, htrans⟩ := @loop_spec B ⟨device, user, tmp_buffer, []⟩ write buffer offset size (size + 1) hw hin
      (Nat.lt_succ_self size)
    refine ⟨s, ?_, htrans⟩
    rw [genericBlockFileFunction, hloop]
    rfl
  have hops : ∀ {write s}, Transferred write ⟨device, user, tmp_buffer, []⟩ s buffer offset size →
      ∀ op ∈ s.operations, op.Aligned device.block_size device.size := by
    intro write s htrans op hop
    exact (htrans.operations op hop).resolve_left (List.not_mem_nil)
  obtain ⟨r, hread, hr⟩ := hcall false
  obtain ⟨w, hwrite, hw⟩ := hcall true
  have hdevice : ∀ {d : BlockDevice B} {bytes}, d.block_size = device.block_size → d.size = device.size → d.bytes = bytes →
      d = { device with bytes := bytes } := by
    rintro ⟨bs, sz, by'⟩ bytes rfl rfl rfl
    rfl
  refine ⟨⟨r, hread, hr.user, ?_, hops hr⟩, w, hwrite, hw.user, ?_, hops hw⟩
  · exact hdevice hr.block_size hr.size hr.device
  · exact hdevice hw.block_size hw.size hw.device

end Loop

def twoBlocks : BlockDevice ℕ := ⟨512, 1024, fun x => x⟩

/-- The range ends and starts inside of blocks. -/
theorem genericBlockFileFunction_refines_twoBlocks :
    ∃ s, genericBlockFileFunction twoBlocks true (fun _ => 7) (fun _ => 0) 4096 500 100 = some (s, 100) ∧
      (s.device = { twoBlocks with bytes := copyTo twoBlocks.bytes 500 100 fun _ => 7 }) ∧ s.device.bytes 499 = 499 ∧
        s.device.bytes 500 = 7 := by
  obtain ⟨-, s, hcall, -, hdevice, -⟩ := genericBlockFileFunction_refines twoBlocks (fun _ => 7) (fun _ => 0) 4096 500 100
    ⟨⟨9, by decide, rfl⟩, by decide⟩ (by decide)
  refine ⟨s, hcall, hdevice, ?_, ?_⟩
  · rw [hdevice]
    rfl
  · rw [hdevice]
    rfl

end SomeOs.BlockFile
